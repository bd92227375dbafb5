import Verbatim.Proofs.Building

/-!
# Errors in sketches

A sketch has an error if it holds a placeholder or something that was set aside. Nodes remember
whether they have errors, so the root of a tree tells whether its sketch has one.
-/

namespace Verbatim

namespace Sketch

mutual
/-- Whether a slot holds a placeholder or something that was set aside. -/
def hasError : Sketch → Bool
  | token _ | absent => false
  | missing _ => true
  | node kind _ slots => kind == .unexpected || anyError slots
/-- Whether one of several slots has an error. -/
def anyError : List Sketch → Bool
  | [] => false
  | s :: rest => s.hasError || anyError rest
end

@[simp] theorem anyError_append (a b : List Sketch) :
    anyError (a ++ b) = (anyError a || anyError b) := by
  induction a with
  | nil => rfl
  | cons s a ih => simp [anyError, ih, Bool.or_assoc]

/-- Slots that hold what sketches show have errors where the sketches have. -/
theorem BuiltAll.any_hasError_eq {slots : List Sketch} {built : List Slot}
    (h : BuiltAll slots built)
    (hslots : ∀ s ∈ slots, ∀ slot, s.Built slot → slot.any Green.hasError = s.hasError) :
    (built.any fun slot => slot.any Green.hasError) = anyError slots := by
  induction slots generalizing built with
  | nil =>
    obtain rfl := h
    rfl
  | cons s slots ih =>
    obtain ⟨slot, rest, rfl, hs, hrest⟩ := h
    rw [List.any_cons, anyError, hslots s List.mem_cons_self slot hs,
      ih hrest fun t ht => hslots t (List.mem_cons_of_mem _ ht)]

/-- What was built has an error if its sketch has. -/
theorem Built.hasError_eq {s : Sketch} {slot : Slot} (h : s.Built slot) :
    slot.any Green.hasError = s.hasError := by
  induction s using Sketch.induct generalizing slot with
  | token t =>
    obtain ⟨g, rfl, hg⟩ := h
    simp [Green.hasError, hg, Token.stored, hasError]
  | missing kind =>
    simp only [Built] at h
    split at h
    · obtain ⟨g, rfl, hg⟩ := h
      simp [Green.hasError, hg, hasError]
    · obtain ⟨id, rfl⟩ := h
      rfl
  | absent =>
    obtain rfl := h
    rfl
  | node kind late slots ih =>
    obtain ⟨id, built, rfl, hbuilt⟩ := h
    have hany := hbuilt.any_hasError_eq fun s hs slot => ih s hs
    simp only [Option.any_some, Green.hasError, Green.errorOf, hany, hasError]
    rfl

end Sketch

end Verbatim
