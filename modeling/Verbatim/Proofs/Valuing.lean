import Verbatim.Proofs.Building
import Verbatim.Proofs.Outline
import Verbatim.Proofs.Value

/-!
# The value of what is built

The value of what is built from a sketch can be read off the sketch. It depends on nothing but the
outline of the sketch and what a store keeps of the tokens in it.
-/

namespace Verbatim

namespace Sketch

mutual
/-- The value of what a slot shows. -/
def value : Sketch → Slot
  | token t => some (.token ⟨default, t.stored⟩)
  | missing kind =>
    if kind.isToken then some (.token ⟨default, kind, .missing, "", [], []⟩)
    else some (.node ⟨default, kind, .missing, 0, true⟩
      (List.replicate kind.slotSpecs.length none))
  | absent => none
  | node kind _ slots =>
    some (.node ⟨default, kind, .present, Green.slotsWidth (valuesOf slots),
      Green.errorOf kind .present (valuesOf slots)⟩ (valuesOf slots))
/-- The values of what some slots show. -/
def valuesOf : List Sketch → List Slot
  | [] => []
  | s :: rest => s.value :: valuesOf rest
end

theorem valuesOf_append (a b : List Sketch) : valuesOf (a ++ b) = valuesOf a ++ valuesOf b := by
  induction a with
  | nil => rfl
  | cons s a ih => rw [List.cons_append, valuesOf, valuesOf, ih, List.cons_append]

theorem BuiltAll.values_of_each {slots : List Sketch} {built : List Slot} (h : BuiltAll slots built)
    (hslots : ∀ s ∈ slots, ∀ slot, s.Built slot → slot.map Green.value = s.value) :
    Green.values built = valuesOf slots := by
  induction slots generalizing built with
  | nil =>
    obtain rfl := h
    rfl
  | cons s slots ih =>
    obtain ⟨slot, rest, rfl, hs, hrest⟩ := h
    have htail := ih hrest fun t ht => hslots t (List.mem_cons_of_mem _ ht)
    rw [Green.values_eq] at htail ⊢
    rw [valuesOf, List.map_cons, hslots s List.mem_cons_self slot hs, htail]

/-- What was built has the value that its sketch shows. -/
theorem Built.value_eq {s : Sketch} {slot : Slot} (h : s.Built slot) :
    slot.map Green.value = s.value := by
  induction s using Sketch.induct generalizing slot with
  | token t =>
    obtain ⟨g, rfl, hg⟩ := h
    simp [Green.value, hg, value]
  | missing kind =>
    simp only [Built] at h
    split at h
    · next hkind =>
      obtain ⟨g, rfl, hg⟩ := h
      simp [Green.value, hg, value, hkind]
    · next hkind =>
      obtain ⟨id, rfl⟩ := h
      simp [Green.value, Green.values_eq, value, hkind]
  | absent =>
    obtain rfl := h
    rfl
  | node kind late slots ih =>
    obtain ⟨id, built, rfl, hbuilt⟩ := h
    have hvalues := hbuilt.values_of_each fun s hs slot => ih s hs
    have hagain : Green.values built = Green.values (valuesOf slots) := by
      rw [← hvalues, Green.values_eq (Green.values built), Green.values_eq, List.map_map]
      refine List.map_congr_left fun slot _ => ?_
      cases slot <;> simp [Green.value_value]
    rw [value, ← Green.slotsWidth_eq_of_values hagain, ← Green.errorOf_eq_of_values _ _ hagain,
      ← hvalues]
    rfl

theorem BuiltAll.values_eq {slots : List Sketch} {built : List Slot} (h : BuiltAll slots built) :
    Green.values built = valuesOf slots :=
  h.values_of_each fun _ _ _ hs => hs.value_eq

/-- A sketch has as many tokens as its outline. -/
theorem length_tokens_bare (s : Sketch) : s.bare.tokens.length = s.tokens.length := by
  induction s using Sketch.induct with
  | token t | missing kind | absent => rfl
  | node kind late slots ih =>
    rw [bare, tokens, tokens]
    induction slots with
    | nil => rfl
    | cons s rest ihrest =>
      rw [bareAll, tokensOf, tokensOf, List.length_append, List.length_append,
        ih s List.mem_cons_self, ihrest fun t ht => ih t (List.mem_cons_of_mem _ ht)]

/-- The value of slots is decided slot by slot, since slots with the same outline have the same
number of tokens. -/
theorem valuesOf_congr {a b : List Sketch}
    (heach : ∀ s ∈ a, ∀ t : Sketch, s.bare = t.bare →
      s.tokens.map Token.stored = t.tokens.map Token.stored → s.value = t.value)
    (hbare : bareAll a = bareAll b)
    (htokens : (tokensOf a).map Token.stored = (tokensOf b).map Token.stored) :
    valuesOf a = valuesOf b := by
  induction a generalizing b with
  | nil =>
    cases b with
    | nil => rfl
    | cons t b => cases hbare
  | cons s a ih =>
    cases b with
    | nil => cases hbare
    | cons t b =>
      obtain ⟨hs, ha⟩ := List.cons.inj hbare
      have hlength : s.tokens.length = t.tokens.length := by
        rw [← length_tokens_bare s, hs, length_tokens_bare]
      rw [tokensOf, tokensOf, List.map_append, List.map_append] at htokens
      obtain ⟨htokens, hrest⟩ := List.append_inj htokens (by simpa using hlength)
      rw [valuesOf, valuesOf, heach s List.mem_cons_self t hs htokens,
        ih (fun u hu => heach u (List.mem_cons_of_mem _ hu)) ha hrest]

/-- Sketches with the same outline whose tokens are stored alike have the same value. -/
theorem value_congr {s t : Sketch} (hbare : s.bare = t.bare)
    (htokens : s.tokens.map Token.stored = t.tokens.map Token.stored) : s.value = t.value := by
  induction s using Sketch.induct generalizing t with
  | token u =>
    cases t with
    | token w => simpa [value, tokens] using htokens
    | _ => cases hbare
  | missing kind | absent =>
    cases t <;> cases hbare
    rfl
  | node kind late slots ih =>
    cases t with
    | node kind' late' slots' =>
      rw [bare, bare, node.injEq] at hbare
      obtain ⟨rfl, -, hslots⟩ := hbare
      rw [value, value, valuesOf_congr (fun s hs t => ih s hs) hslots htokens]
    | _ => cases hbare

end Sketch

end Verbatim
