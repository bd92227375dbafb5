import Verbatim.Proofs.Refilling

/-!
# Elements without a store

What a store makes is determined, up to identities, by what it was asked for: a node by its kind,
its presence and its slots, a placeholder by its kind. Here are the elements that come out, written
down without a store, and the statements that a store makes just these.
-/

namespace Verbatim

namespace Green

/-- The node with the given slots; its width and its error mark are those of the slots. -/
def assemble (kind : Kind) (presence : Presence) (slots : List Slot) : Green :=
  .node ⟨default, kind, presence, slotsWidth slots, errorOf kind presence slots⟩ slots

/-- The placeholder for a kind. -/
def blank (kind : Kind) : Green :=
  if kind.isToken then .token ⟨default, kind, .missing, "", [], []⟩
  else assemble kind .missing (List.replicate kind.slotSpecs.length none)

section Assemble

variable (kind : Kind) (presence : Presence) (slots : List Slot)

@[simp] theorem kind_assemble : (assemble kind presence slots).kind = kind := rfl

@[simp] theorem presence_assemble : (assemble kind presence slots).presence = presence := rfl

@[simp] theorem slots_assemble : (assemble kind presence slots).slots = slots := rfl

@[simp] theorem width_assemble : (assemble kind presence slots).width = slotsWidth slots := rfl

@[simp] theorem isNode_assemble : (assemble kind presence slots).isNode = true := rfl

/-- Taking the values of slots leaves the values as they are. -/
theorem values_values : values (values slots) = values slots := by
  rw [values_eq, values_eq, List.map_map]
  refine List.map_congr_left fun slot _ => ?_
  cases slot <;> simp [value_value]

@[simp] theorem slotsWidth_values : slotsWidth (values slots) = slotsWidth slots :=
  slotsWidth_eq_of_values (values_values slots)

/-- The value of a node that is put together is put together from values. -/
theorem value_assemble :
    (assemble kind presence slots).value = assemble kind presence (values slots) := by
  rw [assemble, assemble, slotsWidth_values,
    errorOf_eq_of_values kind presence (values_values slots)]
  rfl

end Assemble

theorem values_replicate_none (n : Nat) :
    values (List.replicate n none) = List.replicate n none := by
  rw [values_eq, List.map_replicate]
  rfl

theorem slotsWidth_replicate_none (n : Nat) : slotsWidth (List.replicate n none) = 0 :=
  sumOf_replicate ..

/-- A placeholder is its own value. -/
@[simp] theorem value_blank (kind : Kind) : (blank kind).value = blank kind := by
  unfold blank
  split
  · rfl
  · rw [value_assemble, values_replicate_none]

@[simp] theorem kind_blank (kind : Kind) : (blank kind).kind = kind := by
  unfold blank
  split <;> rfl

@[simp] theorem isMissing_blank (kind : Kind) : (blank kind).isMissing = true := by
  unfold blank
  split <;> rfl

@[simp] theorem width_blank (kind : Kind) : (blank kind).width = 0 := by
  unfold blank
  split
  · rfl
  · exact slotsWidth_replicate_none _

end Green

namespace Alloc

variable {e : Site}

/-- The node that is asked for comes out, if its slots are not too wide. -/
theorem yields_assemble (kind : Kind) (presence : Presence) {slots : List Slot}
    (h : e.KnowsAll slots) :
    Yields (allocNode kind presence slots) e
      (fun g f => f.Knows g ∧ g.value = (Green.assemble kind presence slots).value ∧
        Green.slotsWidth slots < Width.limit)
      (Width.limit ≤ Green.slotsWidth slots) := by
  obtain ⟨f, hf, ⟨hwide, hrun⟩ | ⟨g, hnarrow, hrun, hg, -⟩⟩ := allocNode_outcome kind presence h
  · exact ⟨f, hf, .inr ⟨_, hrun, hwide⟩⟩
  · refine ⟨f, hf, .inl ⟨g, hrun, hg.knows, ?_, hnarrow⟩⟩
    obtain ⟨id, rfl⟩ := hg.eq
    rfl

/-- The placeholder for a kind always comes out. -/
theorem yields_blank (kind : Kind) :
    Yields (missing kind) e (fun g f => f.Knows g ∧ g.value = Green.blank kind) False := by
  unfold missing
  by_cases hkind : kind.isToken = true
  · rw [if_pos hkind, map_eq_pure_bind]
    have haccept : TokenData.accept ⟨kind, .missing, "", [], []⟩ = .ok () := by
      rw [TokenData.accept, if_pos hkind]
      rfl
    obtain ⟨f, hf, ⟨fault, herror, -⟩ | ⟨t, -, hrun, hdata, hknows, -⟩⟩ :=
      makeToken_outcome e ⟨kind, .missing, "", [], []⟩
    · cases haccept.symm.trans herror
    · refine ⟨f, hf, .inl ⟨.token t, bind_eq_of_ok hrun, hknows, ?_⟩⟩
      rw [Green.value, hdata, Green.blank, if_pos hkind]
  · rw [if_neg hkind, missingNode, if_pos (by simpa [Kind.isNode] using hkind)]
    have hslots : e.KnowsAll (List.replicate kind.slotSpecs.length none) := fun c hc => by
      simp at hc
    refine (yields_assemble kind .missing hslots).mono (fun g f _ hout => ?_) fun hwide => ?_
    · refine ⟨hout.1, hout.2.1.trans ?_⟩
      rw [Green.value_assemble, Green.values_replicate_none, Green.blank, if_neg hkind]
    · rw [Green.slotsWidth_replicate_none] at hwide
      exact absurd hwide (by decide)

end Alloc

end Verbatim
