import Verbatim.Call
import Verbatim.Proofs.Coherence
import Verbatim.Proofs.Relabelling

/-!
# Values

The value of an element is the element without identities. Two elements are equal by value just if
their values are the same: comparing identities first only saves work, as long as no identity stands
for two elements. Views, builders and calls have values in the same way.
-/

namespace Verbatim

namespace Green

/-- Induction over an element and what stands in its slots. -/
theorem induct {P : Green → Prop} (token : ∀ t, P (token t))
    (node : ∀ head slots, (∀ g, some g ∈ slots → P g) → P (node head slots)) (g : Green) : P g := by
  induction hsize : g.size using Nat.strongRecOn generalizing g with
  | ind n ih =>
    cases g with
    | token t => exact token t
    | node head slots =>
      refine node head slots fun c hc => ih c.size ?_ c rfl
      rw [← hsize]
      exact size_lt_of_mem_slots hc

mutual
/-- The element without identities. -/
def value : Green → Green
  | token t => token { t with id := default }
  | node head slots => node { head with id := default } (values slots)
/-- What stands in some slots, without identities. -/
def values : List Slot → List Slot
  | [] => []
  | none :: rest => none :: values rest
  | some g :: rest => some g.value :: values rest
end

/-- The values of some slots are the values of what they hold. -/
theorem values_eq (slots : List Slot) : values slots = slots.map (Option.map value) := by
  induction slots with
  | nil => rfl
  | cons slot rest ih => cases slot <;> simp [values, ih]

@[simp] theorem kind_value (g : Green) : g.value.kind = g.kind := by cases g <;> rfl

@[simp] theorem presence_value (g : Green) : g.value.presence = g.presence := by cases g <;> rfl

@[simp] theorem isMissing_value (g : Green) : g.value.isMissing = g.isMissing := by
  simp [isMissing]

@[simp] theorem width_value (g : Green) : g.value.width = g.width := by cases g <;> rfl

@[simp] theorem hasError_value (g : Green) : g.value.hasError = g.hasError := by cases g <;> rfl

@[simp] theorem isNode_value (g : Green) : g.value.isNode = g.isNode := by cases g <;> rfl

/-- The slots of a value hold the values of what the slots held. -/
theorem slots_value (g : Green) : g.value.slots = values g.slots := by cases g <;> rfl

/-- A value has no identities left. -/
theorem value_value (g : Green) : g.value.value = g.value := by
  induction g using induct with
  | token t => rfl
  | node head slots ih =>
    have hslots : values (values slots) = values slots := by
      rw [values_eq, values_eq, List.map_map]
      refine List.map_congr_left fun slot hslot => ?_
      cases slot with
      | none => rfl
      | some c => exact congrArg some (ih c hslot)
    simp only [value, hslots]

section Values

variable {a b : List Slot}

/-- Slots with the same values are as many. -/
theorem length_eq_of_values (h : values a = values b) : a.length = b.length := by
  simpa [values_eq] using congrArg List.length h

/-- What can be read off the elements in some slots without their identities depends on the values
alone. -/
theorem map_eq_of_values {α : Type} {f : Green → α} (hf : ∀ g, f g.value = f g)
    (h : values a = values b) : (a.map fun slot => slot.map f) = b.map fun slot => slot.map f := by
  have hread (slots : List Slot) :
      ((values slots).map fun slot => slot.map f) = slots.map fun slot => slot.map f := by
    rw [values_eq, List.map_map]
    refine List.map_congr_left fun slot _ => ?_
    cases slot <;> simp [hf]
  rw [← hread a, h, hread]

/-- Slots with the same values are as wide. -/
theorem slotsWidth_eq_of_values (h : values a = values b) : slotsWidth a = slotsWidth b := by
  have hread (slots : List Slot) :
      slotsWidth slots = sumOf (·.getD 0) (slots.map fun slot => slot.map width) := by
    simp only [slotsWidth, sumOf_map]
    congr 1
    funext slot
    cases slot <;> rfl
  rw [hread, hread, map_eq_of_values width_value h]

/-- Whether there is an error can be seen from the values. -/
theorem errorOf_eq_of_values (kind : Kind) (presence : Presence) (h : values a = values b) :
    errorOf kind presence a = errorOf kind presence b := by
  have hread (slots : List Slot) : (slots.any fun slot => slot.any hasError) =
      (slots.map fun slot => slot.map hasError).any (·.getD false) := by
    rw [List.any_map]
    congr 1
    funext slot
    cases slot <;> rfl
  rw [errorOf, errorOf, hread, hread, map_eq_of_values hasError_value h]

theorem values_append (a b : List Slot) : values (a ++ b) = values a ++ values b := by
  simp [values_eq]

end Values

/-- Slots with the same values are equal by value, if this is so of what stands in them. -/
theorem sameSlots_of_values_eq {a b : List Slot}
    (heach : ∀ g, some g ∈ a → ∀ h : Green, g.value = h.value → g.sameValue h = true)
    (h : values a = values b) : sameSlots a b = true := by
  induction a generalizing b with
  | nil =>
    obtain rfl : b = [] := List.length_eq_zero_iff.mp (length_eq_of_values h).symm
    rfl
  | cons s a ih =>
    rcases b with _ | ⟨s', b⟩
    · exact absurd (length_eq_of_values h) (Nat.succ_ne_zero _)
    · have htail := @ih b fun g hg => heach g (List.mem_cons_of_mem _ hg)
      rcases s with _ | g <;> rcases s' with _ | g'
      · exact htail (List.cons.inj h).2
      · cases h
      · cases h
      · obtain ⟨hhead, hrest⟩ := List.cons.inj h
        simp [sameSlots, heach g List.mem_cons_self g' (Option.some.inj hhead), htail hrest]

/-- Slots that are equal by value have the same values, if this is so of what stands in them. -/
theorem values_eq_of_sameSlots {a b : List Slot}
    (heach : ∀ g, some g ∈ a → ∀ g', some g' ∈ b → g.sameValue g' = true → g.value = g'.value)
    (h : sameSlots a b = true) : values a = values b := by
  induction a generalizing b with
  | nil =>
    cases b with
    | nil => rfl
    | cons s' b => simp [sameSlots] at h
  | cons s a ih =>
    rcases b with _ | ⟨s', b⟩
    · simp [sameSlots] at h
    · have htail := @ih b fun g hg g' hg' =>
        heach g (List.mem_cons_of_mem _ hg) g' (List.mem_cons_of_mem _ hg')
      rcases s with _ | g <;> rcases s' with _ | g'
      · rw [values, values, htail (by simpa [sameSlots] using h)]
      · simp [sameSlots] at h
      · simp [sameSlots] at h
      · simp only [sameSlots, Bool.and_eq_true] at h
        rw [values, values, htail h.2, heach g List.mem_cons_self g' List.mem_cons_self h.1]

/-- Slots with the same values hold the same elements, if this is so of what stands in them. -/
theorem eq_of_values_eq {a b : List Slot}
    (heach : ∀ g, some g ∈ a → ∀ g', some g' ∈ b → g.value = g'.value → g = g')
    (h : values a = values b) : a = b := by
  induction a generalizing b with
  | nil => exact (List.length_eq_zero_iff.mp (length_eq_of_values h).symm).symm
  | cons s a ih =>
    rcases b with _ | ⟨s', b⟩
    · exact absurd (length_eq_of_values h) (Nat.succ_ne_zero _)
    · have htail := @ih b fun g hg g' hg' =>
        heach g (List.mem_cons_of_mem _ hg) g' (List.mem_cons_of_mem _ hg')
      rcases s with _ | g <;> rcases s' with _ | g'
      · rw [htail (List.cons.inj h).2]
      · cases h
      · cases h
      · obtain ⟨hhead, hrest⟩ := List.cons.inj h
        rw [htail hrest, heach g List.mem_cons_self g' List.mem_cons_self (Option.some.inj hhead)]

/-- Elements with the same value are equal by value. -/
theorem sameValue_of_value_eq {a b : Green} (h : a.value = b.value) : a.sameValue b = true := by
  induction a using induct generalizing b with
  | token t =>
    cases b with
    | token u =>
      simp only [value, token.injEq, GreenToken.mk.injEq, true_and] at h
      simp [sameValue, h]
    | node head slots => cases h
  | node head slots ih =>
    cases b with
    | token u => cases h
    | node head' slots' =>
      simp only [value, node.injEq, NodeHead.mk.injEq, true_and] at h
      obtain ⟨⟨hkind, hpresence, hwidth, herror⟩, hslots⟩ := h
      have hsame := sameSlots_of_values_eq (fun g hg h => ih g hg) hslots
      simp [sameValue, hkind, hpresence, hwidth, herror, hsame]

/-- Where no identity stands for two elements, elements that are equal by value have the same
value. -/
theorem value_eq_of_sameValue {r : Registry} {a b : Green} (ha : r.Knows a) (hb : r.Knows b)
    (h : a.sameValue b = true) : a.value = b.value := by
  induction a using induct generalizing b with
  | token t =>
    cases b with
    | token u =>
      simp only [sameValue, Bool.or_eq_true, beq_iff_eq] at h
      rcases h with hid | hdata
      · exact congrArg value (ha.eq_of_id hb hid)
      · simp [value, hdata]
    | node head slots => simp [sameValue] at h
  | node head slots ih =>
    cases b with
    | token u => simp [sameValue] at h
    | node head' slots' =>
      simp only [sameValue, Bool.or_eq_true, Bool.and_eq_true, beq_iff_eq] at h
      rcases h with hid | ⟨⟨⟨⟨hkind, hpresence⟩, hwidth⟩, herror⟩, hsame⟩
      · exact congrArg value (ha.eq_of_id hb hid)
      · have hslots := values_eq_of_sameSlots
          (fun g hg g' hg' => ih g hg (r.find_slot ha hg) (r.find_slot hb hg')) hsame
        simp [value, hkind, hpresence, hwidth, herror, hslots]

end Green

/-- The view without identities. -/
def View.value : View → View
  | root _ g => root 0 g.value
  | child parent index offset g => child parent.value index offset g.value

@[simp] theorem View.green_value (v : View) : v.value.green = v.green.value := by cases v <;> rfl

/-- Taking the value, which leaves the widths as they are. -/
def Relabelling.value : Relabelling where
  element := Green.value
  place := id
  kind_element := Green.kind_value
  presence_element := Green.presence_value
  hasError_element := Green.hasError_value
  isNode_element := Green.isNode_value
  slots_element g := (Green.slots_value g).trans (Green.values_eq g.slots)
  place_zero := rfl
  place_add offset g := congrArg (offset + ·) g.width_value.symm

/-- Taking the value of a view is a relabelling. -/
theorem View.relabel_value : relabel .value = value := by
  funext v
  induction v with
  | root store g => rfl
  | child parent index offset g ih =>
    rw [relabel, ih]
    rfl

/-- The builder without identities. -/
def Builder.value (b : Builder) : Builder where
  opened := b.opened.map fun (kind, slots) => (kind, Green.values slots)
  filled := Green.values b.filled

/-- The handle without identities. -/
def Handle.value : Handle → Handle
  | green g => green g.value
  | view v => view v.value
  | builder _ b => builder 0 b.value

namespace Handle

/-- Walking down one slot does not depend on identities. -/
theorem slot?_value (h : Handle) (index : Nat) :
    h.value.slot? index = (h.slot? index).map value := by
  cases h with
  | green g =>
    have hslot : g.value.slots[index]?.join = (g.slots[index]?.join).map Green.value := by
      rw [Green.slots_value, Green.values_eq, List.getElem?_map]
      rcases g.slots[index]? with _ | _ | c <;> rfl
    simp only [value, slot?, hslot, Option.map_map]
    rfl
  | view v =>
    have hslot := View.slot?_relabel .value v index
    rw [View.relabel_value] at hslot
    simp only [value, slot?, hslot, Option.map_map]
    rfl
  | builder store b => rfl

/-- Walking down slots does not depend on identities. -/
theorem descend?_value (h : Handle) (path : List Nat) :
    h.value.descend? path = (h.descend? path).map value := by
  induction path generalizing h with
  | nil => rfl
  | cons index path ih =>
    rw [descend?, descend?, slot?_value]
    cases h.slot? index with
    | none => rfl
    | some below => exact ih below

theorem element?_value (h : Handle) : h.value.element? = h.element?.map Green.value := by
  cases h with
  | green g => rfl
  | view v => exact congrArg some v.green_value
  | builder store b => rfl

theorem view?_value (h : Handle) : h.value.view? = h.view?.map View.value := by cases h <;> rfl

theorem builder?_value (h : Handle) : h.value.builder? = h.builder?.map Builder.value := by
  cases h <;> rfl

end Handle

/-- The call without identities. -/
def Call.value (c : Call Green View Builder) : Call Green View Builder :=
  c.map Green.value View.value Builder.value

end Verbatim
