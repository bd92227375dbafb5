import Verbatim.Proofs.Placing

/-!
# What a traversal enters

A traversal enters what can be reached by slots through nodes that are open, and enters nothing
twice. Where an element stands in its tree, everything below it is entered in one piece, and the
element starts as many bytes into the tree as the tokens have that were entered before.
-/

namespace Verbatim

namespace View

/-- Slots are placed one by one, each after the widths of those before it. -/
theorem getElem?_placeSlots (parent : View) (index offset : Nat) (slots : List Slot) (k : Nat) :
    (placeSlots parent index offset slots)[k]? = slots[k]?.map fun slot => slot.map fun g =>
      .child parent (index + k) (offset + Green.slotsWidth (slots.take k)) g := by
  induction slots generalizing index offset k with
  | nil => rfl
  | cons slot slots ih =>
    cases k with
    | zero => cases slot <;> simp [placeSlots, Green.slotsWidth]
    | succ k =>
      have hindex : index + 1 + k = index + (k + 1) := by omega
      cases slot with
      | none =>
        simp only [placeSlots, List.getElem?_cons_succ, ih, hindex]
        simp [Green.slotsWidth]
      | some g =>
        simp only [placeSlots, List.getElem?_cons_succ, ih, hindex]
        simp [Green.slotsWidth, Nat.add_assoc]

theorem getElem?_slots (v : View) (index : Nat) : v.slots[index]?.join = v.slot? index := by
  rw [slots, getElem?_placeSlots, slot?_eq, Nat.zero_add]
  cases v.green.slots[index]? <;> rfl

theorem mem_slots {v c : View} : some c ∈ v.slots ↔ ∃ index, v.slot? index = some c := by
  simp only [List.mem_iff_getElem?, ← getElem?_slots, Option.join_eq_some_iff]

theorem mem_children {v c : View} : c ∈ v.children ↔ ∃ index, v.slot? index = some c := by
  rw [← mem_slots]
  simp [children]

section

variable {closed : View → Bool} {v c d u : View}

/-- What is entered among slots is entered at the start of one of them or below. -/
theorem mem_entriesIn {parent : View} {index offset : Nat} {slots : List Slot} :
    d ∈ entriesIn closed parent index offset slots ↔
      ∃ c, some c ∈ placeSlots parent index offset slots ∧ d ∈ entriesAt closed c c.green := by
  induction slots generalizing index offset with
  | nil => simp [entriesIn, placeSlots]
  | cons slot slots ih =>
    cases slot with
    | none => simp [entriesIn, placeSlots, ih]
    | some g => simp [entriesIn, placeSlots, ih, green]

/-- An open node is entered, and then what stands in its slots is. -/
theorem mem_entriesAt_step :
    d ∈ entriesAt closed v v.green ↔
      d = v ∨ closed v = false ∧ ∃ index c, v.slot? index = some c ∧
        d ∈ entriesAt closed c c.green := by
  cases hg : v.green with
  | token t =>
    have hnone (index : Nat) : v.slot? index = none := by simp [slot?_eq, hg, Green.slots]
    simp [entriesAt, hnone]
  | node head slots =>
    have hslots : placeSlots v 0 v.offset slots = v.slots := by rw [View.slots, hg]; rfl
    rw [entriesAt, List.mem_cons]
    refine or_congr_right ?_
    cases hclosed : closed v with
    | true => simp
    | false =>
      simp only [Bool.false_eq_true, if_false, mem_entriesIn, hslots, mem_slots, true_and]
      constructor
      · rintro ⟨c, ⟨i, hi⟩, hd⟩
        exact ⟨i, c, hi, hd⟩
      · rintro ⟨i, c, hi, hd⟩
        exact ⟨c, ⟨i, hi⟩, hd⟩

/-- A view is entered exactly if it is reached by slots and everything on the way is open. -/
theorem mem_entriesAt : d ∈ entriesAt closed v v.green ↔ ∃ path, v.descend? path = some d ∧
    ∀ p q, path = p ++ q → q ≠ [] → ∀ a, v.descend? p = some a → closed a = false := by
  constructor
  · intro hd
    -- The induction is on the element that the view shows, since children are smaller.
    generalize hg : v.green = g at hd
    induction g using Green.induct generalizing v with
    | token t =>
      obtain rfl := List.mem_singleton.mp hd
      refine ⟨[], rfl, fun p q hpq hq => absurd ?_ hq⟩
      exact (List.append_eq_nil_iff.mp hpq.symm).2
    | node head slots ih =>
      rw [← hg] at hd
      rcases mem_entriesAt_step.mp hd with rfl | ⟨hopen, index, c, hc, hd⟩
      · refine ⟨[], rfl, fun p q hpq hq => absurd ?_ hq⟩
        exact (List.append_eq_nil_iff.mp hpq.symm).2
      · have hmem : some c.green ∈ slots := by
          have hmem := green_mem_of_mem_placeSlots (mem_slots.mpr ⟨index, hc⟩)
          rwa [hg] at hmem
        obtain ⟨path, hpath, hway⟩ := ih c.green hmem rfl hd
        refine ⟨index :: path, by rw [descend?, hc]; exact hpath, fun p q hpq hq a ha => ?_⟩
        cases p with
        | nil =>
          cases ha
          exact hopen
        | cons i p =>
          obtain ⟨rfl, rfl⟩ := List.cons.inj hpq
          rw [descend?, hc] at ha
          exact hway p q rfl hq a ha
  · rintro ⟨path, hpath, hway⟩
    induction path generalizing v with
    | nil =>
      cases hpath
      exact mem_entriesAt_step.mpr (.inl rfl)
    | cons index path ih =>
      obtain ⟨c, hc, hpath⟩ := Option.bind_eq_some_iff.mp hpath
      have hopen : closed v = false := hway [] (index :: path) rfl (by simp) v rfl
      refine mem_entriesAt_step.mpr (.inr ⟨hopen, index, c, hc, ih hpath ?_⟩)
      intro p q hpq hq a ha
      refine hway (index :: p) q (by rw [hpq]; rfl) hq a ?_
      rw [descend?, hc]
      exact ha

/-- The descendants of a view are what is reached from it by slots. -/
theorem mem_descendants : d ∈ v.descendants ↔ ∃ path, v.descend? path = some d := by
  rw [descendants_eq, mem_entriesAt]
  simp

theorem mem_nodes : d ∈ v.nodes ↔ (∃ path, v.descend? path = some d) ∧ d.isNode = true := by
  rw [nodes, List.mem_filter, mem_descendants]

theorem mem_tokens : d ∈ v.tokens ↔ (∃ path, v.descend? path = some d) ∧ d.isNode = false := by
  rw [tokens, List.mem_filter, mem_descendants, Bool.not_eq_true']

theorem descend?_cons_of_slot {index : Nat} (h : v.slot? index = some c) (path : List Nat) :
    v.descend? (index :: path) = c.descend? path := by
  rw [descend?, h]
  rfl

/-- What is reached by slots is within the element that was started from. -/
theorem within_of_descend? {path : List Nat} (h : v.descend? path = some u) :
    u.green.Within v.green := by
  induction path generalizing v with
  | nil =>
    cases h
    exact .refl
  | cons index path ih =>
    obtain ⟨c, hc, hu⟩ := Option.bind_eq_some_iff.mp h
    exact (ih hu).trans (.of_slot (green_mem_of_mem_placeSlots (mem_slots.mpr ⟨index, hc⟩)))

/-- Everything within an element is reached by slots. -/
theorem exists_descend?_of_within {g : Green} (h : g.Within v.green) :
    ∃ path d, v.descend? path = some d ∧ d.green = g := by
  generalize hroot : v.green = root at h
  induction h generalizing v with
  | refl => exact ⟨[], v, rfl, hroot⟩
  | @slot child parent hslot _ ih =>
    obtain ⟨index, hindex⟩ := List.mem_iff_getElem?.mp hslot
    rw [← hroot] at hindex
    have hc := slot?_eq v index
    rw [hindex] at hc
    obtain ⟨path, d, hd, hg⟩ := @ih (.child v index _ child) rfl
    exact ⟨index :: path, d, (descend?_cons_of_slot hc path).trans hd, hg⟩

/-- A path is extended by the slots that are followed. -/
theorem path_of_descend? {path : List Nat} (h : v.descend? path = some u) :
    u.path = v.path ++ path := by
  induction path generalizing v with
  | nil =>
    cases h
    exact (List.append_nil _).symm
  | cons index path ih =>
    obtain ⟨c, hc, hu⟩ := Option.bind_eq_some_iff.mp h
    rw [slot?_eq] at hc
    obtain ⟨g, -, rfl⟩ := Option.map_eq_some_iff.mp hc
    rw [ih hu, View.path, List.append_assoc, List.singleton_append]

/-- What is entered among slots is below one of them. -/
theorem exists_path_of_mem_entriesIn {parent : View} {index offset : Nat} {slots : List Slot}
    (hd : d ∈ entriesIn closed parent index offset slots) :
    ∃ i path, index ≤ i ∧ d.path = parent.path ++ i :: path := by
  obtain ⟨c, hc, hd⟩ := mem_entriesIn.mp hd
  obtain ⟨path, hpath, -⟩ := mem_entriesAt.mp hd
  obtain ⟨k, hk⟩ := List.mem_iff_getElem?.mp hc
  rw [getElem?_placeSlots, Option.map_eq_some_iff] at hk
  obtain ⟨slot, -, hslot⟩ := hk
  obtain ⟨g, -, rfl⟩ := Option.map_eq_some_iff.mp hslot
  refine ⟨index + k, path, Nat.le_add_right .., ?_⟩
  rw [path_of_descend? hpath, View.path, List.append_assoc, List.singleton_append]

end

mutual
/-- Everything is entered in the order of the paths: parents before children, and what stands in a
slot before what stands in a later one. -/
theorem pairwise_path_entriesAt (closed : View → Bool) (v : View) :
    ∀ g, ((entriesAt closed v g).map path).Pairwise (List.Lex (· < ·))
  | .token _ => by simp [entriesAt]
  | .node head slots => by
    rw [entriesAt, List.map_cons, List.pairwise_cons]
    cases closed v with
    | true => exact ⟨fun _ hmem => absurd hmem List.not_mem_nil, .nil⟩
    | false =>
      refine ⟨fun p hmem => ?_, pairwise_path_entriesIn closed v 0 v.offset slots⟩
      obtain ⟨d, hd, rfl⟩ := List.mem_map.mp hmem
      obtain ⟨i, path, -, hbelow⟩ := exists_path_of_mem_entriesIn hd
      rw [hbelow]
      have hlonger : List.Lex (· < ·) [] (i :: path) := .nil
      simpa using @List.append_left_lt _ _ v.path _ _ hlonger
theorem pairwise_path_entriesIn (closed : View → Bool) (parent : View) (index offset : Nat) :
    ∀ slots, ((entriesIn closed parent index offset slots).map path).Pairwise (List.Lex (· < ·))
  | [] => .nil
  | none :: slots => pairwise_path_entriesIn closed parent (index + 1) offset slots
  | some g :: slots => by
    rw [entriesIn, List.map_append, List.pairwise_append]
    refine ⟨pairwise_path_entriesAt closed _ g, pairwise_path_entriesIn closed parent _ _ slots, ?_⟩
    intro p hp q hq
    obtain ⟨a, ha, rfl⟩ := List.mem_map.mp hp
    obtain ⟨b, hb, rfl⟩ := List.mem_map.mp hq
    -- One path goes on through slot `index`, and the other through a later slot.
    obtain ⟨below, hbelow, -⟩ := mem_entriesAt.mp ha
    obtain ⟨i, path, hi, hpath⟩ := exists_path_of_mem_entriesIn hb
    rw [path_of_descend? hbelow, View.path, List.append_assoc, hpath]
    exact List.append_left_lt (.rel hi)
end

/-- Nothing is entered twice. -/
theorem nodup_path_entriesAt (closed : View → Bool) (v : View) (g : Green) :
    ((entriesAt closed v g).map path).Nodup := by
  refine (pairwise_path_entriesAt closed v g).imp fun {p q} hlex heq => ?_
  rw [heq] at hlex
  exact List.lex_irrefl Nat.lt_irrefl q hlex

/-- A traversal of a node enters the node and then what stands in its slots. -/
theorem descendants_of_isNode {v : View} (h : v.isNode = true) :
    v.descendants = v :: entriesIn (fun _ => false) v 0 v.offset v.green.slots := by
  rw [descendants_eq]
  cases hg : v.green with
  | token t => simp [isNode, hg, Green.isNode] at h
  | node head slots => simp [entriesAt, Green.slots]

/-- The views that a traversal enters in slots are those that stand there and those below. -/
theorem entriesIn_eq_flatMap (parent : View) (index offset : Nat) (slots : List Slot) :
    entriesIn (fun _ => false) parent index offset slots =
      ((placeSlots parent index offset slots).filterMap fun slot => slot).flatMap descendants := by
  induction slots generalizing index offset with
  | nil => rfl
  | cons slot slots ih =>
    cases slot with
    | none => exact ih (index + 1) offset
    | some g =>
      rw [entriesIn, ih, placeSlots, List.filterMap_cons]
      simp only [List.flatMap_cons, descendants_eq, green]

/-- The descendants of a view are the view and the descendants of its children. -/
theorem descendants_eq_cons (v : View) : v.descendants = v :: v.children.flatMap descendants := by
  cases hg : v.green with
  | token t =>
    have hchildren : v.children = [] := by rw [children, View.slots, hg]; rfl
    rw [descendants_eq, hg, hchildren]
    rfl
  | node head below =>
    have hnode : v.isNode = true := by rw [isNode, hg]; rfl
    rw [descendants_of_isNode hnode, entriesIn_eq_flatMap]
    rfl

theorem mem_descendants_iff {v d : View} :
    d ∈ v.descendants ↔ d = v ∨ ∃ c ∈ v.children, d ∈ c.descendants := by
  rw [descendants_eq_cons, List.mem_cons, List.mem_flatMap]

end View

end Verbatim
