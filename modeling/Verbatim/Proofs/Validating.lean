import Verbatim.Proofs.Legality
import Verbatim.Proofs.Scenes

/-!
# What validation reports

A node conforms if its slots are as the layout of its kind declares. What validation reports is
about the first node that does not conform, parents before children, and it blames the first of its
slots that is not as declared. But validation passes over nodes that carry the kind of a leaf. Such
a node never conforms, since leaves have no slots that could be declared, and it is never reported.
-/

namespace Verbatim

theorem Kind.layout_eq_token_iff (k : Kind) : k.layout = .token ↔ k.isNode = false := by
  cases k <;> first
    | exact iff_of_true rfl rfl
    | exact iff_of_false (fun h => by cases h) (by decide)

/-- Slots are allowed together if there are as many as declared and each is allowed. -/
theorem SlotSpec.allowAll_iff {missing : Bool} {specs : List SlotSpec} {slots : List Slot} :
    allowAll missing specs slots = true ↔ slots.length = specs.length ∧
      ∀ (index : Nat) (spec : SlotSpec) (slot : Slot), specs[index]? = some spec →
        slots[index]? = some slot → spec.allows missing slot = true := by
  constructor
  · intro h
    refine ⟨length_of_allowAll h, fun index spec slot hspec hslot => ?_⟩
    obtain ⟨_, hspec', hallows⟩ := exists_of_allowAll h hslot
    cases hspec.symm.trans hspec'
    exact hallows
  · rintro ⟨hlength, hall⟩
    induction specs generalizing slots with
    | nil =>
      obtain rfl := List.eq_nil_of_length_eq_zero hlength
      rfl
    | cons spec specs ih =>
      cases slots with
      | nil => cases hlength
      | cons slot slots =>
        have hrest := ih (Nat.succ.inj hlength) fun index => hall (index + 1)
        rw [allowAll, hall 0 spec slot rfl rfl, hrest]
        rfl

namespace View

/-- A node whose slots are as its kind declares. A placeholder may leave every slot empty. -/
def Conforms (v : View) : Prop :=
  match v.kind.layout with
  | .token => False
  | .collection members =>
    ∀ slot ∈ v.green.slots, ∃ c, slot = some c ∧ members.contains c.kind = true
  | .fixed specs =>
    v.green.slots.length = specs.length ∧
      ∀ (index : Nat) (spec : SlotSpec) (slot : Slot), specs[index]? = some spec →
        v.green.slots[index]? = some slot → spec.allows v.isMissing slot = true

/-- What there is to say about a slot that is not as declared. -/
inductive Blames (v : View) : Nat → Violation → Prop
  | absentMember {members : KindSet} {index : Nat} (hlayout : v.kind.layout = .collection members)
      (hslot : v.green.slots[index]? = some none) :
      Blames v index (.absentMember v.kind index v.span)
  | unexpectedMember {members : KindSet} {index : Nat} {c : Green}
      (hlayout : v.kind.layout = .collection members)
      (hslot : v.green.slots[index]? = some (some c)) (hkind : members.contains c.kind = false) :
      Blames v index (.unexpectedMember v.kind index c.kind v.span)
  | absentRequiredSlot {specs : List SlotSpec} {index : Nat} {spec : SlotSpec}
      (hlayout : v.kind.layout = .fixed specs) (hspec : specs[index]? = some spec)
      (hslot : v.green.slots[index]? = some none) (hrequired : spec.isOptional = false)
      (hpresent : v.isMissing = false) :
      Blames v index (.absentRequiredSlot v.kind spec.label v.span)
  | unexpectedSlotKind {specs : List SlotSpec} {index : Nat} {spec : SlotSpec} {c : Green}
      (hlayout : v.kind.layout = .fixed specs) (hspec : specs[index]? = some spec)
      (hslot : v.green.slots[index]? = some (some c))
      (hkind : spec.accepts.contains c.kind = false) :
      Blames v index (.unexpectedSlotKind v.kind spec.label c.kind v.span)

/-- What there is to say first about a node that does not conform. -/
inductive FirstFault (v : View) : Violation → Prop
  | arity {specs : List SlotSpec} (hlayout : v.kind.layout = .fixed specs)
      (hlength : v.green.slots.length ≠ specs.length) :
      FirstFault v (.arity v.kind v.span specs.length v.green.slots.length)
  | slot {index : Nat} {x : Violation}
      (hlength : ∀ specs, v.kind.layout = .fixed specs → v.green.slots.length = specs.length)
      (hblames : v.Blames index x) (hfirst : ∀ i y, i < index → ¬ v.Blames i y) : FirstFault v x

variable {v : View} {x : Violation}

/-- A node that carries the kind of a node conforms just if nothing is found in its layout. -/
theorem layoutViolation?_eq_none_iff_conforms :
    v.layoutViolation? = none ↔ (v.kind.isNode = true → v.Conforms) := by
  rw [layoutViolation?_eq_none_iff, Green.follows, ← kind, ← isMissing, Conforms]
  cases hlayout : v.kind.layout with
  | token =>
    rw [Kind.layout_eq_token_iff] at hlayout
    exact iff_of_true rfl fun hnode => Bool.false_ne_true (hlayout.symm.trans hnode)
  | collection members =>
    have hnode : v.kind.isNode = true := by
      rw [← Bool.not_eq_false, ← Kind.layout_eq_token_iff, hlayout]
      exact fun h => by cases h
    simp only [Layout.allows, List.all_eq_true, Option.any_eq_true, hnode, true_implies]
  | fixed specs =>
    have hnode : v.kind.isNode = true := by
      rw [← Bool.not_eq_false, ← Kind.layout_eq_token_iff, hlayout]
      exact fun h => by cases h
    simp only [Layout.allows, SlotSpec.allowAll_iff, hnode, true_implies]

/-- The first member that is absent or not repeated is reported, with its number. -/
theorem exists_of_memberViolation? {members : KindSet} {start : Nat} {slots : List Slot}
    (h : v.memberViolation? members start slots = some x) :
    ∃ index : Nat,
      (∀ i < index, ∃ c : Green, slots[i]? = some (some c) ∧ members.contains c.kind = true) ∧
        (slots[index]? = some none ∧ x = .absentMember v.kind (start + index) v.span ∨
          ∃ c : Green, slots[index]? = some (some c) ∧ members.contains c.kind = false ∧
            x = .unexpectedMember v.kind (start + index) c.kind v.span) := by
  induction slots generalizing start with
  | nil => cases h
  | cons slot slots ih =>
    cases slot with
    | none =>
      cases h
      exact ⟨0, fun i hi => absurd hi (Nat.not_lt_zero i), .inl ⟨rfl, rfl⟩⟩
    | some c =>
      rw [memberViolation?] at h
      split at h
      case isTrue hc =>
        obtain ⟨index, hbefore, hindex⟩ := ih h
        rw [Nat.add_assoc, Nat.add_comm 1 index] at hindex
        refine ⟨index + 1, fun i hi => ?_, hindex⟩
        cases i with
        | zero => exact ⟨c, rfl, hc⟩
        | succ i => exact hbefore i (Nat.lt_of_succ_lt_succ hi)
      case isFalse hc =>
        cases h
        exact ⟨0, fun i hi => absurd hi (Nat.not_lt_zero i),
          .inr ⟨c, rfl, Bool.eq_false_iff.mpr hc, rfl⟩⟩

/-- A slot that may hold what it holds is passed over. -/
theorem slotViolation?_cons_of_allows {spec : SlotSpec} {slot : Slot}
    (h : spec.allows v.isMissing slot = true) (rest : List (SlotSpec × Slot)) :
    v.slotViolation? ((spec, slot) :: rest) = v.slotViolation? rest := by
  cases slot <;> exact (slotViolation?.eq_def ..).trans (if_pos h)

/-- The first slot that may not hold what it holds is reported, with its label. -/
theorem exists_of_slotViolation? {specs : List SlotSpec} {slots : List Slot}
    (h : v.slotViolation? (specs.zip slots) = some x) :
    ∃ (index : Nat) (spec : SlotSpec), specs[index]? = some spec ∧
      (∀ i < index, ∀ (spec : SlotSpec) (slot : Slot), specs[i]? = some spec →
        slots[i]? = some slot → spec.allows v.isMissing slot = true) ∧
        (slots[index]? = some none ∧ spec.isOptional = false ∧ v.isMissing = false ∧
            x = .absentRequiredSlot v.kind spec.label v.span ∨
          ∃ c : Green, slots[index]? = some (some c) ∧ spec.accepts.contains c.kind = false ∧
            x = .unexpectedSlotKind v.kind spec.label c.kind v.span) := by
  induction specs generalizing slots with
  | nil => cases h
  | cons spec specs ih =>
    cases slots with
    | nil => cases h
    | cons slot slots =>
      rw [List.zip_cons_cons] at h
      by_cases hallows : spec.allows v.isMissing slot = true
      · rw [slotViolation?_cons_of_allows hallows] at h
        obtain ⟨index, found, hfound, hbefore, hindex⟩ := ih h
        refine ⟨index + 1, found, hfound, fun i hi spec' slot' hspec hslot => ?_, hindex⟩
        cases i with
        | zero =>
          cases hspec
          cases hslot
          exact hallows
        | succ i => exact hbefore i (Nat.lt_of_succ_lt_succ hi) spec' slot' hspec hslot
      · refine ⟨0, spec, rfl, fun i hi => absurd hi (Nat.not_lt_zero i), ?_⟩
        cases slot with
        | none =>
          rw [SlotSpec.allows] at hallows
          rw [slotViolation?, if_neg hallows] at h
          rw [Bool.or_eq_true, not_or, Bool.not_eq_true, Bool.not_eq_true] at hallows
          exact .inl ⟨rfl, hallows.1, hallows.2, (Option.some.inj h).symm⟩
        | some c =>
          rw [SlotSpec.allows] at hallows
          rw [slotViolation?, if_neg hallows] at h
          exact .inr ⟨c, rfl, Bool.eq_false_iff.mpr hallows, (Option.some.inj h).symm⟩

/-- A slot that is blamed in a collection holds nothing, or a member that is not repeated. -/
theorem Blames.not_member {index : Nat} {members : KindSet} (h : v.Blames index x)
    (hlayout : v.kind.layout = .collection members) :
    ¬ ∃ c : Green, v.green.slots[index]? = some (some c) ∧ members.contains c.kind = true := by
  rintro ⟨c, hslot, hc⟩
  cases h with
  | absentMember hlayout' hslot' => cases hslot.symm.trans hslot'
  | unexpectedMember hlayout' hslot' hkind =>
    cases hlayout.symm.trans hlayout'
    cases hslot.symm.trans hslot'
    exact Bool.false_ne_true (hkind.symm.trans hc)
  | absentRequiredSlot hlayout' => cases hlayout.symm.trans hlayout'
  | unexpectedSlotKind hlayout' => cases hlayout.symm.trans hlayout'

/-- A slot that is blamed in a node with declared slots may not hold what it holds. -/
theorem Blames.not_allows {index : Nat} {specs : List SlotSpec} (h : v.Blames index x)
    (hlayout : v.kind.layout = .fixed specs) :
    ¬ ∀ (spec : SlotSpec) (slot : Slot), specs[index]? = some spec →
      v.green.slots[index]? = some slot → spec.allows v.isMissing slot = true := by
  intro hallows
  cases h with
  | absentMember hlayout' => cases hlayout.symm.trans hlayout'
  | unexpectedMember hlayout' => cases hlayout.symm.trans hlayout'
  | absentRequiredSlot hlayout' hspec hslot hrequired hpresent =>
    cases hlayout.symm.trans hlayout'
    have hempty := hallows _ _ hspec hslot
    rw [SlotSpec.allows, hrequired, hpresent] at hempty
    cases hempty
  | unexpectedSlotKind hlayout' hspec hslot hkind =>
    cases hlayout.symm.trans hlayout'
    exact Bool.false_ne_true (hkind.symm.trans (hallows _ _ hspec hslot))

/-- What is found in the layout of a node is what there is to say about it first. -/
theorem firstFault_of_layoutViolation? (h : v.layoutViolation? = some x) : v.FirstFault x := by
  unfold layoutViolation? at h
  split at h
  case h_1 hlayout => cases h
  case h_2 members hlayout =>
    obtain ⟨index, hbefore, hindex⟩ := exists_of_memberViolation? h
    rw [Nat.zero_add] at hindex
    refine @FirstFault.slot v index x (fun specs hfixed => ?_) ?_ fun i y hi hblames => ?_
    · cases hlayout.symm.trans hfixed
    · rcases hindex with ⟨hslot, rfl⟩ | ⟨c, hslot, hkind, rfl⟩
      · exact .absentMember hlayout hslot
      · exact .unexpectedMember hlayout hslot hkind
    · exact hblames.not_member hlayout (hbefore i hi)
  case h_3 specs hlayout =>
    split at h
    case isTrue hlength =>
      obtain ⟨index, spec, hspec, hbefore, hindex⟩ := exists_of_slotViolation? h
      refine @FirstFault.slot v index x (fun specs' hfixed => ?_) ?_ fun i y hi hblames => ?_
      · cases hlayout.symm.trans hfixed
        exact hlength.symm
      · rcases hindex with ⟨hslot, hrequired, hpresent, rfl⟩ | ⟨c, hslot, hkind, rfl⟩
        · exact .absentRequiredSlot hlayout hspec hslot hrequired hpresent
        · exact .unexpectedSlotKind hlayout hspec hslot hkind
      · exact hblames.not_allows hlayout (hbefore i hi)
    case isFalse hlength =>
      cases h
      exact .arity hlayout (Ne.symm hlength)

/-- The nodes of a tree are listed in the order of their paths. -/
theorem pairwise_path_nodes (v : View) :
    v.nodes.Pairwise fun a b => List.Lex (· < ·) a.path b.path := by
  have hall := pairwise_path_entriesAt (fun _ => false) v v.green
  rw [← descendants_eq, List.pairwise_map] at hall
  exact hall.filter _

/-- In a tree of genuine elements, just the nodes that carry the kind of a node are checked. -/
theorem violation?_eq_none_iff_conforms {path : List Nat} {d : View} (hv : v.green.Genuine)
    (hd : v.descend? path = some d) (hnode : d.isNode = true) :
    d.violation? = none ↔ (d.kind.isNode = true → d.Conforms) := by
  rw [violation?_of_genuine (hv.of_within (within_of_descend? hd)) hnode,
    layoutViolation?_eq_none_iff_conforms]

end View

namespace Workspace

open Scene

/-- Validation finds nothing in a tree just if every node conforms that carries the kind of a node.
Otherwise it says what there is to say first about the first node, parents before children, that
carries the kind of a node and does not conform. -/
theorem Reachable.firstViolation?_exact {w : Workspace} (hw : w.Reachable) {v : View}
    (hv : w.Live v.green) :
    (v.firstViolation? = none ↔ ∀ path d, v.descend? path = some d → d.isNode = true →
        d.kind.isNode = true → d.Conforms) ∧
      ∀ x, v.firstViolation? = some x → ∃ path d, v.descend? path = some d ∧ d.isNode = true ∧
        d.kind.isNode = true ∧ ¬ d.Conforms ∧ d.FirstFault x ∧
          ∀ before c, v.descend? before = some c → List.Lex (· < ·) before path →
            c.isNode = true → c.kind.isNode = true → c.Conforms := by
  have hgenuine := hw.genuine.of_live hv
  constructor
  · rw [View.firstViolation?, List.findSome?_eq_none_iff]
    constructor
    · intro h path d hd hnode
      refine (View.violation?_eq_none_iff_conforms hgenuine hd hnode).mp (h d ?_)
      exact View.mem_nodes.mpr ⟨⟨path, hd⟩, hnode⟩
    · intro h d hmem
      obtain ⟨⟨path, hd⟩, hnode⟩ := View.mem_nodes.mp hmem
      exact (View.violation?_eq_none_iff_conforms hgenuine hd hnode).mpr (h path d hd hnode)
  · intro x h
    obtain ⟨before, d, after, hnodes, hx, hbefore⟩ := List.findSome?_eq_some_iff.mp h
    have hsorted := v.pairwise_path_nodes
    rw [hnodes, List.pairwise_append, List.pairwise_cons] at hsorted
    obtain ⟨⟨path, hd⟩, hnode⟩ := View.mem_nodes.mp (hnodes ▸ List.mem_append_right before
      List.mem_cons_self)
    have hiff := View.violation?_eq_none_iff_conforms hgenuine hd hnode
    rw [hx, eq_comm (a := some x), iff_false_left (Option.some_ne_none x).symm, Classical.not_imp]
      at hiff
    rw [View.violation?_of_genuine (hgenuine.of_within (View.within_of_descend? hd)) hnode] at hx
    refine ⟨path, d, hd, hnode, hiff.1, hiff.2, View.firstFault_of_layoutViolation? hx, ?_⟩
    intro earlier c hc hlex hcnode
    refine (View.violation?_eq_none_iff_conforms hgenuine hc hcnode).mp (hbefore c ?_)
    -- The node is listed before the one that is reported, since the list follows the paths.
    have hpath : List.Lex (· < ·) c.path d.path := by
      rw [View.path_of_descend? hc, View.path_of_descend? hd]
      exact List.append_left_lt hlex
    have hmem := View.mem_nodes.mpr ⟨⟨earlier, hc⟩, hcnode⟩
    rw [hnodes, List.mem_append, List.mem_cons] at hmem
    rcases hmem with hmem | rfl | hmem
    · exact hmem
    · exact absurd hpath (List.lex_irrefl Nat.lt_irrefl _)
    · exact absurd hpath (List.lex_asymm Nat.lt_asymm (hsorted.2.1.1 c hmem))

/-- A file whose list of items has an absent member. -/
def hollowFile : Green :=
  branch 4 .sourceFile [some (branch 2 .itemList [some strayItem, none]), some (word 3 .eof "")]

/-- What is reported about the list of items that has an absent member. -/
theorem firstViolation?_exact_absent : ∃ (w : Workspace) (v : View), w.Reachable ∧
    w.Live v.green ∧ v.firstViolation? = some (.absentMember .itemList 1 ⟨0, 3⟩) ∧
      ∃ path d, v.descend? path = some d ∧ d.kind = .itemList ∧ ¬ d.Conforms ∧
        ∀ before c, v.descend? before = some c → List.Lex (· < ·) before path →
          c.isNode = true → c.kind.isNode = true → c.Conforms := by
  have hw : (ofTrees [hollowFile]).workspace.Reachable := reachable_ofTrees rfl
  have hlive : (ofTrees [hollowFile]).workspace.Live hollowFile := live_of_found rfl
  have hg : (View.root 0 hollowFile).firstViolation? =
      some (.absentMember .itemList 1 ⟨0, 3⟩) := by decide +kernel
  obtain ⟨path, d, hd, -, -, hbreaks, hfault, hfirst⟩ :=
    (hw.firstViolation?_exact (v := .root 0 hollowFile) hlive).2 _ hg
  refine ⟨_, .root 0 hollowFile, hw, hlive, hg, path, d, hd, ?_, hbreaks, hfirst⟩
  generalize hx : Violation.absentMember _ _ _ = x at hfault
  cases hfault with
  | arity => cases hx
  | slot _ hblames _ =>
    cases hblames with
    | absentMember => exact (Violation.absentMember.inj hx).1.symm
    | unexpectedMember => cases hx
    | absentRequiredSlot => cases hx
    | unexpectedSlotKind => cases hx

/-- A node around a name that carries the kind of a leaf. -/
def leafNode : Green := branch 1 .comma [some (word 0 .ident "x")]

/-- A node that carries the kind of a leaf does not conform, whatever its slots are, and
nothing is found in a tree that has one. -/
theorem exists_firstViolation?_eq_none_of_leaf : ∃ (w : Workspace) (v : View), w.Reachable ∧
    w.Live v.green ∧ v.isNode = true ∧ v.kind = .comma ∧ v.slotCount = 1 ∧ ¬ v.Conforms ∧
      v.firstViolation? = none := by
  have hw : (ofTrees [leafNode]).workspace.Reachable := reachable_ofTrees rfl
  exact ⟨_, .root 0 leafNode, hw, live_of_found rfl, rfl, rfl, rfl, id, by decide +kernel⟩

end Workspace

end Verbatim
