import Verbatim.Proofs.Refilling
import Verbatim.Proofs.Representation

/-!
# Legal trees

A node follows its layout if its slots are what its kind declares, and a tree is legal if all of its
nodes do. Validation finds nothing in a tree of genuine elements just if the tree is legal. If a
slot of a legal node gets something legal that is permitted there, or nothing, then the new node is
legal, too: a required slot that is emptied gets a placeholder that it accepts, and so do the other
required slots of a placeholder that becomes present.
-/

namespace Verbatim

/-- Whether a slot may hold this. A placeholder may leave every slot empty. -/
def SlotSpec.allows (spec : SlotSpec) (missing : Bool) : Slot → Bool
  | none => spec.isOptional || missing
  | some c => spec.accepts.contains c.kind

/-- Whether slots may hold this, one by one. -/
def SlotSpec.allowAll (missing : Bool) : List SlotSpec → List Slot → Bool
  | [], [] => true
  | spec :: specs, slot :: slots => spec.allows missing slot && allowAll missing specs slots
  | _, _ => false

/-- Whether a node with this layout may have these slots. -/
def Layout.allows (missing : Bool) : Layout → List Slot → Bool
  | token, _ => true
  | fixed specs, slots => SlotSpec.allowAll missing specs slots
  | collection members, slots => slots.all fun slot => slot.any fun c => members.contains c.kind

/-- Whether an element of another kind may be put into a slot of a node. A kind that declares
nothing refuses nothing. -/
def Kind.permits (k : Kind) (index : Nat) (member : Kind) : Bool :=
  match k.layout with
  | .token => true
  | .fixed specs => specs[index]?.any fun spec => spec.accepts.contains member
  | .collection members => members.contains member

namespace SlotSpec

variable {spec : SlotSpec} {specs : List SlotSpec} {missing : Bool} {slot : Slot}
  {slots : List Slot} {index : Nat}

/-- What a present node may hold, a placeholder may hold. -/
theorem allows_of_present (h : spec.allows false slot = true) :
    spec.allows missing slot = true := by
  cases slot with
  | none =>
    rw [allows, Bool.or_false] at h
    rw [allows, h, Bool.true_or]
  | some c => exact h

/-- Slots that specs allow are as many as the specs. -/
theorem length_of_allowAll (h : allowAll missing specs slots = true) :
    slots.length = specs.length := by
  induction specs generalizing slots with
  | nil =>
    cases slots with
    | nil => rfl
    | cons _ _ => cases h
  | cons spec specs ih =>
    cases slots with
    | nil => cases h
    | cons slot slots =>
      rw [allowAll, Bool.and_eq_true] at h
      rw [List.length_cons, List.length_cons, ih h.2]

/-- Each slot is allowed by its own spec. -/
theorem exists_of_allowAll (h : allowAll missing specs slots = true)
    (hslot : slots[index]? = some slot) :
    ∃ spec, specs[index]? = some spec ∧ spec.allows missing slot = true := by
  induction specs generalizing slots index with
  | nil =>
    cases slots with
    | nil => cases hslot
    | cons _ _ => cases h
  | cons spec specs ih =>
    cases slots with
    | nil => cases h
    | cons first slots =>
      rw [allowAll, Bool.and_eq_true] at h
      cases index with
      | zero =>
        cases hslot
        exact ⟨spec, rfl, h.1⟩
      | succ index => exact ih h.2 hslot

/-- One slot may be given something else that it may hold. -/
theorem allowAll_set (h : allowAll missing specs slots = true) (hspec : specs[index]? = some spec)
    (hslot : spec.allows missing slot = true) :
    allowAll missing specs (slots.set index slot) = true := by
  induction specs generalizing slots index with
  | nil => cases hspec
  | cons first specs ih =>
    cases slots with
    | nil => cases h
    | cons old slots =>
      rw [allowAll, Bool.and_eq_true] at h
      cases index with
      | zero =>
        cases hspec
        rw [List.set_cons_zero, allowAll, hslot, h.2]
        rfl
      | succ index =>
        rw [List.set_cons_succ, allowAll, h.1, ih h.2 hspec]
        rfl

/-- A placeholder may leave every slot empty. -/
theorem allowAll_replicate_none (specs : List SlotSpec) :
    allowAll true specs (List.replicate specs.length none) = true := by
  induction specs with
  | nil => rfl
  | cons spec specs ih =>
    rw [List.length_cons, List.replicate_succ, allowAll, ih, allows, Bool.or_true]
    rfl

end SlotSpec

/-- Every slot accepts its placeholder. -/
theorem Kind.accepts_placeholder {k : Kind} {spec : SlotSpec} (h : spec ∈ k.slotSpecs) :
    spec.accepts.contains spec.placeholder = true := by
  have hall : k.slotSpecs.all (fun spec => spec.accepts.contains spec.placeholder) = true := by
    cases k <;> decide
  exact List.all_eq_true.mp hall spec h

namespace Green

/-- Whether the slots of an element are what its kind declares. -/
def follows (g : Green) : Bool := g.kind.layout.allows g.isMissing g.slots

/-- Whether every node of a tree follows its layout. -/
def Legal (g : Green) : Prop := ∀ x : Green, x.Within g → x.isNode = true → x.follows = true

/-- Whether everything that stands in some slots is legal. -/
def LegalAll (slots : List Slot) : Prop := ∀ c, some c ∈ slots → c.Legal

variable {g c : Green} {index : Nat}

/-- An element is legal if it follows its layout and everything in its slots is legal. -/
theorem legal_iff : g.Legal ↔ (g.isNode = true → g.follows = true) ∧ LegalAll g.slots := by
  constructor
  · intro h
    exact ⟨h g .refl, fun c hc x hx => h x (.slot hc hx)⟩
  · rintro ⟨hself, hslots⟩ x hx
    rcases within_iff.mp hx with rfl | ⟨c, hc, hx⟩
    · exact hself
    · exact hslots c hc x hx

/-- Everything within a legal element is legal. -/
theorem Legal.of_within (hg : g.Legal) (hc : c.Within g) : c.Legal := fun x hx =>
  hg x (hx.trans hc)

theorem legal_token (t : GreenToken) : (Green.token t).Legal :=
  legal_iff.mpr ⟨fun h => (by cases h), fun _ hc => absurd hc List.not_mem_nil⟩

/-- What stands in a slot of a legal node is permitted there. -/
theorem Legal.permits (hg : g.Legal) (hc : g.slots[index]? = some (some c)) :
    g.kind.permits index c.kind = true := by
  have hnode : g.isNode = true := isNode_of_lt (List.getElem?_eq_some_iff.mp hc).1
  have hfollows := (legal_iff.mp hg).1 hnode
  unfold follows at hfollows
  unfold Kind.permits
  cases hlayout : g.kind.layout with
  | token => rfl
  | fixed specs =>
    rw [hlayout] at hfollows
    obtain ⟨spec, hspec, hallows⟩ := SlotSpec.exists_of_allowAll hfollows hc
    exact (Option.any_eq_true _ _).mpr ⟨spec, hspec, hallows⟩
  | collection members =>
    rw [hlayout] at hfollows
    exact List.all_eq_true.mp hfollows _ (List.mem_of_getElem? hc)

end Green

namespace View

variable {v : View}

/-- The members of a collection are in order if each is there and of a kind that is repeated. -/
theorem memberViolation?_eq_none_iff {members : KindSet} {index : Nat} {slots : List Slot} :
    v.memberViolation? members index slots = none ↔
      (slots.all fun slot => slot.any fun c => members.contains c.kind) = true := by
  induction slots generalizing index with
  | nil => exact iff_of_true rfl rfl
  | cons slot slots ih =>
    rw [List.all_cons, Bool.and_eq_true, ← @ih (index + 1)]
    cases slot with
    | none => simp [memberViolation?]
    | some c =>
      rw [memberViolation?]
      by_cases hc : members.contains c.kind = true
      · simp [hc]
      · simp [hc]

/-- The slots of a node are in order if its specs allow them. -/
theorem slotViolation?_eq_none_iff {specs : List SlotSpec} {slots : List Slot}
    (hlength : specs.length = slots.length) :
    v.slotViolation? (specs.zip slots) = none ↔
      SlotSpec.allowAll v.isMissing specs slots = true := by
  induction specs generalizing slots with
  | nil =>
    obtain rfl := List.eq_nil_of_length_eq_zero hlength.symm
    exact iff_of_true rfl rfl
  | cons spec specs ih =>
    cases slots with
    | nil => cases hlength
    | cons slot slots =>
      rw [List.zip_cons_cons, SlotSpec.allowAll, Bool.and_eq_true, ← ih (Nat.succ.inj hlength)]
      cases slot with
      | none =>
        rw [slotViolation?, SlotSpec.allows]
        by_cases hempty : (spec.isOptional || v.isMissing) = true
        · simp [hempty]
        · simp [hempty]
      | some c =>
        rw [slotViolation?, SlotSpec.allows]
        by_cases hc : spec.accepts.contains c.kind = true
        · simp [hc]
        · simp [hc]

/-- Just the slots that a layout does not allow are reported. -/
theorem layoutViolation?_eq_none_iff : v.layoutViolation? = none ↔ v.green.follows = true := by
  unfold layoutViolation? Green.follows
  rw [← kind, ← isMissing]
  cases v.kind.layout with
  | token => exact iff_of_true rfl rfl
  | collection members => exact memberViolation?_eq_none_iff
  | fixed specs =>
    dsimp only
    by_cases hlength : specs.length = v.slotCount
    · rw [if_pos hlength]
      exact slotViolation?_eq_none_iff hlength
    · rw [if_neg hlength]
      refine iff_of_false (by simp) fun hall => hlength ?_
      exact (SlotSpec.length_of_allowAll hall).symm

/-- Validation finds nothing in a tree of genuine elements just if the tree is legal. -/
theorem isValid_iff (hv : v.green.Genuine) : v.isValid = true ↔ v.green.Legal := by
  rw [isValid, Option.isNone_iff_eq_none, firstViolation?, List.findSome?_eq_none_iff]
  have hnode {d : View} {path : List Nat} (hpath : v.descend? path = some d)
      (hd : d.isNode = true) : d.violation? = none ↔ d.green.follows = true := by
    rw [violation?_of_genuine (hv.of_within (within_of_descend? hpath)) hd,
      layoutViolation?_eq_none_iff]
  constructor
  · intro h x hx hisNode
    obtain ⟨path, d, hpath, rfl⟩ := exists_descend?_of_within hx
    exact (hnode hpath hisNode).mp (h d (mem_nodes.mpr ⟨⟨path, hpath⟩, hisNode⟩))
  · intro h d hd
    obtain ⟨⟨path, hpath⟩, hisNode⟩ := mem_nodes.mp hd
    exact (hnode hpath hisNode).mpr (h d.green (within_of_descend? hpath) hisNode)

end View

/-- What is known at a site and legal. -/
structure Site.Holds (e : Site) (g : Green) : Prop where
  knows : e.Knows g
  legal : g.Legal

/-- Whether everything in some slots is known at a site and legal. -/
def Site.HoldsAll (e : Site) (slots : List Slot) : Prop := ∀ c, some c ∈ slots → e.Holds c

namespace Site

variable {e f : Site} {g c : Green} {slots more : List Slot} {slot : Slot}

theorem Holds.mono (h : e.Holds g) (hf : e.Evolves f) : f.Holds g := ⟨h.knows.mono hf, h.legal⟩

/-- What slots hold is held as the site evolves. -/
theorem HoldsAll.mono (h : e.HoldsAll slots) (hf : e.Evolves f) : f.HoldsAll slots := fun c hc =>
  (h c hc).mono hf

theorem Holds.of_within (h : e.Holds g) (hc : c.Within g) : e.Holds c :=
  ⟨Registry.Knows.of_within h.knows hc, h.legal.of_within hc⟩

theorem Holds.holdsAll_slots (h : e.Holds g) : e.HoldsAll g.slots := fun _ hc =>
  h.of_within (.of_slot hc)

theorem holdsAll_some (h : e.Holds g) : e.HoldsAll [some g] := fun _ hc =>
  Option.some.inj (List.mem_singleton.mp hc) ▸ h

/-- Slots that are held may be put after one another. -/
theorem HoldsAll.append (h : e.HoldsAll slots) (hmore : e.HoldsAll more) :
    e.HoldsAll (slots ++ more) := fun c hc => (List.mem_append.mp hc).elim (h c) (hmore c)

/-- Something that is held may be put into any of the slots. -/
theorem HoldsAll.set (h : e.HoldsAll slots) (hslot : e.HoldsAll [slot]) (index : Nat) :
    e.HoldsAll (slots.set index slot) := fun c hc =>
  (List.mem_or_eq_of_mem_set hc).elim (h c) fun heq => hslot c (List.mem_singleton.mpr heq)

end Site

namespace Alloc

variable {e : Site}

/-- A node whose slots its layout allows is legal. -/
theorem yields_legalNode (kind : Kind) (presence : Presence) {slots : List Slot}
    (h : e.HoldsAll slots) (hallows : kind.layout.allows (presence == .missing) slots = true) :
    Yields (allocNode kind presence slots) e (fun g f => f.Holds g ∧ g.kind = kind) True := by
  obtain ⟨f, hf, ⟨-, hrun⟩ | ⟨g, -, hrun, hg, -⟩⟩ :=
    allocNode_outcome kind presence fun c hc => (h c hc).knows
  · exact ⟨f, hf, .inr ⟨_, hrun, trivial⟩⟩
  · refine ⟨f, hf, .inl ⟨g, hrun, ⟨hg.knows, ?_⟩, ?_⟩⟩
    · obtain ⟨id, rfl⟩ := hg.eq
      exact Green.legal_iff.mpr ⟨fun _ => hallows, fun c hc => (h c hc).legal⟩
    · obtain ⟨id, rfl⟩ := hg.eq
      rfl

/-- A placeholder is legal. -/
theorem yields_legalMissing (kind : Kind) :
    Yields (missing kind) e (fun g f => f.Holds g ∧ g.kind = kind) True := by
  unfold missing
  by_cases hkind : kind.isToken = true
  · rw [if_pos hkind, map_eq_pure_bind]
    obtain ⟨f, hf, ⟨fault, -, hrun⟩ | ⟨t, -, hrun, hdata, hknows, -⟩⟩ :=
      makeToken_outcome e ⟨kind, .missing, "", [], []⟩
    · exact ⟨f, hf, .inr ⟨_, bind_eq_of_error hrun, trivial⟩⟩
    · refine ⟨f, hf, .inl ⟨.token t, bind_eq_of_ok hrun, ⟨hknows, Green.legal_token t⟩, ?_⟩⟩
      rw [Green.kind, hdata]
  · rw [if_neg hkind]
    refine .guard (fun _ => yields_legalNode kind .missing (fun c hc => ?_) ?_) fun _ => trivial
    · cases List.eq_of_mem_replicate hc
    · unfold Kind.slotSpecs
      cases kind.layout with
      | token => rfl
      | fixed specs => exact SlotSpec.allowAll_replicate_none specs
      | collection members => rfl

end Alloc

namespace Green

open Alloc

variable {e : Site} {g : Green} {index : Nat} {slot : Slot} {slots : List Slot}

/-- A slot is filled with something legal that a present node may hold there. -/
theorem yields_legalSlot {spec : SlotSpec}
    (hspec : spec.accepts.contains spec.placeholder = true) (hslot : e.HoldsAll [slot])
    (hallows : spec.allows true slot = true) :
    Yields (fillSlot (some spec) slot) e
      (fun s f => f.HoldsAll [s] ∧ spec.allows false s = true) True := by
  cases slot with
  | some x => exact .pure ⟨hslot, hallows⟩
  | none =>
    unfold fillSlot
    dsimp only
    by_cases hoptional : spec.isOptional = true
    · rw [if_pos hoptional]
      refine .pure ⟨hslot, ?_⟩
      rw [SlotSpec.allows, hoptional, Bool.true_or]
    · rw [if_neg hoptional, map_eq_pure_bind]
      refine (yields_legalMissing spec.placeholder).bind (fun _ => trivial) fun x f _ hout => ?_
      obtain ⟨hx, hkind⟩ := hout
      exact .pure ⟨Site.holdsAll_some hx, by rw [SlotSpec.allows, hkind, hspec]⟩

/-- Once the required slots of a placeholder are filled, a present node may have its slots. -/
theorem yields_legalSlots {specs : List SlotSpec}
    (hspecs : ∀ spec ∈ specs, spec.accepts.contains spec.placeholder = true)
    (hslots : e.HoldsAll slots) (hallows : SlotSpec.allowAll true specs slots = true) :
    Yields (fillRequired specs slots) e
      (fun filled f => f.HoldsAll filled ∧ SlotSpec.allowAll false specs filled = true) True := by
  induction specs generalizing e slots with
  | nil =>
    cases slots with
    | nil => exact .pure ⟨hslots, rfl⟩
    | cons _ _ => cases hallows
  | cons spec specs ih =>
    cases slots with
    | nil => cases hallows
    | cons slot slots =>
      rw [SlotSpec.allowAll, Bool.and_eq_true] at hallows
      rw [fillRequired]
      have hslot : e.HoldsAll [slot] := fun c hc =>
        hslots c (List.mem_singleton.mp hc ▸ List.mem_cons_self)
      refine (yields_legalSlot (hspecs spec List.mem_cons_self) hslot hallows.1).bind
        (fun _ => trivial) fun s f hf hout => ?_
      have hrest : f.HoldsAll slots := fun c hc => (hslots c (List.mem_cons_of_mem _ hc)).mono hf
      refine (ih (fun spec hspec => hspecs spec (List.mem_cons_of_mem _ hspec)) hrest
        hallows.2).bind (fun _ => trivial) fun filled f' hf' hfilled => .pure ⟨?_, ?_⟩
      · exact (hout.1.mono hf').append hfilled.1
      · rw [SlotSpec.allowAll, hout.2, hfilled.2]
        rfl

/-- A collection that gets members of the kinds that it repeats is legal. -/
theorem yields_legalSplice (hg : e.Holds g) (hnode : g.isNode = true) {members : KindSet}
    (hlayout : g.kind.layout = .collection members) (start stop : Nat)
    (hslots : e.HoldsAll slots)
    (hmembers : (slots.all fun slot => slot.any fun c => members.contains c.kind) = true) :
    Yields (g.spliceSlots start stop slots) e (fun c f => f.Holds c ∧ c.kind = g.kind) True := by
  have hfollows := (legal_iff.mp hg.legal).1 hnode
  rw [follows, hlayout, Layout.allows, List.all_eq_true] at hfollows
  have hall : e.HoldsAll (g.slots.take start ++ slots ++ g.slots.drop stop) :=
    (Site.HoldsAll.append (fun c hc => hg.holdsAll_slots c (List.mem_of_mem_take hc))
      hslots).append fun c hc => hg.holdsAll_slots c (List.mem_of_mem_drop hc)
  unfold spliceSlots
  rw [hlayout]
  refine .guard (fun _ => .guard (fun _ => ?_) fun _ => trivial) fun _ => trivial
  refine yields_legalNode g.kind .present hall ?_
  rw [hlayout, Layout.allows, List.all_append, List.all_append, hmembers, Bool.and_true,
    Bool.and_eq_true, List.all_eq_true, List.all_eq_true]
  exact ⟨fun slot hslot => hfollows slot (List.mem_of_mem_take hslot),
    fun slot hslot => hfollows slot (List.mem_of_mem_drop hslot)⟩

/-- A slot is set in a node of which the slots are declared. -/
theorem yields_legalSet (hg : e.Holds g) {specs : List SlotSpec} {spec : SlotSpec}
    (hlayout : g.kind.layout = .fixed specs)
    (hfollows : SlotSpec.allowAll g.isMissing specs g.slots = true)
    (hspec : specs[index]? = some spec) (hslot : e.HoldsAll [slot])
    (hallows : spec.allows false slot = true) :
    Yields (if g.isMissing && slot.any (fun c => !c.isMissing) then do
        let slots ← fillRequired specs g.slots
        allocNode g.kind .present (slots.set index slot)
      else allocNode g.kind g.presence (g.slots.set index slot)) e
      (fun c f => f.Holds c ∧ c.kind = g.kind) True := by
  have hspecs : ∀ spec ∈ specs, spec.accepts.contains spec.placeholder = true := fun spec h =>
    Kind.accepts_placeholder (by rwa [Kind.slotSpecs, hlayout])
  split
  · next hpromotes =>
    rw [Bool.and_eq_true] at hpromotes
    rw [hpromotes.1] at hfollows
    refine (yields_legalSlots hspecs hg.holdsAll_slots hfollows).bind (fun _ => trivial)
      fun filled f hf hout => ?_
    refine yields_legalNode g.kind .present (hout.1.set (hslot.mono hf) index) ?_
    rw [hlayout]
    exact SlotSpec.allowAll_set hout.2 hspec hallows
  · refine yields_legalNode g.kind g.presence (hg.holdsAll_slots.set hslot index) ?_
    rw [hlayout]
    exact SlotSpec.allowAll_set hfollows hspec (SlotSpec.allows_of_present hallows)

/-- A legal node in which a slot gets nothing, or something legal that is permitted there. -/
theorem yields_legalReplaceSlot (hg : e.Holds g) (hslot : e.HoldsAll [slot])
    (hpermits : ∀ x, slot = some x → g.kind.permits index x.kind = true) :
    Yields (g.replaceSlot index slot) e (fun c f => f.Holds c ∧ c.kind = g.kind) True := by
  unfold replaceSlot
  refine .guard (fun hindex => ?_) fun _ => trivial
  have hnode : g.isNode = true := isNode_of_lt hindex
  have hfollows := (legal_iff.mp hg.legal).1 hnode
  unfold follows at hfollows
  unfold Kind.permits at hpermits
  unfold Kind.slotSpecs
  cases hlayout : g.kind.layout with
  | token =>
    have hfill : fillSlot none slot = pure slot := by cases slot <;> rfl
    have hall := hg.holdsAll_slots.set hslot index
    simp only [Layout.members?, Option.isSome_none, Bool.false_eq_true, if_false, Layout.slots,
      List.getElem?_nil, hfill, pure_bind, fillRequired]
    split
    · exact yields_legalNode g.kind .present hall (by rw [hlayout]; rfl)
    · exact yields_legalNode g.kind g.presence hall (by rw [hlayout]; rfl)
  | collection members =>
    rw [hlayout] at hpermits
    refine yields_legalSplice hg hnode hlayout index (index + 1) ?_ ?_
    · cases slot with
      | none => exact fun c hc => by cases hc
      | some x => exact hslot
    · cases slot with
      | none => rfl
      | some x => simpa using hpermits x rfl
  | fixed specs =>
    rw [hlayout] at hfollows hpermits
    obtain ⟨spec, hspec, -⟩ :=
      SlotSpec.exists_of_allowAll hfollows (List.getElem?_eq_getElem hindex)
    have hplaceholder : spec.accepts.contains spec.placeholder = true :=
      Kind.accepts_placeholder (by rw [Kind.slotSpecs, hlayout]; exact List.mem_of_getElem? hspec)
    have hallows : spec.allows true slot = true := by
      cases slot with
      | none => exact Bool.or_true _
      | some x =>
        have hx : (specs[index]?.any fun spec => spec.accepts.contains x.kind) = true :=
          hpermits x rfl
        rw [hspec] at hx
        exact hx
    simp only [Layout.members?, Option.isSome_none, Bool.false_eq_true, if_false, Layout.slots,
      hspec]
    refine (yields_legalSlot hplaceholder hslot hallows).bind (fun _ => trivial)
      fun s f hf hout => ?_
    exact yields_legalSet (hg.mono hf) hlayout hfollows hspec hout.1 hout.2

end Green

end Verbatim
