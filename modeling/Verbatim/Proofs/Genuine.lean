import Verbatim.Proofs.Histories

/-!
# Genuine elements

A node remembers its width and whether it has an error, and a placeholder is to stand for nothing.
An element is genuine if what it remembers is right, here and everywhere below, if its tokens carry
the kinds of leaves, and if no placeholder holds anything but placeholders. Whatever is asked of a
store that shares genuine elements only, it goes on to do so, and what it hands out for genuine
elements is genuine. So in every history of a workspace all that is in use is genuine.
-/

namespace Verbatim

namespace Green

/-- Whether an element is as a store makes it. -/
inductive Genuine : Green → Prop where
  | token {t : GreenToken} (hcheck : t.data.check = .ok ()) (hkind : t.data.kind.isToken = true) :
      Genuine (.token t)
  | node {id : Ident} {kind : Kind} {presence : Presence} {slots : List Slot}
      (hslots : ∀ c, some c ∈ slots → Genuine c) (hwidth : slotsWidth slots < Width.limit)
      (hmissing : presence = .missing → ∀ c, some c ∈ slots → c.isMissing = true) :
      Genuine (.node ⟨id, kind, presence, slotsWidth slots, errorOf kind presence slots⟩ slots)

/-- Whether everything that stands in some slots is genuine. -/
def GenuineAll (slots : List Slot) : Prop := ∀ c, some c ∈ slots → c.Genuine

section

variable {g c : Green} {slots more : List Slot} {slot : Slot}

theorem GenuineAll.nil : GenuineAll [] := fun _ hc => absurd hc List.not_mem_nil

/-- Slots hold genuine elements if the first does and the rest do. -/
theorem GenuineAll.cons_iff :
    GenuineAll (slot :: slots) ↔ GenuineAll [slot] ∧ GenuineAll slots := by
  simp only [GenuineAll, List.mem_cons, List.not_mem_nil, or_false]
  exact ⟨fun h => ⟨fun c hc => h c (.inl hc), fun c hc => h c (.inr hc)⟩,
    fun h c hc => hc.elim (h.1 c) (h.2 c)⟩

/-- Slots that hold genuine elements may be put after one another. -/
theorem GenuineAll.append (h : GenuineAll slots) (hmore : GenuineAll more) :
    GenuineAll (slots ++ more) := fun c hc => (List.mem_append.mp hc).elim (h c) (hmore c)

/-- A genuine element may be put into any of the slots. -/
theorem GenuineAll.set (h : GenuineAll slots) (hslot : GenuineAll [slot]) (index : Nat) :
    GenuineAll (slots.set index slot) := fun c hc =>
  (List.mem_or_eq_of_mem_set hc).elim (h c) fun heq => hslot c (List.mem_singleton.mpr heq)

theorem genuineAll_some (h : g.Genuine) : GenuineAll [some g] := fun _ hc =>
  Option.some.inj (List.mem_singleton.mp hc) ▸ h

/-- The slots of a genuine element hold genuine elements. -/
theorem Genuine.genuineAll_slots (h : g.Genuine) : GenuineAll g.slots := by
  cases h with
  | token _ => exact .nil
  | node hslots _ _ => exact hslots

/-- Everything within a genuine element is genuine. -/
theorem Genuine.of_within (hg : g.Genuine) (hc : c.Within g) : c.Genuine := by
  induction hc with
  | refl => exact hg
  | slot hslot _ ih => exact ih (hg.genuineAll_slots _ hslot)

/-- A genuine placeholder holds placeholders only. -/
theorem Genuine.isMissing_of_slot (hg : g.Genuine) (hmissing : g.isMissing = true)
    (hc : some c ∈ g.slots) : c.isMissing = true := by
  cases hg with
  | token _ => exact absurd hc List.not_mem_nil
  | node _ _ h => exact h (beq_iff_eq.mp hmissing) c hc

end

end Green

/-- Whether everything that a store shares is genuine. -/
structure Store.Genuine (s : Store) : Prop where
  token : ∀ {d : TokenData} {t : GreenToken}, s.tokens[d]? = some t → (Green.token t).Genuine
  node : ∀ {key : NodeKey} {g : Green}, s.nodes[key]? = some g → g.Genuine

namespace Store.Genuine

variable {s : Store}

/-- A store may remember a genuine token. -/
theorem rememberToken (h : s.Genuine) {t : GreenToken} (ht : (Green.token t).Genuine) :
    (s.rememberToken t).Genuine where
  token {d u} hu := by
    rw [Store.rememberToken, Std.HashMap.getElem?_insert] at hu
    split at hu
    · exact Option.some.inj hu ▸ ht
    · exact h.token hu
  node := h.node

/-- A store may remember a genuine node. -/
theorem rememberNode (h : s.Genuine) (key : NodeKey) {g : Green} (hg : g.Genuine) :
    (s.rememberNode key g).Genuine where
  token := h.token
  node {key' x} hx := by
    rw [Store.rememberNode, Std.HashMap.getElem?_insert] at hx
    split at hx
    · exact Option.some.inj hx ▸ hg
    · exact h.node hx

end Store.Genuine

namespace Alloc

/-- A store that shares genuine elements only goes on to do so, and what comes out is good. -/
def Ensures {α : Type} (x : Alloc α) (good : α → Prop) : Prop :=
  ∀ s : Store, s.Genuine → (x s).2.Genuine ∧ ∀ a, (x s).1 = .ok a → good a

section Rules

variable {α β : Type} {x : Alloc α} {k : α → Alloc β} {good : α → Prop} {better : β → Prop}

/-- Giving something good back does nothing to the store. -/
theorem Ensures.pure {a : α} (h : good a) : Ensures (pure a) good := fun _ hs =>
  ⟨hs, fun _ ha => Except.ok.inj ha ▸ h⟩

/-- A failure gives nothing, so there is nothing to ensure. -/
theorem Ensures.throw {fault : Fault} : Ensures (throw fault) good := fun _ hs =>
  ⟨hs, fun _ ha => by cases ha⟩

/-- What is ensured of a first action may be used by the next. -/
theorem Ensures.bind (h : Ensures x good) (hk : ∀ a, good a → Ensures (k a) better) :
    Ensures (x >>= k) better := by
  intro s hs
  obtain ⟨hstore, hgood⟩ := h s hs
  rcases hx : x s with ⟨_ | a, t⟩
  · rw [bind_eq_of_error hx]
    rw [hx] at hstore
    exact ⟨hstore, fun _ ha => by cases ha⟩
  · rw [bind_eq_of_ok hx]
    rw [hx] at hstore hgood
    exact hk a (hgood a rfl) t hstore

/-- A function may be applied to what comes out. -/
theorem Ensures.map {f : α → β} (h : Ensures x good) (hf : ∀ a, good a → better (f a)) :
    Ensures (f <$> x) better := by
  rw [map_eq_pure_bind]
  exact h.bind fun a ha => .pure (hf a ha)

/-- A condition that is checked first. -/
theorem Ensures.guard {c : Prop} [Decidable c] {fault : Fault} {l : PUnit → Alloc α}
    (h : c → Ensures x good) :
    Ensures (if c then x else Bind.bind (MonadExcept.throw fault) l) good := by
  split
  · next hc => exact h hc
  · have hthrow : Ensures (MonadExcept.throw fault) fun _ : PUnit => False := .throw
    exact hthrow.bind fun _ ha => ha.elim

/-- A check that may fail leaves the store as it is. -/
theorem Ensures.ofExcept {r : Except Fault α} (h : ∀ a, r = .ok a → good a) :
    Ensures (ofExcept r) good := by
  cases r with
  | ok a => exact .pure (h a rfl)
  | error fault => exact .throw

/-- An action may look at the store, which shares genuine elements only. -/
theorem Ensures.get {k : Store → Alloc β} (h : ∀ s : Store, s.Genuine → Ensures (k s) better) :
    Ensures (get >>= k) better := fun s hs => h s hs s hs

/-- A change of the store that keeps it genuine ensures nothing else. -/
theorem Ensures.modify {f : Store → Store} (h : ∀ s : Store, s.Genuine → (f s).Genuine) :
    Ensures (modify f) fun _ => True := fun s hs => ⟨h s hs, fun _ _ => trivial⟩

end Rules

/-- A new token is genuine, for it is checked. -/
theorem ensures_freshToken {d : TokenData} (hkind : d.kind.isToken = true) :
    Ensures (freshToken d) fun t => (Green.token t).Genuine := by
  intro s hs
  cases hcheck : d.check with
  | error fault =>
    rw [freshToken_eq_error hcheck]
    exact ⟨hs, fun _ ht => by cases ht⟩
  | ok _ =>
    rw [freshToken_eq hcheck]
    exact ⟨⟨hs.token, hs.node⟩, fun _ ht => Except.ok.inj ht ▸ .token hcheck hkind⟩

/-- A token that is made, or was made before, is genuine. -/
theorem ensures_makeToken (d : TokenData) :
    Ensures (makeToken d) fun t => (Green.token t).Genuine := by
  unfold makeToken
  refine .guard fun hkind => .bind (.ofExcept fun _ _ => trivial) fun _ _ =>
    .bind (.ofExcept fun _ _ => trivial) fun _ _ => .get fun _ _ => ?_
  split
  · refine .get fun s hs => ?_
    cases hfound : s.tokens[d]? with
    | some t => exact .pure (hs.token hfound)
    | none =>
      refine .bind (.modify fun _ hs => ⟨hs.token, hs.node⟩) fun _ _ => ?_
      refine (ensures_freshToken hkind).bind fun t ht => ?_
      exact .bind (.modify fun _ hs => hs.rememberToken ht) fun _ _ => .pure ht
  · exact ensures_freshToken hkind

/-- A token that is spelled the only way its kind can be is genuine. -/
theorem ensures_punctuation (kind : Kind) :
    Ensures (punctuation kind) fun t => (Green.token t).Genuine := by
  unfold punctuation
  split
  · exact ensures_makeToken _
  · exact .throw

section Nodes

variable (kind : Kind) {presence : Presence} {slots : List Slot}

/-- A new node remembers what is right. -/
theorem ensures_freshNode (hslots : Green.GenuineAll slots)
    (hmissing : presence = .missing → ∀ c, some c ∈ slots → c.isMissing = true) :
    Ensures (freshNode kind presence slots) Green.Genuine := by
  intro s hs
  by_cases hwidth : Green.slotsWidth slots < Width.limit
  · rw [freshNode_eq kind presence hwidth]
    exact ⟨⟨hs.token, hs.node⟩, fun _ hg => Except.ok.inj hg ▸ .node hslots hwidth hmissing⟩
  · obtain ⟨fault, herror⟩ := freshNode_eq_error kind presence (Nat.le_of_not_lt hwidth)
    rw [herror]
    exact ⟨hs, fun _ hg => by cases hg⟩

/-- A node that is made, or was made before, is genuine if its slots are. -/
theorem ensures_allocNode (hslots : Green.GenuineAll slots)
    (hmissing : presence = .missing → ∀ c, some c ∈ slots → c.isMissing = true) :
    Ensures (allocNode kind presence slots) Green.Genuine := by
  have hfresh := ensures_freshNode kind hslots hmissing
  unfold allocNode
  refine .get fun _ _ => ?_
  split
  · exact hfresh
  · refine .get fun s hs => ?_
    cases hfound : s.nodes[NodeKey.ofSlots kind presence slots]? with
    | some g => exact .pure (hs.node hfound)
    | none =>
      refine hfresh.bind fun g hg => ?_
      exact .bind (.modify fun _ hs => hs.rememberNode _ hg) fun _ _ => .pure hg

/-- A present node of genuine elements is genuine. -/
theorem ensures_makeNode (hslots : Green.GenuineAll slots) :
    Ensures (makeNode kind slots) Green.Genuine :=
  ensures_allocNode kind hslots fun h => by cases h

/-- A placeholder for a node is genuine: all of its slots are empty. -/
theorem ensures_missingNode : Ensures (missingNode kind) Green.Genuine := by
  have hnone {c : Green} : some c ∉ List.replicate kind.slotSpecs.length none := fun hc => by
    cases List.eq_of_mem_replicate hc
  exact .guard fun _ => ensures_allocNode kind (fun _ hc => absurd hc hnone)
    fun _ _ hc => absurd hc hnone

/-- A placeholder of either sort is genuine. -/
theorem ensures_missing : Ensures (missing kind) Green.Genuine := by
  unfold missing
  split
  · exact (ensures_makeToken _).map fun _ ht => ht
  · exact ensures_missingNode kind

end Nodes

end Alloc

open Alloc

namespace Green

variable {g : Green} {slot : Slot} {slots : List Slot}

/-- A slot that is filled in for a node that becomes present holds something genuine. -/
theorem ensures_fillSlot (spec : Option SlotSpec) (h : GenuineAll [slot]) :
    Ensures (fillSlot spec slot) fun filled => GenuineAll [filled] := by
  cases slot with
  | some x => exact .pure h
  | none =>
    rcases spec with _ | spec
    · exact .pure h
    · unfold fillSlot
      dsimp only
      split
      · exact .pure h
      · exact (ensures_missing spec.placeholder).map fun _ => genuineAll_some

/-- All required slots are filled in with genuine placeholders. -/
theorem ensures_fillRequired (specs : List SlotSpec) (h : GenuineAll slots) :
    Ensures (fillRequired specs slots) GenuineAll := by
  induction specs generalizing slots with
  | nil =>
    simp only [fillRequired]
    exact .pure h
  | cons spec specs ih =>
    cases slots with
    | nil => exact .pure h
    | cons slot slots =>
      obtain ⟨hslot, hslots⟩ := GenuineAll.cons_iff.mp h
      rw [fillRequired]
      refine (ensures_fillSlot (some spec) hslot).bind fun filled hfilled => ?_
      exact (ih hslots).bind fun rest hrest => .pure (GenuineAll.cons_iff.mpr ⟨hfilled, hrest⟩)

/-- Splicing genuine elements into a collection gives a genuine one. -/
theorem ensures_spliceSlots (hg : g.Genuine) (start stop : Nat) (h : GenuineAll slots) :
    Ensures (g.spliceSlots start stop slots) Genuine := by
  have hall : GenuineAll (g.slots.take start ++ slots ++ g.slots.drop stop) :=
    (GenuineAll.append (fun c hc => hg.genuineAll_slots c (List.mem_of_mem_take hc)) h).append
      fun c hc => hg.genuineAll_slots c (List.mem_of_mem_drop hc)
  unfold spliceSlots
  refine .guard fun _ => ?_
  split
  · exact .guard fun _ => ensures_makeNode g.kind hall
  · exact ensures_makeNode g.kind hall

/-- A placeholder either gets nothing but placeholders, or it becomes a present node. -/
theorem ensures_replaceSlot (hg : g.Genuine) (index : Nat) (hslot : GenuineAll [slot]) :
    Ensures (g.replaceSlot index slot) Genuine := by
  unfold replaceSlot
  refine .guard fun _ => ?_
  dsimp only
  split
  · refine ensures_spliceSlots hg _ _ fun c hc => ?_
    cases slot with
    | none => cases hc
    | some x => exact hslot c hc
  · refine (ensures_fillSlot _ hslot).bind fun filled hfilled => ?_
    split
    · refine (ensures_fillRequired _ hg.genuineAll_slots).bind fun slots hslots => ?_
      exact ensures_makeNode g.kind (hslots.set hfilled index)
    · next hstays =>
      refine ensures_allocNode g.kind (hg.genuineAll_slots.set hfilled index)
        fun hmissing c hc => ?_
      have hmissing : g.isMissing = true := beq_iff_eq.mpr hmissing
      rcases List.mem_or_eq_of_mem_set hc with hc | rfl
      · exact hg.isMissing_of_slot hmissing hc
      · simpa [hmissing] using hstays

end Green

/-- Whether a view shows a genuine element, and so do its ancestors. -/
def View.Genuine (v : View) : Prop := ∀ g ∈ v.ancestors.map View.green, g.Genuine

namespace View

theorem genuine_root {store : Nat} {g : Green} : (root store g).Genuine ↔ g.Genuine := by
  simp [View.Genuine, ancestors, green]

/-- A view is genuine if it shows something genuine and so do the views above it. -/
theorem genuine_child {parent : View} {index offset : Nat} {g : Green} :
    (child parent index offset g).Genuine ↔ g.Genuine ∧ parent.Genuine := by
  simp [View.Genuine, ancestors, green]

theorem Genuine.green {v : View} (h : v.Genuine) : v.green.Genuine := by
  cases v with
  | root store g => exact genuine_root.mp h
  | child parent index offset g => exact (genuine_child.mp h).1

/-- Each ancestor that is made anew is genuine. -/
theorem ensures_replaceWith {v : View} (hv : v.Genuine) {x : Green} (hx : x.Genuine) :
    Ensures (v.replaceWith x) View.Genuine := by
  induction v generalizing x with
  | root store g => exact .get fun _ _ => .pure (genuine_root.mpr hx)
  | child parent index offset g ih =>
    have hparent := (genuine_child.mp hv).2
    refine (Green.ensures_replaceSlot hparent.green index (Green.genuineAll_some hx)).bind
      fun c hc => ?_
    exact (ih hparent hc).bind fun u hu => .pure (genuine_child.mpr ⟨hx, hu⟩)

/-- Replacing a slot below the top of a tree gives a view of a genuine tree. -/
theorem ensures_replaceSlot {v : View} (hv : v.Genuine) (index : Nat) {slot : Slot}
    (hslot : Green.GenuineAll [slot]) : Ensures (v.replaceSlot index slot) View.Genuine :=
  (Green.ensures_replaceSlot hv.green index hslot).bind fun _ => ensures_replaceWith hv

end View

/-- Whether everything that a builder has put into slots is genuine. -/
def Builder.Genuine (b : Builder) : Prop := Green.GenuineAll b.slots

namespace Builder

variable {b : Builder}

/-- A builder may be given something genuine. -/
theorem Genuine.fill (hb : b.Genuine) {slot : Slot} (hslot : Green.GenuineAll [slot]) :
    (b.fill slot).Genuine := Green.GenuineAll.cons_iff.mpr ⟨hslot, hb⟩

/-- The node that is closed is made of what the builder was given. -/
theorem ensures_finishNode (hb : b.Genuine) : Ensures b.finishNode Builder.Genuine := by
  unfold finishNode
  cases hopened : b.opened with
  | nil => exact .throw
  | cons top opened =>
    obtain ⟨kind, before⟩ := top
    have hfilled : Green.GenuineAll b.filled.reverse := fun c hc =>
      hb c (List.mem_append_left _ (List.mem_reverse.mp hc))
    have hbefore : Builder.Genuine ⟨opened, before⟩ := fun c hc => by
      refine hb c (List.mem_append_right _ ?_)
      rw [hopened]
      exact hc
    have hnode : Ensures (do
        let node ← makeNode kind b.filled.reverse
        return (⟨opened, some node :: before⟩ : Builder)) Builder.Genuine :=
      (ensures_makeNode kind hfilled).bind fun g hg =>
        .pure (hbefore.fill (Green.genuineAll_some hg))
    dsimp only
    split
    · exact .guard fun _ => hnode
    · exact hnode

/-- Every step of a builder keeps it genuine. -/
theorem ensures_step (hb : b.Genuine) (s : BuildStep) : Ensures (b.step s) Builder.Genuine := by
  cases s with
  | start kind =>
    refine .ofExcept fun c hc => ?_
    unfold start at hc
    split at hc
    · exact Except.ok.inj hc ▸ hb
    · cases hc
  | finish => exact ensures_finishNode hb
  | token kind text leading trailing =>
    exact (ensures_makeToken _).bind fun t ht => .pure (hb.fill (Green.genuineAll_some ht))
  | missing kind =>
    exact (ensures_missing kind).bind fun g hg => .pure (hb.fill (Green.genuineAll_some hg))
  | absent => exact .pure (hb.fill fun c hc => by simp at hc)

/-- So do all of its steps. -/
theorem ensures_steps (hb : b.Genuine) (steps : List BuildStep) :
    Ensures (steps.foldlM step b) Builder.Genuine := by
  induction steps generalizing b with
  | nil => exact .pure hb
  | cons s steps ih =>
    rw [List.foldlM_cons]
    exact (ensures_step hb s).bind fun c hc => ih hc

/-- The root of a genuine builder is genuine. -/
theorem Genuine.root (hb : b.Genuine) {g : Green} (h : b.root = .ok g) : g.Genuine := by
  unfold Builder.root at h
  split at h
  · split at h
    · next head slots hfilled =>
      cases h
      exact hb _ (List.mem_append_left _ (hfilled ▸ List.mem_cons_self))
    · cases h
    · cases h
  · cases h

end Builder

/-- What comes out of a parse is genuine. -/
theorem ensures_parse (text : String) : Ensures (parse text) View.Genuine := by
  have hempty : Builder.Genuine {} := Green.GenuineAll.nil
  refine .bind (.ofExcept fun _ _ => trivial) fun steps _ => ?_
  have hrun : Ensures (Builder.run steps) Green.Genuine :=
    (Builder.ensures_steps hempty steps).bind fun _ hb => .ofExcept fun _ => hb.root
  exact hrun.bind fun g hg => .get fun _ _ => .pure (View.genuine_root.mpr hg)

/-- Whether all trees that a handle keeps in use are genuine. -/
def Handle.Genuine (h : Handle) : Prop := ∀ g ∈ h.trees, g.Genuine

/-- What comes out of a call about genuine elements is genuine. -/
theorem Call.ensures_act {call : Call Green View Builder} (h : ∀ g ∈ call.trees, g.Genuine) :
    Ensures call.act Handle.Genuine := by
  have hgreen {g : Green} (hg : g.Genuine) : (Handle.green g).Genuine := fun _ hx =>
    List.mem_singleton.mp hx ▸ hg
  have hslots {slots : List Slot} (h : ∀ g ∈ slots.filterMap fun slot => slot, g.Genuine) :
      Green.GenuineAll slots := fun c hc => h c (List.mem_filterMap.mpr ⟨some c, hc, rfl⟩)
  have hslot {slot : Slot} (h : ∀ g ∈ slot.toList, g.Genuine) : Green.GenuineAll [slot] := by
    refine hslots ?_
    cases slot <;> exact h
  cases call with
  | token data => exact (ensures_makeToken data).bind fun _ ht => .pure (hgreen ht)
  | punctuation kind => exact (ensures_punctuation kind).bind fun _ ht => .pure (hgreen ht)
  | missingToken kind => exact (ensures_makeToken _).bind fun _ ht => .pure (hgreen ht)
  | missingNode kind => exact (ensures_missingNode kind).map fun _ => hgreen
  | missing kind => exact (ensures_missing kind).map fun _ => hgreen
  | node kind slots => exact (ensures_makeNode kind (hslots h)).map fun _ => hgreen
  | unexpected elements =>
    have helements : Green.GenuineAll (elements.map some) := fun c hc => by
      obtain ⟨x, hx, heq⟩ := List.mem_map.mp hc
      exact Option.some.inj heq ▸ h x hx
    exact (ensures_makeNode .unexpected helements).map fun _ => hgreen
  | replaceSlot g index slot =>
    exact (Green.ensures_replaceSlot (h g List.mem_cons_self) index
      (hslot fun x hx => h x (List.mem_cons_of_mem _ hx))).map fun _ => hgreen
  | spliceSlots g start stop replacement =>
    exact (Green.ensures_spliceSlots (h g List.mem_cons_self) start stop
      (hslots fun x hx => h x (List.mem_cons_of_mem _ hx))).map fun _ => hgreen
  | parse text => exact (ensures_parse text).map fun _ hv => hv
  | replaceChild v index slot =>
    exact (View.ensures_replaceSlot (fun g hg => h g (List.mem_append_left _ hg)) index
      (hslot fun x hx => h x (List.mem_append_right _ hx))).map fun _ hv => hv
  | replaceWith v g =>
    exact (View.ensures_replaceWith (fun x hx => h x (List.mem_append_left _ hx))
      (h g (List.mem_append_right _ List.mem_cons_self))).map fun _ hv => hv
  | build => exact .get fun _ _ => .pure fun _ hg => by cases hg
  | step builder s =>
    have hb : builder.Genuine := hslots h
    refine .get fun _ _ => (Builder.ensures_step hb s).bind fun b hb => .pure fun g hg => ?_
    obtain ⟨slot, hslot, rfl⟩ := List.mem_filterMap.mp hg
    exact hb g hslot
  | finish builder =>
    have hb : builder.Genuine := hslots h
    exact (Ensures.ofExcept fun _ => hb.root).map fun _ => hgreen

/-- A store of which entries were dropped shares genuine elements only, as before. -/
theorem Store.Keeps.genuine {s kept : Store} {outside : List Green} (hk : s.Keeps kept outside)
    (hs : s.Genuine) : kept.Genuine where
  token ht := hs.token (hk.token_iff.mp ht).1
  node hg := hs.node (hk.node_iff.mp hg).1

namespace Workspace

/-- Whether all that is in use is genuine. -/
structure Genuine (w : Workspace) : Prop where
  stores : ∀ s ∈ w.stores, s.Genuine
  trees : ∀ g ∈ w.trees, g.Genuine

variable {w w' : Workspace}

namespace Genuine

/-- What is in use from the handles of a genuine workspace is genuine. -/
theorem of_inUse (h : w.Genuine) {g : Green} (hg : g.InUse w.trees) : g.Genuine := by
  obtain ⟨root, hroot, hwithin⟩ := hg
  exact (h.trees root hroot).of_within hwithin

/-- Whatever is in use in a genuine workspace is genuine. -/
theorem of_live (h : w.Genuine) {g : Green} (hg : w.Live g) : g.Genuine := by
  obtain ⟨root, hroot, hwithin⟩ := hg
  refine Green.Genuine.of_within ?_ hwithin
  rcases List.mem_append.mp hroot with hroot | hroot
  · exact h.trees root hroot
  · obtain ⟨s, hs, hroot⟩ := List.mem_flatMap.mp hroot
    rcases List.mem_append.mp hroot with hroot | hroot
    · obtain ⟨key, hkey⟩ := Store.mem_sharedNodes.mp hroot
      exact (h.stores s hs).node hkey
    · obtain ⟨d, t, ht, rfl⟩ := Store.mem_sharedTokens.mp hroot
      exact (h.stores s hs).token ht

/-- A genuine store may take the place of another. -/
theorem putStore (h : w.Genuine) {t : Store} (ht : t.Genuine) : (w.putStore t).Genuine := by
  refine ⟨fun u hu => ?_, h.trees⟩
  obtain ⟨s, hs, rfl⟩ := List.mem_map.mp hu
  split
  · exact ht
  · exact h.stores s hs

theorem dropStores (h : w.Genuine) : w.dropStores.Genuine :=
  ⟨fun s hs => h.stores s (List.mem_filter.mp hs).1, h.trees⟩

/-- Something genuine may be held. -/
theorem hold (h : w.Genuine) (name : String) {handle : Handle} (hhandle : handle.Genuine) :
    (w.hold name handle).Genuine := by
  refine dropStores ⟨h.stores, fun g hg => ?_⟩
  obtain ⟨entry, hentry, hg⟩ := mem_trees.mp hg
  rcases List.mem_cons.mp hentry with rfl | hentry
  · exact hhandle g hg
  · exact h.trees g (mem_trees.mpr ⟨entry, (List.mem_filter.mp hentry).1, hg⟩)

/-- A call about what is in use keeps a workspace genuine. -/
theorem perform (h : w.Genuine) {s : Store} (hs : s ∈ w.stores) {call : Call Green View Builder}
    (hcall : ∀ g ∈ call.trees, g.InUse w.trees) (name? : Option String) :
    (w.perform s call name?).2.Genuine := by
  have hact := Call.ensures_act (fun g hg => h.of_inUse (hcall g hg)) s (h.stores s hs)
  rcases hrun : call.act s with ⟨_ | handle, t⟩
  · rw [perform_eq_of_error hrun]
    rw [hrun] at hact
    exact h.putStore hact.1
  · rw [perform_eq_of_ok hrun]
    rw [hrun] at hact
    cases name? with
    | none => exact h.putStore hact.1
    | some name => exact (h.putStore hact.1).hold name (hact.2 handle rfl)

/-- No step brings in anything that is not genuine. -/
theorem step (h : w.Genuine) {r : Registry} (hr : w.Sound r) (hstep : w.Step w') :
    w'.Genuine := by
  have hcollect {s : Store} (hs : s ∈ w.stores) : (w.collect s).2.Genuine :=
    h.putStore ((s.keeps_collect (hr.respects s hs) (hr.knows_outside s.tag)).genuine
      (h.stores s hs))
  cases hstep with
  | addStore name config =>
    refine dropStores ⟨fun s hs => ?_, h.trees⟩
    rcases List.mem_cons.mp hs with rfl | hs
    · exact ⟨by simp, by simp⟩
    · exact h.stores s hs
  | call name? hs hcall => exact h.perform hs hcall name?
  | hold name hhandle => exact h.hold name fun g hg => h.of_inUse (hhandle g hg)
  | release name =>
    refine dropStores ⟨h.stores, fun g hg => ?_⟩
    obtain ⟨entry, hentry, hg⟩ := mem_trees.mp hg
    exact h.trees g (mem_trees.mpr ⟨entry, (List.mem_filter.mp hentry).1, hg⟩)
  | collect hs => exact hcollect hs
  | @collectIfGrown s hs =>
    simp only [collectIfGrown, Store.collectIfGrown]
    split
    · exact h.putStore (h.stores s hs)
    · exact hcollect hs

end Genuine

/-- In every workspace that can be reached all that is in use is genuine. -/
theorem Reachable.genuine (hw : w.Reachable) : w.Genuine := by
  induction hw with
  | ofStore name config =>
    refine ⟨fun s hs => ?_, fun g hg => by cases hg⟩
    obtain rfl := List.mem_singleton.mp hs
    exact ⟨by simp, by simp⟩
  | step hw hstep ih =>
    obtain ⟨r, hr⟩ := hw.exists_sound
    exact ih.step hr hstep

end Workspace

end Verbatim
