import Verbatim.Proofs.Assembling
import Verbatim.Proofs.Balance
import Verbatim.Proofs.Histories

/-!
# Trees as streams of steps

A tree is flattened into the steps that build it. What a builder makes of a step depends on the
store only in the identities it hands out, so steps can be followed without a store. If they are the
steps of a tree, then the builder fills one slot with this tree. Whatever steps they are, as long as
none of them fails the builder holds what they flatten.
-/

namespace Verbatim

/-- Whether a node of this layout can have so many slots. -/
def Layout.isArity : Layout → Nat → Bool
  | fixed specs, n => n == specs.length
  | token, _ | collection _, _ => true

/-- Any number of slots will do where the layout is not fixed. -/
theorem Layout.isArity_iff {layout : Layout} {n : Nat} :
    layout.isArity n = true ↔ ∀ specs, layout = .fixed specs → n = specs.length := by
  cases layout with
  | fixed specs => simp [isArity]
  | token | collection members => simp [isArity]

namespace TokenData

variable {d : TokenData}

/-- Whether a present token of this content is of a kind of tokens and longer than its trivia. -/
def isSpelled (d : TokenData) : Bool :=
  d.kind.isToken && d.presence == .present && d.leadingWidth + d.trailingWidth ≤ d.width

theorem presence_of_isSpelled (h : d.isSpelled = true) : d.presence = .present := by
  simp only [isSpelled, Bool.and_eq_true, beq_iff_eq] at h
  exact h.1.2

/-- A present token is accepted if it is spelled and fits. -/
theorem accept_eq_ok_iff (h : d.presence = .present) :
    d.accept = .ok () ↔ d.isSpelled = true ∧ d.width < Width.limit := by
  have hcheck : d.check = .ok () ↔
      d.leadingWidth + d.trailingWidth ≤ d.width ∧ d.width < Width.limit := by
    simp [check_eq_ok_iff, h]
  by_cases hkind : d.kind.isToken = true
  · have hspelled : d.isSpelled = true ↔ d.leadingWidth + d.trailingWidth ≤ d.width := by
      simp [isSpelled, hkind, h]
    rw [hspelled, ← hcheck, accept, if_pos hkind]
    constructor
    · intro haccept
      obtain ⟨_, -, haccept⟩ := exists_of_bind_eq_ok haccept
      obtain ⟨_, -, haccept⟩ := exists_of_bind_eq_ok haccept
      exact haccept
    · intro hok
      obtain ⟨htrivia, hwidth⟩ := hcheck.mp hok
      have hsum (pieces : List TriviaPiece) (hfits : TriviaPiece.total pieces < Width.limit) :
          Width.sum (pieces.map (·.length)) = .ok (TriviaPiece.total pieces) :=
        Width.sum_eq_ok_iff.mpr ⟨sumOf_map id (·.length) pieces, hfits⟩
      rw [hsum d.leading (by rw [leadingWidth] at htrivia; omega),
        hsum d.trailing (by rw [trailingWidth] at htrivia; omega)]
      exact hok
  · rw [accept, if_neg hkind, isSpelled, Bool.eq_false_iff.mpr hkind]
    exact iff_of_false (fun haccept => by cases haccept) (by simp)

end TokenData

namespace Green

mutual
/-- The steps that build an element. -/
def flatten : Green → List BuildStep
  | token t =>
    if t.data.presence = .missing then [.missing t.data.kind]
    else [.token t.data.kind t.data.text t.data.leading t.data.trailing]
  | node head slots =>
    if head.presence = .missing then [.missing head.kind]
    else .start head.kind :: (flattenAll slots ++ [.finish])
/-- The steps that fill some slots. -/
def flattenAll : List Slot → List BuildStep
  | [] => []
  | none :: rest => .absent :: flattenAll rest
  | some g :: rest => g.flatten ++ flattenAll rest
end

/-- Whether an element can come out of steps: nodes have the slots that their layouts declare and
remember what these hold, trivia fits the texts of tokens, and placeholders are those that a store
makes. -/
inductive Buildable : Green → Prop where
  | token {t : GreenToken} (h : t.data.isSpelled = true) : Buildable (.token t)
  | blank {g : Green} {kind : Kind} (h : g.value = .blank kind) : Buildable g
  | node {id : Ident} {kind : Kind} {slots : List Slot} (hkind : kind.isNode = true)
      (harity : kind.layout.isArity slots.length = true)
      (hslots : ∀ c, some c ∈ slots → Buildable c) :
      Buildable (.node ⟨id, kind, .present, slotsWidth slots, errorOf kind .present slots⟩ slots)

/-- A child is no wider than the slots it stands in. -/
theorem width_le_slotsWidth {slots : List Slot} {c : Green} (h : some c ∈ slots) :
    c.width ≤ slotsWidth slots :=
  le_sumOf_of_mem (fun slot : Slot => slot.elim 0 width) h

theorem length_values (slots : List Slot) : (values slots).length = slots.length := by
  rw [values_eq, List.length_map]

theorem values_reverse (slots : List Slot) : values slots.reverse = (values slots).reverse := by
  rw [values_eq, values_eq, List.map_reverse]

/-- Slots are flattened one after the other. -/
theorem flattenAll_append (a b : List Slot) :
    flattenAll (a ++ b) = flattenAll a ++ flattenAll b := by
  induction a with
  | nil => rfl
  | cons slot a ih => cases slot <;> simp [flattenAll, ih]

/-- A placeholder is flattened to a single step. -/
theorem flatten_of_isMissing {g : Green} (h : g.isMissing = true) :
    g.flatten = [.missing g.kind] := by
  cases g with
  | token t => exact if_pos (beq_iff_eq.mp h)
  | node head slots => exact if_pos (beq_iff_eq.mp h)

end Green

namespace Builder

open Green

/-- What a step makes of a builder, as far as this can be said without a store. -/
def advance? (b : Builder) : BuildStep → Option Builder
  | .start kind => if kind.isNode then some ⟨(kind, b.filled) :: b.opened, []⟩ else none
  | .finish =>
    match b.opened with
    | [] => none
    | (kind, before) :: opened =>
      if kind.layout.isArity b.filled.length = true ∧ slotsWidth b.filled.reverse < Width.limit then
        some ⟨opened, some (assemble kind .present b.filled.reverse) :: before⟩
      else none
  | .token kind text leading trailing =>
    let d : TokenData := ⟨kind, .present, text, leading, trailing⟩
    if d.isSpelled = true ∧ d.width < Width.limit then some (b.fill (some (.token ⟨default, d⟩)))
    else none
  | .missing kind => some (b.fill (some (blank kind)))
  | .absent => some (b.fill none)

/-- The tree that steps build, as far as this can be said without a store. -/
def assembled? (steps : List BuildStep) : Option Green := do
  let b ← steps.foldlM advance? {}
  b.root.toOption

section Simulation

variable {b : Builder} {e : Site}

theorem value_fill (b : Builder) (slot : Slot) :
    (b.fill slot).value = b.value.fill (slot.map Green.value) := by
  cases slot <;> rfl

theorem knowsAll_fill {g : Green} (h : e.KnowsAll b.slots) (hg : e.Knows g) :
    e.KnowsAll (b.fill (some g)).slots := by
  intro c hc
  rcases List.mem_cons.mp hc with hc | hc
  · exact Option.some.inj hc ▸ hg
  · exact h c hc

/-- Whether a root comes out can be seen from the value of a builder. -/
theorem root_value (b : Builder) : b.value.root.toOption = b.root.toOption.map Green.value := by
  obtain ⟨opened, filled⟩ := b
  cases opened with
  | cons top opened => rfl
  | nil =>
    rcases filled with _ | ⟨_ | ⟨t | ⟨head, slots⟩⟩, _ | ⟨_ | x, rest⟩⟩ <;> rfl

/-- Whether a node can be finished does not depend on identities, and neither does the node. -/
theorem advance?_value_finish {kind : Kind} {before : List Slot} {opened : List (Kind × List Slot)}
    (hopened : b.opened = (kind, before) :: opened) :
    b.value.advance? .finish =
      if kind.layout.isArity b.filled.length = true ∧ slotsWidth b.filled.reverse < Width.limit then
        some (Builder.value ⟨opened, some (assemble kind .present b.filled.reverse) :: before⟩)
      else none := by
  simp only [advance?, Builder.value, hopened, List.map_cons, values, value_assemble,
    ← values_reverse, slotsWidth_values, length_values]

/-- A finished node is made as without a store. -/
theorem yields_finishNode (h : e.KnowsAll b.slots) :
    Alloc.Yields b.finishNode e
      (fun c f => f.KnowsAll c.slots ∧ b.value.advance? .finish = some c.value)
      (b.value.advance? .finish = none) := by
  cases hopened : b.opened with
  | nil =>
    refine ⟨e, .refl e, .inr ⟨.noOpenNode, ?_, ?_⟩⟩
    · unfold finishNode
      rw [hopened]
      rfl
    · simp [advance?, Builder.value, hopened]
  | cons top opened =>
    obtain ⟨kind, before⟩ := top
    rw [advance?_value_finish hopened]
    by_cases harity : kind.layout.isArity b.filled.length = true
    · rw [finishNode_of_arity hopened (Layout.isArity_iff.mp harity)]
      have hfilled : e.KnowsAll b.filled.reverse := fun c hc =>
        h c (List.mem_append_left _ (List.mem_reverse.mp hc))
      refine (Alloc.yields_assemble kind .present hfilled).bind (fun hwide => ?_)
        fun g f hf hg => .pure ⟨fun c hc => ?_, ?_⟩
      · exact if_neg fun hfits => Nat.not_lt.mpr hwide hfits.2
      · rcases List.mem_cons.mp hc with hc | hc
        · exact Option.some.inj hc ▸ hg.1
        · refine (h.mono hf) c (List.mem_append_right _ ?_)
          rwa [hopened]
      · rw [if_pos ⟨harity, hg.2.2⟩]
        simp only [Builder.value, values, hg.2.1]
    · obtain ⟨specs, hspecs⟩ := Classical.not_forall.mp (mt Layout.isArity_iff.mpr harity)
      obtain ⟨hlayout, hlength⟩ := Classical.not_imp.mp hspecs
      have hfault := finishNode_of_not_arity hopened hlayout hlength e.store
      exact ⟨e, .refl e, .inr ⟨_, hfault, if_neg fun hfits => harity hfits.1⟩⟩

/-- A step does with a store what it does without one, and fails just if it does so there. -/
theorem yields_step (h : e.KnowsAll b.slots) (s : BuildStep) :
    Alloc.Yields (b.step s) e (fun c f => f.KnowsAll c.slots ∧ b.value.advance? s = some c.value)
      (b.value.advance? s = none) := by
  cases s with
  | start kind =>
    change Alloc.Yields (ofExcept (b.start kind)) e _ (advance? _ (.start kind) = none)
    rw [Builder.start, advance?]
    by_cases hkind : kind.isNode = true
    · rw [if_pos hkind, if_pos hkind]
      exact .pure ⟨fun c hc => h c (by simpa [slots] using hc), rfl⟩
    · rw [if_neg hkind, if_neg hkind]
      exact ⟨e, .refl e, .inr ⟨_, Alloc.ofExcept_eq_of_error rfl, rfl⟩⟩
  | finish => exact yields_finishNode h
  | token kind text leading trailing =>
    obtain ⟨f, hf, ⟨fault, hfault, hrun⟩ | ⟨t, haccept, hrun, hdata, hknows, -⟩⟩ :=
      Alloc.makeToken_outcome e ⟨kind, .present, text, leading, trailing⟩
    · refine ⟨f, hf, .inr ⟨fault, Alloc.bind_eq_of_error hrun, if_neg fun hfits => ?_⟩⟩
      cases hfault.symm.trans ((TokenData.accept_eq_ok_iff rfl).mpr hfits)
    · refine ⟨f, hf, .inl ⟨_, Alloc.bind_eq_of_ok hrun, knowsAll_fill (h.mono hf) hknows, ?_⟩⟩
      have hfits := (TokenData.accept_eq_ok_iff rfl).mp haccept
      rw [value_fill, advance?, if_pos hfits, Option.map_some, Green.value, hdata]
  | missing kind =>
    refine (Alloc.yields_blank kind).bind False.elim fun g f hf hg => .pure ⟨?_, ?_⟩
    · exact knowsAll_fill (h.mono hf) hg.1
    · rw [value_fill, Option.map_some, hg.2]
      rfl
  | absent => exact .pure ⟨fun c hc => h c (by simpa [fill, slots] using hc), rfl⟩

/-- Steps give what they give for values, or fail where they do for values. -/
theorem yields_steps (h : e.KnowsAll b.slots) (steps : List BuildStep) :
    Alloc.Yields (steps.foldlM step b) e
      (fun c f => f.KnowsAll c.slots ∧ steps.foldlM advance? b.value = some c.value)
      (steps.foldlM advance? b.value = none) := by
  induction steps generalizing b e with
  | nil => exact .pure ⟨h, rfl⟩
  | cons s steps ih =>
    rw [List.foldlM_cons, List.foldlM_cons]
    refine (yields_step h s).bind (fun hnone => by rw [hnone]; rfl) fun c f _ hc => ?_
    rw [hc.2]
    exact ih hc.1

/-- The tree that comes out of steps is the one that is built without a store. -/
theorem yields_run (e : Site) (steps : List BuildStep) :
    Alloc.Yields (run steps) e (fun g _ => assembled? steps = some g.value)
      (assembled? steps = none) := by
  have hempty : e.KnowsAll ({} : Builder).slots := fun c hc => absurd hc List.not_mem_nil
  have hvalue : ({} : Builder).value = {} := rfl
  have hsteps := yields_steps hempty steps
  rw [hvalue] at hsteps
  refine hsteps.bind (fun hnone => by rw [assembled?, hnone]; rfl) fun c f _ hc => ?_
  have hroot : assembled? steps = c.root.toOption.map Green.value := by
    rw [← root_value, assembled?, hc.2]
    rfl
  rw [hroot]
  cases hc : c.root with
  | ok g => exact ⟨f, .refl f, .inl ⟨g, Alloc.ofExcept_eq_of_ok rfl, rfl⟩⟩
  | error fault => exact ⟨f, .refl f, .inr ⟨fault, Alloc.ofExcept_eq_of_error rfl, rfl⟩⟩

end Simulation

section Flattening

variable {b c : Builder} {s : BuildStep} {steps : List BuildStep}

/-- If the steps of each element fill a slot with it, the steps of slots fill them. -/
theorem foldlM_flattenAll {slots : List Slot}
    (h : ∀ c, some c ∈ slots → ∀ b : Builder,
      c.flatten.foldlM advance? b = some (b.fill (some c.value))) (b : Builder) :
    (flattenAll slots).foldlM advance? b =
      some ⟨b.opened, (values slots).reverse ++ b.filled⟩ := by
  induction slots generalizing b with
  | nil => rfl
  | cons slot slots ih =>
    have hrest := ih fun c hc => h c (List.mem_cons_of_mem _ hc)
    cases slot with
    | none =>
      rw [flattenAll, List.foldlM_cons]
      change (flattenAll slots).foldlM advance? (b.fill none) = _
      rw [hrest]
      simp [fill, values]
    | some g =>
      rw [flattenAll, List.foldlM_append, h g List.mem_cons_self]
      change (flattenAll slots).foldlM advance? (b.fill (some g.value)) = _
      rw [hrest]
      simp [fill, values]

/-- The steps of a tree that fits fill a slot with it. -/
theorem foldlM_flatten {tree : Green} (h : tree.Buildable) (hwidth : tree.width < Width.limit)
    (b : Builder) : tree.flatten.foldlM advance? b = some (b.fill (some tree.value)) := by
  induction h generalizing b with
  | @token t hspelled =>
    have hpresent : t.data.presence = .present := t.data.presence_of_isSpelled hspelled
    obtain ⟨id, kind, presence, text, leading, trailing⟩ := t
    obtain rfl : presence = .present := hpresent
    change (advance? b (.token kind text leading trailing)).bind pure = _
    rw [advance?, if_pos ⟨hspelled, hwidth⟩]
    rfl
  | @blank g kind hblank =>
    have hmissing : g.isMissing = true := by rw [← isMissing_value, hblank, isMissing_blank]
    have hkind : g.kind = kind := by rw [← kind_value, hblank, kind_blank]
    rw [flatten_of_isMissing hmissing, hkind, hblank]
    rfl
  | @node id kind slots hkind harity hslots ih =>
    have hslots : ∀ c, some c ∈ slots → ∀ b : Builder,
        c.flatten.foldlM advance? b = some (b.fill (some c.value)) := fun c hc =>
      ih c hc (Nat.lt_of_le_of_lt (width_le_slotsWidth hc) hwidth)
    have hstart : b.advance? (.start kind) = some ⟨(kind, b.filled) :: b.opened, []⟩ := if_pos hkind
    have hfinish : advance? ⟨(kind, b.filled) :: b.opened, (values slots).reverse ++ []⟩ .finish =
        some (b.fill (some (assemble kind .present (values slots)))) := by
      simp only [advance?, List.append_nil, List.length_reverse, List.reverse_reverse,
        length_values, slotsWidth_values]
      exact if_pos ⟨harity, hwidth⟩
    rw [flatten, if_neg (fun h => by cases h), List.foldlM_cons, hstart]
    change (flattenAll slots ++ [BuildStep.finish]).foldlM advance? _ = _
    rw [List.foldlM_append, foldlM_flattenAll hslots]
    change (advance? _ .finish).bind pure = _
    rw [hfinish, ← value_assemble]
    rfl

/-- The steps that led into open nodes. -/
def opening : List (Kind × List Slot) → List BuildStep
  | [] => []
  | (kind, before) :: opened =>
    opening opened ++ (flattenAll before.reverse ++ [.start kind])

/-- The steps that led to a builder. -/
def taken (b : Builder) : List BuildStep := opening b.opened ++ flattenAll b.filled.reverse

/-- A builder holds what can come out of steps, and these steps led to it. -/
structure Retells (b : Builder) (steps : List BuildStep) : Prop where
  steps_eq : steps = b.taken
  isNode : ∀ p ∈ b.opened, p.1.isNode = true
  buildable : ∀ c, some c ∈ b.slots → c.Buildable ∧ c.width < Width.limit

theorem taken_fill (b : Builder) (slot : Slot) :
    (b.fill slot).taken = b.taken ++ flattenAll [slot] := by
  simp [taken, fill, flattenAll_append]

/-- A step that fills a slot is told again by what the slot holds. -/
theorem Retells.fill {slot : Slot} (h : b.Retells steps) (hs : flattenAll [slot] = [s])
    (hslot : ∀ c, slot = some c → c.Buildable ∧ c.width < Width.limit) :
    (b.fill slot).Retells (steps ++ [s]) where
  steps_eq := by rw [taken_fill, h.steps_eq, hs]
  isNode := h.isNode
  buildable c hc := by
    rcases List.mem_cons.mp hc with hc | hc
    · exact hslot c hc.symm
    · exact h.buildable c hc

/-- A step that opens a node is told again by the open node. -/
theorem Retells.start {kind : Kind} (h : b.Retells steps) (hkind : kind.isNode = true) :
    Retells ⟨(kind, b.filled) :: b.opened, []⟩ (steps ++ [.start kind]) where
  steps_eq := by simp [h.steps_eq, taken, opening, flattenAll]
  isNode p hp := by
    rcases List.mem_cons.mp hp with rfl | hp
    · exact hkind
    · exact h.isNode p hp
  buildable d hd := h.buildable d (by simpa [slots] using hd)

/-- A step that closes a node is told again by the node. -/
theorem Retells.finish {kind : Kind} {before : List Slot} {opened : List (Kind × List Slot)}
    (h : b.Retells steps) (hopened : b.opened = (kind, before) :: opened)
    (harity : kind.layout.isArity b.filled.length = true)
    (hwidth : slotsWidth b.filled.reverse < Width.limit) :
    Retells ⟨opened, some (assemble kind .present b.filled.reverse) :: before⟩
      (steps ++ [.finish]) where
  steps_eq := by
    simp [h.steps_eq, taken, hopened, opening, flattenAll_append, flattenAll, flatten, assemble]
  isNode p hp := h.isNode p (hopened ▸ List.mem_cons_of_mem _ hp)
  buildable d hd := by
    rcases List.mem_cons.mp hd with hd | hd
    · obtain rfl := Option.some.inj hd
      refine ⟨.node (h.isNode (kind, before) (by simp [hopened])) ?_ fun c hc => ?_, hwidth⟩
      · rwa [List.length_reverse]
      · exact (h.buildable c (List.mem_append_left _ (List.mem_reverse.mp hc))).1
    · refine h.buildable d (List.mem_append_right _ ?_)
      rwa [hopened]

/-- One step goes on with the story. -/
theorem Retells.advance (h : b.Retells steps) (hs : b.advance? s = some c) :
    c.Retells (steps ++ [s]) := by
  cases s with
  | start kind =>
    obtain ⟨hkind, hc⟩ := Option.ite_none_right_eq_some.mp hs
    obtain rfl := Option.some.inj hc
    exact h.start hkind
  | finish =>
    cases hopened : b.opened with
    | nil => simp [advance?, hopened] at hs
    | cons top opened =>
      simp only [advance?, hopened] at hs
      obtain ⟨⟨harity, hwidth⟩, hc⟩ := Option.ite_none_right_eq_some.mp hs
      obtain rfl := Option.some.inj hc
      exact h.finish hopened harity hwidth
  | token kind text leading trailing =>
    obtain ⟨⟨hspelled, hwidth⟩, hc⟩ := Option.ite_none_right_eq_some.mp hs
    obtain rfl := Option.some.inj hc
    refine h.fill rfl fun d hd => ?_
    obtain rfl := Option.some.inj hd
    exact ⟨.token hspelled, hwidth⟩
  | missing kind =>
    obtain rfl := Option.some.inj hs
    refine h.fill ?_ fun d hd => ?_
    · rw [flattenAll, flatten_of_isMissing (isMissing_blank kind), kind_blank]
      rfl
    · obtain rfl := Option.some.inj hd
      exact ⟨.blank (value_blank kind), by rw [width_blank]; decide⟩
  | absent =>
    obtain rfl := Option.some.inj hs
    exact h.fill rfl fun d hd => by cases hd

/-- A builder tells again all the steps that led to it. -/
theorem Retells.foldlM {more : List BuildStep} (h : b.Retells steps)
    (hmore : more.foldlM advance? b = some c) : c.Retells (steps ++ more) := by
  induction more generalizing b steps with
  | nil =>
    obtain rfl := Option.some.inj hmore
    rwa [List.append_nil]
  | cons s more ih =>
    rw [List.foldlM_cons] at hmore
    obtain ⟨d, hd, hmore⟩ := Option.bind_eq_some_iff.mp hmore
    rw [List.append_cons]
    exact ih (h.advance hd) hmore

/-- A builder that is finished holds its tree only. -/
theorem of_root_eq_some {tree : Green} (h : b.root.toOption = some tree) :
    b = ⟨[], [some tree]⟩ ∧ tree.isNode = true := by
  obtain ⟨opened, filled⟩ := b
  unfold root at h
  split at h
  · next hopened =>
    obtain rfl := List.isEmpty_iff.mp hopened
    split at h
    · next head slots hfilled =>
      obtain rfl := Option.some.inj h
      exact ⟨by rw [← hfilled], rfl⟩
    · cases h
    · cases h
  · cases h

/-- What is built without a store is a tree whose steps were taken. -/
theorem of_assembled?_eq_some {tree : Green} (h : assembled? steps = some tree) :
    tree.isNode = true ∧ tree.Buildable ∧ tree.width < Width.limit ∧ steps = tree.flatten := by
  obtain ⟨c, hc, hroot⟩ := Option.bind_eq_some_iff.mp h
  have hempty : Retells {} [] := ⟨rfl, by simp, by simp [slots]⟩
  obtain ⟨hsteps, -, hbuildable⟩ := hempty.foldlM hc
  obtain ⟨rfl, hnode⟩ := of_root_eq_some hroot
  obtain ⟨htree, hwidth⟩ := hbuildable tree (by simp [slots])
  refine ⟨hnode, htree, hwidth, ?_⟩
  rw [List.nil_append] at hsteps
  simpa [taken, opening, flattenAll] using hsteps

/-- A tree is built from its steps without a store. -/
theorem assembled?_flatten {tree : Green} (hnode : tree.isNode = true) (h : tree.Buildable)
    (hwidth : tree.width < Width.limit) : assembled? tree.flatten = some tree.value := by
  rw [assembled?, foldlM_flatten h hwidth]
  cases tree with
  | token t => cases hnode
  | node head slots => rfl

end Flattening

end Builder

namespace Workspace

/-- In every store of a workspace that can be reached, a tree comes out of steps just if they
flatten a node that can be built and fits, and it is equal to this node by value. -/
theorem Reachable.run_eq_ok_iff_flatten {w : Workspace} (hw : w.Reachable) {s : Store}
    (hs : s ∈ w.stores) (steps : List BuildStep) :
    ((∃ g t, Builder.run steps s = (.ok g, t)) ↔
      ∃ tree : Green, tree.isNode = true ∧ tree.Buildable ∧ tree.width < Width.limit ∧
        steps = tree.flatten) ∧
    ∀ g t, Builder.run steps s = (.ok g, t) →
      ∀ tree : Green, tree.isNode = true → tree.Buildable → tree.width < Width.limit →
        steps = tree.flatten → g.value = tree.value ∧ g.sameValue tree = true := by
  obtain ⟨r, hr⟩ := hw.exists_sound
  obtain ⟨f, -, ⟨g, hrun, hbuilt⟩ | ⟨fault, hrun, hnone⟩⟩ := Builder.yields_run (hr.site hs) steps
  · refine ⟨iff_of_true ⟨g, _, hrun⟩ ⟨g.value, Builder.of_assembled?_eq_some hbuilt⟩, ?_⟩
    rintro g' t hrun' tree hnode htree hwidth rfl
    obtain rfl : g' = g := by
      cases hrun'.symm.trans hrun
      rfl
    have heq : g'.value = tree.value :=
      Option.some.inj (hbuilt.symm.trans (Builder.assembled?_flatten hnode htree hwidth))
    exact ⟨heq, Green.sameValue_of_value_eq heq⟩
  · have hfails (g : Green) (t : Store) : Builder.run steps s ≠ (.ok g, t) := by
      intro hok
      cases hok.symm.trans hrun
    refine ⟨iff_of_false ?_ ?_, fun g t hok => absurd hok (hfails g t)⟩
    · rintro ⟨g, t, hok⟩
      exact hfails g t hok
    · rintro ⟨tree, hnode, htree, hwidth, rfl⟩
      cases hnone.symm.trans (Builder.assembled?_flatten hnode htree hwidth)

/-- A declaration whose name and whose initializer are missing comes out of its six steps. -/
theorem Reachable.run_eq_ok_iff_flatten_let :
    ∃ (w : Workspace) (s t : Store) (tree g : Green), w.Reachable ∧ s ∈ w.stores ∧
      tree.isNode = true ∧ tree.Buildable ∧ tree.width < Width.limit ∧
      tree.flatten = [.start .letDecl, .token .letKw "let " [] [⟨.whitespace, 1⟩],
        .missing .ident, .absent, .missing .initializerClause, .finish] ∧
      Builder.run tree.flatten s = (.ok g, t) ∧ g.value = tree.value ∧
      g.sameValue tree = true := by
  let keyword : TokenData := ⟨.letKw, .present, "let ", [], [⟨.whitespace, 1⟩]⟩
  let tree : Green := .assemble .letDecl .present
    [some (.token ⟨default, keyword⟩), some (.blank .ident), none, some (.blank .initializerClause)]
  have hw : (Workspace.ofStore "main" {}).Reachable := .ofStore "main" {}
  have htree : tree.Buildable := by
    refine .node rfl rfl fun c hc => ?_
    simp only [List.mem_cons, Option.some.injEq, reduceCtorEq, List.not_mem_nil, or_false,
      false_or] at hc
    rcases hc with rfl | rfl | rfl
    · exact .token rfl
    · exact .blank (Green.value_blank _)
    · exact .blank (Green.value_blank _)
  obtain ⟨s, hs⟩ : ∃ s, s ∈ (Workspace.ofStore "main" {}).stores := ⟨_, List.mem_singleton_self _⟩
  obtain ⟨hiff, hvalue⟩ := hw.run_eq_ok_iff_flatten hs tree.flatten
  obtain ⟨g, t, hrun⟩ := hiff.mpr ⟨tree, rfl, htree, by decide, rfl⟩
  exact ⟨_, s, t, tree, g, hw, hs, rfl, htree, by decide, rfl, hrun,
    hvalue g t hrun tree rfl htree (by decide) rfl⟩

end Workspace

end Verbatim
