import Verbatim.Proofs.Coherence

/-!
# Sites

A site is a store together with a registry that agrees with it. Making an element leads from one
site to another: nothing that was known is forgotten, nothing that was shared is lost, and each new
element is the store's own and is shared, if the store is to share it. This holds whether or not the
element comes out in the end.
-/

namespace Verbatim

namespace Registry

variable {r : Registry} {g : Green} {hwidth : g.width < Width.limit}
  {hnode : ∀ head slots, g = .node head slots →
    head.width = Green.slotsWidth slots ∧
      head.hasError = Green.errorOf head.kind head.presence slots ∧ r.KnowsAll slots}
  {hnew : r.find g.id = none}

/-- A registry with one more element knows no others. -/
theorem knows_or_eq_of_knows_add {x : Green} (hx : (r.add g hwidth hnode hnew).Knows x) :
    r.Knows x ∨ x = g := by
  by_cases hid : x.id = g.id
  · exact .inr (hx.eq_of_id knows_add hid)
  · refine .inl ?_
    rw [Knows, find_add_of_ne hid] at hx
    exact hx

end Registry

namespace Store

/-- Whether a store finds an element when it is asked for its like, if it shares such elements. -/
def Shares (s : Store) : Green → Prop
  | .token t => s.config.sharesTokens = true → s.tokens[t.data]? = some t
  | .node head slots => slots.length ≤ s.config.maxSharedSlots →
    s.nodes[NodeKey.ofSlots head.kind head.presence slots]? = some (.node head slots)

variable {s : Store} {t : GreenToken} {head : NodeHead} {slots : List Slot} {g : Green}

/-- Interning a text changes nothing about what is shared. -/
theorem shares_internText {text : String} : (s.internText text).Shares g ↔ s.Shares g := by
  cases g <;> rfl

theorem shares_countIssued : s.countIssued.Shares g ↔ s.Shares g := by cases g <;> rfl

/-- A token that is remembered is shared. -/
theorem shares_rememberToken : (s.rememberToken t).Shares (.token t) := fun _ =>
  Std.HashMap.getElem?_insert_self

/-- A node that is remembered is shared. -/
theorem shares_rememberNode :
    (s.rememberNode (.ofSlots head.kind head.presence slots) (.node head slots)).Shares
      (.node head slots) := fun _ =>
  Std.HashMap.getElem?_insert_self

/-- Remembering a token that was not there takes nothing from the others. -/
theorem Shares.rememberToken (hg : s.Shares g) (hnone : s.tokens[t.data]? = none) :
    (s.rememberToken t).Shares g := by
  cases g with
  | token u =>
    intro hshares
    have hu : s.tokens[u.data]? = some u := hg hshares
    have hne : (t.data == u.data) = false := by
      refine beq_false_of_ne fun h => ?_
      rw [h, hu] at hnone
      cases hnone
    simpa [Store.rememberToken, Std.HashMap.getElem?_insert, hne] using hu
  | node head slots => exact hg

/-- Remembering a node under a key that was not there takes nothing from the others. -/
theorem Shares.rememberNode {key : NodeKey} {x : Green} (hg : s.Shares g)
    (hnone : s.nodes[key]? = none) : (s.rememberNode key x).Shares g := by
  cases g with
  | token u => exact hg
  | node head slots =>
    intro hsmall
    have hfound := hg hsmall
    have hne : (key == NodeKey.ofSlots head.kind head.presence slots) = false := by
      refine beq_false_of_ne fun h => ?_
      rw [h, hfound] at hnone
      cases hnone
    simpa [Store.rememberNode, Std.HashMap.getElem?_insert, hne] using hfound

/-- Whether a store is to share elements like this one. -/
def mayShare (s : Store) : Green → Bool
  | .token _ => s.config.sharesTokens
  | .node _ slots => slots.length ≤ s.config.maxSharedSlots

/-- Whether a store remembers nothing but what it is to share. -/
structure Frugal (s : Store) : Prop where
  text : s.config.sharesTokens = false → s.texts.size = 0
  token : s.config.sharesTokens = false → s.tokens.size = 0
  node : ∀ {key : NodeKey} {g : Green}, s.nodes[key]? = some g → s.mayShare g = true

theorem Frugal.countIssued (h : s.Frugal) : s.countIssued.Frugal := ⟨h.text, h.token, h.node⟩

/-- A store that shares tokens may remember texts. -/
theorem Frugal.internText (h : s.Frugal) (hshares : s.config.sharesTokens = true) (text : String) :
    (s.internText text).Frugal where
  text hnot := absurd (hnot.symm.trans hshares) Bool.false_ne_true
  token := h.token
  node := h.node

/-- A store that shares tokens may remember one. -/
theorem Frugal.rememberToken (h : s.Frugal) (hshares : s.config.sharesTokens = true)
    (t : GreenToken) : (s.rememberToken t).Frugal where
  text := h.text
  token hnot := absurd (hnot.symm.trans hshares) Bool.false_ne_true
  node := h.node

/-- A store may remember a node that is small enough. -/
theorem Frugal.rememberNode (h : s.Frugal) (key : NodeKey) (hg : s.mayShare g = true) :
    (s.rememberNode key g).Frugal where
  text := h.text
  token := h.token
  node {key' x} hx := by
    rw [Store.rememberNode, Std.HashMap.getElem?_insert] at hx
    split at hx
    · exact Option.some.inj hx ▸ hg
    · exact h.node hx

end Store

/-- A store with a registry that agrees with it, in which every token keeps its contract. -/
structure Site where
  /-- The store. -/
  store : Store
  /-- The registry that agrees with the store. -/
  registry : Registry
  respects : store.Respects registry
  checked : ∀ {t : GreenToken}, registry.Knows (.token t) → t.data.check = .ok ()

namespace Site

/-- Whether an element is known at a site. -/
def Knows (e : Site) (g : Green) : Prop := e.registry.Knows g

/-- Whether everything in some slots is known at a site. -/
def KnowsAll (e : Site) (slots : List Slot) : Prop := e.registry.KnowsAll slots

/-- What can become of a site while elements are made. -/
structure Evolves (e f : Site) : Prop where
  le : e.registry.Le f.registry
  tag_eq : f.store.tag = e.store.tag
  config_eq : f.store.config = e.store.config
  shares : ∀ {g : Green}, e.store.Shares g → f.store.Shares g
  new : ∀ {g : Green}, f.Knows g → e.Knows g ∨ g.id.store = e.store.tag ∧ f.store.Shares g
  frugal : e.store.Frugal → f.store.Frugal

variable {e f h : Site}

theorem Evolves.refl (e : Site) : e.Evolves e := ⟨.refl _, rfl, rfl, id, .inl, id⟩

/-- What evolves twice evolves. -/
theorem Evolves.trans (hf : e.Evolves f) (hh : f.Evolves h) : e.Evolves h where
  le := hf.le.trans hh.le
  tag_eq := hh.tag_eq.trans hf.tag_eq
  config_eq := hh.config_eq.trans hf.config_eq
  shares hg := hh.shares (hf.shares hg)
  new hg := by
    rcases hh.new hg with hg | ⟨htag, hshares⟩
    · rcases hf.new hg with hg | ⟨htag, hshares⟩
      · exact .inl hg
      · exact .inr ⟨htag, hh.shares hshares⟩
    · exact .inr ⟨htag.trans hf.tag_eq, hshares⟩
  frugal he := hh.frugal (hf.frugal he)

/-- What is known stays known as a site evolves. -/
theorem Knows.mono {g : Green} (hg : e.Knows g) (hf : e.Evolves f) : f.Knows g :=
  Registry.Knows.mono hg hf.le

theorem KnowsAll.mono {slots : List Slot} (hs : e.KnowsAll slots) (hf : e.Evolves f) :
    f.KnowsAll slots :=
  Registry.KnowsAll.mono hs hf.le

/-- A node that is too large to be shared has an identity that stood for nothing. -/
def Fresh (e : Site) (g : Green) : Prop :=
  e.store.config.maxSharedSlots < g.slots.length → e.registry.find g.id = none

/-- An element that is not to be shared has an identity that stood for nothing. -/
def New (e : Site) (g : Green) : Prop :=
  e.store.mayShare g = false → e.registry.find g.id = none

/-- A large node that is new is so whether or not tokens are shared. -/
theorem New.fresh {g : Green} (hg : e.New g) : e.Fresh g := by
  intro hlarge
  cases g with
  | token t => exact absurd hlarge (Nat.not_lt_zero _)
  | node head slots => exact hg (decide_eq_false (Nat.not_le.mpr hlarge))

/-- What a store may share does not change as a site evolves. -/
theorem mayShare_eq (hf : e.Evolves f) (g : Green) : f.store.mayShare g = e.store.mayShare g := by
  cases g <;> simp only [Store.mayShare, hf.config_eq]

/-- What is new at a later site is new at an earlier one. -/
theorem New.of_evolves {g : Green} (hg : f.New g) (hf : e.Evolves f) : e.New g := by
  intro hlarge
  have hnone := hg ((mayShare_eq hf g).trans hlarge)
  cases hfind : e.registry.find g.id with
  | none => rfl
  | some x => rw [hf.le _ _ hfind] at hnone; cases hnone

/-- The site after a text was interned. -/
def internText (e : Site) (text : String) : Site :=
  ⟨e.store.internText text, e.registry, e.respects.internText text, e.checked⟩

/-- A store that shares tokens may intern a text. -/
theorem evolves_internText (e : Site) (hshares : e.store.config.sharesTokens = true)
    (text : String) : e.Evolves (e.internText text) :=
  ⟨.refl _, rfl, rfl, Store.shares_internText.mpr, .inl, fun he => he.internText hshares text⟩

/-- A registry that knows what is known at a site and an element with the next identity. -/
theorem exists_registry (e : Site) {g : Green} (hid : g.id = e.store.nextIdent)
    (hwidth : g.width < Width.limit)
    (hnode : ∀ head slots, g = .node head slots → head.width = Green.slotsWidth slots ∧
      head.hasError = Green.errorOf head.kind head.presence slots ∧ e.KnowsAll slots)
    (hcheck : ∀ t, g = .token t → t.data.check = .ok ()) :
    ∃ q : Registry, e.store.countIssued.Respects q ∧ e.registry.Le q ∧ q.Knows g ∧
      (∀ x, q.Knows x → e.Knows x ∨ x = g) ∧
      ∀ {t : GreenToken}, q.Knows (.token t) → t.data.check = .ok () := by
  refine ⟨_, e.respects.countIssued hid hwidth hnode, Registry.le_add, Registry.knows_add,
    fun x => Registry.knows_or_eq_of_knows_add, fun ht => ?_⟩
  rcases Registry.knows_or_eq_of_knows_add ht with ht | ht
  · exact e.checked ht
  · exact hcheck _ ht.symm

/-- A site evolves by one new element that its store shares. -/
theorem evolves_of_new {g : Green} (hid : g.id = e.store.nextIdent)
    (le : e.registry.Le f.registry) (tag_eq : f.store.tag = e.store.tag)
    (config_eq : f.store.config = e.store.config)
    (shares : ∀ {x : Green}, e.store.Shares x → f.store.Shares x)
    (hnew : ∀ x, f.Knows x → e.Knows x ∨ x = g) (hg : f.store.Shares g)
    (frugal : e.store.Frugal → f.store.Frugal) : e.Evolves f where
  le := le
  tag_eq := tag_eq
  config_eq := config_eq
  shares := shares
  new hx := by
    rcases hnew _ hx with hx | rfl
    · exact .inl hx
    · exact .inr ⟨congrArg Ident.store hid, hg⟩
  frugal := frugal

section Token

variable {d : TokenData}

/-- A token is made and remembered. -/
theorem exists_evolves_rememberToken (e : Site) (hcheck : d.check = .ok ())
    (hshares : e.store.config.sharesTokens = true) (hnone : e.store.tokens[d]? = none) :
    ∃ f : Site, f.store = e.store.countIssued.rememberToken ⟨e.store.nextIdent, d⟩ ∧
      e.Evolves f ∧ f.Knows (.token ⟨e.store.nextIdent, d⟩) := by
  obtain ⟨q, hq, hle, hknows, hnew, hchecked⟩ := e.exists_registry
    (g := .token ⟨e.store.nextIdent, d⟩) rfl (TokenData.check_eq_ok_iff.mp hcheck).2.1
    (by simp) (by rintro t ⟨⟩; exact hcheck)
  refine ⟨⟨_, q, hq.rememberToken hknows, hchecked⟩, rfl, ?_, hknows⟩
  exact evolves_of_new rfl hle rfl rfl
    (fun hx => (Store.shares_countIssued.mpr hx).rememberToken hnone) hnew
    Store.shares_rememberToken fun he => he.countIssued.rememberToken hshares _

/-- A token is made where tokens are not shared. -/
theorem exists_evolves_token (e : Site) (hcheck : d.check = .ok ())
    (hshares : e.store.config.sharesTokens = false) :
    ∃ f : Site, f.store = e.store.countIssued ∧ e.Evolves f ∧
      f.Knows (.token ⟨e.store.nextIdent, d⟩) := by
  obtain ⟨q, hq, hle, hknows, hnew, hchecked⟩ := e.exists_registry
    (g := .token ⟨e.store.nextIdent, d⟩) rfl (TokenData.check_eq_ok_iff.mp hcheck).2.1
    (by simp) (by rintro t ⟨⟩; exact hcheck)
  refine ⟨⟨_, q, hq, hchecked⟩, rfl, ?_, hknows⟩
  refine evolves_of_new rfl hle rfl rfl Store.shares_countIssued.mpr hnew (fun h => ?_)
    Store.Frugal.countIssued
  rw [show e.store.countIssued.config = e.store.config from rfl, hshares] at h
  cases h

end Token

section Node

variable (kind : Kind) (presence : Presence) {slots : List Slot}

/-- The node that a site makes next. -/
def nextNode (e : Site) (kind : Kind) (presence : Presence) (slots : List Slot) : Green :=
  .node ⟨e.store.nextIdent, kind, presence, Green.slotsWidth slots,
    Green.errorOf kind presence slots⟩ slots

/-- The next node is new. -/
theorem new_nextNode (e : Site) : e.New (e.nextNode kind presence slots) := fun _ =>
  e.respects.find_nextIdent

/-- A node is made that is too large to be shared. -/
theorem exists_evolves_node (e : Site) (hslots : e.KnowsAll slots)
    (hwidth : Green.slotsWidth slots < Width.limit)
    (hlarge : slots.length > e.store.config.maxSharedSlots) :
    ∃ f : Site, f.store = e.store.countIssued ∧ e.Evolves f ∧
      f.Knows (e.nextNode kind presence slots) := by
  obtain ⟨q, hq, hle, hknows, hnew, hchecked⟩ := e.exists_registry
    (g := e.nextNode kind presence slots) rfl hwidth
    (by rintro head slots' ⟨⟩; exact ⟨rfl, rfl, hslots⟩) (by simp [nextNode])
  refine ⟨⟨_, q, hq, hchecked⟩, rfl, ?_, hknows⟩
  exact evolves_of_new rfl hle rfl rfl Store.shares_countIssued.mpr hnew
    (fun h => absurd h (Nat.not_le.mpr hlarge)) Store.Frugal.countIssued

/-- A node is made and remembered. -/
theorem exists_evolves_rememberNode (e : Site) (hslots : e.KnowsAll slots)
    (hwidth : Green.slotsWidth slots < Width.limit)
    (hsmall : slots.length ≤ e.store.config.maxSharedSlots)
    (hnone : e.store.nodes[NodeKey.ofSlots kind presence slots]? = none) :
    ∃ f : Site, f.store = e.store.countIssued.rememberNode (.ofSlots kind presence slots)
        (e.nextNode kind presence slots) ∧ e.Evolves f ∧
      f.Knows (e.nextNode kind presence slots) := by
  obtain ⟨q, hq, hle, hknows, hnew, hchecked⟩ := e.exists_registry
    (g := e.nextNode kind presence slots) rfl hwidth
    (by rintro head slots' ⟨⟩; exact ⟨rfl, rfl, hslots⟩) (by simp [nextNode])
  refine ⟨⟨_, q, hq.rememberNode hknows, hchecked⟩, rfl, ?_, hknows⟩
  exact evolves_of_new rfl hle rfl rfl
    (fun hx => (Store.shares_countIssued.mpr hx).rememberNode hnone) hnew
    Store.shares_rememberNode fun he => he.countIssued.rememberNode _ (decide_eq_true hsmall)

end Node

end Site

/-- A sum of widths can only fail because it is too large. -/
theorem Width.eq_widthOverflow_of_foldlM_add {widths : List Nat} {start : Nat} {fault : Fault}
    (h : widths.foldlM add start = .error fault) : fault = .widthOverflow := by
  induction widths generalizing start with
  | nil => cases h
  | cons w widths ih =>
    rw [List.foldlM_cons] at h
    by_cases hfits : start + w < limit
    · rw [add, if_pos hfits] at h
      exact ih h
    · rw [add, if_neg hfits] at h
      cases h
      rfl

/-- What a token of this content is refused for, whether or not tokens are shared. -/
def TokenData.accept (d : TokenData) : Except Fault Unit := do
  unless d.kind.isToken do throw (.notTokenKind d.kind)
  let _ ← Width.sum (d.leading.map (·.length))
  let _ ← Width.sum (d.trailing.map (·.length))
  d.check

namespace Alloc

open Site

variable (e : Site)

/-- Once the trivia of a token is counted, its contract decides whether it comes out. -/
theorem makeToken_outcome_of_check {d : TokenData} {a b : Nat} (hkind : d.kind.isToken = true)
    (hleading : Width.sum (d.leading.map (·.length)) = .ok a)
    (htrailing : Width.sum (d.trailing.map (·.length)) = .ok b) :
    ∃ f, e.Evolves f ∧
      ((∃ fault, d.check = .error fault ∧ makeToken d e.store = (.error fault, f.store)) ∨
        ∃ t, d.check = .ok () ∧ makeToken d e.store = (.ok t, f.store) ∧ t.data = d ∧
          f.Knows (.token t) ∧ e.New (.token t)) := by
  cases hshares : e.store.config.sharesTokens with
  | false =>
    rw [makeToken_eq_unshared hkind hleading htrailing hshares]
    cases hcheck : d.check with
    | error fault => exact ⟨e, .refl e, .inl ⟨fault, rfl, freshToken_eq_error hcheck⟩⟩
    | ok _ =>
      obtain ⟨f, hstore, hf, hknows⟩ := e.exists_evolves_token hcheck hshares
      exact ⟨f, hf, .inr ⟨_, rfl, hstore ▸ freshToken_eq hcheck, rfl, hknows, fun _ =>
        e.respects.find_nextIdent⟩⟩
  | true =>
    have hnew (t : GreenToken) : e.New (.token t) := fun hnot =>
      absurd (hnot.symm.trans hshares) Bool.false_ne_true
    rw [makeToken_eq_shared hkind hleading htrailing hshares]
    cases hfound : e.store.tokens[d]? with
    | some t =>
      -- A token that is found was checked when it was made.
      obtain ⟨rfl, hknows⟩ := e.respects.token hfound
      exact ⟨e, .refl e, .inr ⟨t, e.checked hknows, rfl, rfl, hknows, hnew t⟩⟩
    | none =>
      -- The text is interned even if the check fails.
      have hintern := e.evolves_internText hshares d.text
      cases hcheck : d.check with
      | error fault =>
        exact ⟨_, hintern, .inl ⟨fault, rfl,
          bind_eq_of_error (x := freshToken d) (freshToken_eq_error hcheck)⟩⟩
      | ok _ =>
        obtain ⟨f, hstore, hf, hknows⟩ :=
          (e.internText d.text).exists_evolves_rememberToken hcheck hshares hfound
        refine ⟨f, hintern.trans hf, .inr ⟨_, rfl, ?_, rfl, hknows, hnew _⟩⟩
        rw [hstore]
        exact bind_eq_of_ok (x := freshToken d) (freshToken_eq hcheck)

/-- What comes out when a token is asked for: it depends on the content alone whether there is a
token, and then it has this content. -/
theorem makeToken_outcome (d : TokenData) :
    ∃ f, e.Evolves f ∧
      ((∃ fault, d.accept = .error fault ∧ makeToken d e.store = (.error fault, f.store)) ∨
        ∃ t, d.accept = .ok () ∧ makeToken d e.store = (.ok t, f.store) ∧ t.data = d ∧
          f.Knows (.token t) ∧ e.New (.token t)) := by
  by_cases hkind : d.kind.isToken = true
  · cases hleading : Width.sum (d.leading.map (·.length)) with
    | error fault =>
      refine ⟨e, .refl e, .inl ⟨fault, ?_, ?_⟩⟩
      · rw [TokenData.accept, if_pos hkind, hleading]
        rfl
      · rw [makeToken, if_pos hkind, hleading]
        rfl
    | ok a =>
      cases htrailing : Width.sum (d.trailing.map (·.length)) with
      | error fault =>
        refine ⟨e, .refl e, .inl ⟨fault, ?_, ?_⟩⟩
        · rw [TokenData.accept, if_pos hkind, hleading, htrailing]
          rfl
        · rw [makeToken, if_pos hkind, hleading, htrailing]
          rfl
      | ok b =>
        have haccept : d.accept = d.check := by
          rw [TokenData.accept, if_pos hkind, hleading, htrailing]
          rfl
        rw [haccept]
        exact makeToken_outcome_of_check e hkind hleading htrailing
  · refine ⟨e, .refl e, .inl ⟨.notTokenKind d.kind, ?_, ?_⟩⟩
    · rw [TokenData.accept, if_neg hkind]
      rfl
    · rw [makeToken, if_neg hkind]
      rfl

variable {e} (kind : Kind) (presence : Presence) {slots : List Slot}

/-- A node that would be too wide fails for this reason. -/
theorem freshNode_eq_widthOverflow {s : Store} (hwidth : Width.limit ≤ Green.slotsWidth slots) :
    freshNode kind presence slots s = (.error .widthOverflow, s) := by
  have hsum : Width.sum (slots.filterMap fun slot => slot.map Green.width) =
      .error .widthOverflow := by
    cases hsum : Width.sum (slots.filterMap fun slot => slot.map Green.width) with
    | error fault => rw [Width.eq_widthOverflow_of_foldlM_add hsum]
    | ok width =>
      have := Width.sum_eq_ok_iff.mp hsum
      rw [sumOf_filterMap_width] at this
      omega
  exact bind_eq_of_error (ofExcept_eq_of_error hsum)

/-- What comes out when a node is asked for: it depends on the width of the slots alone whether
there is a node, and then it holds these slots. -/
theorem allocNode_outcome (hslots : e.KnowsAll slots) :
    ∃ f, e.Evolves f ∧
      ((Width.limit ≤ Green.slotsWidth slots ∧
          allocNode kind presence slots e.store = (.error .widthOverflow, f.store)) ∨
        ∃ g, Green.slotsWidth slots < Width.limit ∧
          allocNode kind presence slots e.store = (.ok g, f.store) ∧
          IsNode kind presence slots g f.registry ∧ e.New g) := by
  by_cases hwidth : Green.slotsWidth slots < Width.limit
  · by_cases hlarge : slots.length > e.store.config.maxSharedSlots
    · obtain ⟨f, hstore, hf, hknows⟩ :=
        e.exists_evolves_node kind presence hslots hwidth hlarge
      refine ⟨f, hf, .inr ⟨_, hwidth, ?_, ⟨⟨_, rfl⟩, hknows⟩, e.new_nextNode kind presence⟩⟩
      rw [allocNode_eq_large kind presence hlarge, hstore]
      exact freshNode_eq kind presence hwidth
    · rw [allocNode_eq_small kind presence hlarge]
      cases hfound : e.store.nodes[NodeKey.ofSlots kind presence slots]? with
      | some g =>
        have hnode := isNode_of_found kind presence e.respects hslots hfound
        refine ⟨e, .refl e, .inr ⟨g, hwidth, rfl, hnode, fun h => absurd ?_ hlarge⟩⟩
        obtain ⟨id, rfl⟩ := hnode.eq
        exact Nat.lt_of_not_le (of_decide_eq_false h)
      | none =>
        obtain ⟨f, hstore, hf, hknows⟩ :=
          e.exists_evolves_rememberNode kind presence hslots hwidth (Nat.le_of_not_lt hlarge) hfound
        refine ⟨f, hf, .inr ⟨_, hwidth, ?_, ⟨⟨_, rfl⟩, hknows⟩, e.new_nextNode kind presence⟩⟩
        rw [hstore]
        exact bind_eq_of_ok (freshNode_eq kind presence hwidth)
  · have hwide := Nat.le_of_not_lt hwidth
    refine ⟨e, .refl e, .inl ⟨hwide, ?_⟩⟩
    by_cases hlarge : slots.length > e.store.config.maxSharedSlots
    · rw [allocNode_eq_large kind presence hlarge]
      exact freshNode_eq_widthOverflow kind presence hwide
    · rw [allocNode_eq_small kind presence hlarge]
      cases hfound : e.store.nodes[NodeKey.ofSlots kind presence slots]? with
      | some g =>
        have hnode := isNode_of_found kind presence e.respects hslots hfound
        obtain ⟨id, rfl⟩ := hnode.eq
        exact absurd (e.registry.width_lt hnode.knows) hwidth
      | none => exact bind_eq_of_error (freshNode_eq_widthOverflow kind presence hwide)

/-- The placeholder that a store makes next for a node of a kind. -/
def nextMissing (s : Store) (kind : Kind) : Green :=
  .node ⟨s.nextIdent, kind, .missing, 0, true⟩ (List.replicate kind.slotSpecs.length none)

section Placeholders

variable {s : Store} {kind : Kind}

/-- A new placeholder for a node gets the next identity. -/
theorem freshNode_missing_eq : freshNode kind .missing
    (List.replicate kind.slotSpecs.length none) s = (.ok (nextMissing s kind), s.countIssued) := by
  have hwidth : Green.slotsWidth (List.replicate kind.slotSpecs.length none) = 0 :=
    sumOf_replicate ..
  rw [freshNode_eq kind .missing (by rw [hwidth]; decide), hwidth]
  rfl

variable (hkind : kind.isNode = true)

include hkind

/-- A placeholder with more slots than a store shares is made anew. -/
theorem missingNode_eq_large (hlarge : s.config.maxSharedSlots < kind.slotSpecs.length) :
    missingNode kind s = (.ok (nextMissing s kind), s.countIssued) := by
  rw [missingNode, if_pos hkind]
  refine (allocNode_eq_large kind .missing ?_).trans freshNode_missing_eq
  simpa using hlarge

/-- A placeholder is remembered the first time that a store makes it. -/
theorem missingNode_eq_small (hsmall : kind.slotSpecs.length ≤ s.config.maxSharedSlots)
    (hnone : s.nodes[NodeKey.ofSlots kind .missing
      (List.replicate kind.slotSpecs.length none)]? = none) :
    missingNode kind s = (.ok (nextMissing s kind), s.countIssued.rememberNode
      (.ofSlots kind .missing (List.replicate kind.slotSpecs.length none))
      (nextMissing s kind)) := by
  rw [missingNode, if_pos hkind]
  refine (allocNode_eq_small kind .missing ?_).trans ?_
  · simpa using hsmall
  · rw [hnone]
    exact bind_eq_of_ok freshNode_missing_eq

end Placeholders

end Alloc

end Verbatim
