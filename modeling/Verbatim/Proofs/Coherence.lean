import Verbatim.Proofs.Alloc

/-!
# Coherent stores

A node is looked up by the identities of its children, so what a store hands out is right only if no
identity stands for two elements. A registry says which element each identity stands for. A store is
coherent if some registry agrees with everything it remembers and knows nothing yet of the
identities it will give out. Making tokens and nodes keeps a store coherent, and hands out exactly
what was asked for, whether it was made before or not.
-/

namespace Verbatim

/-- Whether a node with these slots has an error. -/
def Green.errorOf (kind : Kind) (presence : Presence) (slots : List Slot) : Bool :=
  presence == .missing || kind == .unexpected || slots.any fun slot => slot.any Green.hasError

/-- Which element each identity stands for. -/
structure Registry where
  /-- The element with an identity. -/
  find : Ident → Option Green
  id_eq : ∀ {i : Ident} {g : Green}, find i = some g → g.id = i
  width_lt : ∀ {i : Ident} {g : Green}, find i = some g → g.width < Width.limit
  width_eq : ∀ {i : Ident} {head : NodeHead} {slots : List Slot},
    find i = some (.node head slots) → head.width = Green.slotsWidth slots
  hasError_eq : ∀ {i : Ident} {head : NodeHead} {slots : List Slot},
    find i = some (.node head slots) →
      head.hasError = Green.errorOf head.kind head.presence slots
  find_slot : ∀ {i : Ident} {head : NodeHead} {slots : List Slot} {c : Green},
    find i = some (.node head slots) → some c ∈ slots → find c.id = some c

namespace Registry

/-- The registry that knows nothing. -/
def empty : Registry := ⟨fun _ => none, nofun, nofun, nofun, nofun, nofun⟩

/-- Whether the registry knows an element. -/
def Knows (r : Registry) (g : Green) : Prop := r.find g.id = some g

/-- Whether the registry knows everything that stands in some slots. -/
def KnowsAll (r : Registry) (slots : List Slot) : Prop := ∀ c, some c ∈ slots → r.Knows c

/-- One registry knows at least as much as another. -/
def Le (r r' : Registry) : Prop := ∀ (i : Ident) (g : Green), r.find i = some g → r'.find i = some g

variable {r r' r'' : Registry} {g : Green} {slots : List Slot}

theorem Le.refl (r : Registry) : r.Le r := fun _ _ h => h

theorem Le.trans (h : r.Le r') (h' : r'.Le r'') : r.Le r'' := fun i g hg => h' i g (h i g hg)

/-- What is known stays known when more is. -/
theorem Knows.mono (hg : r.Knows g) (h : r.Le r') : r'.Knows g := h _ _ hg

theorem KnowsAll.mono (hs : r.KnowsAll slots) (h : r.Le r') : r'.KnowsAll slots :=
  fun c hc => (hs c hc).mono h

/-- An identity stands for one element only. -/
theorem Knows.eq_of_id {a b : Green} (ha : r.Knows a) (hb : r.Knows b) (h : a.id = b.id) :
    a = b := by
  unfold Knows at ha hb
  rw [h, hb] at ha
  exact (Option.some.inj ha).symm

/-- Slots with the same identities hold the same elements. -/
theorem KnowsAll.eq_of_ids {a b : List Slot} (ha : r.KnowsAll a) (hb : r.KnowsAll b)
    (h : (a.map fun slot => slot.map Green.id) = b.map fun slot => slot.map Green.id) : a = b := by
  induction a generalizing b with
  | nil => exact (List.map_eq_nil_iff.mp h.symm).symm
  | cons s a ih =>
    cases b with
    | nil => simp at h
    | cons t b =>
      simp only [List.map_cons, List.cons.injEq] at h
      have htail := ih (fun c hc => ha c (List.mem_cons_of_mem _ hc))
        (fun c hc => hb c (List.mem_cons_of_mem _ hc)) h.2
      have hhead : s = t := by
        cases s with
        | none => cases t <;> simp_all
        | some x =>
          cases t with
          | none => simp at h
          | some y =>
            exact congrArg some ((ha x List.mem_cons_self).eq_of_id (hb y List.mem_cons_self)
              (Option.some.inj h.1))
      rw [hhead, htail]

/-- A registry that knows one more element. -/
def add (r : Registry) (g : Green) (hwidth : g.width < Width.limit)
    (hnode : ∀ head slots, g = .node head slots →
      head.width = Green.slotsWidth slots ∧
        head.hasError = Green.errorOf head.kind head.presence slots ∧ r.KnowsAll slots)
    (hnew : r.find g.id = none) : Registry where
  find i := if i = g.id then some g else r.find i
  id_eq {i g'} h := by
    split at h
    · next hi => exact (Option.some.inj h) ▸ hi.symm
    · exact r.id_eq h
  width_lt h := by
    split at h
    · exact Option.some.inj h ▸ hwidth
    · exact r.width_lt h
  width_eq h := by
    split at h
    · exact (hnode _ _ (Option.some.inj h)).1
    · exact r.width_eq h
  hasError_eq h := by
    split at h
    · exact (hnode _ _ (Option.some.inj h)).2.1
    · exact r.hasError_eq h
  find_slot {i head slots c} h hc := by
    have hknown : r.Knows c := by
      split at h
      · exact (hnode _ _ (Option.some.inj h)).2.2 c hc
      · exact r.find_slot h hc
    rw [if_neg fun hid => ?_]
    · exact hknown
    · rw [Knows, hid, hnew] at hknown
      cases hknown

section Add

variable {hwidth : g.width < Width.limit} {hnode : ∀ head slots, g = .node head slots →
  head.width = Green.slotsWidth slots ∧
    head.hasError = Green.errorOf head.kind head.presence slots ∧ r.KnowsAll slots}
  {hnew : r.find g.id = none}

/-- Adding an element forgets none. -/
theorem le_add : r.Le (r.add g hwidth hnode hnew) := by
  intro i g' hg'
  change (if i = g.id then some g else r.find i) = some g'
  rw [if_neg fun hid => ?_]
  · exact hg'
  · rw [hid, hnew] at hg'
    cases hg'

theorem knows_add : (r.add g hwidth hnode hnew).Knows g := if_pos rfl

/-- Adding an element changes nothing about other identities. -/
theorem find_add_of_ne {i : Ident} (h : i ≠ g.id) :
    (r.add g hwidth hnode hnew).find i = r.find i := if_neg h

end Add

end Registry

/-- What a store remembers agrees with a registry, which does not know the identities to come. -/
structure Store.Respects (s : Store) (r : Registry) : Prop where
  fresh : ∀ n, s.issued ≤ n → r.find ⟨s.tag, n⟩ = none
  token : ∀ {d : TokenData} {t : GreenToken}, s.tokens[d]? = some t →
    t.data = d ∧ r.Knows (.token t)
  node : ∀ {key : NodeKey} {g : Green}, s.nodes[key]? = some g →
    ∃ head slots, g = .node head slots ∧ r.Knows g ∧
      key = NodeKey.ofSlots head.kind head.presence slots

/-- No identity stands for two elements, as far as the store can tell. -/
def Store.Coherent (s : Store) : Prop := ∃ r, s.Respects r

/-- A store that has made nothing is coherent. -/
theorem Store.coherent_empty (tag : Nat) (config : StoreConfig) :
    ({ tag, config } : Store).Coherent :=
  ⟨.empty, fun _ _ => rfl, by simp, by simp⟩

namespace Store

namespace Respects

variable {s : Store} {r : Registry}

/-- The identity that a store gives next is not taken. -/
theorem find_nextIdent (h : s.Respects r) : r.find s.nextIdent = none := h.fresh _ (Nat.le_refl _)

/-- A new element gets an identity that stands for nothing yet. -/
theorem countIssued (h : s.Respects r) {g : Green} (hid : g.id = s.nextIdent)
    (hwidth : g.width < Width.limit) (hnode : ∀ head slots, g = .node head slots →
      head.width = Green.slotsWidth slots ∧
        head.hasError = Green.errorOf head.kind head.presence slots ∧ r.KnowsAll slots) :
    s.countIssued.Respects (r.add g hwidth hnode (hid ▸ h.find_nextIdent)) where
  fresh n hn := by
    have hn' : s.issued + 1 ≤ n := hn
    rw [Registry.find_add_of_ne fun he => ?_]
    · exact h.fresh n (by omega)
    · rw [hid] at he
      have := congrArg Ident.serial he
      simp only [nextIdent] at this
      omega
  token ht := ⟨(h.token ht).1, (h.token ht).2.mono Registry.le_add⟩
  node hg := by
    obtain ⟨head, slots, hnode', hknows, hkey⟩ := h.node hg
    exact ⟨head, slots, hnode', hknows.mono Registry.le_add, hkey⟩

/-- Texts do not matter to the registry. -/
theorem internText (h : s.Respects r) (text : String) : (s.internText text).Respects r :=
  ⟨h.fresh, h.token, h.node⟩

/-- A store may remember a token that is known. -/
theorem rememberToken (h : s.Respects r) {t : GreenToken} (ht : r.Knows (.token t)) :
    (s.rememberToken t).Respects r where
  fresh := h.fresh
  token {d u} hu := by
    rw [Store.rememberToken, Std.HashMap.getElem?_insert] at hu
    split at hu
    · next hd =>
      cases hu
      exact ⟨eq_of_beq hd, ht⟩
    · exact h.token hu
  node := h.node

/-- A store may remember a node that is known, under its own key. -/
theorem rememberNode (h : s.Respects r) {head : NodeHead} {slots : List Slot}
    (hg : r.Knows (.node head slots)) :
    (s.rememberNode (.ofSlots head.kind head.presence slots) (.node head slots)).Respects r where
  fresh := h.fresh
  token := h.token
  node {key u} hu := by
    rw [Store.rememberNode, Std.HashMap.getElem?_insert] at hu
    split at hu
    · next hkey =>
      cases hu
      exact ⟨head, slots, rfl, hg, (eq_of_beq hkey).symm⟩
    · exact h.node hu

end Respects

end Store

/-- The contract of a token in one condition. -/
theorem TokenData.check_eq_ok_iff {d : TokenData} :
    d.check = .ok () ↔ d.leadingWidth + d.trailingWidth ≤ d.width ∧ d.width < Width.limit ∧
      (d.presence = .present ∨ d.text.isEmpty = true) := by
  have hbind (f : Nat → Except Fault Unit) (n : Nat) : (Except.ok n >>= f) = f n := rfl
  unfold check Width.add
  by_cases hadd : d.leadingWidth + d.trailingWidth < Width.limit
  · by_cases hlimit : d.width < Width.limit
    · by_cases htrivia : d.leadingWidth + d.trailingWidth ≤ d.width
      · by_cases hpresence : d.presence = .present ∨ d.text.isEmpty = true
        · simp only [hadd, hbind, hlimit, htrivia, hpresence, if_true, true_and, iff_true]
          rfl
        · simp only [hadd, hbind, hlimit, htrivia, hpresence, if_true, if_false, and_false,
            iff_false]
          exact nofun
      · simp only [hadd, hbind, hlimit, htrivia, if_true, if_false, false_and, iff_false]
        exact nofun
    · simp only [hadd, hlimit, if_true, if_false, false_and, and_false, iff_false]
      exact nofun
  · simp only [hadd, if_false]
    refine ⟨nofun, fun h => ?_⟩
    omega

namespace Alloc

/-- The action succeeds, what it hands out is good, and the store it leaves respects a registry that
knows all that was known before. -/
def Makes {α : Type} (x : Alloc α) (s : Store) (r : Registry) (good : α → Registry → Prop) : Prop :=
  ∃ a t r', x s = (.ok a, t) ∧ t.Respects r' ∧ r.Le r' ∧ t.tag = s.tag ∧ good a r'

variable {s : Store} {r : Registry} {d : TokenData}

/-- A new token gets the next identity. -/
theorem freshToken_eq (hcheck : d.check = .ok ()) :
    freshToken d s = (.ok ⟨s.nextIdent, d⟩, s.countIssued) :=
  bind_eq_of_ok (ofExcept_eq_of_ok hcheck)

/-- A token that breaks its contract is not made, and no identity is used up. -/
theorem freshToken_eq_error {fault : Fault} (hcheck : d.check = .error fault) :
    freshToken d s = (.error fault, s) :=
  bind_eq_of_error (ofExcept_eq_of_error hcheck)

section MakeToken

variable {a b : Nat} (hkind : d.kind.isToken = true)
  (hleading : Width.sum (d.leading.map (·.length)) = .ok a)
  (htrailing : Width.sum (d.trailing.map (·.length)) = .ok b)

include hkind hleading htrailing

/-- A store that shares no tokens makes each anew. -/
theorem makeToken_eq_unshared (hshares : s.config.sharesTokens = false) :
    makeToken d s = freshToken d s := by
  unfold makeToken
  rw [if_pos hkind, hleading, htrailing]
  change (if s.config.sharesTokens = true then _ else freshToken d : Alloc GreenToken) s = _
  rw [if_neg (by simp [hshares])]

/-- A store that shares tokens looks for one with the same content first. -/
theorem makeToken_eq_shared (hshares : s.config.sharesTokens = true) :
    makeToken d s =
      (match s.tokens[d]? with
      | some t => pure t
      | none => do
        modify (·.internText d.text)
        let t ← freshToken d
        modify (·.rememberToken t)
        return t : Alloc GreenToken) s := by
  unfold makeToken
  rw [if_pos hkind, hleading, htrailing]
  change (if s.config.sharesTokens = true then _ else freshToken d : Alloc GreenToken) s = _
  rw [if_pos hshares]
  rfl

/-- A token is remembered the first time that a store which shares tokens makes it. -/
theorem makeToken_eq_new (hshares : s.config.sharesTokens = true) (hcheck : d.check = .ok ())
    (hnone : s.tokens[d]? = none) :
    makeToken d s = (.ok ⟨s.nextIdent, d⟩,
      (s.internText d.text).countIssued.rememberToken ⟨s.nextIdent, d⟩) := by
  rw [makeToken_eq_shared hkind hleading htrailing hshares, hnone]
  exact bind_eq_of_ok (x := freshToken d) (freshToken_eq hcheck)

end MakeToken

/-- Trivia that fits into a text can be summed. -/
private theorem exists_sum_pieces (pieces : List TriviaPiece)
    (h : TriviaPiece.total pieces < Width.limit) :
    ∃ n, Width.sum (pieces.map (·.length)) = .ok n :=
  ⟨_, Width.sum_eq_ok_iff.mpr ⟨sumOf_map id (·.length) pieces, h⟩⟩

/-- A new token is known. -/
theorem makes_freshToken (h : s.Respects r) (hcheck : d.check = .ok ()) :
    Makes (freshToken d) s r fun t r' => t.data = d ∧ r'.Knows (.token t) := by
  have hwidth := (TokenData.check_eq_ok_iff.mp hcheck).2.1
  refine ⟨_, _, _, freshToken_eq hcheck,
    h.countIssued (g := .token ⟨s.nextIdent, d⟩) rfl hwidth nofun, Registry.le_add, rfl, rfl,
    Registry.knows_add⟩

/-- A token with the content that was asked for, made now or before. -/
theorem makes_makeToken (h : s.Respects r) (hkind : d.kind.isToken = true)
    (hcheck : d.check = .ok ()) :
    Makes (makeToken d) s r fun t r' => t.data = d ∧ r'.Knows (.token t) := by
  obtain ⟨htrivia, hlimit, -⟩ := TokenData.check_eq_ok_iff.mp hcheck
  obtain ⟨a, hleading⟩ := exists_sum_pieces d.leading
    (show d.leadingWidth < Width.limit by omega)
  obtain ⟨b, htrailing⟩ := exists_sum_pieces d.trailing
    (show d.trailingWidth < Width.limit by omega)
  cases hshares : s.config.sharesTokens with
  | false =>
    have hrun := makeToken_eq_unshared hkind hleading htrailing hshares
    obtain ⟨t, u, r', ht, hrest⟩ := makes_freshToken h hcheck
    exact ⟨t, u, r', hrun.trans ht, hrest⟩
  | true =>
    have hrun := makeToken_eq_shared hkind hleading htrailing hshares
    cases hfound : s.tokens[d]? with
    | some t =>
      rw [hfound] at hrun
      exact ⟨t, s, r, hrun, h, .refl r, rfl, h.token hfound⟩
    | none =>
      rw [hfound] at hrun
      obtain ⟨t, u, r', ht, hu, hle, htag, hdata, hknows⟩ :=
        makes_freshToken (h.internText d.text) hcheck
      refine ⟨t, u.rememberToken t, r', hrun.trans ?_, hu.rememberToken hknows, hle, htag, hdata,
        hknows⟩
      exact bind_eq_of_ok (x := freshToken d) ht

/-- A token whose text is too long cannot be made, and none was made before. -/
theorem makeToken_eq_error (h : s.Respects r) (hlimit : Width.limit ≤ d.width) :
    ∃ fault t, makeToken d s = (.error fault, t) := by
  obtain ⟨fault, hcheck⟩ : ∃ fault, d.check = .error fault := by
    cases hcheck : d.check with
    | error fault => exact ⟨fault, rfl⟩
    | ok _ =>
      have := (TokenData.check_eq_ok_iff.mp hcheck).2.1
      omega
  by_cases hkind : d.kind.isToken = true
  · cases hleading : Width.sum (d.leading.map (·.length)) with
    | error fault =>
      unfold makeToken
      rw [if_pos hkind, hleading]
      exact ⟨_, _, rfl⟩
    | ok a =>
      cases htrailing : Width.sum (d.trailing.map (·.length)) with
      | error fault =>
        unfold makeToken
        rw [if_pos hkind, hleading, htrailing]
        exact ⟨_, _, rfl⟩
      | ok b =>
        cases hshares : s.config.sharesTokens with
        | false =>
          rw [makeToken_eq_unshared hkind hleading htrailing hshares]
          exact ⟨_, _, freshToken_eq_error hcheck⟩
        | true =>
          rw [makeToken_eq_shared hkind hleading htrailing hshares]
          cases hfound : s.tokens[d]? with
          | some t =>
            obtain ⟨hdata, hknows⟩ := h.token hfound
            have hwidth : d.width < Width.limit := hdata ▸ r.width_lt hknows
            omega
          | none => exact ⟨_, _, bind_eq_of_error (x := freshToken d) (freshToken_eq_error hcheck)⟩
  · unfold makeToken
    rw [if_neg hkind]
    exact ⟨_, _, rfl⟩

section Nodes

variable (kind : Kind) (presence : Presence) {slots : List Slot}

theorem sumOf_filterMap_width (slots : List Slot) :
    sumOf id (slots.filterMap fun slot => slot.map Green.width) = Green.slotsWidth slots := by
  induction slots with
  | nil => rfl
  | cons slot slots ih => cases slot <;> simp_all [Green.slotsWidth]

/-- A new node gets the next identity, and remembers its width and whether it has an error. -/
theorem freshNode_eq (hwidth : Green.slotsWidth slots < Width.limit) :
    freshNode kind presence slots s =
      (.ok (.node ⟨s.nextIdent, kind, presence, Green.slotsWidth slots,
        Green.errorOf kind presence slots⟩ slots), s.countIssued) := by
  have hsum : Width.sum (slots.filterMap fun slot => slot.map Green.width) =
      .ok (Green.slotsWidth slots) :=
    Width.sum_eq_ok_iff.mpr ⟨sumOf_filterMap_width slots, hwidth⟩
  exact bind_eq_of_ok (ofExcept_eq_of_ok hsum)

/-- A node that would be too wide is not made. -/
theorem freshNode_eq_error (hwidth : Width.limit ≤ Green.slotsWidth slots) :
    ∃ fault, freshNode kind presence slots s = (.error fault, s) := by
  cases hsum : Width.sum (slots.filterMap fun slot => slot.map Green.width) with
  | ok width =>
    have := Width.sum_eq_ok_iff.mp hsum
    rw [sumOf_filterMap_width] at this
    omega
  | error fault => exact ⟨fault, bind_eq_of_error (ofExcept_eq_of_error hsum)⟩

/-- What a node that was asked for looks like. -/
structure IsNode (kind : Kind) (presence : Presence) (slots : List Slot) (g : Green)
    (r : Registry) :
    Prop where
  eq : ∃ id, g = .node ⟨id, kind, presence, Green.slotsWidth slots,
    Green.errorOf kind presence slots⟩ slots
  knows : r.Knows g

/-- A new node is known. -/
theorem makes_freshNode (h : s.Respects r) (hslots : r.KnowsAll slots)
    (hwidth : Green.slotsWidth slots < Width.limit) :
    Makes (freshNode kind presence slots) s r (IsNode kind presence slots) := by
  refine ⟨_, _, _, freshNode_eq kind presence hwidth,
    h.countIssued (g := .node ⟨s.nextIdent, kind, presence, Green.slotsWidth slots,
      Green.errorOf kind presence slots⟩ slots) rfl hwidth ?_,
    Registry.le_add, rfl, ⟨_, rfl⟩, Registry.knows_add⟩
  rintro head slots' ⟨⟩
  exact ⟨rfl, rfl, hslots⟩

/-- A node with many slots is made anew. -/
theorem allocNode_eq_large (hlarge : slots.length > s.config.maxSharedSlots) :
    allocNode kind presence slots s = freshNode kind presence slots s := by
  change (if slots.length > s.config.maxSharedSlots then _ else _ : Alloc Green) s = _
  rw [if_pos hlarge]

/-- For a node with few slots the store looks for one with the same children first. -/
theorem allocNode_eq_small (hsmall : ¬ slots.length > s.config.maxSharedSlots) :
    allocNode kind presence slots s =
      (match s.nodes[NodeKey.ofSlots kind presence slots]? with
      | some g => pure g
      | none => do
        let g ← freshNode kind presence slots
        modify (·.rememberNode (.ofSlots kind presence slots) g)
        return g : Alloc Green) s := by
  change (if slots.length > s.config.maxSharedSlots then _ else _ : Alloc Green) s = _
  rw [if_neg hsmall]
  rfl

/-- A small node is remembered the first time that a store makes it. -/
theorem allocNode_eq_new (hsmall : ¬ slots.length > s.config.maxSharedSlots)
    (hwidth : Green.slotsWidth slots < Width.limit)
    (hnone : s.nodes[NodeKey.ofSlots kind presence slots]? = none) :
    allocNode kind presence slots s =
      (.ok (.node ⟨s.nextIdent, kind, presence, Green.slotsWidth slots,
        Green.errorOf kind presence slots⟩ slots),
      s.countIssued.rememberNode (.ofSlots kind presence slots) (.node ⟨s.nextIdent, kind, presence,
        Green.slotsWidth slots, Green.errorOf kind presence slots⟩ slots)) := by
  rw [allocNode_eq_small kind presence hsmall, hnone]
  exact bind_eq_of_ok (freshNode_eq kind presence hwidth)

/-- A node that is remembered under the key of some slots holds just these. -/
theorem isNode_of_found (h : s.Respects r) (hslots : r.KnowsAll slots) {g : Green}
    (hfound : s.nodes[NodeKey.ofSlots kind presence slots]? = some g) :
    IsNode kind presence slots g r := by
  obtain ⟨⟨id, kind', presence', width, hasError⟩, slots', rfl, hknows, hkey⟩ := h.node hfound
  obtain ⟨rfl, rfl, hids⟩ := (NodeKey.mk.injEq ..).mp hkey
  obtain rfl := hslots.eq_of_ids (fun c hc => r.find_slot hknows hc) hids
  obtain rfl : width = Green.slotsWidth slots := r.width_eq hknows
  obtain rfl : hasError = Green.errorOf kind presence slots := r.hasError_eq hknows
  exact ⟨⟨id, rfl⟩, hknows⟩

/-- A node with the slots that were asked for, made now or before. -/
theorem makes_allocNode (h : s.Respects r) (hslots : r.KnowsAll slots)
    (hwidth : Green.slotsWidth slots < Width.limit) :
    Makes (allocNode kind presence slots) s r (IsNode kind presence slots) := by
  by_cases hsize : slots.length > s.config.maxSharedSlots
  · obtain ⟨g, t, r', hg, hrest⟩ := makes_freshNode kind presence h hslots hwidth
    exact ⟨g, t, r', (allocNode_eq_large kind presence hsize).trans hg, hrest⟩
  · have hrun := allocNode_eq_small kind presence hsize
    cases hfound : s.nodes[NodeKey.ofSlots kind presence slots]? with
    | some g =>
      rw [hfound] at hrun
      exact ⟨g, s, r, hrun, h, .refl r, rfl, isNode_of_found kind presence h hslots hfound⟩
    | none =>
      rw [hfound] at hrun
      obtain ⟨g, t, r', hg, ht, hle, htag, hnode⟩ := makes_freshNode kind presence h hslots hwidth
      obtain ⟨id, rfl⟩ := hnode.eq
      exact ⟨_, _, r', hrun.trans (bind_eq_of_ok hg), ht.rememberNode hnode.knows, hle, htag, hnode⟩

/-- A node whose slots are too wide cannot be made, and none was made before. -/
theorem allocNode_eq_error (h : s.Respects r) (hslots : r.KnowsAll slots)
    (hwidth : Width.limit ≤ Green.slotsWidth slots) :
    ∃ fault t, allocNode kind presence slots s = (.error fault, t) := by
  obtain ⟨fault, hfresh⟩ := freshNode_eq_error (s := s) kind presence hwidth
  by_cases hsize : slots.length > s.config.maxSharedSlots
  · exact ⟨fault, s, (allocNode_eq_large kind presence hsize).trans hfresh⟩
  · rw [allocNode_eq_small kind presence hsize]
    cases hfound : s.nodes[NodeKey.ofSlots kind presence slots]? with
    | some g =>
      have hnode := isNode_of_found kind presence h hslots hfound
      obtain ⟨id, rfl⟩ := hnode.eq
      have hlt : Green.slotsWidth slots < Width.limit := r.width_lt hnode.knows
      omega
    | none => exact ⟨fault, s, bind_eq_of_error hfresh⟩

end Nodes

end Alloc

end Verbatim
