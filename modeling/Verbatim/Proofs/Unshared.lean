import Verbatim.Proofs.Scenes

/-!
# What is not shared

A store remembers nothing but what it is to share, whatever is asked of it and however often it is
collected. What a call makes and what is not to be shared is never an element that was there. So a
store that shares neither tokens nor nodes with any slots remembers no text and no token, and makes
all tokens and all nodes that have slots anew. It still shares the nodes without slots, one for each
kind and presence: no node has fewer slots than the least limit.
-/

namespace Verbatim

/-- Collecting a store adds nothing to it. -/
theorem Store.Frugal.collect {s : Store} (h : s.Frugal) (outside : List Green) :
    (s.collect outside).2.Frugal where
  text hnot := Nat.le_zero.mp (h.text hnot ▸ Std.HashSet.size_filter_le_size)
  token hnot := Nat.le_zero.mp (h.token hnot ▸ Std.HashMap.size_filter_le_size)
  node {key g} hg := by
    have hfilter : (s.nodes.filter fun _ g =>
        (s.settledCounts youngestFirst outside).ofElement g.id != 0)[key]? = some g := hg
    rw [Std.HashMap.getElem?_filter, Option.pfilter_eq_some_iff] at hfilter
    exact h.node hfilter.1

namespace Workspace

variable {w w' : Workspace} {s : Store}

/-- Whether every store remembers nothing but what it is to share. -/
def Frugal (w : Workspace) : Prop := ∀ s ∈ w.stores, s.Frugal

namespace Frugal

theorem putStore (h : w.Frugal) {t : Store} (ht : t.Frugal) : (w.putStore t).Frugal := by
  intro u hu
  obtain ⟨s, hs, rfl⟩ := List.mem_map.mp hu
  split
  · exact ht
  · exact h s hs

theorem dropStores (h : w.Frugal) : w.dropStores.Frugal := fun s hs =>
  h s (List.mem_filter.mp hs).1

theorem perform (h : w.Frugal) {r : Registry} (hr : w.Sound r) (hs : s ∈ w.stores)
    {call : Call Green View Builder} (hcall : ∀ g ∈ call.trees, g.InUse w.trees)
    (name? : Option String) : (w.perform s call name?).2.Frugal := by
  obtain ⟨f, hf, ⟨fault, hrun⟩ | ⟨handle, hrun, -⟩⟩ := hr.exists_outcome hs hcall
  · rw [perform_eq_of_error hrun]
    exact h.putStore (hf.frugal (h s hs))
  · rw [perform_eq_of_ok hrun]
    have hput := h.putStore (hf.frugal (h s hs))
    cases name? with
    | none => exact hput
    | some name => exact dropStores (w := { w.putStore f.store with handles := _ }) hput

/-- No step makes a store remember more than it is to share. -/
theorem step (h : w.Frugal) {r : Registry} (hr : w.Sound r) (hstep : w.Step w') : w'.Frugal := by
  cases hstep with
  | addStore name config =>
    refine dropStores fun s hs => ?_
    rcases List.mem_cons.mp hs with rfl | hs
    · exact ⟨fun _ => rfl, fun _ => rfl, by simp⟩
    · exact h s hs
  | call name? hs hcall => exact h.perform hr hs hcall name?
  | hold name hhandle => exact dropStores (w := { w with handles := _ }) h
  | release name => exact dropStores (w := { w with handles := _ }) h
  | collect hs => exact h.putStore ((h _ hs).collect _)
  | @collectIfGrown s hs =>
    simp only [collectIfGrown, Store.collectIfGrown]
    split
    · exact h.putStore (h s hs)
    · exact h.putStore ((h s hs).collect _)

end Frugal

/-- In every workspace that can be reached, stores remember nothing but what they are to share. -/
theorem Reachable.frugal (hw : w.Reachable) : w.Frugal := by
  induction hw with
  | ofStore name config =>
    intro s hs
    obtain rfl := List.mem_singleton.mp hs
    exact ⟨fun _ => rfl, fun _ => rfl, by simp⟩
  | step hw hstep ih =>
    obtain ⟨r, hr⟩ := hw.exists_sound
    exact ih.step hr hstep

/-- What a call makes and what is not to be shared is none of the elements that are in use. -/
theorem Reachable.same_eq_false_of_made (hw : w.Reachable) (hs : s ∈ w.stores)
    {call : Call Green View Builder} (hcall : ∀ g ∈ call.trees, g.InUse w.trees)
    {name? : Option String} {handle : Handle} (hok : (w.perform s call name?).1 = .ok handle)
    {g : Green} (hmade : call.Made handle g) (hshare : s.mayShare g = false) {x : Green}
    (hx : w.Live x) : x.same g = false := by
  obtain ⟨r, h⟩ := hw.exists_sound
  obtain ⟨f, -, ⟨fault, hrun⟩ | ⟨handle', hrun, -, hnew⟩⟩ := h.exists_outcome hs hcall
  · rw [perform_eq_of_error hrun] at hok
    cases hok
  · rw [perform_eq_of_ok hrun] at hok
    cases hok
    have hnone : r.find g.id = none := hnew g hmade hshare
    refine beq_false_of_ne fun hid => ?_
    have hknows := h.knows hx
    rw [Registry.Knows, hid, hnone] at hknows
    cases hknows

/-- The keys of nodes without slots: one for each kind and presence. -/
def bareKeys : List NodeKey :=
  Kind.all.flatMap fun kind => [⟨kind, .present, []⟩, ⟨kind, .missing, []⟩]

theorem mem_bareKeys (kind : Kind) (presence : Presence) : ⟨kind, presence, []⟩ ∈ bareKeys := by
  refine List.mem_flatMap.mpr ⟨kind, List.mem_of_getElem? kind.getElem?_all_number, ?_⟩
  cases presence
  · exact List.mem_cons_self
  · exact List.mem_cons_of_mem _ List.mem_cons_self

/-- A store that shares no node with slots remembers a node without slots under its kind and
presence. -/
theorem Reachable.bare_of_found (hw : w.Reachable) (hs : s ∈ w.stores)
    (hlimit : s.config.maxSharedSlots = 0) {key : NodeKey} {g : Green}
    (hfound : s.nodes[key]? = some g) : g.slots = [] ∧ key = ⟨g.kind, g.presence, []⟩ := by
  obtain ⟨r, h⟩ := hw.exists_sound
  obtain ⟨head, slots, rfl, -, rfl⟩ := (h.respects s hs).node hfound
  have hsmall : slots.length ≤ s.config.maxSharedSlots :=
    of_decide_eq_true ((hw.frugal s hs).node hfound)
  rw [hlimit] at hsmall
  obtain rfl := List.eq_nil_of_length_eq_zero (Nat.le_zero.mp hsmall)
  exact ⟨rfl, rfl⟩

theorem Reachable.size_nodes_le (hw : w.Reachable) (hs : s ∈ w.stores)
    (hlimit : s.config.maxSharedSlots = 0) : s.nodes.size ≤ 2 * Kind.all.length := by
  rw [← Std.HashMap.length_keys]
  change s.nodes.keys.length ≤ bareKeys.length
  refine Std.HashMap.nodup_keys.length_le_of_subset fun key hkey => ?_
  have hfound := Std.HashMap.getElem?_eq_some_getElem (Std.HashMap.mem_keys.mp hkey)
  rw [(hw.bare_of_found hs hlimit hfound).2]
  exact mem_bareKeys ..

/-- In every workspace that can be reached, a store that is to share neither tokens nor any slots
remembers no text, no token and at most one node for each kind and presence, none of which has a
slot. It finds each of its nodes without slots again, and all else that a call makes in it is none
of the elements that are in use. -/
theorem Reachable.only_bare_nodes_shared (hw : w.Reachable) (hs : s ∈ w.stores)
    (hconfig : s.config = ⟨0, false⟩) :
    s.stats.texts = 0 ∧ s.stats.tokens = 0 ∧ s.stats.nodes ≤ 2 * Kind.all.length ∧
      (∀ (key : NodeKey) (g : Green), s.nodes[key]? = some g →
        g.slots = [] ∧ key = ⟨g.kind, g.presence, []⟩) ∧
      (∀ g : Green, w.Live g → g.id.store = s.tag → g.isNode = true → g.slots = [] →
        s.nodes[(⟨g.kind, g.presence, []⟩ : NodeKey)]? = some g) ∧
      ∀ (call : Call Green View Builder) (name? : Option String) (handle : Handle),
        (∀ g ∈ call.trees, g.InUse w.trees) → (w.perform s call name?).1 = .ok handle →
        ∀ g, call.Made handle g → g.isNode = false ∨ g.slots ≠ [] →
          ∀ x, w.Live x → x.same g = false := by
  have hlimit : s.config.maxSharedSlots = 0 := congrArg StoreConfig.maxSharedSlots hconfig
  have htokens : s.config.sharesTokens = false := congrArg StoreConfig.sharesTokens hconfig
  have hfrugal := hw.frugal s hs
  refine ⟨hfrugal.text htokens, hfrugal.token htokens, hw.size_nodes_le hs hlimit,
    fun key g => hw.bare_of_found hs hlimit, fun g hg htag hnode hslots => ?_,
    fun call name? handle hcall hok g hmade hkept x hx => ?_⟩
  · obtain ⟨r, h⟩ := hw.exists_sound
    cases g with
    | token t => cases hnode
    | node head slots =>
      obtain rfl : slots = [] := hslots
      exact h.shares s hs (h.knows hg) htag (Nat.zero_le _)
  · refine hw.same_eq_false_of_made hs hcall hok hmade ?_ hx
    cases g with
    | token t => exact htokens
    | node head slots =>
      have hslots : slots ≠ [] := hkept.resolve_left fun h => Bool.false_ne_true h.symm
      refine decide_eq_false fun hsmall => hslots ?_
      exact List.eq_nil_of_length_eq_zero (Nat.le_zero.mp (hlimit ▸ hsmall))

open Scene

/-- A store that shares nothing with slots makes the same token twice, and so there are two. -/
theorem Reachable.only_bare_nodes_shared_token :
    ∃ (w : Workspace) (s : Store) (handle : Handle) (a b : Green),
      w.Reachable ∧ s ∈ w.stores ∧ s.config = ⟨0, false⟩ ∧ w.Live a ∧
        (w.perform s (.token ⟨.ident, .present, "x", [], []⟩) none).1 = .ok handle ∧
        (Call.token ⟨.ident, .present, "x", [], []⟩).Made handle b ∧ a.value = b.value ∧
        a.same b = false ∧ s.stats.texts = 0 ∧ s.stats.tokens = 0 := by
  let c := ofTrees [word 0 .ident "x"]
  have hw : c.workspace.Reachable := reachable_ofTrees rfl
  have ha : c.workspace.Live (word 0 .ident "x") := live_of_found rfl
  obtain ⟨s, hact⟩ : ∃ s, (Call.token ⟨.ident, .present, "x", [], []⟩).act c.store =
      (.ok (.green (word 1 .ident "x")), s) := ⟨_, rfl⟩
  have hperform := congrArg Prod.fst (perform_eq_of_ok (w := c.workspace) hact none)
  obtain ⟨htexts, htokens, -, -, -, hnew⟩ := hw.only_bare_nodes_shared c.store_mem rfl
  refine ⟨_, c.store, _, _, word 1 .ident "x", hw, c.store_mem, rfl, ha, hperform, rfl, rfl, ?_,
    htexts, htokens⟩
  exact hnew _ none _ (by simp [Call.trees]) hperform _ rfl (.inl rfl) _ ha

/-- A store that is to share nothing with slots remembers a placeholder that has none, and gives it
for the next one that it is asked for. -/
theorem exists_bare_node_shared : ∃ (w : Workspace) (s : Store) (g : Green),
    w.Reachable ∧ s ∈ w.stores ∧ s.config = ⟨0, false⟩ ∧ s.stats = ⟨0, 0, 1⟩ ∧ w.Live g ∧
      (w.perform s (.missingNode .missingExpr) none).1 = .ok (.green g) := by
  let key : NodeKey := .ofSlots .missingExpr .missing []
  let s : Store :=
    { tag := 0, config := ⟨0, false⟩, issued := 1, nodes := {(key, hole 0 .missingExpr)} }
  have hact : (Call.missingNode .missingExpr).act { tag := 0, config := ⟨0, false⟩ } =
      (.ok (.green (hole 0 .missingExpr)), s) :=
    Alloc.map_eq_of_ok (Alloc.missingNode_eq_small (by decide) (by decide) (by simp))
  have hagain : (Call.missingNode .missingExpr).act s =
      (.ok (.green (hole 0 .missingExpr)), s) := by
    refine Alloc.map_eq_of_ok ?_
    rw [Alloc.missingNode, if_pos (by decide)]
    refine (Alloc.allocNode_eq_small .missingExpr .missing (by decide)).trans ?_
    have hfound : s.nodes[NodeKey.ofSlots .missingExpr .missing
        (List.replicate Kind.missingExpr.slotSpecs.length none)]? = some (hole 0 .missingExpr) :=
      Std.HashMap.getElem?_insert_self
    rw [hfound]
    rfl
  have hw := reachable_of_ok (c := {}) (.ofStore "store" ⟨0, false⟩) _ (inUse_of_found rfl) hact
  refine ⟨_, s, hole 0 .missingExpr, hw, store_mem _, rfl, ?_, live_of_mem List.mem_cons_self,
    congrArg Prod.fst (perform_eq_of_ok hagain none)⟩
  simp [Store.stats, s, Std.HashMap.size_insert]

end Workspace

end Verbatim
