import Verbatim.Proofs.Scenes

/-!
# Reclaiming

In every workspace that can be reached, collecting a store drops just those of its entries that
nothing outside its tables leads to, and changes nothing else.
-/

namespace Verbatim

namespace Workspace

variable {w : Workspace} {s : Store}

/-- Putting a store in its place leaves what keeps its elements in use. -/
theorem outside_putStore (w : Workspace) (t : Store) :
    (w.putStore t).outside t.tag = w.outside t.tag := by
  have hstores : (w.putStore t).stores.filter (fun s => s.tag != t.tag) =
      w.stores.filter fun s => s.tag != t.tag := by
    simp only [putStore]
    induction w.stores with
    | nil => rfl
    | cons s stores ih =>
      by_cases htag : s.tag = t.tag
      · simp [htag, ih]
      · simp [htag, ih]
  rw [outside, outside, hstores]
  rfl

/-- In every workspace that can be reached, collecting a store keeps just those nodes, tokens and
texts that are in use from outside its tables: what is held, or what another store shares, leads to
them. An element that is not shared counts if it is in use itself. Nothing else changes; the number
of entries that were dropped is told, in whichever order the tables are visited, and there is
nothing left to drop. -/
theorem Reachable.collect_keeps_inUse (hw : w.Reachable) (hs : s ∈ w.stores) :
    ∃ kept, (w.collect s).2 = w.putStore kept ∧ kept ∈ (w.collect s).2.stores ∧
      s.Keeps kept (w.outside s.tag) ∧ (w.collect s).1 + kept.entryCount = s.entryCount ∧
      (∀ visit : List Green → List Green, (∀ entries, (visit entries).Perm entries) →
        s.collectBy visit (w.outside s.tag) = ((w.collect s).1, kept)) ∧
      ((w.collect s).2.collect kept).1 = 0 := by
  obtain ⟨r, h⟩ := hw.exists_sound
  have hrespects := h.respects s hs
  have houtside := h.knows_outside s.tag
  have hkeeps := s.keeps_collect hrespects houtside
  refine ⟨(s.collect (w.outside s.tag)).2, rfl, ?_, hkeeps,
    s.collectBy_fst_add_entryCount Store.youngestFirst (w.outside s.tag),
    fun visit hvisit => ?_, ?_⟩
  · exact List.mem_map.mpr ⟨s, hs, if_pos hkeeps.tag_eq.symm⟩
  · exact s.collectBy_eq_collect hrespects houtside hvisit
  · have hsame : (w.collect s).2.outside (s.collect (w.outside s.tag)).2.tag = w.outside s.tag :=
      outside_putStore w (s.collect (w.outside s.tag)).2
    change (Store.collect ((w.collect s).2.outside _) _).1 = 0
    rw [hsame]
    refine Store.collect_fst_eq_zero (hkeeps.respects hrespects) houtside
      (fun hg => (hkeeps.node_iff.mp hg).2) (fun ht => (hkeeps.token_iff.mp ht).2) fun htext => ?_
    exact hkeeps.tag_eq ▸ (hkeeps.text_iff.mp htext).2

open Scene

/-- The word `x` where it fits nowhere. -/
def strayWord : Green := branch 2 .unexpected [some (word 0 .ident "x")]

/-- The words `x` and `y` where they fit nowhere. -/
def strayWords : Green := branch 3 .unexpected [some (word 0 .ident "x"), some (word 1 .ident "y")]

/-- The token `x`. -/
def tokenX : GreenToken := ⟨⟨0, 0⟩, ⟨.ident, .present, "x", [], []⟩⟩

/-- The token `y`. -/
def tokenY : GreenToken := ⟨⟨0, 1⟩, ⟨.ident, .present, "y", [], []⟩⟩

/-- The store that has made both words and both nodes. -/
def wordStore : Store where
  tag := 0
  issued := 4
  texts := ({"x"} : Std.HashSet String).insert "y"
  tokens := ({(tokenX.data, tokenX)} : Std.HashMap TokenData GreenToken).insert tokenY.data tokenY
  nodes := ({(.ofSlots .unexpected .present strayWord.slots, strayWord)} :
    Std.HashMap NodeKey Green).insert (.ofSlots .unexpected .present strayWords.slots) strayWords

/-- The store can be in use when nothing but `x` is held. -/
theorem exists_reachable_wordStore :
    ∃ w : Workspace, w.Reachable ∧ w.stores = [wordStore] ∧ w.trees = [strayWord] := by
  let s₁ : Store := { tag := 0, issued := 1, texts := {"x"}, tokens := {(tokenX.data, tokenX)} }
  let s₂ : Store := { wordStore with issued := 2, nodes := ∅ }
  let s₃ : Store := { wordStore with
    issued := 3, nodes := {(.ofSlots .unexpected .present strayWord.slots, strayWord)} }
  have hx : (Call.token tokenX.data).act { tag := 0 } = (.ok (.green (.token tokenX)), s₁) :=
    Alloc.map_eq_of_ok (Alloc.makeToken_eq_new rfl rfl rfl rfl rfl (by simp))
  have hy : (Call.token tokenY.data).act s₁ = (.ok (.green (.token tokenY)), s₂) :=
    Alloc.map_eq_of_ok (Alloc.makeToken_eq_new rfl rfl rfl rfl rfl (by simp [s₁, tokenX, tokenY]))
  have hword : (Call.unexpected [.token tokenX]).act s₂ = (.ok (.green strayWord), s₃) :=
    Alloc.map_eq_of_ok (Alloc.allocNode_eq_new _ _ (by decide) (by decide) (by simp [s₂]))
  have hwords : (Call.unexpected [.token tokenX, .token tokenY]).act s₃ =
      (.ok (.green strayWords), wordStore) :=
    Alloc.map_eq_of_ok (Alloc.allocNode_eq_new _ _ (by decide) (by decide)
      (by simp [s₃, strayWord, branch, NodeKey.ofSlots, Green.slots]))
  have hw : (workspace { store := { tag := 0 } }).Reachable := .ofStore "store" {}
  have hw := reachable_of_ok hw _ (inUse_of_found rfl) hx
  have hw := reachable_of_ok hw _ (inUse_of_found rfl) hy
  have hw := reachable_of_ok hw _ (inUse_of_found rfl) hword
  have hw := reachable_of_ok hw _ (inUse_of_found rfl) hwords
  -- what was made first, second and last is let go
  exact ⟨_, ((hw.step (.release "")).step (.release "+")).step (.release "+++"), rfl, rfl⟩

/-- Of a table with two entries, one of which is in use, the other is dropped. -/
theorem equiv_singleton {α β : Type} [BEq α] [Hashable α] [LawfulBEq α] {m : Std.HashMap α β}
    {P : β → Prop} {a b : α} {x y : β} (hne : a ≠ b) (hx : P x) (hy : ¬ P y)
    (h : ∀ (k : α) (v : β), m[k]? = some v ↔
      (({(a, x)} : Std.HashMap α β).insert b y)[k]? = some v ∧ P v) : m.Equiv {(a, x)} := by
  refine .of_forall_getElem?_eq fun k => Option.ext fun v => (h k v).trans ?_
  simp only [Std.HashMap.singleton_eq_insert, Std.HashMap.getElem?_insert, beq_iff_eq,
    Std.HashMap.getElem?_empty]
  grind

theorem inUse_tokenX : (Green.token tokenX).InUse [strayWord] :=
  ⟨strayWord, List.mem_singleton_self _, .of_slot (List.mem_singleton_self _)⟩

/-- When nothing but `x` is held, what is in use are this node and its token. -/
theorem serial_mem_of_inUse_word {z : Green} (h : z.InUse [strayWord]) : z.id.serial ∈ [0, 2] := by
  obtain ⟨root, hroot, hz⟩ := h
  obtain rfl := List.mem_singleton.mp hroot
  exact of_decide_eq_true (of_within (p := fun z => z.id.serial ∈ [0, 2]) (by decide) hz)

/-- When nothing but `x` is held, just one entry of each table is kept. -/
theorem equiv_of_keeps_wordStore {kept : Store} (h : wordStore.Keeps kept [strayWord]) :
    kept.nodes.Equiv {(.ofSlots .unexpected .present strayWord.slots, strayWord)} ∧
      kept.tokens.Equiv {(tokenX.data, tokenX)} ∧ kept.texts.Equiv {"x"} := by
  have hwords : ¬ strayWords.InUse [strayWord] :=
    fun h => absurd (serial_mem_of_inUse_word h) (by decide)
  have hy : ¬ (Green.token tokenY).InUse [strayWord] :=
    fun h => absurd (serial_mem_of_inUse_word h) (by decide)
  refine ⟨?_, ?_, ?_⟩
  · exact equiv_singleton (by decide) (.of_mem (List.mem_singleton_self _)) hwords
      fun _ _ => h.node_iff
  · exact equiv_singleton (P := fun t => (Green.token t).InUse [strayWord]) (by decide)
      inUse_tokenX hy fun _ _ => h.token_iff
  · refine .of_forall_mem_iff fun text => h.text_iff.trans ⟨?_, fun htext => ?_⟩
    · rintro ⟨-, t, ⟨root, hroot, ht⟩, -, rfl⟩
      obtain rfl := List.mem_singleton.mp hroot
      have htext := of_within (p := fun z => z.token?.all (·.data.text == "x")) (by decide) ht
      have htext : t.data.text = "x" := by simpa [Green.token?] using htext
      simp [htext]
    · obtain rfl : "x" = text := by simpa using htext
      exact ⟨by simp [wordStore], tokenX, inUse_tokenX, rfl, rfl⟩

theorem stats_wordStore : wordStore.stats = ⟨2, 2, 2⟩ := by
  have hne : NodeKey.ofSlots .unexpected .present strayWord.slots ≠
      NodeKey.ofSlots .unexpected .present strayWords.slots := by decide
  simp [Store.stats, wordStore, Std.HashMap.size_insert, Std.HashSet.size_insert, tokenX, tokenY,
    hne]

/-- Of `x` alone and `xy`, which share `x`, only the first is held. A collection drops the other,
the token `y` and its text. The token that they share stays, and so does its text. -/
theorem Reachable.collect_keeps_inUse_word :
    ∃ (w : Workspace) (s kept : Store), w.Reachable ∧ s ∈ w.stores ∧ w.trees = [strayWord] ∧
      strayWord ∈ s.sharedNodes ∧ strayWords ∈ s.sharedNodes ∧ s.stats = ⟨2, 2, 2⟩ ∧
      (w.collect s).1 = 3 ∧ kept ∈ (w.collect s).2.stores ∧ kept.stats = ⟨1, 1, 1⟩ ∧
      strayWord ∈ kept.sharedNodes ∧ word 0 .ident "x" ∈ kept.sharedTokens ∧
      "x" ∈ kept.texts ∧ ((w.collect s).2.collect kept).1 = 0 := by
  obtain ⟨w, hw, hstores, htrees⟩ := exists_reachable_wordStore
  have hs : wordStore ∈ w.stores := hstores ▸ List.mem_singleton_self _
  have houtside : w.outside wordStore.tag = [strayWord] := by
    simp [outside, hstores, htrees]
  obtain ⟨kept, -, hmem, hkeeps, hsum, -, hzero⟩ := hw.collect_keeps_inUse hs
  rw [houtside] at hkeeps
  obtain ⟨hnodes, htokens, htexts⟩ := equiv_of_keeps_wordStore hkeeps
  have hstats := stats_wordStore
  have hkept : kept.stats = ⟨1, 1, 1⟩ := by
    rw [Store.stats, hnodes.size_eq, htokens.size_eq, htexts.size_eq]
    simp [Std.HashMap.size_insert, Std.HashSet.size_insert]
  have hdropped : (w.collect wordStore).1 = 3 := by
    simp only [Store.stats, StoreStats.mk.injEq] at hstats hkept
    simp only [Store.entryCount] at hsum
    omega
  have hfound : kept.nodes[NodeKey.ofSlots .unexpected .present strayWord.slots]? =
      some strayWord := by
    simp [hnodes.getElem?_eq]
  have hfoundX : kept.tokens[tokenX.data]? = some tokenX := by
    simp [htokens.getElem?_eq]
  exact ⟨w, wordStore, kept, hw, hs, htrees,
    Store.mem_sharedNodes.mpr ⟨_, (hkeeps.node_iff.mp hfound).1⟩,
    Store.mem_sharedNodes.mpr ⟨_, Std.HashMap.getElem?_insert_self⟩, stats_wordStore, hdropped,
    hmem, hkept, Store.mem_sharedNodes.mpr ⟨_, hfound⟩,
    Store.mem_sharedTokens.mpr ⟨_, tokenX, hfoundX, rfl⟩, htexts.mem_iff.mpr (by simp), hzero⟩

end Workspace

end Verbatim
