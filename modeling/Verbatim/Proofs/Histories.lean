import Verbatim.Proofs.Agreement.Calls
import Verbatim.Proofs.Collecting

/-!
# Histories of a workspace

A workspace changes step by step: stores are added, calls are made, handles are held and let go, and
stores are collected. Calls are about what is held, and may fail. After every history one registry
agrees with all stores, knows everything that is held, and knows of no element that its store would
not find again, if it shares such elements.
-/

namespace Verbatim

section Lookup

variable {α : Type} {name other : String}

/-- Entries under other names are found as before when those under a name are taken away. -/
theorem lookup_filter_of_ne (h : other ≠ name) (entries : List (String × α)) :
    (entries.filter fun entry => entry.1 != name).lookup other = entries.lookup other := by
  induction entries with
  | nil => rfl
  | cons entry entries ih =>
    obtain ⟨key, found⟩ := entry
    by_cases hkey : key = name
    · subst hkey
      simp [List.lookup_cons, beq_false_of_ne h, ih]
    · simp [List.lookup_cons, hkey, ih]

theorem lookup_filter_self (name : String) (entries : List (String × α)) :
    (entries.filter fun entry => entry.1 != name).lookup name = none :=
  List.lookup_eq_none_iff.mpr fun _ hentry =>
    bne_iff_ne.mpr (bne_iff_ne.mp (List.mem_filter.mp hentry).2).symm

end Lookup

namespace Registry

open Classical in
/-- The registry that knows of an element only if it is in use. -/
noncomputable def restrict (r : Registry) (trees : List Green) : Registry where
  find i := (r.find i).filter fun g => decide (g.InUse trees)
  id_eq h := r.id_eq (Option.filter_eq_some_iff.mp h).1
  width_lt h := r.width_lt (Option.filter_eq_some_iff.mp h).1
  width_eq h := r.width_eq (Option.filter_eq_some_iff.mp h).1
  hasError_eq h := r.hasError_eq (Option.filter_eq_some_iff.mp h).1
  find_slot h hc := by
    obtain ⟨hfind, hinUse⟩ := Option.filter_eq_some_iff.mp h
    refine Option.filter_eq_some_iff.mpr ⟨r.find_slot hfind hc, decide_eq_true ?_⟩
    exact (of_decide_eq_true hinUse).of_within (.of_slot hc)

theorem knows_restrict_iff {r : Registry} {trees : List Green} {g : Green} :
    (r.restrict trees).Knows g ↔ r.Knows g ∧ g.InUse trees := by
  simp [Knows, restrict, Option.filter_eq_some_iff]

end Registry

namespace Store

variable {s kept : Store} {r r' : Registry} {outside : List Green}

theorem Respects.knows_held (h : s.Respects r) : ∀ g ∈ s.held, r.Knows g := fun g hg =>
  (List.mem_append.mp hg).elim (h.knows_sharedNodes g) (h.knows_sharedTokens g)

/-- A store agrees with every registry that knows what it shares and not the identities to come. -/
theorem Respects.of_knows_held (h : s.Respects r)
    (hfresh : ∀ n, s.issued ≤ n → r'.find ⟨s.tag, n⟩ = none)
    (hheld : ∀ g ∈ s.held, r'.Knows g) : s.Respects r' where
  fresh := hfresh
  token ht :=
    ⟨(h.token ht).1, hheld _ (List.mem_append_right _ (mem_sharedTokens.mpr ⟨_, _, ht, rfl⟩))⟩
  node hg := by
    obtain ⟨head, slots, heq, -, hkey⟩ := h.node hg
    exact ⟨head, slots, heq, hheld _ (List.mem_append_left _ (mem_sharedNodes.mpr ⟨_, hg⟩)), hkey⟩

/-- A store of which entries were dropped agrees with the same registry. -/
theorem Keeps.respects (hk : s.Keeps kept outside) (h : s.Respects r) : kept.Respects r where
  fresh n hn := by
    rw [hk.tag_eq]
    exact h.fresh n (hk.issued_eq ▸ hn)
  token ht := h.token (hk.token_iff.mp ht).1
  node hg := h.node (hk.node_iff.mp hg).1

/-- What is left in the tables is in use. -/
theorem Keeps.inUse_held (hk : s.Keeps kept outside) : ∀ g ∈ kept.held, g.InUse outside := by
  intro g hg
  rcases List.mem_append.mp hg with hg | hg
  · obtain ⟨key, hkey⟩ := mem_sharedNodes.mp hg
    exact (hk.node_iff.mp hkey).2
  · obtain ⟨d, t, ht, rfl⟩ := mem_sharedTokens.mp hg
    exact (hk.token_iff.mp ht).2

/-- What is in use is shared as before. -/
theorem Keeps.shares (hk : s.Keeps kept outside) {g : Green} (hg : s.Shares g)
    (hinUse : g.InUse outside) : kept.Shares g := by
  cases g with
  | token t => exact fun hshares => hk.token_iff.mpr ⟨hg (hk.config_eq ▸ hshares), hinUse⟩
  | node head slots => exact fun hsmall => hk.node_iff.mpr ⟨hg (hk.config_eq ▸ hsmall), hinUse⟩

end Store

/-- Giving up a handle is a fault just if it is a builder with open nodes. -/
theorem Handle.drop_eq_error_iff {handle : Handle} :
    handle.drop = .error .abandoned ↔ ∃ tag b, handle = .builder tag b ∧ b.opened ≠ [] := by
  cases handle with
  | green g => simp [Handle.drop]
  | view v => simp [Handle.drop]
  | builder tag b =>
    constructor
    · intro h
      refine ⟨tag, b, rfl, fun hopened => ?_⟩
      simp [Handle.drop, Builder.abandon, hopened] at h
    · rintro ⟨_, _, hbuilder, hopened⟩
      cases hbuilder
      exact if_neg (by simpa using hopened)

namespace Workspace

/-- Whether an element is in use: something that is held or shared holds it. -/
def Live (w : Workspace) (g : Green) : Prop := g.InUse (w.trees ++ w.stores.flatMap Store.held)

/-- Letting go of a name is a fault just if a builder with open nodes is held there. In any case the
name is free afterwards, the other names are as before, and no store has changed: what the builder
had made for a store is shared there until the store is collected. -/
theorem release_spec (w : Workspace) (name : String) :
    ((w.release name).1 = .error .abandoned ↔
        ∃ tag b, w.handle? name = some (.builder tag b) ∧ b.opened ≠ []) ∧
      (w.release name).2.handle? name = none ∧
      (∀ other, other ≠ name → (w.release name).2.handle? other = w.handle? other) ∧
      ∀ s ∈ (w.release name).2.stores, s ∈ w.stores := by
  refine ⟨?_, lookup_filter_self name _, fun other hother => lookup_filter_of_ne hother _,
    fun s hs => (List.mem_filter.mp hs).1⟩
  cases hhandle : w.handle? name with
  | none => simp [release, hhandle]
  | some handle =>
    have houtcome : (w.release name).1 = handle.drop.map fun _ => true := by
      rw [release, hhandle]
      rfl
    have hmap : handle.drop.map (fun _ => true) = .error .abandoned ↔
        handle.drop = .error .abandoned := by
      cases handle.drop <;> simp [Except.map]
    rw [houtcome, hmap, Handle.drop_eq_error_iff]
    simp only [Option.some.injEq]

/-- What can be done to a workspace. -/
inductive Step (w : Workspace) : Workspace → Prop where
  /-- A store is added; it may take the name of another. -/
  | addStore (name : String) (config : StoreConfig) : Step w (w.addStore name config)
  /-- A call is made, about what is held. It may fail, and what comes out may be held. -/
  | call {s : Store} {call : Call Green View Builder} (name? : Option String) (hs : s ∈ w.stores)
      (hcall : ∀ g ∈ call.trees, g.InUse w.trees) : Step w (w.perform s call name?).2
  /-- Something that is in use already is held. -/
  | hold (name : String) {handle : Handle} (hhandle : ∀ g ∈ handle.trees, g.InUse w.trees) :
      Step w (w.hold name handle)
  /-- Something is let go, with or without a fault. -/
  | release (name : String) : Step w (w.release name).2
  /-- A store is collected. -/
  | collect {s : Store} (hs : s ∈ w.stores) : Step w (w.collect s).2
  /-- A store is collected if it has grown enough. -/
  | collectIfGrown {s : Store} (hs : s ∈ w.stores) : Step w (w.collectIfGrown s).2

/-- The workspaces that come from one with a single new store. -/
inductive Reachable : Workspace → Prop where
  | ofStore (name : String) (config : StoreConfig) : Reachable (ofStore name config)
  | step {w w' : Workspace} : Reachable w → Step w w' → Reachable w'

/-- One registry agrees with all stores of a workspace and knows all that is held in it. What it
knows of a store, the store finds again. -/
structure Sound (w : Workspace) (r : Registry) : Prop where
  respects : ∀ s ∈ w.stores, s.Respects r
  checked : ∀ {t : GreenToken}, r.Knows (.token t) → t.data.check = .ok ()
  nodup : (w.stores.map Store.tag).Nodup
  tag_lt : ∀ s ∈ w.stores, s.tag < w.made
  made_lt : ∀ {g : Green}, r.Knows g → g.id.store < w.made
  held : ∀ g ∈ w.trees, r.Knows g
  shares : ∀ s ∈ w.stores, ∀ {g : Green}, r.Knows g → g.id.store = s.tag → s.Shares g

section

variable {w : Workspace} {r : Registry}

theorem mem_trees {g : Green} : g ∈ w.trees ↔ ∃ entry ∈ w.handles, g ∈ entry.2.trees := by
  simp [trees]

theorem sound_ofStore (name : String) (config : StoreConfig) :
    Sound (ofStore name config) .empty where
  respects s hs := by
    obtain rfl := List.mem_singleton.mp hs
    exact ⟨fun _ _ => rfl, by simp, by simp⟩
  checked h := by cases h
  nodup := by simp [ofStore]
  tag_lt s hs := by
    obtain rfl := List.mem_singleton.mp hs
    exact Nat.one_pos
  made_lt h := by cases h
  held g hg := by cases hg
  shares _ _ _ h := by cases h

namespace Sound

/-- Everything that is in use is known. -/
theorem knows (h : w.Sound r) {g : Green} (hg : w.Live g) : r.Knows g := by
  refine hg.knows fun root hroot => ?_
  rcases List.mem_append.mp hroot with hroot | hroot
  · exact h.held root hroot
  · obtain ⟨s, hs, hroot⟩ := List.mem_flatMap.mp hroot
    exact (h.respects s hs).knows_held root hroot

/-- Dropping stores takes nothing from the others. -/
theorem dropStores (h : w.Sound r) : w.dropStores.Sound r where
  respects s hs := h.respects s (List.mem_filter.mp hs |>.1)
  checked := h.checked
  nodup := (List.filter_sublist.map Store.tag).nodup h.nodup
  tag_lt s hs := h.tag_lt s (List.mem_filter.mp hs |>.1)
  made_lt := h.made_lt
  held := h.held
  shares s hs := h.shares s (List.mem_filter.mp hs |>.1)

/-- Other handles may be held, as long as they are known. -/
theorem withHandles (h : w.Sound r) {handles : List (String × Handle)}
    (hhandles : ∀ entry ∈ handles, ∀ g ∈ entry.2.trees, r.Knows g) :
    Sound { w with handles } r where
  respects := h.respects
  checked := h.checked
  nodup := h.nodup
  tag_lt := h.tag_lt
  made_lt := h.made_lt
  held g hg := by
    obtain ⟨entry, hentry, hg⟩ := mem_trees.mp hg
    exact hhandles entry hentry g hg
  shares := h.shares

theorem hold (h : w.Sound r) (name : String) {handle : Handle}
    (hhandle : ∀ g ∈ handle.trees, r.Knows g) : (w.hold name handle).Sound r := by
  refine (h.withHandles fun entry hentry g hg => ?_).dropStores
  rcases List.mem_cons.mp hentry with rfl | hentry
  · exact hhandle g hg
  · exact h.held g (mem_trees.mpr ⟨entry, (List.mem_filter.mp hentry).1, hg⟩)

theorem release (h : w.Sound r) (name : String) : (w.release name).2.Sound r := by
  refine (h.withHandles fun entry hentry g hg => ?_).dropStores
  exact h.held g (mem_trees.mpr ⟨entry, (List.mem_filter.mp hentry).1, hg⟩)

theorem addStore (h : w.Sound r) (name : String) (config : StoreConfig) :
    (w.addStore name config).Sound r := by
  have hnone {g : Green} (hg : r.Knows g) : g.id.store ≠ w.made := Nat.ne_of_lt (h.made_lt hg)
  refine dropStores ⟨fun s hs => ?_, h.checked, ?_, fun s hs => ?_,
    fun hg => Nat.lt_succ_of_lt (h.made_lt hg), h.held, fun s hs g hg htag => ?_⟩
  · rcases List.mem_cons.mp hs with rfl | hs
    · refine ⟨fun n _ => ?_, by simp, by simp⟩
      cases hfind : r.find ⟨w.made, n⟩ with
      | none => rfl
      | some g =>
        have hid := r.id_eq hfind
        have hg : r.Knows g := by rwa [Registry.Knows, hid]
        exact absurd (congrArg Ident.store hid) (hnone hg)
    · exact h.respects s hs
  · rw [List.map_cons, List.nodup_cons]
    refine ⟨fun hmem => ?_, h.nodup⟩
    obtain ⟨s, hs, htag⟩ := List.mem_map.mp hmem
    exact Nat.ne_of_lt (h.tag_lt s hs) htag
  · rcases List.mem_cons.mp hs with rfl | hs
    · exact Nat.lt_succ_self _
    · exact Nat.lt_succ_of_lt (h.tag_lt s hs)
  · rcases List.mem_cons.mp hs with rfl | hs
    · exact absurd htag (hnone hg)
    · exact h.shares s hs hg htag

/-- The site of one of the stores. -/
def site (h : w.Sound r) {s : Store} (hs : s ∈ w.stores) : Site :=
  ⟨s, r, h.respects s hs, h.checked⟩

/-- A store is put in the place of the one with its tag, and agrees with a registry that the others
agree with, too. -/
theorem putStore (h : w.Sound r) {s t : Store} {r' : Registry} (htag : t.tag = s.tag)
    (hs : s ∈ w.stores) (hrespects : t.Respects r')
    (hothers : ∀ u ∈ w.stores, u.tag ≠ s.tag → u.Respects r')
    (hchecked : ∀ {t : GreenToken}, r'.Knows (.token t) → t.data.check = .ok ())
    (hnew : ∀ {g : Green}, r'.Knows g → r.Knows g ∨ g.id.store = s.tag)
    (hheld : ∀ g ∈ w.trees, r'.Knows g)
    (hshares : ∀ {g : Green}, r'.Knows g → g.id.store = s.tag → t.Shares g) :
    (w.putStore t).Sound r' := by
  have hmem {u : Store} (hu : u ∈ (w.putStore t).stores) :
      u = t ∨ u ∈ w.stores ∧ u.tag ≠ s.tag := by
    obtain ⟨u', hu', rfl⟩ := List.mem_map.mp hu
    by_cases hut : u'.tag = t.tag
    · exact .inl (if_pos hut)
    · rw [if_neg hut]
      exact .inr ⟨hu', htag ▸ hut⟩
  refine ⟨fun u hu => ?_, hchecked, ?_, fun u hu => ?_, fun hg => ?_, hheld,
    fun u hu g hg hut => ?_⟩
  · rcases hmem hu with rfl | ⟨hu, hne⟩
    · exact hrespects
    · exact hothers u hu hne
  · have htags : (w.putStore t).stores.map Store.tag = w.stores.map Store.tag := by
      simp only [Workspace.putStore, List.map_map]
      refine List.map_congr_left fun u _ => ?_
      by_cases hut : u.tag = t.tag
      · simp [hut]
      · simp [hut]
    rw [htags]
    exact h.nodup
  · rcases hmem hu with rfl | ⟨hu, -⟩
    · exact htag ▸ h.tag_lt s hs
    · exact h.tag_lt u hu
  · rcases hnew hg with hg | hg
    · exact h.made_lt hg
    · exact hg ▸ h.tag_lt s hs
  · rcases hmem hu with rfl | ⟨hu, hne⟩
    · exact hshares hg (hut.trans htag)
    · rcases hnew hg with hg | hg
      · exact h.shares u hu hg hut
      · exact absurd (hut.symm.trans hg) hne

/-- While a store makes elements, the others stay as they are. -/
theorem evolves (h : w.Sound r) {s : Store} (hs : s ∈ w.stores) {f : Site}
    (hf : (h.site hs).Evolves f) : (w.putStore f.store).Sound f.registry := by
  have hnew {g : Green} (hg : f.registry.Knows g) : r.Knows g ∨ g.id.store = s.tag :=
    (hf.new hg).imp_right And.left
  refine h.putStore hf.tag_eq hs f.respects (fun u hu hne => ?_) f.checked hnew
    (fun g hg => (h.held g hg).mono hf.le) fun {g} hg htag => ?_
  · -- New identities have the tag of the store, so none that another store is yet to give is taken.
    have hrespects := h.respects u hu
    refine hrespects.of_knows_held (fun n hn => ?_) fun g hg =>
      (hrespects.knows_held g hg).mono hf.le
    cases hfind : f.registry.find ⟨u.tag, n⟩ with
    | none => rfl
    | some g =>
      have hid := f.registry.id_eq hfind
      have hg : f.registry.Knows g := by rwa [Registry.Knows, hid]
      rcases hnew hg with hg | hg
      · rw [Registry.Knows, hid, hrespects.fresh n hn] at hg
        cases hg
      · exact absurd ((congrArg Ident.store hid).symm.trans hg) hne
  · rcases hf.new hg with hg | ⟨-, hg⟩
    · exact hf.shares (h.shares s hs hg htag)
    · exact hg

/-- What keeps elements of a store in use is known. -/
theorem knows_outside (h : w.Sound r) (tag : Nat) : ∀ g ∈ w.outside tag, r.Knows g := by
  refine fun g hg => h.knows (.of_mem ?_)
  rcases List.mem_append.mp hg with hg | hg
  · exact List.mem_append_left _ hg
  · obtain ⟨s, hs, hg⟩ := List.mem_flatMap.mp hg
    exact List.mem_append_right _ (List.mem_flatMap.mpr ⟨s, (List.mem_filter.mp hs).1, hg⟩)

/-- After a collection nothing is known but what was in use from outside the store. -/
theorem collect (h : w.Sound r) {s : Store} (hs : s ∈ w.stores) :
    (w.collect s).2.Sound (r.restrict (w.outside s.tag)) := by
  have houtside := h.knows_outside s.tag
  have hkeeps := s.keeps_collect (h.respects s hs) houtside
  have hknows {g : Green} (hg : g.InUse (w.outside s.tag)) :
      (r.restrict (w.outside s.tag)).Knows g :=
    Registry.knows_restrict_iff.mpr ⟨hg.knows houtside, hg⟩
  have hfresh {i : Ident} (hi : r.find i = none) :
      (r.restrict (w.outside s.tag)).find i = none := by
    simp [Registry.restrict, hi]
  have hkept := hkeeps.respects (h.respects s hs)
  refine h.putStore hkeeps.tag_eq hs ?_ (fun u hu hne => ?_)
    (fun ht => h.checked (Registry.knows_restrict_iff.mp ht).1)
    (fun hg => .inl (Registry.knows_restrict_iff.mp hg).1)
    (fun g hg => hknows (.of_mem (List.mem_append_left _ hg))) fun {g} hg htag => ?_
  · exact hkept.of_knows_held (fun n hn => hfresh (hkept.fresh n hn))
      fun g hg => hknows (hkeeps.inUse_held g hg)
  · -- What another store shares is outside the tables of this one.
    refine (h.respects u hu).of_knows_held (fun n hn => hfresh ((h.respects u hu).fresh n hn))
      fun g hg => hknows (.of_mem (List.mem_append_right _ (List.mem_flatMap.mpr ⟨u, ?_, hg⟩)))
    exact List.mem_filter.mpr ⟨hu, bne_iff_ne.mpr hne⟩
  · obtain ⟨hg, hinUse⟩ := Registry.knows_restrict_iff.mp hg
    exact hkeeps.shares (h.shares s hs hg htag) hinUse

end Sound

/-- What a call in a sound workspace leads to. -/
theorem perform_eq_of_ok {s t : Store} {call : Call Green View Builder} {handle : Handle}
    (h : call.act s = (.ok handle, t)) (name? : Option String) :
    w.perform s call name? =
      (.ok handle, name?.elim (w.putStore t) fun name => (w.putStore t).hold name handle) := by
  have hrun : w.run s call.act = (.ok handle, w.putStore t) := by
    change ((call.act s).1, w.putStore (call.act s).2) = _
    rw [h]
  rw [perform, hrun]

theorem perform_eq_of_error {s t : Store} {call : Call Green View Builder} {fault : Fault}
    (h : call.act s = (.error fault, t)) (name? : Option String) :
    w.perform s call name? = (.error fault, w.putStore t) := by
  have hrun : w.run s call.act = (.error fault, w.putStore t) := by
    change ((call.act s).1, w.putStore (call.act s).2) = _
    rw [h]
  rw [perform, hrun]

namespace Sound

/-- A call about what is held fails, or what comes out is known, and what it has made is new. -/
theorem exists_outcome (h : w.Sound r) {s : Store} (hs : s ∈ w.stores)
    {call : Call Green View Builder} (hcall : ∀ g ∈ call.trees, g.InUse w.trees) :
    ∃ f, (h.site hs).Evolves f ∧
      ((∃ fault, call.act s = (.error fault, f.store)) ∨
        ∃ handle, call.act s = (.ok handle, f.store) ∧ (∀ g ∈ handle.trees, f.Knows g) ∧
          ∀ g, call.Made handle g → (h.site hs).New g) := by
  have hknows : ∀ g ∈ call.trees, (h.site hs).Knows g := fun g hg => (hcall g hg).knows h.held
  obtain ⟨f, _, hf, _, ⟨fault, hrun, _⟩ | ⟨handle, _, hrun, _, hgood⟩⟩ :=
    Call.agree_act rfl hknows hknows
  · exact ⟨f, hf, .inl ⟨fault, hrun⟩⟩
  · exact ⟨f, hf, .inr ⟨handle, hrun, hgood.left, hgood.new_left⟩⟩

/-- A call about what is held fails, or what comes out is known; no large node that it makes was
known before. -/
theorem act_outcome (h : w.Sound r) {s : Store} (hs : s ∈ w.stores)
    {call : Call Green View Builder} (hcall : ∀ g ∈ call.trees, g.InUse w.trees) :
    ∃ f, (h.site hs).Evolves f ∧
      ((∃ fault, call.act s = (.error fault, f.store)) ∨
        ∃ handle, call.act s = (.ok handle, f.store) ∧ (∀ g ∈ handle.trees, f.Knows g) ∧
          ∀ g, call.Made handle g → (h.site hs).Fresh g) := by
  obtain ⟨f, hf, hfault | ⟨handle, hrun, hknows, hnew⟩⟩ := h.exists_outcome hs hcall
  · exact ⟨f, hf, .inl hfault⟩
  · exact ⟨f, hf, .inr ⟨handle, hrun, hknows, fun g hg => (hnew g hg).fresh⟩⟩

/-- A call leaves a sound workspace, whether or not it fails. -/
theorem exists_perform (h : w.Sound r) {s : Store} (hs : s ∈ w.stores)
    {call : Call Green View Builder} (hcall : ∀ g ∈ call.trees, g.InUse w.trees)
    (name? : Option String) : ∃ r', (w.perform s call name?).2.Sound r' := by
  obtain ⟨f, hf, ⟨fault, hrun⟩ | ⟨handle, hrun, hhandle, -⟩⟩ := h.act_outcome hs hcall
  · rw [perform_eq_of_error hrun]
    exact ⟨f.registry, h.evolves hs hf⟩
  · rw [perform_eq_of_ok hrun]
    refine ⟨f.registry, ?_⟩
    cases name? with
    | none => exact h.evolves hs hf
    | some name => exact (h.evolves hs hf).hold name hhandle

/-- Every step leads from a sound workspace to a sound one. -/
theorem exists_step (h : w.Sound r) {w' : Workspace} (hstep : w.Step w') : ∃ r', w'.Sound r' := by
  cases hstep with
  | addStore name config => exact ⟨r, h.addStore name config⟩
  | call name? hs hcall => exact h.exists_perform hs hcall name?
  | hold name hhandle => exact ⟨r, h.hold name fun g hg => (hhandle g hg).knows h.held⟩
  | release name => exact ⟨r, h.release name⟩
  | collect hs => exact ⟨_, h.collect hs⟩
  | @collectIfGrown s hs =>
    simp only [collectIfGrown, Store.collectIfGrown]
    split
    · exact ⟨r, h.evolves hs (.refl (h.site hs))⟩
    · exact ⟨_, h.collect hs⟩

end Sound

/-- Every workspace that can be reached is sound. -/
theorem Reachable.exists_sound (hw : w.Reachable) : ∃ r, w.Sound r := by
  induction hw with
  | ofStore name config => exact ⟨_, sound_ofStore name config⟩
  | step _ hstep ih =>
    obtain ⟨r, hr⟩ := ih
    exact hr.exists_step hstep

/-- A call that gives something leads to a workspace in which it may be held. -/
theorem Reachable.perform_ok (hw : w.Reachable) {s t : Store} (hs : s ∈ w.stores)
    {call : Call Green View Builder} (hcall : ∀ g ∈ call.trees, g.InUse w.trees) {handle : Handle}
    (hact : call.act s = (.ok handle, t)) (name? : Option String) :
    (name?.elim (w.putStore t) fun name => (w.putStore t).hold name handle).Reachable := by
  have hstep := hw.step (.call name? hs hcall)
  rwa [perform_eq_of_ok hact] at hstep

end

end Workspace

end Verbatim
