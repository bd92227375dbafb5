import Verbatim.Proofs.Counting

/-!
# Collecting

A pass over a table gives up entries to which nothing else refers, and the numbers of references
still tally for the entries that are kept. Once a pass gives up nothing, there are other references
to each entry, so everything that is alive is in use without the table. What a collection keeps is
therefore what is in use from outside the store, in whichever order the tables are visited.
-/

namespace Verbatim

namespace Counts

variable {c : Counts} {r : Registry} {kept entries trees live : List Green}

/-- A pass leaves the numbers of references from the entries that it keeps. -/
theorem exists_tallies_sweepOnce (h : Tallies c r (entries ++ (kept ++ trees)) [] live)
    (hentries : ∀ g ∈ entries, r.Knows g) :
    ∃ live, Tallies (c.sweepOnce kept entries).2 r ((c.sweepOnce kept entries).1 ++ trees) []
      live := by
  induction entries generalizing c kept live with
  | nil => exact ⟨live, h⟩
  | cons g rest ih =>
    have hrest : ∀ x ∈ rest, r.Knows x := fun x hx => hentries x (List.mem_cons_of_mem _ hx)
    by_cases hone : c.ofElement g.id = 1
    · rw [sweepOnce, if_pos hone]
      have hg : ∀ x ∈ [g], r.Knows x := fun x hx =>
        List.mem_singleton.mp hx ▸ hentries g List.mem_cons_self
      obtain ⟨live, h⟩ : ∃ live, Tallies (c.release [g]) r (rest ++ (kept ++ trees)) [] live :=
        exists_tallies_release h hg
      exact ih h hrest
    · rw [sweepOnce, if_neg hone]
      exact ih (h.perm List.perm_middle.symm) hrest

/-- A pass keeps some of the entries and adds none. -/
theorem exists_sublist_sweepOnce (c : Counts) (kept entries : List Green) :
    ∃ part : List Green, part.Sublist entries ∧
      (c.sweepOnce kept entries).1 = part.reverse ++ kept := by
  induction entries generalizing c kept with
  | nil => exact ⟨[], .slnil, rfl⟩
  | cons g rest ih =>
    by_cases hone : c.ofElement g.id = 1
    · rw [sweepOnce, if_pos hone]
      obtain ⟨part, hpart, heq⟩ := ih (c.release [g]) kept
      exact ⟨part, hpart.cons g, heq⟩
    · rw [sweepOnce, if_neg hone]
      obtain ⟨part, hpart, heq⟩ := ih c (g :: kept)
      exact ⟨g :: part, hpart.cons_cons g, by simp [heq]⟩

/-- A pass that keeps all entries has found other references to each, and changes nothing. -/
theorem sweepOnce_of_length
    (h : kept.length + entries.length ≤ (c.sweepOnce kept entries).1.length) :
    (c.sweepOnce kept entries).2 = c ∧ ∀ g ∈ entries, c.ofElement g.id ≠ 1 := by
  induction entries generalizing kept with
  | nil => exact ⟨rfl, by simp⟩
  | cons g rest ih =>
    by_cases hone : c.ofElement g.id = 1
    · rw [sweepOnce, if_pos hone] at h
      obtain ⟨part, hpart, heq⟩ := exists_sublist_sweepOnce (c.release [g]) kept rest
      have hle := hpart.length_le
      rw [heq, List.length_append, List.length_reverse, List.length_cons] at h
      omega
    · rw [sweepOnce, if_neg hone] at h ⊢
      obtain ⟨heq, hall⟩ := @ih (g :: kept) (by simp only [List.length_cons] at h ⊢; omega)
      refine ⟨heq, fun x hx => ?_⟩
      rcases List.mem_cons.mp hx with rfl | hx
      · exact hone
      · exact hall x hx

/-- One pass is enough where nothing stands in the slots of the entries. -/
theorem ofElement_sweepOnce_ne_one (hchildren : ∀ g ∈ entries, g.children = [])
    (hnodup : ((entries ++ kept).map Green.id).Nodup) (hkept : ∀ g ∈ kept, c.ofElement g.id ≠ 1) :
    ∀ g ∈ (c.sweepOnce kept entries).1, (c.sweepOnce kept entries).2.ofElement g.id ≠ 1 := by
  induction entries generalizing c kept with
  | nil => exact hkept
  | cons g rest ih =>
    have hrest : ∀ x ∈ rest, x.children = [] := fun x hx => hchildren x (List.mem_cons_of_mem _ hx)
    obtain ⟨hnew, htail⟩ := List.nodup_cons.mp hnodup
    by_cases hone : c.ofElement g.id = 1
    · rw [sweepOnce, if_pos hone]
      refine ih hrest htail fun x hx => ?_
      have hne : g.id ≠ x.id := fun hid => hnew (List.mem_map.mpr
        ⟨x, List.mem_append_right _ hx, hid.symm⟩)
      rw [release, if_pos hone, hchildren g List.mem_cons_self, List.nil_append, release,
        ofElement_updateText, ofElement_setElement_of_ne hne]
      exact hkept x hx
    · rw [sweepOnce, if_neg hone]
      refine ih hrest ?_ fun x hx => ?_
      · exact ((List.perm_middle.map Green.id).nodup_iff).mpr hnodup
      · rcases List.mem_cons.mp hx with rfl | hx
        · exact hone
        · exact hkept x hx

variable {visit : List Green → List Green}

theorem sweep_eq (visit : List Green → List Green) (entries : List Green) (c : Counts) :
    sweep visit entries c =
      if (c.sweepOnce [] (visit entries)).1.length < entries.length then
        sweep visit (c.sweepOnce [] (visit entries)).1 (c.sweepOnce [] (visit entries)).2
      else (c.sweepOnce [] (visit entries)).2 := by
  rw [sweep]

/-- Passes over a table until one gives up nothing leave entries to which there are other
references. -/
theorem exists_settled_sweep (hvisit : ∀ entries, (visit entries).Perm entries)
    (h : Tallies c r (entries ++ trees) [] live) (hentries : ∀ g ∈ entries, r.Knows g)
    (hnodup : (entries.map Green.id).Nodup) :
    ∃ kept live, Tallies (sweep visit entries c) r (kept ++ trees) [] live ∧
      (∀ g ∈ kept, g ∈ entries) ∧ (kept.map Green.id).Nodup ∧
      ∀ g ∈ kept, (sweep visit entries c).ofElement g.id ≠ 1 := by
  induction hn : entries.length using Nat.strongRecOn generalizing entries c live with
  | ind n ih =>
    have hperm := hvisit entries
    have hknown : ∀ g ∈ visit entries, r.Knows g := fun g hg => hentries g (hperm.mem_iff.mp hg)
    have hvisited : Tallies c r (visit entries ++ ([] ++ trees)) [] live :=
      h.perm (hperm.symm.append_right trees)
    obtain ⟨live', h'⟩ := exists_tallies_sweepOnce hvisited hknown
    obtain ⟨part, hpart, heq⟩ := exists_sublist_sweepOnce c [] (visit entries)
    rw [List.append_nil] at heq
    have hmem : ∀ g ∈ (c.sweepOnce [] (visit entries)).1, g ∈ entries := fun g hg =>
      hperm.mem_iff.mp (hpart.subset (List.mem_reverse.mp (heq ▸ hg)))
    have hkept : ((c.sweepOnce [] (visit entries)).1.map Green.id).Nodup := by
      rw [heq, ((List.reverse_perm part).map Green.id).nodup_iff]
      exact (hpart.map Green.id).nodup ((hperm.map Green.id).nodup_iff.mpr hnodup)
    rw [sweep_eq]
    split
    · next hless =>
      obtain ⟨kept, live, hkept, hsub, hrest⟩ :=
        ih _ (hn ▸ hless) h' (fun g hg => hentries g (hmem g hg)) hkept rfl
      exact ⟨kept, live, hkept, fun g hg => hmem g (hsub g hg), hrest⟩
    · next hless =>
      have hlength : ([] : List Green).length + (visit entries).length ≤
          (c.sweepOnce [] (visit entries)).1.length := by
        rw [List.length_nil, hperm.length_eq]
        omega
      obtain ⟨hsame, hne⟩ := sweepOnce_of_length hlength
      refine ⟨_, live', h', hmem, hkept, fun g hg => ?_⟩
      rw [hsame]
      exact hne g (hperm.mem_iff.mpr (hmem g hg))

/-- What the passes over a table leave of it is in use without the table. -/
theorem exists_tallies_sweep (hvisit : ∀ entries, (visit entries).Perm entries)
    (h : Tallies c r (entries ++ trees) [] live) (hentries : ∀ g ∈ entries, r.Knows g)
    (htrees : ∀ g ∈ trees, r.Knows g) (hnodup : (entries.map Green.id).Nodup) :
    ∃ kept live, Tallies (sweep visit entries c) r (kept ++ trees) [] live ∧
      ∀ g ∈ kept, g ∈ entries ∧ g.InUse trees := by
  obtain ⟨kept, live, h, hsub, hnodup, hne⟩ := exists_settled_sweep hvisit h hentries hnodup
  have hinUse := h.inUse_of_settled (fun g hg => hentries g (hsub g hg)) htrees hnodup hne
  exact ⟨kept, live, h, fun g hg => ⟨hsub g hg, hinUse g hg⟩⟩

/-- What one pass leaves of a table is in use without the table, where nothing stands in the slots
of its entries. -/
theorem exists_tallies_pass (h : Tallies c r (entries ++ trees) [] live)
    (hentries : ∀ g ∈ entries, r.Knows g) (htrees : ∀ g ∈ trees, r.Knows g)
    (hnodup : (entries.map Green.id).Nodup) (hchildren : ∀ g ∈ entries, g.children = []) :
    ∃ kept live, Tallies (c.sweepOnce [] entries).2 r (kept ++ trees) [] live ∧
      ∀ g ∈ kept, g.InUse trees := by
  have h : Tallies c r (entries ++ ([] ++ trees)) [] live := h
  obtain ⟨live, h⟩ := exists_tallies_sweepOnce h hentries
  obtain ⟨part, hpart, heq⟩ := exists_sublist_sweepOnce c [] entries
  rw [List.append_nil] at heq
  have hne : ∀ g ∈ (c.sweepOnce [] entries).1, (c.sweepOnce [] entries).2.ofElement g.id ≠ 1 :=
    ofElement_sweepOnce_ne_one hchildren (by rwa [List.append_nil]) (by simp)
  refine ⟨_, live, h, h.inUse_of_settled (fun g hg => ?_) htrees ?_ hne⟩
  · exact hentries g (hpart.subset (List.mem_reverse.mp (heq ▸ hg)))
  · rw [heq, ((List.reverse_perm part).map Green.id).nodup_iff]
    exact (hpart.map Green.id).nodup hnodup

end Counts

namespace Store

open Counts

variable {s : Store} {r : Registry} {g : Green}

theorem mem_sharedNodes : g ∈ s.sharedNodes ↔ ∃ key : NodeKey, s.nodes[key]? = some g := by
  simp [sharedNodes, Std.HashMap.mem_toList_iff_getElem?_eq_some]

theorem mem_sharedTokens :
    g ∈ s.sharedTokens ↔
      ∃ (d : TokenData) (t : GreenToken), s.tokens[d]? = some t ∧ Green.token t = g := by
  simp [sharedTokens, Std.HashMap.mem_toList_iff_getElem?_eq_some]

theorem children_of_mem_sharedTokens (hg : g ∈ s.sharedTokens) : g.children = [] := by
  obtain ⟨d, t, -, rfl⟩ := mem_sharedTokens.mp hg
  rfl

namespace Respects

theorem knows_sharedNodes (h : s.Respects r) : ∀ g ∈ s.sharedNodes, r.Knows g := by
  intro g hg
  obtain ⟨key, hkey⟩ := mem_sharedNodes.mp hg
  obtain ⟨_, _, -, hknows, -⟩ := h.node hkey
  exact hknows

theorem knows_sharedTokens (h : s.Respects r) : ∀ g ∈ s.sharedTokens, r.Knows g := by
  intro g hg
  obtain ⟨d, t, ht, rfl⟩ := mem_sharedTokens.mp hg
  exact (h.token ht).2

/-- A node is shared under one key only. -/
theorem nodup_sharedNodes (h : s.Respects r) : (s.sharedNodes.map Green.id).Nodup := by
  rw [sharedNodes, List.map_map, List.Nodup, List.pairwise_map]
  refine Std.HashMap.distinct_keys_toList.imp_of_mem fun {a b} ha hb hne hid => ?_
  obtain ⟨head, slots, ha, hknows, hkey⟩ :=
    h.node (Std.HashMap.mem_toList_iff_getElem?_eq_some.mp ha)
  obtain ⟨head', slots', hb, hknows', hkey'⟩ :=
    h.node (Std.HashMap.mem_toList_iff_getElem?_eq_some.mp hb)
  have heq := hknows.eq_of_id hknows' hid
  rw [ha, hb] at heq
  cases heq
  exact beq_eq_false_iff_ne.mp hne (hkey.trans hkey'.symm)

/-- A token is shared under its content only. -/
theorem nodup_sharedTokens (h : s.Respects r) : (s.sharedTokens.map Green.id).Nodup := by
  rw [sharedTokens, List.map_map, List.Nodup, List.pairwise_map]
  refine Std.HashMap.distinct_keys_toList.imp_of_mem fun {a b} ha hb hne hid => ?_
  obtain ⟨hdata, hknows⟩ := h.token (Std.HashMap.mem_toList_iff_getElem?_eq_some.mp ha)
  obtain ⟨hdata', hknows'⟩ := h.token (Std.HashMap.mem_toList_iff_getElem?_eq_some.mp hb)
  have heq := Green.token.inj (hknows.eq_of_id hknows' hid)
  exact beq_eq_false_iff_ne.mp hne (by rw [← hdata, ← hdata', heq])

end Respects

section Settled

variable {visit : List Green → List Green} {outside : List Green} (hs : s.Respects r)
  (houtside : ∀ g ∈ outside, r.Knows g) (hvisit : ∀ entries, (visit entries).Perm entries)

include hs houtside hvisit

/-- When a store has given up what it can, the elements that are in use from outside are alive and
no others. -/
theorem exists_tallies_settledCounts :
    ∃ trees live, Tallies (s.settledCounts visit outside) r trees [] live ∧
      ∀ g, g ∈ live ↔ g.InUse outside := by
  have hnodes := hs.knows_sharedNodes
  have htokens := hs.knows_sharedTokens
  have hall {a b : List Green} (ha : ∀ g ∈ a, r.Knows g) (hb : ∀ g ∈ b, r.Knows g) :
      ∀ g ∈ a ++ b, r.Knows g := fun g hg => (List.mem_append.mp hg).elim (ha g) (hb g)
  obtain ⟨live, h⟩ := exists_tallies_hold (.empty r (outside ++ s.held))
    (hall houtside (hall hnodes htokens))
  -- The nodes are swept while the table of tokens still holds its entries.
  have h : Tallies _ r (s.sharedNodes ++ (s.sharedTokens ++ outside)) [] live :=
    h.perm (List.perm_append_comm.trans (List.append_assoc .. ▸ .refl _))
  obtain ⟨nodes, live, h, hkept⟩ :=
    exists_tallies_sweep hvisit h hnodes (hall htokens houtside) hs.nodup_sharedNodes
  have hinUse : ∀ g ∈ nodes ++ outside, g.InUse outside := by
    intro g hg
    rcases List.mem_append.mp hg with hg | hg
    · obtain ⟨hmem, root, hroot, hwithin⟩ := hkept g hg
      rcases List.mem_append.mp hroot with hroot | hroot
      · -- No node is within a token.
        obtain ⟨key, hkey⟩ := mem_sharedNodes.mp hmem
        obtain ⟨head, slots, rfl, -, -⟩ := hs.node hkey
        obtain ⟨d, t, -, rfl⟩ := mem_sharedTokens.mp hroot
        cases hwithin.eq_of_children rfl
      · exact ⟨root, hroot, hwithin⟩
    · exact .of_mem hg
  -- Then the tokens are swept; the nodes that are left refer to some of them.
  have hperm := hvisit s.sharedTokens
  have h : Tallies _ r (visit s.sharedTokens ++ (nodes ++ outside)) [] live :=
    h.perm (List.perm_append_comm_assoc .. |>.trans (hperm.symm.append_right _))
  have hbase : ∀ g ∈ nodes ++ outside, r.Knows g :=
    hall (fun g hg => hnodes g (hkept g hg).1) houtside
  obtain ⟨tokens, live, h, htokens'⟩ := exists_tallies_pass h
    (fun g hg => htokens g (hperm.mem_iff.mp hg)) hbase
    ((hperm.map Green.id).nodup_iff.mpr hs.nodup_sharedTokens)
    fun g hg => children_of_mem_sharedTokens (hperm.mem_iff.mp hg)
  have hleft : ∀ g ∈ tokens ++ (nodes ++ outside), g.InUse outside := fun g hg =>
    (List.mem_append.mp hg).elim (fun hg => (htokens' g hg).trans hinUse) (hinUse g)
  refine ⟨_, live, h, fun g => ?_⟩
  rw [h.mem_live_iff_inUse fun x hx => (hleft x hx).knows houtside]
  refine ⟨fun hg => hg.trans hleft, fun hg => hg.mono fun x hx => ?_⟩
  exact List.mem_append_right _ (List.mem_append_right _ hx)

/-- There are references left to just the elements that are in use from outside. -/
theorem ofElement_settledCounts_ne_zero_iff {i : Ident} :
    (s.settledCounts visit outside).ofElement i ≠ 0 ↔ ∃ g : Green, g.InUse outside ∧ g.id = i := by
  obtain ⟨trees, live, h, hlive⟩ := exists_tallies_settledCounts hs houtside hvisit
  rw [h.alive]
  simp only [hlive]

/-- There are references left to just the texts of tokens that are in use from outside. -/
theorem ofText_settledCounts_ne_zero_iff {store : Nat} {text : String} :
    (s.settledCounts visit outside).ofText store text ≠ 0 ↔
      ∃ t : GreenToken,
        (Green.token t).InUse outside ∧ t.id.store = store ∧ t.data.text = text := by
  obtain ⟨trees, live, h, hlive⟩ := exists_tallies_settledCounts hs houtside hvisit
  rw [h.texts, ← Nat.pos_iff_ne_zero, List.countP_pos_iff]
  constructor
  · rintro ⟨g, hg, hspells⟩
    cases g with
    | token t => exact ⟨t, (hlive _).mp hg, by simpa [Green.spells] using hspells⟩
    | node head slots => cases hspells
  · rintro ⟨t, ht, hspells⟩
    exact ⟨.token t, (hlive _).mpr ht, by simpa [Green.spells] using hspells⟩

end Settled

/-- A store and what is left of it when just those entries are kept that are in use. -/
structure Keeps (s kept : Store) (outside : List Green) : Prop where
  tag_eq : kept.tag = s.tag
  config_eq : kept.config = s.config
  issued_eq : kept.issued = s.issued
  node_iff : ∀ {key : NodeKey} {g : Green},
    kept.nodes[key]? = some g ↔ s.nodes[key]? = some g ∧ g.InUse outside
  token_iff : ∀ {d : TokenData} {t : GreenToken},
    kept.tokens[d]? = some t ↔ s.tokens[d]? = some t ∧ (Green.token t).InUse outside
  text_iff : ∀ {text : String}, text ∈ kept.texts ↔ text ∈ s.texts ∧
    ∃ t : GreenToken, (Green.token t).InUse outside ∧ t.id.store = s.tag ∧ t.data.text = text

section Collect

variable {visit : List Green → List Green} {outside : List Green}

theorem youngestFirst_perm (entries : List Green) : (youngestFirst entries).Perm entries :=
  List.mergeSort_perm ..

/-- What is dropped and what is kept make up the store. -/
theorem collectBy_fst_add_entryCount (visit : List Green → List Green) (outside : List Green)
    (s : Store) : (s.collectBy visit outside).1 + (s.collectBy visit outside).2.entryCount =
      s.entryCount := by
  have hle : (s.keepAlive (s.settledCounts visit outside)).entryCount ≤ s.entryCount :=
    Nat.add_le_add (Nat.add_le_add Std.HashSet.size_filter_le_size Std.HashMap.size_filter_le_size)
      Std.HashMap.size_filter_le_size
  exact Nat.sub_add_cancel hle

variable (hs : s.Respects r) (houtside : ∀ g ∈ outside, r.Knows g)

include hs houtside

/-- Which elements are kept does not depend on the order in which the tables are visited. -/
theorem collectBy_eq_collect (hvisit : ∀ entries, (visit entries).Perm entries) :
    s.collectBy visit outside = s.collect outside := by
  have helement (i : Ident) : ((s.settledCounts visit outside).ofElement i != 0) =
      ((s.settledCounts youngestFirst outside).ofElement i != 0) := by
    rw [Bool.eq_iff_iff, bne_iff_ne, bne_iff_ne,
      ofElement_settledCounts_ne_zero_iff hs houtside hvisit,
      ofElement_settledCounts_ne_zero_iff hs houtside youngestFirst_perm]
  have htext (text : String) : ((s.settledCounts visit outside).ofText s.tag text != 0) =
      ((s.settledCounts youngestFirst outside).ofText s.tag text != 0) := by
    rw [Bool.eq_iff_iff, bne_iff_ne, bne_iff_ne,
      ofText_settledCounts_ne_zero_iff hs houtside hvisit,
      ofText_settledCounts_ne_zero_iff hs houtside youngestFirst_perm]
  have hkept : s.keepAlive (s.settledCounts visit outside) =
      s.keepAlive (s.settledCounts youngestFirst outside) := by
    simp only [keepAlive, helement, htext]
  simp only [collect, collectBy, hkept]

/-- A collection keeps what is in use from outside, and nothing else. -/
theorem keeps_collect : s.Keeps (s.collect outside).2 outside where
  tag_eq := rfl
  config_eq := rfl
  issued_eq := rfl
  node_iff {key g} := by
    change (s.nodes.filter _)[key]? = some g ↔ _
    rw [Std.HashMap.getElem?_filter', Option.filter_eq_some_iff, bne_iff_ne,
      ofElement_settledCounts_ne_zero_iff hs houtside youngestFirst_perm]
    refine and_congr_right fun hkey => ⟨fun ⟨x, hx, hid⟩ => ?_, fun hg => ⟨g, hg, rfl⟩⟩
    obtain ⟨_, _, -, hknows, -⟩ := hs.node hkey
    exact (hx.knows houtside).eq_of_id hknows hid ▸ hx
  token_iff {d t} := by
    change (s.tokens.filter _)[d]? = some t ↔ _
    rw [Std.HashMap.getElem?_filter', Option.filter_eq_some_iff, bne_iff_ne,
      ofElement_settledCounts_ne_zero_iff hs houtside youngestFirst_perm]
    refine and_congr_right fun hd => ⟨fun ⟨x, hx, hid⟩ => ?_, fun ht => ⟨_, ht, rfl⟩⟩
    exact (hx.knows houtside).eq_of_id (hs.token hd).2 hid ▸ hx
  text_iff {text} := by
    change text ∈ s.texts.filter _ ↔ _
    simp only [Std.HashSet.mem_filter, Std.HashSet.get_eq, bne_iff_ne,
      ofText_settledCounts_ne_zero_iff hs houtside youngestFirst_perm, exists_prop]

/-- Nothing is dropped from a store of which everything is in use. -/
theorem collect_fst_eq_zero (hnode : ∀ {key : NodeKey} {g : Green}, s.nodes[key]? = some g →
      g.InUse outside)
    (htoken : ∀ {d : TokenData} {t : GreenToken}, s.tokens[d]? = some t →
      (Green.token t).InUse outside)
    (htext : ∀ {text : String}, text ∈ s.texts →
      ∃ t : GreenToken, (Green.token t).InUse outside ∧ t.id.store = s.tag ∧ t.data.text = text) :
    (s.collect outside).1 = 0 := by
  have helement {g : Green} (hg : g.InUse outside) :
      ((s.settledCounts youngestFirst outside).ofElement g.id != 0) = true := by
    rw [bne_iff_ne, ofElement_settledCounts_ne_zero_iff hs houtside youngestFirst_perm]
    exact ⟨g, hg, rfl⟩
  have hnodes : (s.collect outside).2.nodes.size = s.nodes.size :=
    Std.HashMap.size_filter_eq_size_iff.mpr fun key hkey =>
      helement (hnode (Std.HashMap.getElem?_eq_some_getElem hkey))
  have htokens : (s.collect outside).2.tokens.size = s.tokens.size :=
    Std.HashMap.size_filter_eq_size_iff.mpr fun d hd =>
      helement (htoken (Std.HashMap.getElem?_eq_some_getElem hd))
  have htexts : (s.collect outside).2.texts.size = s.texts.size := by
    refine Std.HashSet.size_filter_eq_size_iff.mpr fun text hmem => ?_
    rw [bne_iff_ne, ofText_settledCounts_ne_zero_iff hs houtside youngestFirst_perm,
      Std.HashSet.get_eq]
    exact htext hmem
  have hsum := collectBy_fst_add_entryCount youngestFirst outside s
  rw [← collect, entryCount, hnodes, htokens, htexts] at hsum
  exact Nat.add_eq_right.mp hsum

end Collect

end Store

end Verbatim
