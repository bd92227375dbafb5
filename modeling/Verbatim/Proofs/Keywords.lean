import Verbatim.Proofs.Lookahead

/-!
# Where declarations stand

Which node may hold an element, and in which slot, can be read off the layouts. Since tokens that
are set aside are never keywords of declarations, a keyword stands where its declaration starts.
Functions are held by nothing but the list of the items of the file, so that every `func` starts one
of these, whatever is wrong with the text around it.
-/

namespace Verbatim

namespace Kind

/-- Where an element of a kind may stand: the kinds that may hold it, each with the slot it is for,
or without one in a collection. -/
def places (child : Kind) : List (Kind × Option Nat) :=
  Kind.all.flatMap fun parent =>
    match parent.layout with
    | .token => []
    | .fixed specs =>
      (specs.zipIdx.filter fun x => x.1.accepts.contains child).map fun x => (parent, some x.2)
    | .collection members => if members.contains child then [(parent, none)] else []

theorem places_sourceFile : places .sourceFile = [(.unexpected, none)] := by decide

theorem places_itemList : places .itemList = [(.sourceFile, some 0), (.unexpected, none)] := by
  decide

theorem places_funcDecl : places .funcDecl = [(.itemList, none), (.unexpected, none)] := by decide

theorem places_funcKw : places .funcKw = [(.funcDecl, some 0), (.unexpected, none)] := by decide

theorem places_letKw : places .letKw = [(.letDecl, some 0), (.unexpected, none)] := by decide

theorem places_unexpected : places .unexpected =
    [(.itemList, none), (.funcDecl, some 2), (.paramClause, some 2), (.stmtList, none),
      (.unexpected, none)] := by
  decide

end Kind

/-- An element stands where the layouts allow it. -/
theorem Sketch.Conforms.mem_places {parent child : Kind} {late : Bool} {front back : List Sketch}
    {s : Sketch} (h : (node parent late (front ++ s :: back)).Conforms)
    (hs : s.kind? = some child) :
    (parent, some front.length) ∈ child.places ∨ (parent, none) ∈ child.places := by
  have hadmits := h.2.1
  have hkind : ((front ++ s :: back).map kind?)[front.length]? = some (some child) := by
    rw [List.getElem?_map, List.getElem?_append_right (Nat.le_refl _), Nat.sub_self, ← hs]
    rfl
  have hparent : parent ∈ Kind.all := List.mem_of_getElem? (Kind.getElem?_all_number parent)
  simp only [Kind.places, List.mem_flatMap]
  cases hlayout : parent.layout with
  | token =>
    rw [hlayout] at hadmits
    cases hadmits
  | fixed specs =>
    simp only [hlayout, Layout.admits, Bool.and_eq_true, beq_iff_eq, List.all_eq_true] at hadmits
    obtain ⟨hlength, hall⟩ := hadmits
    have hlt : front.length < specs.length := by
      rw [hlength]
      exact (List.getElem?_eq_some_iff.mp hkind).1
    have hspec : specs[front.length]? = some specs[front.length] := List.getElem?_eq_getElem hlt
    have haccepts : specs[front.length].accepts.contains child = true :=
      hall (specs[front.length], some child)
        (List.mem_of_getElem? (i := front.length) (List.getElem?_zip_eq_some.mpr ⟨hspec, hkind⟩))
    refine .inl ⟨parent, hparent, ?_⟩
    rw [hlayout]
    refine List.mem_map.mpr ⟨(specs[front.length], front.length), ?_, rfl⟩
    exact List.mem_filter.mpr ⟨List.mk_mem_zipIdx_iff_getElem?.mpr hspec, haccepts⟩
  | collection members =>
    simp only [hlayout, Layout.admits, List.all_eq_true] at hadmits
    have hmember : members.contains child = true := hadmits _ (List.mem_of_getElem? hkind)
    refine .inr ⟨parent, hparent, ?_⟩
    simp [hlayout, hmember]

namespace View

open Grammar

variable {whole s : Sketch} {r v d : View} {before : List Token} {unlimited : Prop}

theorem Shows.attentive (h : Shows whole v s before) (hwhole : whole.AllAttentive unlimited) :
    ∃ after, whole.tokens = before ++ (s.tokens ++ after) ∧ s.Attentive unlimited after ∧
      ∀ kind, s = .missing kind → after ≠ [] := by
  obtain ⟨after, htokens, hs⟩ := h.everywhere hwhole
  exact ⟨after, htokens, hs.here⟩

/-- What was set aside are tokens that were read, and no keywords of declarations. -/
theorem Shows.exists_tokens (h : Shows whole v s before) (hwhole : whole.AllAttentive unlimited)
    (hkind : v.kind = .unexpected) :
    ∃ late t rest, s = .node .unexpected late ((t :: rest).map Sketch.token) ∧
      ∀ u ∈ t :: rest, itemFirst.contains u.kind = false := by
  obtain ⟨after, -, hs, -⟩ := h.attentive hwhole
  have heq := h.kind_eq
  rw [hkind] at heq
  cases s with
  | token t =>
    have htoken : t.kind.isToken = true := h.conforms
    rw [Option.some.inj heq] at htoken
    cases htoken
  | missing kind => exact absurd (Option.some.inj heq) hs.1
  | absent => cases heq
  | node kind late slots =>
    obtain rfl := Option.some.inj heq
    obtain ⟨t, rest, rfl⟩ := h.conforms.2.2.2.1 rfl
    exact ⟨late, t, rest, rfl, fun u hu => hs u (List.mem_map_of_mem hu)⟩

/-- Everything but the root is held by something that may hold it; what was set aside holds tokens
only. -/
theorem exists_holder (hr : Shows whole r s before) (hwhole : whole.AllAttentive unlimited)
    (hd : d ∈ r.descendants) :
    d = r ∨ ∃ e ∈ r.descendants, ∃ index, e.slot? index = some d ∧
      ((e.kind, some index) ∈ d.kind.places ∨ (e.kind, none) ∈ d.kind.places) ∧
      (e.kind = .unexpected → d.kind.isToken = true ∧ itemFirst.contains d.kind = false) := by
  obtain ⟨path, hpath⟩ := mem_descendants.mp hd
  rcases path.eq_nil_or_concat with rfl | ⟨path, index, rfl⟩
  · exact .inl (Option.some.inj hpath).symm
  · rw [List.concat_eq_append, descend?_append] at hpath
    obtain ⟨e, he, hslot⟩ := Option.bind_eq_some_iff.mp hpath
    rw [descend?, Option.bind_eq_some_iff] at hslot
    obtain ⟨c, hslot, hc⟩ := hslot
    obtain rfl := Option.some.inj hc
    have hmem : e ∈ r.descendants := mem_descendants.mpr ⟨path, he⟩
    obtain ⟨t, before', hshows⟩ := exists_shows_of_mem_entriesAt hr e (descendants_eq r ▸ hmem)
    obtain ⟨kind, late, front, u, back, rfl, rfl, hu⟩ := hshows.exists_of_slot hslot
    have hkind : kind = e.kind := Option.some.inj hshows.kind_eq
    refine .inr ⟨e, hmem, front.length, hslot, ?_, fun hstray => ?_⟩
    · rw [← hkind]
      exact hshows.conforms.mem_places hu.kind_eq
    · obtain ⟨_, x, rest, hnode, hfirst⟩ := hshows.exists_tokens hwhole hstray
      injection hnode with _ _ hslots
      have hmem : u ∈ (x :: rest).map Sketch.token :=
        hslots ▸ List.mem_append_right _ List.mem_cons_self
      obtain ⟨w, hw, rfl⟩ := List.mem_map.mp hmem
      rw [← Option.some.inj hu.kind_eq]
      exact ⟨hu.conforms, hfirst w hw⟩

/-- What cannot be set aside and may stand in one place only is held there. -/
theorem exists_parent (hr : Shows whole r s before) (hwhole : whole.AllAttentive unlimited)
    (hd : d ∈ r.descendants) {parent : Kind} {slot : Option Nat}
    (hplaces : d.kind.places = [(parent, slot), (.unexpected, none)])
    (hstray : (d.kind.isToken && !itemFirst.contains d.kind) = false) (hroot : d ≠ r) :
    ∃ e ∈ r.descendants, ∃ index, e.slot? index = some d ∧ e.kind = parent ∧
      (slot = none ∨ slot = some index) := by
  obtain ⟨e, he, index, hslot, hplace, hset⟩ := (exists_holder hr hwhole hd).resolve_left hroot
  have hkind : e.kind ≠ .unexpected := by
    intro hkind
    obtain ⟨htoken, hfirst⟩ := hset hkind
    rw [htoken, hfirst] at hstray
    cases hstray
  refine ⟨e, he, index, hslot, ?_⟩
  simp only [hplaces, List.mem_cons, Prod.mk.injEq, hkind, false_and, List.not_mem_nil, or_false,
    reduceCtorEq, and_false] at hplace
  rcases hplace with ⟨hparent, hindex⟩ | ⟨hparent, hindex⟩
  · exact ⟨hparent, .inr hindex.symm⟩
  · exact ⟨hparent, .inl hindex.symm⟩

/-- Every `func` starts an item of the file. -/
theorem exists_function (hr : Shows whole r s before) (hwhole : whole.AllAttentive unlimited)
    (hroot : r.kind = .sourceFile) (hd : d ∈ r.descendants) (hkind : d.kind = .funcKw) :
    ∃ items decl index, r.slot? 0 = some items ∧ items.kind = .itemList ∧
      items.slot? index = some decl ∧ decl.kind = .funcDecl ∧ decl.slot? 0 = some d := by
  have hne {e : View} (h : e.kind ≠ .sourceFile) : e ≠ r := fun heq => h (heq ▸ hroot)
  obtain ⟨decl, hdecl, i, hi, hdeclKind, hslot⟩ := exists_parent hr hwhole hd
    (by rw [hkind]; exact Kind.places_funcKw) (by rw [hkind]; rfl) (hne (by simp [hkind]))
  obtain ⟨items, hitems, j, hj, hitemsKind, -⟩ := exists_parent hr hwhole hdecl
    (by rw [hdeclKind]; exact Kind.places_funcDecl) (by rw [hdeclKind]; rfl)
    (hne (by simp [hdeclKind]))
  obtain ⟨file, hfile, k, hk, hfileKind, hslot'⟩ := exists_parent hr hwhole hitems
    (by rw [hitemsKind]; exact Kind.places_itemList) (by rw [hitemsKind]; rfl)
    (hne (by simp [hitemsKind]))
  obtain rfl : 0 = i := by simpa using hslot
  obtain rfl : 0 = k := by simpa using hslot'
  -- A file is held by nothing, since nothing but tokens is set aside.
  obtain rfl : file = r := by
    rcases exists_holder hr hwhole hfile with heq | ⟨e, -, index, -, hplace, hset⟩
    · exact heq
    · simp only [hfileKind, Kind.places_sourceFile, List.mem_singleton, Prod.mk.injEq,
        reduceCtorEq, and_false, and_true, false_or] at hplace
      have htoken := (hset hplace).1
      rw [hfileKind] at htoken
      cases htoken
  exact ⟨items, decl, j, hk, hitemsKind, hj, hdeclKind, hi⟩

/-- Every `let` starts a variable declaration. -/
theorem exists_variable (hr : Shows whole r s before) (hwhole : whole.AllAttentive unlimited)
    (hroot : r.kind = .sourceFile) (hd : d ∈ r.descendants) (hkind : d.kind = .letKw) :
    ∃ decl ∈ r.descendants, decl.kind = .letDecl ∧ decl.slot? 0 = some d := by
  obtain ⟨decl, hdecl, i, hi, hdeclKind, hslot⟩ := exists_parent hr hwhole hd
    (by rw [hkind]; exact Kind.places_letKw) (by rw [hkind]; rfl)
    (fun heq => by rw [heq, hroot] at hkind; cases hkind)
  obtain rfl : 0 = i := by simpa using hslot
  exact ⟨decl, hdecl, hdeclKind, hi⟩

/-- What was set aside is not empty, and it is made of tokens that start no declaration. -/
theorem Shows.tokens_of_stray (h : Shows whole d s before) (hwhole : whole.AllAttentive unlimited)
    (hkind : d.kind = .unexpected) :
    0 < d.slotCount ∧ ∀ index < d.slotCount, ∃ t, d.slot? index = some t ∧ t.isRead = true ∧
      t.kind ≠ .funcKw ∧ t.kind ≠ .letKw := by
  obtain ⟨late, t, rest, rfl, hfirst⟩ := h.exists_tokens hwhole hkind
  obtain ⟨id, built, hg, hbuilt⟩ := h.built
  have hcount : d.slotCount = (t :: rest).length := by
    rw [slotCount, Option.some.inj hg, Green.slots, hbuilt.length_eq, List.length_map]
  refine ⟨by rw [hcount]; exact Nat.succ_pos _, fun index hindex => ?_⟩
  rw [hcount] at hindex
  have hget : ((t :: rest).map Sketch.token)[index]? = some (.token (t :: rest)[index]) := by
    rw [List.getElem?_map, List.getElem?_eq_getElem hindex]
    rfl
  obtain ⟨front, back, hsplit, rfl⟩ := exists_append_of_getElem? hget
  rw [hsplit] at h
  obtain ⟨c, hc, hshows⟩ := h.exists_slot (by simp)
  have hkind := hfirst _ (List.getElem_mem hindex)
  rw [Option.some.inj hshows.kind_eq] at hkind
  refine ⟨c, hc, hshows.isRead_of_token, fun heq => ?_, fun heq => ?_⟩
  · rw [heq] at hkind
    cases hkind
  · rw [heq] at hkind
    cases hkind

/-- Views of neighbouring slots show neighbouring parts of the sketch. -/
theorem Shows.exists_neighbours (h : Shows whole d s before) {index : Nat} {a b : View}
    (ha : d.slot? index = some a) (hb : d.slot? (index + 1) = some b) :
    ∃ kind late front t u back, s = .node kind late (front ++ t :: u :: back) ∧
      t.kind? = some a.kind ∧ u.kind? = some b.kind := by
  obtain ⟨kind, late, front, t, back, rfl, rfl, ht⟩ := h.exists_of_slot ha
  obtain ⟨_, _, front', u, back', hnode, hlength, hu⟩ := h.exists_of_slot hb
  injection hnode with _ _ hslots
  have hget : (front ++ t :: back)[front.length + 1]? = some u := by
    rw [hslots, ← hlength, List.getElem?_append_right (Nat.le_refl _), Nat.sub_self]
    rfl
  rw [List.getElem?_append_right (Nat.le_add_right ..), Nat.add_sub_cancel_left] at hget
  cases back with
  | nil => cases hget
  | cons x back =>
    cases hget
    exact ⟨kind, late, front, t, u, back, rfl, ht.kind_eq, hu.kind_eq⟩

/-- What was set aside does not stand next to more of the same. -/
theorem Shows.stray_apart (h : Shows whole d s before) (hwhole : whole.AllAttentive unlimited)
    {index : Nat} {a b : View} (ha : d.slot? index = some a) (hb : d.slot? (index + 1) = some b)
    (hstray : a.kind = .unexpected) : b.kind ≠ .unexpected := by
  intro hstray'
  obtain ⟨kind, late, front, t, u, back, rfl, ht, hu⟩ := h.exists_neighbours ha hb
  rw [hstray] at ht
  rw [hstray'] at hu
  obtain ⟨after, -, hs, -⟩ := h.attentive hwhole
  have hnot : ¬Sketch.Apart (front ++ t :: u :: back) := fun happart => by
    have hu' := happart.neighbours (by simp [Sketch.isStray, ht])
    simp [Sketch.isStray, hu] at hu'
  have hconforms := h.conforms
  have hplace := hconforms.mem_places ht
  have hsplit : front ++ t :: u :: back = (front ++ [t]) ++ u :: back := by simp
  rw [hsplit] at hconforms
  have hplace' := hconforms.mem_places hu
  simp only [Kind.places_unexpected, List.mem_cons, Prod.mk.injEq, reduceCtorEq, and_false,
    and_true, Option.some.injEq, List.not_mem_nil, or_false, false_or, List.length_append,
    List.length_cons, List.length_nil] at hplace hplace'
  rcases hplace with (⟨rfl, hindex⟩ | ⟨rfl, hindex⟩) | rfl | rfl | rfl
  · simp only [reduceCtorEq, false_and, true_and, or_false] at hplace'
    omega
  · simp only [reduceCtorEq, false_and, true_and, or_false, false_or] at hplace'
    omega
  · exact hnot hs
  · exact hnot hs
  · obtain ⟨x, rest, hslots⟩ := h.conforms.2.2.2.1 rfl
    have hmem : t ∈ (x :: rest).map Sketch.token :=
      hslots ▸ List.mem_append_right _ List.mem_cons_self
    obtain ⟨w, -, rfl⟩ := List.mem_map.mp hmem
    have htoken : w.kind.isToken = true :=
      h.conforms.of_mem (List.mem_append_right _ List.mem_cons_self)
    rw [Option.some.inj ht] at htoken
    cases htoken

end View

/-- In the tree of every text, each `func` is the first slot of a function in the list of the items
of the file, and each `let` the first slot of a variable declaration. What is set aside is made of
at least one token, none of them such a keyword, and it is never followed by more of the same. -/
theorem parse_keeps_declarations {st : Store} (hst : st.Coherent) (text : String) :
    (text.utf8ByteSize < 1 <<< 28 → ∃ v st', parse text st = (.ok v, st')) ∧
      ∀ v st', parse text st = (.ok v, st') →
        (∀ d ∈ v.tokens, d.kind = .funcKw → ∃ items decl index,
          v.slot? 0 = some items ∧ items.kind = .itemList ∧
          items.slot? index = some decl ∧ decl.kind = .funcDecl ∧ decl.slot? 0 = some d) ∧
        (∀ d ∈ v.tokens, d.kind = .letKw → ∃ decl ∈ v.descendants,
          decl.kind = .letDecl ∧ decl.slot? 0 = some d) ∧
        ∀ d ∈ v.nodes,
          (d.kind = .unexpected → 0 < d.slotCount ∧ ∀ index < d.slotCount,
            ∃ t, d.slot? index = some t ∧ t.isRead = true ∧ t.kind ≠ .funcKw ∧ t.kind ≠ .letKw) ∧
          ∀ index a b, d.slot? index = some a → d.slot? (index + 1) = some b →
            a.kind = .unexpected → b.kind ≠ .unexpected := by
  refine ⟨exists_parse_eq_ok hst, fun v st' hparse => ?_⟩
  obtain ⟨-, g, items, y, rfl, -, hg⟩ := exists_of_parse_eq_ok hst hparse
  have hr := hg.shows st.tag
  have hwhole : (Sketch.file items (tokenize text).eof).AllAttentive False :=
    hg.reads.allAttentive_file False.elim (final_tokenize text).eq_eof
  have hroot : (View.root st.tag g).kind = .sourceFile := (Option.some.inj hr.kind_eq).symm
  refine ⟨fun d hd => ?_, fun d hd => ?_, fun d hd => ?_⟩
  · exact View.exists_function hr hwhole hroot (List.mem_filter.mp hd).1
  · exact View.exists_variable hr hwhole hroot (List.mem_filter.mp hd).1
  · have hmem := (List.mem_filter.mp hd).1
    rw [View.descendants_eq] at hmem
    obtain ⟨s, before, hs⟩ := View.exists_shows_of_mem_entriesAt hr d hmem
    exact ⟨hs.tokens_of_stray hwhole, fun _ _ _ ha hb => hs.stray_apart hwhole ha hb⟩

/-- Two functions and a variable that start in the middle of something else. -/
theorem parse_keeps_declarations_cut :
    ({ tag := 0 } : Store).Coherent ∧
      ∃ v st', parse "func f(x func g ) ) \x7b 1 + let func" { tag := 0 } = (.ok v, st') ∧
        ∀ d ∈ v.tokens, d.kind = .funcKw → ∃ items decl index,
          v.slot? 0 = some items ∧ items.slot? index = some decl ∧ decl.slot? 0 = some d := by
  have hst : ({ tag := 0 } : Store).Coherent := Store.coherent_empty 0 {}
  obtain ⟨htotal, hkept⟩ := parse_keeps_declarations hst "func f(x func g ) ) \x7b 1 + let func"
  obtain ⟨v, st', hparse⟩ := htotal (by decide)
  refine ⟨hst, v, st', hparse, fun d hd hkind => ?_⟩
  obtain ⟨items, decl, index, hitems, -, hdecl, -, hslot⟩ := (hkept v st' hparse).1 d hd hkind
  exact ⟨items, decl, index, hitems, hdecl, hslot⟩

end Verbatim
