import Verbatim.Proofs.Ordering
import Verbatim.Proofs.Representation
import Verbatim.Proofs.Sessions
import Verbatim.Proofs.Sharing

/-!
# The answers of a database

A database answers as if it had no state but the texts of its files. Until a file is written it
gives the very same answer again, whatever is asked about other files. A tree that is made after a
file was written is the tree that it gave before, if that one is still held, just if the text is
the same and no node of the tree is too large to be shared: small nodes are found again in the store
as long as they are in use, and large ones are made anew.
-/

namespace Verbatim

namespace View

variable {u v : View} {n : Nat}

theorem forall_nodes_slotCount_le_iff :
    (∀ d ∈ v.nodes, d.slotCount ≤ n) ↔ ∀ x : Green, x.Within v.green → x.slots.length ≤ n := by
  constructor
  · intro h x hx
    obtain ⟨path, d, hd, rfl⟩ := exists_descend?_of_within hx
    cases hnode : d.green with
    | token t => exact Nat.zero_le n
    | node head slots =>
      have hmem : d ∈ v.nodes := mem_nodes.mpr ⟨⟨path, hd⟩, by rw [isNode, hnode]; rfl⟩
      exact hnode ▸ h d hmem
  · intro h d hd
    obtain ⟨⟨path, hpath⟩, -⟩ := mem_nodes.mp hd
    exact h d.green (within_of_descend? hpath)

/-- How large the nodes of a tree are depends on its value alone. -/
theorem forall_nodes_slotCount_le_of_value (h : u.value = v.value)
    (hv : ∀ d ∈ v.nodes, d.slotCount ≤ n) : ∀ d ∈ u.nodes, d.slotCount ≤ n := by
  have hnodes (v : View) : v.value.nodes.map slotCount = v.nodes.map slotCount := by
    rw [← relabel_value, nodes_relabel, List.map_map]
    exact List.map_congr_left fun d _ => slotCount_relabel .value d
  intro d hd
  have hmem : d.slotCount ∈ v.nodes.map slotCount := by
    rw [← hnodes, ← h, hnodes]
    exact List.mem_map_of_mem hd
  obtain ⟨c, hc, hcount⟩ := List.mem_map.mp hmem
  exact hcount ▸ hv c hc

end View

theorem exists_parsed_of_freshTree {text : String} {v : View} (h : freshTree text = .ok v) :
    ∃ g items n, v = .root 0 g ∧ g.Parsed text items n := by
  have hst : ({ tag := 0 } : Store).Coherent := Store.coherent_empty 0 {}
  have hparse : parse text { tag := 0 } = (.ok v, (parse text { tag := 0 }).2) :=
    Prod.ext h rfl
  obtain ⟨-, g, items, y, hv, -, hparsed⟩ := exists_of_parse_eq_ok hst hparse
  exact ⟨g, items, y.nesting, hv, hparsed⟩

/-- A text of less than 2^28 bytes has a tree, and the tree has diagnostics. -/
theorem exists_freshTree {text : String} (h : text.utf8ByteSize < 1 <<< 28) :
    ∃ v ds, freshTree text = .ok v ∧ v.diagnostics = .ok ds := by
  obtain ⟨v, st, hparse⟩ := exists_parse_eq_ok (Store.coherent_empty 0 {}) h
  have hv : freshTree text = .ok v := congrArg Prod.fst hparse
  obtain ⟨g, items, n, rfl, hparsed⟩ := exists_parsed_of_freshTree hv
  obtain ⟨-, ds, -, hds, -⟩ := hparsed.exists_diagnostics 0
  exact ⟨_, ds, hv, hds⟩

namespace Reads

open Grammar

/-- Where nothing starts an item, the rest of the text is set aside as one. -/
theorem item_of_stray {t : Token} {rest : List Token} {n : Nesting} {slots : List Sketch}
    {q : Reader} (h : Reads Phrase.item ⟨t :: rest, n⟩ slots q)
    (hkinds : ∀ u ∈ t :: rest, itemFirst.contains u.kind = false) :
    slots = [.node .unexpected false ((t :: rest).map Sketch.token)] ∧ q = ⟨[], n⟩ := by
  have hfirst : (KindSet.single .funcKw).contains t.kind = false ∧
      (KindSet.single .letKw).contains t.kind = false := by
    simpa [itemFirst] using hkinds t List.mem_cons_self
  have hrest : ∀ u ∈ rest, (!itemFirst.contains u.kind) = true := fun u hu => by
    rw [hkinds u (List.mem_cons_of_mem _ hu)]
    rfl
  have htake : rest.takeWhile (fun u => !itemFirst.contains u.kind) = rest := by
    simpa using @List.takeWhile_append_of_pos _ _ rest [] hrest
  have hdrop : rest.dropWhile (fun u => !itemFirst.contains u.kind) = [] := by
    simpa using @List.dropWhile_append_of_pos _ _ rest [] hrest
  cases h with
  | there hfunc _ => exact absurd (hfirst.1.symm.trans hfunc) (by decide)
  | other _ hitem =>
    cases hitem with
    | there hlet _ => exact absurd (hfirst.2.symm.trans hlet) (by decide)
    | other _ hstray =>
      cases hstray
      rw [htake, hdrop]
      exact ⟨rfl, rfl⟩

/-- If nothing in a text starts an item, all of it is set aside. -/
theorem items_of_stray {tokens : List Token} {n : Nesting} {items : List Sketch} {q : Reader}
    (h : Reads Phrase.items ⟨tokens, n⟩ items q)
    (hkinds : ∀ t ∈ tokens, itemFirst.contains t.kind = false) :
    items.length ≤ 1 ∧ ∀ s ∈ items, s = .node .unexpected false (tokens.map Sketch.token) := by
  cases h with
  | itemsDone _ => exact ⟨Nat.zero_le 1, fun s hs => by cases hs⟩
  | itemsMore hnext hitem hmore =>
    cases tokens with
    | nil => exact absurd rfl hnext
    | cons t rest =>
      cases hitem with
      | cons hitem hrecovery =>
        obtain ⟨rfl, rfl⟩ := hitem.item_of_stray hkinds
        -- nothing is left that could be set aside or be another item
        cases hrecovery with
        | cons hrecovery hnil =>
          cases hnil
          cases hrecovery with
          | rescue _ hstray => cases hstray
          | calm _ =>
            cases hmore with
            | itemsMore hnext _ _ => exact absurd rfl hnext
            | itemsDone _ => simp

/-- A declaration is read where its keyword stands. -/
theorem exists_letDecl {t : Token} {rest : List Token} {n : Nesting} {items : List Sketch}
    {q : Reader} (h : Reads Phrase.items ⟨t :: rest, n⟩ items q) (ht : t.kind = .letKw) :
    ∃ slots more, items = .node .letDecl false slots :: more := by
  cases h with
  | itemsDone hnext => exact absurd (ht.symm.trans hnext) (by decide)
  | itemsMore _ hitem _ =>
    cases hitem with
    | cons hitem _ =>
      cases hitem with
      | there hfunc _ => simp [Reader.next, ht] at hfunc
      | other _ hitem =>
        cases hitem with
        | other hlet _ => simp [Reader.next, ht] at hlet
        | there _ hdecl =>
          cases hdecl
          exact ⟨_, _, rfl⟩

end Reads

namespace Green.Parsed

variable {g : Green} {text : String} {items : List Sketch} {n : Nesting}

/-- If nothing in a text starts an item, a node of its tree has at most as many slots as there are
tokens, or two. -/
theorem slots_le_of_stray (h : g.Parsed text items n)
    (hkinds : ∀ t ∈ (tokenize text).tokens, Grammar.itemFirst.contains t.kind = false) {x : Green}
    (hx : x.Within g) : x.slots.length ≤ max 2 (tokenize text).tokens.length := by
  obtain ⟨hone, hall⟩ := h.reads.items_of_stray hkinds
  obtain ⟨id, built, hg, slot, rest, rfl, ⟨id', inner, rfl, hinner⟩, slot', rest', rfl, ⟨t, rfl, -⟩,
    rfl⟩ := h.built
  obtain rfl := Option.some.inj hg
  rcases within_iff.mp hx with rfl | ⟨c, hc, hx⟩
  · exact Nat.le_max_left ..
  rcases List.mem_cons.mp hc with hc | hc
  · obtain rfl := Option.some.inj hc
    rcases within_iff.mp hx with rfl | ⟨c, hc, hx⟩
    · have hlength : inner.length ≤ 1 := hinner.length_eq ▸ hone
      exact Nat.le_trans hlength (by omega)
    obtain ⟨s, hs, hbuilt⟩ := hinner.exists_of_mem hc
    obtain rfl := hall s hs
    obtain ⟨id, built, hg, hbuilt⟩ := hbuilt
    obtain rfl := Option.some.inj hg
    rcases within_iff.mp hx with rfl | ⟨c, hc, hx⟩
    · have hlength : built.length = (tokenize text).tokens.length := by
        rw [hbuilt.length_eq, List.length_map]
      exact Nat.le_trans (Nat.le_of_eq hlength) (Nat.le_max_right ..)
    · obtain ⟨s, hs, hbuilt⟩ := hbuilt.exists_of_mem hc
      obtain ⟨t, -, rfl⟩ := List.mem_map.mp hs
      obtain ⟨t, ht, -⟩ := hbuilt
      obtain rfl := Option.some.inj ht
      rw [hx.eq_of_children rfl]
      exact Nat.zero_le _
  · obtain rfl := Option.some.inj (List.mem_singleton.mp hc)
    rw [hx.eq_of_children rfl]
    exact Nat.zero_le _

/-- If a text starts with a declaration, a node of its tree has four slots. -/
theorem exists_slots_eq_four (h : g.Parsed text items n) {t : Token} {rest : List Token}
    (htokens : (tokenize text).tokens = t :: rest) (ht : t.kind = .letKw) :
    ∃ x : Green, x.Within g ∧ x.slots.length = 4 := by
  have hreads := h.reads
  rw [htokens] at hreads
  obtain ⟨slots, more, rfl⟩ := hreads.exists_letDecl ht
  have hlist := h.reads.conforms_file.of_mem List.mem_cons_self
  obtain ⟨-, hadmits, -⟩ := hlist.of_mem List.mem_cons_self
  have hlength : 4 = slots.length := by
    simpa [Layout.admits, Kind.layout] using (Bool.and_eq_true_iff.mp hadmits).1
  obtain ⟨id, built, hg, slot, rest', rfl, ⟨id', inner, rfl, hinner⟩, -⟩ := h.built
  obtain rfl := Option.some.inj hg
  obtain ⟨slot, others, rfl, ⟨id, decl, rfl, hdecl⟩, -⟩ := hinner
  refine ⟨_, .slot List.mem_cons_self (.slot List.mem_cons_self .refl), ?_⟩
  exact hdecl.length_eq.trans hlength.symm

end Green.Parsed

namespace View.IsTreeOf

variable {u v : View} {text : String}

theorem value_eq (hu : u.IsTreeOf text) (hv : v.IsTreeOf text) : u.value = v.value :=
  Except.ok.inj (hu.symm.trans hv)

/-- The tree of a text has the value of one that was parsed. -/
theorem exists_parsed (h : v.IsTreeOf text) :
    ∃ g items n, (View.root 0 g).value = v.value ∧ g.Parsed text items n := by
  rw [IsTreeOf] at h
  cases hw : freshTree text with
  | error fault =>
    rw [hw] at h
    cases h
  | ok w =>
    rw [hw] at h
    obtain ⟨g, items, n, rfl, hparsed⟩ := exists_parsed_of_freshTree hw
    exact ⟨g, items, n, Except.ok.inj h, hparsed⟩

/-- The tree of a text spells the text. -/
theorem text_eq (h : v.IsTreeOf text) : v.text = text := by
  obtain ⟨g, items, n, hvalue, hparsed⟩ := h.exists_parsed
  rw [← v.text_value, ← hvalue, text_value]
  exact hparsed.text_eq

/-- The tree of a few tokens that start no item has no large node. -/
theorem slotCount_le_of_stray (h : v.IsTreeOf text) (hfew : (tokenize text).tokens.length ≤ 3)
    (hkinds : ∀ t ∈ (tokenize text).tokens, Grammar.itemFirst.contains t.kind = false) :
    ∀ d ∈ v.nodes, d.slotCount ≤ 3 := by
  obtain ⟨g, items, n, hvalue, hparsed⟩ := h.exists_parsed
  refine View.forall_nodes_slotCount_le_of_value hvalue.symm
    (View.forall_nodes_slotCount_le_iff.mpr fun x hx => ?_)
  exact Nat.le_trans (hparsed.slots_le_of_stray hkinds hx) (by omega)

/-- The tree of a text that starts with a declaration has a large node. -/
theorem not_slotCount_le_of_let (h : v.IsTreeOf text) {t : Token} {rest : List Token}
    (htokens : (tokenize text).tokens = t :: rest) (ht : t.kind = .letKw) :
    ¬ ∀ d ∈ v.nodes, d.slotCount ≤ 3 := by
  intro hall
  obtain ⟨g, items, n, hvalue, hparsed⟩ := h.exists_parsed
  obtain ⟨x, hx, hfour⟩ := hparsed.exists_slots_eq_four htokens ht
  have hle := View.forall_nodes_slotCount_le_iff.mp
    (View.forall_nodes_slotCount_le_of_value hvalue hall) x hx
  omega

end View.IsTreeOf

namespace Database

variable {db db' : Database} {held : List Green} {name other : String} {tree : View}
  {request : Request}

theorem Remembers.of_file? (h : db.Remembers name tree) (hfile : db'.file? name = db.file? name) :
    db'.Remembers name tree := by
  rwa [Remembers, hfile]

theorem file?_parse_of_ne {t : Except Fault View} (h : db.parse held name = some (t, db'))
    (hne : other ≠ name) : db'.file? other = db.file? other := by
  obtain ⟨file, -, hout⟩ := Option.map_eq_some_iff.mp h
  split at hout
  · cases hout
    rfl
  · dsimp only at hout
    split at hout
    · cases hout
      exact file?_put_of_ne hne
    · cases hout
      rfl

theorem perform_parse (db : Database) (held : List Green) (name : String) :
    db.perform held (.parse name) =
      (((db.parse held name).map Prod.fst).elim .unknown .tree,
        ((db.parse held name).map Prod.snd).getD db) := by
  rw [perform]
  cases db.parse held name <;> rfl

theorem perform_diagnostics (db : Database) (held : List Green) (name : String) :
    db.perform held (.diagnostics name) =
      (((db.parse held name).map Prod.fst).elim .unknown fun t =>
          .diagnostics (t >>= View.diagnostics),
        ((db.parse held name).map Prod.snd).getD db) := by
  rw [perform, diagnostics]
  cases db.parse held name <;> rfl

/-- A request leaves the other files as they are. -/
theorem file?_perform_of_ne (h : request.name ≠ name) :
    (db.perform held request).2.file? name = db.file? name := by
  cases request with
  | create => exact file?_put_of_ne h.symm
  | setText other | setPath other =>
    simp only [perform, setText, setPath]
    cases db.file? other with
    | none => rfl
    | some file => exact file?_put_of_ne h.symm
  | parse other =>
    simp only [perform]
    rcases hparse : db.parse held other with _ | ⟨t, db'⟩
    · rfl
    · exact file?_parse_of_ne hparse h.symm
  | diagnostics other =>
    simp only [perform, diagnostics]
    rcases hparse : db.parse held other with _ | ⟨t, db'⟩
    · rfl
    · exact file?_parse_of_ne hparse h.symm

/-- A tree is remembered until its file is written. -/
theorem Remembers.perform (h : db.Remembers name tree)
    (hrequest : request.name = name → request.isWrite = false) :
    (db.perform held request).2.Remembers name tree := by
  by_cases hname : request.name = name
  · cases request with
    | create | setText => cases hrequest hname
    | setPath other path =>
      obtain rfl : other = name := hname
      obtain ⟨file, hfile, hfresh, htree⟩ := h
      simp only [Database.perform, setPath, hfile]
      exact ⟨{ file with path }, file?_put_self, hfresh, htree⟩
    | parse other =>
      obtain rfl : other = name := hname
      simp only [Database.perform, parse_of_remembers h]
      exact h
    | diagnostics other =>
      obtain rfl : other = name := hname
      simp only [Database.perform, diagnostics, parse_of_remembers h]
      exact h
  · exact h.of_file? (file?_perform_of_ne hname)

/-- Nothing is remembered of a file that was written. -/
theorem not_remembers_of_write (hname : request.name = name) (hrequest : request.isWrite = true) :
    ¬ (db.perform held request).2.Remembers name tree := by
  rintro ⟨file, hfile, hfresh, -⟩
  cases request with
  | create other path text =>
    obtain rfl : other = name := hname
    cases file?_put_self.symm.trans hfile
    cases hfresh
  | setText other text =>
    obtain rfl : other = name := hname
    simp only [perform, setText] at hfile
    cases hold : db.file? other with
    | none =>
      simp only [hold] at hfile
      cases hold.symm.trans hfile
    | some old =>
      simp only [hold] at hfile
      cases file?_put_self.symm.trans hfile
      cases hfresh
  | setPath | parse | diagnostics => cases hrequest

end Database

theorem Request.foldl_write_eq_of_not_write {requests : List Request} {name : String}
    (texts : Texts)
    (h : ∀ request ∈ requests, request.name = name → request.isWrite = false) :
    requests.foldl write texts name = texts name := by
  induction requests generalizing texts with
  | nil => rfl
  | cons request requests ih =>
    rw [List.foldl_cons, ih _ fun other hother => h other (List.mem_cons_of_mem _ hother)]
    exact write_eq_of_not_write texts (h request List.mem_cons_self)

namespace Session

variable {s s' s₁ s₂ s₃ : Session} {texts texts' : Texts} {r r' : Registry} {name : String}
  {u v : View} {request : Request} {answer answer' : Answer} {log more : List (Request × Answer)}
  {kept : List Green}

theorem Runs.remembers (h : Runs kept s more s') (hv : s.db.Remembers name v)
    (hmore : ∀ entry ∈ more, entry.1.name = name → entry.1.isWrite = false) :
    s'.db.Remembers name v := by
  induction h with
  | nil _ => exact hv
  | @snoc log s₁ s₂ request answer _ ha _ ih =>
    have hkept := ih fun entry hentry => hmore entry (List.mem_append_left _ hentry)
    have hstep : (s₁.db.perform s₁.held request).2.Remembers name v :=
      hkept.perform (hmore (request, answer) (List.mem_append_right _ List.mem_cons_self))
    rwa [ha.perform_eq] at hstep

/-- A file that was not written gives the same tree again, or fails again. -/
theorem Sound.parse_again (h : s.Sound texts r) (h' : s'.Sound texts' r')
    (htexts : texts' name = texts name)
    (hremembers : ∀ t db v, s.db.parse s.held name = some (t, db) → db.Remembers name v →
      s'.db.Remembers name v) :
    (s'.db.parse s'.held name).map Prod.fst = (s.db.parse s.held name).map Prod.fst := by
  cases hfile : s.db.file? name with
  | none =>
    have hfile' : s'.db.file? name = none := by
      have htext := h'.texts_eq name
      rw [htexts, h.texts_of_file?_eq_none hfile] at htext
      exact Option.map_eq_none_iff.mp htext
    rw [Database.parse_eq_none hfile, Database.parse_eq_none hfile']
  | some file =>
    obtain ⟨file', hfile', htext⟩ := Option.map_eq_some_iff.mp
      ((h'.texts_eq name).trans (htexts.trans (h.texts_of_file? hfile)))
    obtain ⟨tree, htree, hparse⟩ |
      ⟨-, e, f, -, -, ⟨fault, hfault, hparse⟩ | ⟨tree, -, -, -, hparse⟩⟩ := h.parse_cases hfile
    · rw [hparse, Database.parse_of_remembers (hremembers _ _ _ hparse htree)]
      rfl
    · obtain ⟨t, db, -, hparse', hvalue, -⟩ := h'.parse hfile'
      rw [htext, hfault] at hvalue
      rw [hparse, hparse']
      cases t with
      | error fault' =>
        cases hvalue
        rfl
      | ok tree => cases hvalue
    · have htree := hremembers _ _ tree hparse ⟨_, Database.file?_put_self, rfl, rfl⟩
      rw [hparse, Database.parse_of_remembers htree]
      rfl

/-- Until its file is written, a request that does not write is answered as before. -/
theorem Sound.answer_again (h : s.Sound texts r) (hrequest : request.isWrite = false)
    (ha : s.Answers request answer s₁) (hmore : Runs kept s₁ more s₂)
    (hwrite : ∀ entry ∈ more, entry.1.name = request.name → entry.1.isWrite = false)
    (ha' : s₂.Answers request answer' s₃) : answer' = answer := by
  obtain ⟨hagrees, r₁, h₁⟩ := h.answers ha
  obtain ⟨r₂, h₂⟩ := hmore.sound h₁
  have hagrees' := (h₂.answers ha').1
  have htexts : (more.map Prod.fst).foldl Request.write (request.write texts) request.name =
      texts request.name := by
    rw [Request.foldl_write_eq_of_not_write, Request.write_eq_of_not_write _ fun _ => hrequest]
    intro other hother
    obtain ⟨entry, hentry, rfl⟩ := List.mem_map.mp hother
    exact hwrite entry hentry
  have hagain (hdb : ((s.db.parse s.held request.name).map Prod.snd).getD s.db = s₁.db) :
      (s₂.db.parse s₂.held request.name).map Prod.fst =
        (s.db.parse s.held request.name).map Prod.fst :=
    h.parse_again h₂ htexts fun t db v hparse hv => by
      rw [hparse] at hdb
      obtain rfl : db = s₁.db := hdb
      exact hmore.remembers hv hwrite
  have hperform := ha.perform_eq
  have hperform' := ha'.perform_eq
  cases request with
  | create | setText => cases hrequest
  | setPath name path =>
    simp only [Request.afresh, Request.name] at hagrees hagrees' htexts
    rw [htexts] at hagrees'
    cases htext : texts name with
    | none =>
      rw [htext] at hagrees hagrees'
      cases hagrees
      cases hagrees'
      rfl
    | some text =>
      rw [htext] at hagrees hagrees'
      cases hagrees
      cases hagrees'
      rfl
  | parse name =>
    rw [Database.perform_parse] at hperform hperform'
    have hout : (s₂.db.parse s₂.held name).map Prod.fst =
        (s.db.parse s.held name).map Prod.fst := hagain (congrArg Prod.snd hperform)
    rw [hout] at hperform'
    exact (congrArg Prod.fst hperform').symm.trans (congrArg Prod.fst hperform)
  | diagnostics name =>
    rw [Database.perform_diagnostics] at hperform hperform'
    have hout : (s₂.db.parse s₂.held name).map Prod.fst =
        (s.db.parse s.held name).map Prod.fst := hagain (congrArg Prod.snd hperform)
    rw [hout] at hperform'
    exact (congrArg Prod.fst hperform').symm.trans (congrArg Prod.fst hperform)

/-- A tree that is made anew is one that was known already just if it is the tree of the same text
and none of its nodes is too large to be shared. -/
theorem MakesAt.same_iff {e f : Site} {text text' : String} (he : s.MakesAt e) (hf : e.Evolves f)
    (hu : e.Knows u.green) (hutext : u.IsTreeOf text) (hv : f.Knows v.green)
    (hvtext : v.IsTreeOf text') (hfresh : ∀ x, x.Within v.green → e.Fresh x) :
    v.green.same u.green = true ↔ text' = text ∧ ∀ d ∈ v.nodes, d.slotCount ≤ 3 := by
  have hconfig : f.store.config = {} := hf.config_eq.trans he.config_eq
  constructor
  · intro hsame
    have heq : v.green = u.green := Registry.Knows.eq_of_id hv (hu.mono hf) (beq_iff_eq.mp hsame)
    refine ⟨?_, View.forall_nodes_slotCount_le_iff.mpr fun x hx => ?_⟩
    · rw [← hvtext.text_eq, ← hutext.text_eq, View.text, View.text, heq]
    · refine Nat.le_of_not_lt fun hlarge => ?_
      have hnone := hfresh x hx (by rw [he.config_eq]; exact hlarge)
      have hknows : e.registry.Knows x := Registry.Knows.of_within hu (heq ▸ hx)
      rw [Registry.Knows, hnone] at hknows
      cases hknows
  · rintro ⟨rfl, hsmall⟩
    have hvalue := hvtext.value_eq hutext
    have hsound := he.workspace hf
    have hstore : f.store ∈ [f.store] := List.mem_cons_self
    have howns {w : View} (hw : f.Knows w.green) (hsmall : ∀ d ∈ w.nodes, d.slotCount ≤ 3) :
        f.store.Owns w.green := by
      intro x hx
      have hmade : x.id.store < 1 := hsound.made_lt (Registry.Knows.of_within hw hx)
      have htag : f.store.tag < 1 := hsound.tag_lt f.store hstore
      refine ⟨by omega, ?_⟩
      rw [hconfig]
      exact View.forall_nodes_slotCount_le_iff.mp hsmall x hx
    have hgreen : v.green.value = u.green.value := by
      rw [← View.green_value, hvalue, View.green_value]
    have heq : v.green = u.green :=
      hsound.eq_of_value_eq hstore (by rw [hconfig]) hv (hu.mono hf) (howns hv hsmall)
        (howns (hu.mono hf) (View.forall_nodes_slotCount_le_of_value hvalue.symm hsmall)) hgreen
    rw [heq]
    exact beq_self_eq_true _

/-- Whether the tree that is remembered of a file, if there is one, is a certain tree just if the
text of the file is the text of that tree and none of its nodes is too large to be shared. -/
def Distinguishes (s : Session) (name : String) (u : View) (text : String) : Prop :=
  ∀ file v, s.db.file? name = some file → file.fresh = true → file.tree = some v →
    (v.green.same u.green = true ↔ file.text = text ∧ ∀ d ∈ v.nodes, d.slotCount ≤ 3)

theorem Distinguishes.of_file? {text : String} (h : s.Distinguishes name u text)
    (hfile : s'.db.file? name = s.db.file? name) : s'.Distinguishes name u text := by
  rwa [Distinguishes, hfile]

/-- Asking for the tree of the file keeps it that way, as long as the other tree is in use. -/
theorem Distinguishes.parse {text : String} (hd : s.Distinguishes name u text)
    (h : s.Sound texts r) (hu : u.green.InUse s.held) (hutext : u.IsTreeOf text)
    (hdb : ((s.db.parse s.held name).map Prod.snd).getD s.db = s'.db) :
    s'.Distinguishes name u text := by
  cases hfile : s.db.file? name with
  | none =>
    rw [Database.parse_eq_none hfile] at hdb
    exact hd.of_file? (congrArg (Database.file? · name) hdb.symm)
  | some file =>
    obtain ⟨tree, -, hparse⟩ |
      ⟨-, e, f, he, hf, ⟨fault, -, hparse⟩ | ⟨tree, htree, hknows, hfresh, hparse⟩⟩ :=
        h.parse_cases hfile
    · rw [hparse] at hdb
      exact hd.of_file? (congrArg (Database.file? · name) hdb.symm)
    · rw [hparse] at hdb
      exact hd.of_file? (by rw [← hdb]; rfl)
    · rw [hparse] at hdb
      have hknown : e.Knows u.green :=
        hu.knows fun g hg => he.knows g (List.mem_append_left _ hg)
      intro file' v hfile' _ hv
      rw [← hdb] at hfile'
      cases Database.file?_put_self.symm.trans hfile'
      cases hv
      exact he.same_iff hf hknown hutext hknows htree hfresh

/-- Every request keeps it that way. -/
theorem Distinguishes.answers {text : String} (hd : s.Distinguishes name u text)
    (h : s.Sound texts r) (hu : u.green.InUse s.held) (hutext : u.IsTreeOf text)
    (ha : s.Answers request answer s') : s'.Distinguishes name u text := by
  have hdb : (s.db.perform s.held request).2 = s'.db := congrArg Prod.snd ha.perform_eq
  by_cases hname : request.name = name
  · cases request with
    | create | setText =>
      intro file v hfile hfresh hv
      have hremembers : s'.db.Remembers name v := ⟨file, hfile, hfresh, hv⟩
      rw [← hdb] at hremembers
      exact absurd hremembers (Database.not_remembers_of_write hname rfl)
    | setPath other path =>
      obtain rfl : other = name := hname
      rw [Database.perform, Database.setPath] at hdb
      cases hfile : s.db.file? other with
      | none =>
        rw [hfile] at hdb
        exact hd.of_file? (congrArg (Database.file? · other) hdb.symm)
      | some file =>
        rw [hfile] at hdb
        intro file' v hfile' hfresh hv
        rw [← hdb] at hfile'
        cases Database.file?_put_self.symm.trans hfile'
        exact hd file v hfile hfresh hv
    | parse other =>
      obtain rfl : other = name := hname
      rw [Database.perform_parse] at hdb
      exact hd.parse h hu hutext hdb
    | diagnostics other =>
      obtain rfl : other = name := hname
      rw [Database.perform_diagnostics] at hdb
      exact hd.parse h hu hutext hdb
  · exact hd.of_file? (hdb ▸ Database.file?_perform_of_ne hname)

/-- After a write it is that way at every moment of a run in which the tree is kept. -/
theorem Runs.distinguishes {text : String} (hmore : Runs [u.green] s more s')
    (h : s.Sound texts r) (hutext : u.IsTreeOf text)
    (hwrite : ∃ entry ∈ more, entry.1.name = name ∧ entry.1.isWrite = true) :
    u.green.InUse s'.held ∧ s'.Distinguishes name u text := by
  induction hmore with
  | nil _ =>
    obtain ⟨entry, hentry, -⟩ := hwrite
    cases hentry
  | @snoc log s₁ s₂ request answer hlog ha hkept ih =>
    obtain ⟨r₁, h₁⟩ := hlog.sound h
    refine ⟨hkept _ List.mem_cons_self, ?_⟩
    obtain ⟨entry, hentry, hname, hentryWrite⟩ := hwrite
    rcases List.mem_append.mp hentry with hentry | hentry
    · obtain ⟨hu, hd⟩ := ih ⟨entry, hentry, hname, hentryWrite⟩
      exact hd.answers h₁ hu hutext ha
    · -- The last request is the write, so nothing is remembered of the file.
      obtain rfl := List.mem_singleton.mp hentry
      intro file v hfile hfresh hv
      have hremembers : s₂.db.Remembers name v := ⟨file, hfile, hfresh, hv⟩
      rw [← show (s₁.db.perform s₁.held request).2 = s₂.db from congrArg Prod.snd ha.perform_eq]
        at hremembers
      exact absurd hremembers (Database.not_remembers_of_write hname hentryWrite)

/-- The tree that is given for a file is remembered from then on. -/
theorem Sound.remembers_of_answers (h : s.Sound texts r)
    (ha : s.Answers (.parse name) (.tree (.ok v)) s') : s'.db.Remembers name v := by
  have hperform := ha.perform_eq
  rw [Database.perform_parse] at hperform
  cases hfile : s.db.file? name with
  | none =>
    rw [Database.parse_eq_none hfile] at hperform
    cases congrArg Prod.fst hperform
  | some file =>
    obtain ⟨tree, htree, hparse⟩ |
      ⟨-, e, f, -, -, ⟨fault, -, hparse⟩ | ⟨tree, -, -, -, hparse⟩⟩ := h.parse_cases hfile
    · rw [hparse] at hperform
      cases congrArg Prod.fst hperform
      obtain hdb : s.db = s'.db := congrArg Prod.snd hperform
      exact hdb ▸ htree
    · rw [hparse] at hperform
      cases congrArg Prod.fst hperform
    · rw [hparse] at hperform
      cases congrArg Prod.fst hperform
      have hdb := congrArg Prod.snd hperform
      simp only [Option.map_some, Option.getD_some] at hdb
      exact hdb ▸ ⟨_, Database.file?_put_self, rfl, rfl⟩

/-- In every session that can be reached, a request is answered as by an evaluator that has no state
but the texts of the files, and for texts of less than 2^28 bytes there are a tree and diagnostics.
A request that does not write is answered as before until its file is written. If a file was written
since and its last tree is kept, the new one is the same just if the text is the same and no node of
the tree has more than three slots. -/
theorem Runs.answers_stateless (h : Runs [] {} log s) :
    (∀ text : String, text.utf8ByteSize < 1 <<< 28 →
        ∃ v ds, freshTree text = .ok v ∧ v.diagnostics = .ok ds) ∧
      (∀ request answer s₁, s.Answers request answer s₁ →
        answer.Agrees (request.afresh (Request.writeAll (log.map Prod.fst)))) ∧
      (∀ request answer s₁ more s₂ answer' s₃, request.isWrite = false →
        s.Answers request answer s₁ → Runs [] s₁ more s₂ →
        (∀ entry ∈ more, entry.1.name = request.name → entry.1.isWrite = false) →
        s₂.Answers request answer' s₃ → answer' = answer) ∧
      ∀ name u s₁ more s₂ v s₃, s.Answers (.parse name) (.tree (.ok u)) s₁ →
        Runs [u.green] s₁ more s₂ →
        (∃ entry ∈ more, entry.1.name = name ∧ entry.1.isWrite = true) →
        s₂.Answers (.parse name) (.tree (.ok v)) s₃ →
        (v.green.same u.green = true ↔
          Request.writeAll ((log ++ more).map Prod.fst) name =
              Request.writeAll (log.map Prod.fst) name ∧
            ∀ d ∈ v.nodes, d.slotCount ≤ 3) := by
  obtain ⟨r, hs⟩ := h.sound sound_empty
  refine ⟨fun text => exists_freshTree, fun request answer s₁ ha => (hs.answers ha).1,
    fun request answer s₁ more s₂ answer' s₃ hrequest ha hmore hwrite ha' =>
      hs.answer_again hrequest ha hmore hwrite ha', ?_⟩
  intro name u s₁ more s₂ v s₃ ha hmore hwrite ha'
  obtain ⟨file, hfile, hfresh, htree⟩ := hs.remembers_of_answers ha
  obtain ⟨r₁, hs₁⟩ := (hs.answers ha).2
  obtain ⟨r₂, hs₂⟩ := hmore.sound hs₁
  have hutext := hs₁.tree_of hfile hfresh htree
  obtain ⟨hu, hd⟩ := hmore.distinguishes hs₁ hutext hwrite
  obtain ⟨file', hfile', hfresh', htree'⟩ := hs₂.remembers_of_answers ha'
  obtain ⟨r₃, hs₃⟩ := (hs₂.answers ha').2
  have hiff := (hd.answers hs₂ hu hutext ha') file' v hfile' hfresh' htree'
  have htext : Request.writeAll (log.map Prod.fst) name = some file.text :=
    hs₁.texts_of_file? hfile
  have htext' : Request.writeAll ((log ++ more).map Prod.fst) name = some file'.text := by
    rw [Request.writeAll, List.map_append, List.foldl_append]
    exact hs₃.texts_of_file? hfile'
  rw [htext, htext', Option.some.injEq]
  exact hiff

/-- Every request is answered, and the user may hold on to what they hold. -/
theorem answers_perform (s : Session) (request : Request) :
    s.Answers request (s.db.perform s.held request).1
      { s with db := (s.db.perform s.held request).2 } :=
  ⟨rfl, fun _ hg => .of_mem (List.mem_append_left _ hg)⟩

/-- The tree of a file with a text of less than 2^28 bytes is given, and the user may hold it. -/
theorem Sound.exists_answers (h : s.Sound texts r) (name text : String)
    (htext : texts name = some text) (hlen : text.utf8ByteSize < 1 <<< 28) :
    ∃ v s', s.Answers (.parse name) (.tree (.ok v)) s' ∧ s'.held = [v.green] ∧ v.IsTreeOf text := by
  obtain ⟨w, ds, hw, -⟩ := exists_freshTree hlen
  have hperform := s.answers_perform (.parse name)
  obtain ⟨hagrees, -⟩ := h.answers hperform
  rw [Request.afresh, htext, Option.elim_some, hw] at hagrees
  generalize hanswer : (s.db.perform s.held (.parse name)).1 = answer at hagrees hperform
  cases hagrees with
  | @tree t _ hvalue =>
    cases t with
    | error fault => cases hvalue
    | ok v =>
      obtain ⟨file, hfile, -, htree⟩ := h.remembers_of_answers hperform
      refine ⟨v, ⟨(s.db.perform s.held (.parse name)).2, [v.green]⟩, ⟨hperform.perform_eq, ?_⟩, rfl,
        (congrArg (Except.map View.value) hw).trans hvalue.symm⟩
      intro g hg
      obtain rfl := List.mem_singleton.mp hg
      exact .of_mem (List.mem_append_right _ (Database.mem_trees_of_file? hfile htree))

/-- A file is written and parsed, and while its tree is held it is written with the same text and
parsed again. -/
def Reparsed (text : String) (u v : View) : Prop :=
  ∃ s s₁ s₂ s₃, Runs [] {} [(.create "f" "a" text, .done)] s ∧
    s.Answers (.parse "f") (.tree (.ok u)) s₁ ∧
    Runs [u.green] s₁ [(.setText "f" text, .done)] s₂ ∧ s₂.Answers (.parse "f") (.tree (.ok v)) s₃

/-- This can be done with every text of less than 2^28 bytes. -/
theorem exists_reparsed {text : String} (hlen : text.utf8ByteSize < 1 <<< 28) :
    ∃ u v, Reparsed text u v ∧ v.IsTreeOf text := by
  have hrun : Runs [] {} [(.create "f" "a" text, .done)]
      { db := Database.create {} "f" "a" text } :=
    .snoc (.nil (by simp)) (answers_perform {} (.create "f" "a" text)) (by simp)
  obtain ⟨r, hs⟩ := hrun.sound sound_empty
  obtain ⟨u, s₁, hu, hheld, -⟩ := hs.exists_answers "f" text rfl hlen
  obtain ⟨file, hfile, -⟩ := hs.remembers_of_answers hu
  have hset : (s₁.db.perform s₁.held (.setText "f" text)).1 = .done := by
    simp [Database.perform, Database.setText, hfile]
  have hmore : Runs [u.green] s₁ [(.setText "f" text, .done)]
      { s₁ with db := (s₁.db.perform s₁.held (.setText "f" text)).2 } := by
    have hkept : ∀ g ∈ [u.green], g.InUse s₁.held := fun g hg => .of_mem (hheld ▸ hg)
    have hanswers := s₁.answers_perform (.setText "f" text)
    rw [hset] at hanswers
    exact .snoc (.nil hkept) hanswers hkept
  obtain ⟨r₁, hs₁⟩ := (hs.answers hu).2
  obtain ⟨r₂, hs₂⟩ := hmore.sound hs₁
  obtain ⟨v, s₃, hv, -, hvtext⟩ := hs₂.exists_answers "f" text rfl hlen
  exact ⟨u, v, ⟨_, s₁, _, s₃, hrun, hu, hmore, hv⟩, hvtext⟩

/-- A file that is written with the text it has, while its tree is held, gets the same tree again if
it is `x = 1`, all of which fits nowhere. It gets another one if it is `let x = 1`, for a
declaration has four slots. -/
theorem Runs.answers_stateless_rewritten :
    (∃ u v, Reparsed "x = 1" u v ∧ v.green.same u.green = true) ∧
      ∃ u v, Reparsed "let x = 1" u v ∧ v.green.same u.green = false := by
  have hiff {text : String} {u v : View} (h : Reparsed text u v) :
      v.green.same u.green = true ↔ ∀ d ∈ v.nodes, d.slotCount ≤ 3 := by
    obtain ⟨s, s₁, s₂, s₃, hrun, hu, hmore, hv⟩ := h
    obtain ⟨-, -, -, hsame⟩ := hrun.answers_stateless
    refine (hsame "f" u s₁ _ s₂ v s₃ hu hmore ⟨_, List.mem_cons_self, rfl, rfl⟩ hv).trans ?_
    exact and_iff_right rfl
  constructor
  · obtain ⟨u, v, h, hv⟩ := @exists_reparsed "x = 1" (by decide)
    refine ⟨u, v, h, (hiff h).mpr (hv.slotCount_le_of_stray ?_ ?_)⟩
    · decide +kernel
    · decide +kernel
  · obtain ⟨u, v, h, hv⟩ := @exists_reparsed "let x = 1" (by decide)
    refine ⟨u, v, h, Bool.eq_false_iff.mpr fun hsame => ?_⟩
    have hkinds : (tokenize "let x = 1").tokens.map Token.kind =
        [.letKw, .ident, .eq, .intNumber] := by decide +kernel
    obtain ⟨t, rest, htokens, ht, -⟩ := List.map_eq_cons_iff.mp hkinds
    exact hv.not_slotCount_le_of_let htokens ht ((hiff h).mp hsame)

end Session

end Verbatim
