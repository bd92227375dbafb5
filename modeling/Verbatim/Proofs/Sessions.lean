import Verbatim.Database
import Verbatim.Proofs.Histories
import Verbatim.Proofs.Wording

/-!
# Sessions with a database

A session is a database in use: requests are answered one after another, and in between the user of
the database holds some of the trees that are in use. The answers are compared with those of an
evaluator that has no state but the texts of the files, and makes every tree in a store of its own.
After every run of a session the database has the texts that were written, and the tree it remembers
of a file is, up to identities, the tree of the text of that file.
-/

namespace Verbatim

/-- What can be asked of a database. -/
inductive Request where
  /-- Adds a file. -/
  | create (name path text : String)
  /-- Changes the text of a file. -/
  | setText (name text : String)
  /-- Changes the path of a file. -/
  | setPath (name path : String)
  /-- Asks for the tree of a file. -/
  | parse (name : String)
  /-- Asks for the diagnostics of a file. -/
  | diagnostics (name : String)

/-- What comes of a request. -/
inductive Answer where
  /-- A file was added or changed. -/
  | done
  /-- There is no such file. -/
  | unknown
  /-- The tree of a file. -/
  | tree (tree : Except Fault View)
  /-- The diagnostics of a file. -/
  | diagnostics (found : Except Fault (List Diagnostic))

/-- Answers a request, where `held` are the trees that the user still uses. -/
def Database.perform (db : Database) (held : List Green) : Request → Answer × Database
  | .create name path text => (.done, db.create name path text)
  | .setText name text => (db.setText name text).elim (.unknown, db) fun db => (.done, db)
  | .setPath name path => (db.setPath name path).elim (.unknown, db) fun db => (.done, db)
  | .parse name => (db.parse held name).elim (.unknown, db) fun (tree, db) => (.tree tree, db)
  | .diagnostics name =>
    (db.diagnostics held name).elim (.unknown, db) fun (found, db) => (.diagnostics found, db)

/-- The texts of files by name. -/
abbrev Texts := String → Option String

namespace Request

/-- The file that a request is about. -/
def name : Request → String
  | create name _ _ | setText name _ | setPath name _ | parse name | diagnostics name => name

/-- Whether a request writes the text of its file. -/
def isWrite : Request → Bool
  | create .. | setText .. => true
  | setPath .. | parse _ | diagnostics _ => false

/-- The texts after a request. -/
def write (texts : Texts) : Request → Texts
  | create name _ text => fun other => if other = name then some text else texts other
  | setText name text => fun other =>
    if other = name then (texts other).map fun _ => text else texts other
  | setPath .. | parse _ | diagnostics _ => texts

/-- The texts after some requests to a database without files. -/
def writeAll (requests : List Request) : Texts := requests.foldl write fun _ => none

/-- A text is changed by the writes of its file alone. -/
theorem write_eq_of_not_write {request : Request} {name : String} (texts : Texts)
    (h : request.name = name → request.isWrite = false) :
    request.write texts name = texts name := by
  cases request with
  | create | setText => exact if_neg fun heq => by cases h heq.symm
  | setPath | parse | diagnostics => rfl

end Request

/-- The tree of a text as it is made in a store of its own. -/
def freshTree (text : String) : Except Fault View := (Verbatim.parse text { tag := 0 }).1

/-- What an evaluator answers that knows the texts of the files and has no other state. -/
def Request.afresh (texts : Texts) : Request → Answer
  | create .. => .done
  | setText name _ | setPath name _ => (texts name).elim .unknown fun _ => .done
  | parse name => (texts name).elim .unknown fun text => .tree (freshTree text)
  | diagnostics name =>
    (texts name).elim .unknown fun text => .diagnostics (freshTree text >>= View.diagnostics)

/-- What a reader is told by a diagnostic: the condition, the message, where it is and the path to
what it is about. -/
def Diagnostic.account (d : Diagnostic) :
    DiagnosticId × String × Except Fault Text.Span × List Nat :=
  (d.id, d.message, d.span, d.anchor.path)

/-- Answers that agree: trees by value, and diagnostics in what a reader is told. -/
inductive Answer.Agrees : Answer → Answer → Prop where
  | done : Agrees .done .done
  | unknown : Agrees .unknown .unknown
  | tree {t t' : Except Fault View} (h : t.map View.value = t'.map View.value) :
    Agrees (.tree t) (.tree t')
  | diagnostics {ds ds' : Except Fault (List Diagnostic)}
    (h : ds.map (List.map Diagnostic.account) = ds'.map (List.map Diagnostic.account)) :
    Agrees (.diagnostics ds) (.diagnostics ds')

/-- Whether a tree is, up to identities, the tree of a text. -/
def View.IsTreeOf (v : View) (text : String) : Prop :=
  (freshTree text).map View.value = .ok v.value

/-- Trees with the same value have diagnostics that tell the same. -/
theorem map_account_eq_of_value {t t' : Except Fault View}
    (h : t.map View.value = t'.map View.value) :
    (t >>= View.diagnostics).map (List.map Diagnostic.account) =
      (t' >>= View.diagnostics).map (List.map Diagnostic.account) := by
  have haccount (t : Except Fault View) :
      (t >>= View.diagnostics).map (List.map Diagnostic.account) =
        (t.map View.value >>= View.diagnostics).map (List.map Diagnostic.account) := by
    cases t with
    | error fault => rfl
    | ok v =>
      have hvalue := v.diagnostics_value
      simp only [Except.map, bind, Except.bind] at hvalue ⊢
      rw [hvalue]
      cases v.diagnostics with
      | error fault => rfl
      | ok ds => simp [Diagnostic.account, Diagnostic.value, Diagnostic.span]
  rw [haccount t, h, haccount t']

namespace Database

variable {db db' : Database} {held : List Green} {name other : String} {file : SourceFile}
  {tree : View}

@[simp] theorem file?_put_self : (db.put name file).file? name = some file := by
  simp [put, file?]

/-- Putting a file leaves the others as they are. -/
theorem file?_put_of_ne (h : other ≠ name) : (db.put name file).file? other = db.file? other := by
  simp [put, file?, List.lookup_cons, beq_false_of_ne h, lookup_filter_of_ne h]

/-- The tree that is kept for a file is one of the trees of the database. -/
theorem mem_trees_of_file? (hfile : db.file? name = some file) (htree : file.tree = some tree) :
    tree.green ∈ db.trees := by
  have hmem : (name, file) ∈ db.files := by
    obtain ⟨before, after, hfiles, -⟩ := List.lookup_eq_some_iff.mp hfile
    simp [hfiles]
  exact List.mem_filterMap.mpr ⟨_, hmem, by simp [htree]⟩

/-- The trees of a database after a file was put are those before it and the tree of the file. -/
theorem mem_trees_put {g : Green} (h : g ∈ (db.put name file).trees) :
    (∃ tree, file.tree = some tree ∧ tree.green = g) ∨ g ∈ db.trees := by
  obtain ⟨entry, hentry, hg⟩ := List.mem_filterMap.mp h
  rcases List.mem_cons.mp hentry with rfl | hentry
  · exact .inl (Option.map_eq_some_iff.mp hg)
  · exact .inr (List.mem_filterMap.mpr ⟨entry, (List.mem_filter.mp hentry).1, hg⟩)

/-- Whether a tree is kept for a file, and its text was not written since. -/
def Remembers (db : Database) (name : String) (tree : View) : Prop :=
  ∃ file, db.file? name = some file ∧ file.fresh = true ∧ file.tree = some tree

/-- A file that does not exist has no tree. -/
theorem parse_eq_none (hfile : db.file? name = none) : db.parse held name = none := by
  rw [parse, hfile]
  rfl

/-- A tree that is remembered is not made again. -/
theorem parse_of_remembers (h : db.Remembers name tree) :
    db.parse held name = some (.ok tree, db) := by
  obtain ⟨file, hfile, hfresh, htree⟩ := h
  simp [parse, hfile, hfresh, htree]

section

variable {store : Store} (hfile : db.file? name = some file)
  (hstale : ∀ tree, ¬ db.Remembers name tree)
include hfile hstale

/-- A parse that succeeds is kept, and marked as fresh. -/
theorem parse_of_ok (hrun : Verbatim.parse file.text (db.store.collectIfGrown
      (held ++ db.trees)).2 = (.ok tree, store)) :
    db.parse held name = some (.ok tree,
      { db with store }.put name { file with tree := some tree, fresh := true }) := by
  have hrun' : (Verbatim.parse file.text).run (db.store.collectIfGrown (held ++ db.trees)).2 =
    (.ok tree, store) := hrun
  simp only [parse, hfile, Option.map_some]
  split
  · next old hfresh hold => exact absurd ⟨file, hfile, hfresh, hold⟩ (hstale old)
  · rw [hrun']

/-- A parse that fails keeps what it did to the store, and nothing else. -/
theorem parse_of_error {fault : Fault} (hrun : Verbatim.parse file.text (db.store.collectIfGrown
      (held ++ db.trees)).2 = (.error fault, store)) :
    db.parse held name = some (.error fault, { db with store }) := by
  have hrun' : (Verbatim.parse file.text).run (db.store.collectIfGrown (held ++ db.trees)).2 =
    (.error fault, store) := hrun
  simp only [parse, hfile, Option.map_some]
  split
  · next old hfresh hold => exact absurd ⟨file, hfile, hfresh, hold⟩ (hstale old)
  · rw [hrun']

end

end Database

/-- A database in use, and the trees that its user holds. -/
structure Session where
  /-- The database. -/
  db : Database := {}
  /-- The trees that the user holds. -/
  held : List Green := []

/-- A tree of a text that is made at some site is the one that a new store gives. What is known
afterwards includes the tree, and no large node of it was known before. -/
theorem Site.parse_outcome (e : Site) (text : String) :
    ∃ f, e.Evolves f ∧
      ((∃ fault, freshTree text = .error fault ∧
          Verbatim.parse text e.store = (.error fault, f.store)) ∨
        ∃ tree, tree.IsTreeOf text ∧ Verbatim.parse text e.store = (.ok tree, f.store) ∧
          f.Knows tree.green ∧ ∀ x, x.Within tree.green → e.Fresh x) := by
  let empty : Site := (Workspace.sound_ofStore "" {}).site List.mem_cons_self
  obtain ⟨f, f', hf, -, ⟨fault, hrun, hrun'⟩ |
    ⟨v, v', hrun, hrun', g, g', rfl, rfl, hg, hnew, -⟩⟩ := @agree_parse e empty text
  · exact ⟨f, hf, .inl ⟨fault, congrArg Prod.fst hrun', hrun⟩⟩
  · refine ⟨f, hf, .inr ⟨_, ?_, hrun, hg.left, fun x hx => (hnew x hx).fresh⟩⟩
    have hfst : freshTree text = .ok (.root f'.store.tag g') := congrArg Prod.fst hrun'
    rw [View.IsTreeOf, hfst]
    exact congrArg (fun g => Except.ok (View.root 0 g)) hg.value_eq.symm

namespace Session

variable {s s' : Session} {texts : Texts} {r : Registry} {e f : Site} {name : String}
  {file : SourceFile}

/-- The session as a workspace of one store. -/
def workspace (s : Session) : Workspace where
  stores := [s.db.store]
  names := [("", 0)]
  made := 1
  handles := (s.held ++ s.db.trees).map fun g => ("", .green g)

theorem trees_workspace (s : Session) : s.workspace.trees = s.held ++ s.db.trees := by
  simp [workspace, Workspace.trees, Handle.trees, List.flatMap_map]

/-- What is in use outside the tables is what the user holds and what is kept for files. -/
theorem outside_workspace (s : Session) :
    s.workspace.outside s.db.store.tag = s.held ++ s.db.trees := by
  rw [Workspace.outside, trees_workspace]
  simp [workspace]

/-- What holds of a session after every run: the store is sound, the files have the texts that were
written, and a tree that is remembered is the tree of the text. -/
structure Sound (s : Session) (texts : Texts) (r : Registry) : Prop where
  workspace : s.workspace.Sound r
  config_eq : s.db.store.config = {}
  texts_eq : ∀ name, (s.db.file? name).map SourceFile.text = texts name
  tree_of : ∀ {name file tree}, s.db.file? name = some file → file.fresh = true →
    file.tree = some tree → tree.IsTreeOf file.text

/-- A session that has just begun is sound. -/
theorem sound_empty : Sound {} (fun _ => none) .empty where
  workspace := Workspace.sound_ofStore "" {}
  config_eq := rfl
  texts_eq _ := rfl
  tree_of hfile := by cases hfile

namespace Sound

theorem knows (h : s.Sound texts r) {g : Green} (hg : g ∈ s.held ++ s.db.trees) : r.Knows g :=
  h.workspace.held g (s.trees_workspace ▸ hg)

/-- The tree that is kept for a file is known. -/
theorem knows_tree (h : s.Sound texts r) (hfile : s.db.file? name = some file) {tree : View}
    (htree : file.tree = some tree) : r.Knows tree.green :=
  h.knows (List.mem_append_right _ (Database.mem_trees_of_file? hfile htree))

/-- The user may hold whatever is in use. -/
theorem withHeld (h : s.Sound texts r) {held : List Green}
    (hheld : ∀ g ∈ held, g.InUse (s.held ++ s.db.trees)) :
    Sound { s with held } texts r where
  workspace := by
    refine h.workspace.withHandles fun entry hentry g hg => ?_
    obtain ⟨root, hroot, rfl⟩ := List.mem_map.mp hentry
    obtain rfl := List.mem_singleton.mp hg
    rcases List.mem_append.mp hroot with hroot | hroot
    · exact (hheld g hroot).knows fun _ => h.knows
    · exact h.knows (List.mem_append_right _ hroot)
  config_eq := h.config_eq
  texts_eq := h.texts_eq
  tree_of := h.tree_of

/-- A file is put in the place of another. -/
theorem put (h : s.Sound texts r) (name : String) (file : SourceFile)
    (hknows : ∀ tree, file.tree = some tree → r.Knows tree.green)
    (htree : ∀ tree, file.fresh = true → file.tree = some tree → tree.IsTreeOf file.text) :
    Sound { s with db := s.db.put name file }
      (fun other => if other = name then some file.text else texts other) r where
  workspace := by
    refine h.workspace.withHandles fun entry hentry g hg => ?_
    obtain ⟨root, hroot, rfl⟩ := List.mem_map.mp hentry
    obtain rfl := List.mem_singleton.mp hg
    rcases List.mem_append.mp hroot with hroot | hroot
    · exact h.knows (List.mem_append_left _ hroot)
    · rcases Database.mem_trees_put hroot with ⟨tree, htree, rfl⟩ | hroot
      · exact hknows tree htree
      · exact h.knows (List.mem_append_right _ hroot)
  config_eq := h.config_eq
  texts_eq other := by
    by_cases hother : other = name
    · rw [if_pos hother, hother]
      exact congrArg _ Database.file?_put_self
    · rw [if_neg hother, ← h.texts_eq other]
      exact congrArg _ (Database.file?_put_of_ne hother)
  tree_of {other found tree} hfound hfresh hfoundTree := by
    by_cases hother : other = name
    · obtain rfl : file = found := by
        rw [hother] at hfound
        exact Option.some.inj (Database.file?_put_self.symm.trans hfound)
      exact htree tree hfresh hfoundTree
    · exact h.tree_of ((Database.file?_put_of_ne hother).symm.trans hfound) hfresh hfoundTree

theorem texts_of_file?_eq_none (h : s.Sound texts r) (hfile : s.db.file? name = none) :
    texts name = none := by
  rw [← h.texts_eq name, hfile]
  rfl

/-- The text of a file is the one that was last written. -/
theorem texts_of_file? (h : s.Sound texts r) (hfile : s.db.file? name = some file) :
    texts name = some file.text := by
  rw [← h.texts_eq name, hfile]
  rfl

/-- A file that keeps its text changes no texts. -/
theorem texts_put (h : s.Sound texts r) (hfile : s.db.file? name = some file) :
    (fun other => if other = name then some file.text else texts other) = texts := by
  funext other
  by_cases hother : other = name
  · rw [if_pos hother, hother, h.texts_of_file? hfile]
  · exact if_neg hother

end Sound

/-- A site at which the next tree of a session is made: the store was collected if it had grown, and
everything that is in use is known. -/
structure MakesAt (s : Session) (e : Site) : Prop where
  store_eq : (s.db.store.collectIfGrown (s.held ++ s.db.trees)).2 = e.store
  config_eq : e.store.config = {}
  knows : ∀ g ∈ s.held ++ s.db.trees, e.Knows g
  workspace : ∀ {f : Site}, e.Evolves f →
    Workspace.Sound { s.workspace with stores := [f.store] } f.registry

/-- Collecting the store of a sound session leaves such a site. -/
theorem Sound.exists_makesAt (h : s.Sound texts r) : ∃ e, s.MakesAt e := by
  have hs : s.db.store ∈ s.workspace.stores := List.mem_cons_self
  obtain ⟨t, r', ht, htag, hconfig, hsound⟩ : ∃ t r',
      (s.db.store.collectIfGrown (s.held ++ s.db.trees)).2 = t ∧ t.tag = s.db.store.tag ∧
        t.config = s.db.store.config ∧ (s.workspace.putStore t).Sound r' := by
    unfold Store.collectIfGrown
    split
    · exact ⟨_, r, rfl, rfl, rfl, h.workspace.evolves hs (.refl (h.workspace.site hs))⟩
    · have hkeeps := s.db.store.keeps_collect (h.workspace.respects _ hs)
        (h.workspace.knows_outside s.db.store.tag)
      have hcollect := h.workspace.collect hs
      simp only [Workspace.collect] at hcollect
      rw [outside_workspace] at hkeeps hcollect
      exact ⟨_, _, rfl, hkeeps.tag_eq, hkeeps.config_eq, hcollect⟩
  have hstores (w : Workspace) (a b : Store) (hw : w.stores = [a]) (hab : b.tag = a.tag) :
      w.putStore b = { w with stores := [b] } := by
    simp [Workspace.putStore, hw, hab]
  rw [hstores s.workspace s.db.store t rfl htag] at hsound
  have ht' : t ∈ [t] := List.mem_cons_self
  refine ⟨hsound.site ht', ht, hconfig.trans h.config_eq, fun g hg => ?_, fun {f} hf => ?_⟩
  · exact hsound.held g (s.trees_workspace.symm ▸ hg)
  · have hnext := hsound.evolves ht' hf
    rwa [hstores _ t f.store rfl hf.tag_eq] at hnext

/-- The session goes on with the store in which a tree was made. -/
theorem MakesAt.sound (he : s.MakesAt e) (h : s.Sound texts r) (hf : e.Evolves f) :
    Sound { s with db := { s.db with store := f.store } } texts f.registry where
  workspace := he.workspace hf
  config_eq := hf.config_eq.trans he.config_eq
  texts_eq := h.texts_eq
  tree_of := h.tree_of

/-- What asking for the tree of a file comes to. The tree is remembered; or making it fails, as it
does in a new store; or it is made and remembered from then on. -/
theorem Sound.parse_cases (h : s.Sound texts r) (hfile : s.db.file? name = some file) :
    (∃ tree, s.db.Remembers name tree ∧ s.db.parse s.held name = some (.ok tree, s.db)) ∨
      (∀ tree, ¬ s.db.Remembers name tree) ∧ ∃ e f, s.MakesAt e ∧ e.Evolves f ∧
        ((∃ fault, freshTree file.text = .error fault ∧
            s.db.parse s.held name = some (.error fault, { s.db with store := f.store })) ∨
          ∃ tree, tree.IsTreeOf file.text ∧ f.Knows tree.green ∧
            (∀ x, x.Within tree.green → e.Fresh x) ∧
            s.db.parse s.held name = some (.ok tree, { s.db with store := f.store }.put name
              { file with tree := some tree, fresh := true })) := by
  by_cases hremembers : ∃ tree, s.db.Remembers name tree
  · obtain ⟨tree, htree⟩ := hremembers
    exact .inl ⟨tree, htree, Database.parse_of_remembers htree⟩
  · have hstale : ∀ tree, ¬ s.db.Remembers name tree := fun tree htree => hremembers ⟨tree, htree⟩
    obtain ⟨e, he⟩ := h.exists_makesAt
    obtain ⟨f, hf, ⟨fault, hfresh, hrun⟩ | ⟨tree, htree, hrun, hknows, hnew⟩⟩ :=
      e.parse_outcome file.text
    · rw [← he.store_eq] at hrun
      exact .inr ⟨hstale, e, f, he, hf,
        .inl ⟨fault, hfresh, Database.parse_of_error hfile hstale hrun⟩⟩
    · rw [← he.store_eq] at hrun
      exact .inr ⟨hstale, e, f, he, hf,
        .inr ⟨tree, htree, hknows, hnew, Database.parse_of_ok hfile hstale hrun⟩⟩

/-- A tree that is asked for is the tree of the text, and the session stays sound. -/
theorem Sound.parse (h : s.Sound texts r) (hfile : s.db.file? name = some file) :
    ∃ t db' r', s.db.parse s.held name = some (t, db') ∧
      t.map View.value = (freshTree file.text).map View.value ∧
      Sound { s with db := db' } texts r' := by
  obtain ⟨tree, ⟨file', hfile', hfresh, htree⟩, hparse⟩ |
    ⟨-, e, f, he, hf, ⟨fault, hfault, hparse⟩ | ⟨tree, htree, hknows, -, hparse⟩⟩ :=
      h.parse_cases hfile
  · obtain rfl : file' = file := Option.some.inj (hfile'.symm.trans hfile)
    exact ⟨_, _, r, hparse, (h.tree_of hfile' hfresh htree).symm, h⟩
  · exact ⟨_, _, _, hparse, (congrArg (Except.map View.value) hfault).symm, he.sound h hf⟩
  · refine ⟨_, _, f.registry, hparse, htree.symm, ?_⟩
    have hput := (he.sound h hf).put name { file with tree := some tree, fresh := true }
      (fun other hother => by cases hother; exact hknows)
      fun other _ hother => by cases hother; exact htree
    rwa [h.texts_put hfile] at hput

/-- Every request is answered like by the evaluator without state, and the session stays sound. -/
theorem Sound.perform (h : s.Sound texts r) (request : Request) :
    (s.db.perform s.held request).1.Agrees (request.afresh texts) ∧
      ∃ r', Sound { s with db := (s.db.perform s.held request).2 } (request.write texts) r' := by
  cases request with
  | create name path text =>
    have hput := h.put name { path, text } (fun tree htree => by cases htree)
      fun tree hfresh => by cases hfresh
    exact ⟨.done, r, hput⟩
  | setText name text =>
    cases hfile : s.db.file? name with
    | none =>
      have htext := h.texts_of_file?_eq_none hfile
      have hwrite : (Request.setText name text).write texts = texts := by
        funext other
        by_cases hother : other = name
        · simp [Request.write, hother, htext]
        · exact if_neg hother
      simp only [Database.perform, Database.setText, hfile, Option.map_none, Option.elim_none,
        Request.afresh, htext, hwrite]
      exact ⟨.unknown, r, h⟩
    | some file =>
      have hput := h.put name { file with text, fresh := false }
        (fun tree htree => h.knows_tree hfile htree)
        fun tree hfresh => by cases hfresh
      have hwrite : (Request.setText name text).write texts =
          fun other => if other = name then some text else texts other := by
        funext other
        by_cases hother : other = name
        · simp [Request.write, hother, h.texts_of_file? hfile]
        · simp [Request.write, hother]
      simp only [Database.perform, Database.setText, hfile, Option.map_some, Option.elim_some,
        Request.afresh, h.texts_of_file? hfile, hwrite]
      exact ⟨.done, r, hput⟩
  | setPath name path =>
    cases hfile : s.db.file? name with
    | none =>
      have htext := h.texts_of_file?_eq_none hfile
      simp only [Database.perform, Database.setPath, hfile, Option.map_none, Option.elim_none,
        Request.afresh, htext, Request.write]
      exact ⟨.unknown, r, h⟩
    | some file =>
      have hput := h.put name { file with path }
        (fun tree htree => h.knows_tree hfile htree)
        fun tree hfresh htree => (h.tree_of hfile hfresh htree : tree.IsTreeOf file.text)
      rw [h.texts_put hfile] at hput
      simp only [Database.perform, Database.setPath, hfile, Option.map_some, Option.elim_some,
        Request.afresh, h.texts_of_file? hfile, Request.write]
      exact ⟨.done, r, hput⟩
  | parse name =>
    cases hfile : s.db.file? name with
    | none =>
      have htext := h.texts_of_file?_eq_none hfile
      simp only [Database.perform, Database.parse_eq_none hfile, Option.elim_none, Request.afresh,
        htext, Request.write]
      exact ⟨.unknown, r, h⟩
    | some file =>
      obtain ⟨t, db', r', hparse, hvalue, hsound⟩ := h.parse hfile
      simp only [Database.perform, hparse, Option.elim_some, Request.afresh,
        h.texts_of_file? hfile, Request.write]
      exact ⟨.tree hvalue, r', hsound⟩
  | diagnostics name =>
    cases hfile : s.db.file? name with
    | none =>
      have htext := h.texts_of_file?_eq_none hfile
      simp only [Database.perform, Database.diagnostics, Database.parse_eq_none hfile,
        Option.map_none, Option.elim_none, Request.afresh, htext, Request.write]
      exact ⟨.unknown, r, h⟩
    | some file =>
      obtain ⟨t, db', r', hparse, hvalue, hsound⟩ := h.parse hfile
      simp only [Database.perform, Database.diagnostics, hparse, Option.map_some, Option.elim_some,
        Request.afresh, h.texts_of_file? hfile, Request.write]
      exact ⟨.diagnostics (map_account_eq_of_value hvalue), r', hsound⟩

/-- A request is answered. Afterwards the user holds some of what is in use. -/
structure Answers (s : Session) (request : Request) (answer : Answer) (s' : Session) : Prop where
  perform_eq : s.db.perform s.held request = (answer, s'.db)
  inUse : ∀ g ∈ s'.held, g.InUse (s.held ++ s'.db.trees)

/-- The requests of a run and their answers lead from one session to another. All the while the user
holds trees in which everything of `kept` is. -/
inductive Runs (kept : List Green) (s : Session) : List (Request × Answer) → Session → Prop where
  | nil : (∀ g ∈ kept, g.InUse s.held) → Runs kept s [] s
  | snoc {log : List (Request × Answer)} {s₁ s₂ : Session} {request : Request} {answer : Answer} :
    Runs kept s log s₁ → s₁.Answers request answer s₂ → (∀ g ∈ kept, g.InUse s₂.held) →
      Runs kept s (log ++ [(request, answer)]) s₂

/-- A request is answered as from the texts alone, and the session stays sound. -/
theorem Sound.answers (h : s.Sound texts r) {request : Request} {answer : Answer}
    (ha : s.Answers request answer s') :
    answer.Agrees (request.afresh texts) ∧ ∃ r', s'.Sound (request.write texts) r' := by
  obtain ⟨hagrees, r', hsound⟩ := h.perform request
  rw [ha.perform_eq] at hagrees hsound
  exact ⟨hagrees, r', hsound.withHeld ha.inUse⟩

/-- A session stays sound all along a run. -/
theorem Runs.sound {kept : List Green} {log : List (Request × Answer)} (h : Runs kept s log s')
    (hs : s.Sound texts r) : ∃ r', s'.Sound ((log.map Prod.fst).foldl Request.write texts) r' := by
  induction h with
  | nil _ => exact ⟨r, hs⟩
  | snoc _ ha _ ih =>
    obtain ⟨r₁, hs₁⟩ := ih
    rw [List.map_append, List.foldl_append]
    exact (hs₁.answers ha).2

end Session

end Verbatim
