import Verbatim.Parse
import Verbatim.Store.Collect
import Verbatim.Diagnostic.Rules

/-!
# A database of files

A database keeps files and the trees of their texts in one store. The tree of a file is made when it
is first asked for and kept until the text is set again, even to the same text. Before a tree is
made, the store drops what neither a kept tree nor the caller still uses.
-/

namespace Verbatim

/-- A file of a database. -/
structure SourceFile where
  /-- Where the file is said to be. -/
  path : String
  /-- What it says. -/
  text : String
  /-- The tree made last. -/
  tree : Option View := none
  /-- Whether that tree is the tree of the current text. -/
  fresh : Bool := false

/-- Files by name, and the store of their trees. -/
structure Database where
  /-- The store all trees are made in. -/
  store : Store := { tag := 0 }
  /-- The files. -/
  files : List (String × SourceFile) := []

namespace Database

/-- The file with a name. -/
def file? (db : Database) (name : String) : Option SourceFile := db.files.lookup name

/-- Puts a file under a name, in the place of the one that had it. -/
def put (db : Database) (name : String) (file : SourceFile) : Database :=
  { db with files := (name, file) :: db.files.filter fun entry => entry.1 != name }

/-- Adds a file. -/
def create (db : Database) (name path text : String) : Database := db.put name { path, text }

/-- Changes the text of a file; its tree will be made again. -/
def setText (db : Database) (name text : String) : Option Database :=
  (db.file? name).map fun file => db.put name { file with text, fresh := false }

/-- Changes the path of a file; its tree stays. -/
def setPath (db : Database) (name path : String) : Option Database :=
  (db.file? name).map fun file => db.put name { file with path }

/-- The trees the database keeps. -/
def trees (db : Database) : List Green :=
  db.files.filterMap fun (_, file) => file.tree.map View.green

/-- The tree of a file, where `held` are the trees that the caller still uses. -/
def parse (db : Database) (held : List Green) (name : String) :
    Option (Except Fault View × Database) :=
  (db.file? name).map fun file =>
    match file.fresh, file.tree with
    | true, some tree => (.ok tree, db)
    | _, _ =>
      let store := (db.store.collectIfGrown (held ++ db.trees)).2
      match (Verbatim.parse file.text).run store with
      | (.ok tree, store) =>
        (.ok tree, { db with store }.put name { file with tree := some tree, fresh := true })
      | (.error fault, store) => (.error fault, { db with store })

/-- The diagnostics of a file. -/
def diagnostics (db : Database) (held : List Green) (name : String) :
    Option (Except Fault (List Diagnostic) × Database) :=
  (db.parse held name).map fun (tree, db) => (tree.bind View.diagnostics, db)

end Database

end Verbatim
