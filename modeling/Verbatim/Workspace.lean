import Verbatim.Builder
import Verbatim.Store.Collect
import Verbatim.View

/-!
# Workspaces

A workspace has stores by name and holds elements, views and builders by name. Only what it holds,
and what other stores share, keeps an element of a store in use. A store that lost its name lives on
as long as a view of one of its trees, or a builder that it makes elements for, is held.
-/

namespace Verbatim

/-- Something held by name. -/
inductive Handle where
  /-- An element on its own. -/
  | green (green : Green)
  /-- An element in its place, which holds its whole tree. -/
  | view (view : View)
  /-- A tree under construction, made for a store. -/
  | builder (store : Nat) (builder : Builder)

namespace Handle

/-- The element that is held, without its place. -/
def element? : Handle → Option Green
  | green g => some g
  | view v => some v.green
  | builder .. => none

/-- The trees that a handle keeps in use. -/
def trees : Handle → List Green
  | green g => [g]
  | view v => v.ancestors.map View.green
  | builder _ b => b.elements

/-- The store that a handle keeps alive. -/
def store? : Handle → Option Nat
  | green _ => none
  | view v => some v.store
  | builder store _ => some store

/-- Walks down one slot. -/
def slot? : Handle → Nat → Option Handle
  | green g, index => (g.slots[index]?.join).map green
  | view v, index => (v.slot? index).map view
  | builder .., _ => none

/-- Walks down slots from a handle. -/
def descend? (h : Handle) : List Nat → Option Handle
  | [] => some h
  | index :: path => (h.slot? index).bind fun below => below.descend? path

/-- The view, if the handle has a place. -/
def view? : Handle → Option View
  | view v => some v
  | green _ | builder .. => none

/-- The tree under construction, if the handle is one. -/
def builder? : Handle → Option Builder
  | builder _ b => some b
  | green _ | view _ => none

/-- Gives up what is held. A builder with open nodes must not be given up. -/
def drop : Handle → Except Fault Unit
  | builder _ b => b.abandon
  | green _ | view _ => .ok ()

end Handle

/-- Stores and handles by name. -/
structure Workspace where
  /-- All stores that are alive. -/
  stores : List Store
  /-- The tags of the stores that have a name. -/
  names : List (String × Nat)
  /-- The number of stores made so far. -/
  made : Nat
  /-- What is held. -/
  handles : List (String × Handle) := []

namespace Workspace

/-- A workspace with one store. -/
def ofStore (name : String) (config : StoreConfig) : Workspace :=
  { stores := [{ tag := 0, config }], names := [(name, 0)], made := 1 }

/-- The store with a tag. -/
def storeWithTag? (w : Workspace) (tag : Nat) : Option Store := w.stores.find? (·.tag == tag)

/-- The store with a name. -/
def store? (w : Workspace) (name : String) : Option Store :=
  (w.names.lookup name).bind w.storeWithTag?

/-- The name of the store with a tag. -/
def storeName? (w : Workspace) (tag : Nat) : Option String :=
  (w.names.find? (·.2 == tag)).map (·.1)

/-- Whether something keeps the store with a tag alive. -/
def isAlive (w : Workspace) (tag : Nat) : Bool :=
  w.names.any (·.2 == tag) || w.handles.any fun (_, h) => h.store? == some tag

/-- Drops the stores that nothing keeps alive. -/
def dropStores (w : Workspace) : Workspace :=
  { w with stores := w.stores.filter fun s => w.isAlive s.tag }

/-- Adds a store under a name; a store that had the name loses it. -/
def addStore (w : Workspace) (name : String) (config : StoreConfig) : Workspace :=
  dropStores
    { w with
      stores := { tag := w.made, config } :: w.stores
      names := (name, w.made) :: w.names.filter fun entry => entry.1 != name
      made := w.made + 1 }

/-- Puts a store in the place of the one with its tag. -/
def putStore (w : Workspace) (store : Store) : Workspace :=
  { w with stores := w.stores.map fun s => if s.tag = store.tag then store else s }

/-- The handle with a name. -/
def handle? (w : Workspace) (name : String) : Option Handle := w.handles.lookup name

/-- Holds something under a name, in the place of what was held there. -/
def hold (w : Workspace) (name : String) (handle : Handle) : Workspace :=
  dropStores
    { w with handles := (name, handle) :: w.handles.filter fun entry => entry.1 != name }

/-- Lets go of what is held under a name; tells whether there was anything. A builder that must not
be given up is gone all the same. -/
def release (w : Workspace) (name : String) : Except Fault Bool × Workspace :=
  ((w.handle? name).elim (.ok false) fun handle => handle.drop.map fun _ => true,
    dropStores { w with handles := w.handles.filter fun entry => entry.1 != name })

/-- What is reached from a handle by walking down slots. -/
def resolve? (w : Workspace) (name : String) (path : List Nat) : Option Handle :=
  (w.handle? name).bind fun h => h.descend? path

/-- Runs an action on the store with a tag. -/
def run {α : Type} (w : Workspace) (store : Store) (act : Alloc α) : Except Fault α × Workspace :=
  let (outcome, store) := act.run store
  (outcome, w.putStore store)

/-- The trees of all that is held. -/
def trees (w : Workspace) : List Green := w.handles.flatMap fun (_, h) => h.trees

/-- The trees that keep elements of a store in use: those of the handles, and those that other
stores share. -/
def outside (w : Workspace) (tag : Nat) : List Green :=
  w.trees ++ (w.stores.filter fun s => s.tag != tag).flatMap Store.held

/-- Collects a store; tells how many entries were dropped. -/
def collect (w : Workspace) (store : Store) : Nat × Workspace :=
  let (dropped, store) := store.collect (w.outside store.tag)
  (dropped, w.putStore store)

/-- Collects a store if it has grown enough; tells how many entries were dropped. -/
def collectIfGrown (w : Workspace) (store : Store) : Nat × Workspace :=
  let (dropped, store) := store.collectIfGrown (w.outside store.tag)
  (dropped, w.putStore store)

end Workspace

end Verbatim
