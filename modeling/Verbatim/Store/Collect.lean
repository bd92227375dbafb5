import Verbatim.Store

/-!
# Collecting what is no longer used

References are counted. An element is alive as long as something refers to it: a tree that is held
outside its store, an entry of a table, or a slot of a node that is alive. An interned text is kept
by the tokens that are alive and spell it. A collection goes over the shared nodes and gives up
those to which nothing but the table refers. That may leave others alone, so it goes over them again
until it finds none; then come the tokens and the texts. What is kept keeps its identity.
-/

namespace Verbatim

/-- The elements in the slots of an element are all that it has besides itself. -/
theorem Green.sumOf_size_children (g : Green) : sumOf size g.children + 1 = g.size := by
  have hslots (slots : List Slot) :
      sumOf size (slots.filterMap fun slot => slot) = sizeSlots slots := by
    induction slots with
    | nil => rfl
    | cons slot slots ih => cases slot <;> simp [sizeSlots, ih]
  cases g with
  | token t => rfl
  | node head slots => rw [children, Green.slots, hslots, size, Nat.add_comm]

/-- The numbers of references to what is alive. -/
structure Counts where
  /-- How many references there are to each element. -/
  elements : Std.HashMap Ident Nat := ∅
  /-- How many tokens spell each text that a store has interned. -/
  texts : Std.HashMap (Nat × String) Nat := ∅

namespace Counts

/-- Number of references to an element. -/
def ofElement (c : Counts) (id : Ident) : Nat := c.elements.getD id 0

/-- Number of tokens that refer to a text of a store. -/
def ofText (c : Counts) (store : Nat) (text : String) : Nat := c.texts.getD (store, text) 0

/-- Sets the number of references to an element. -/
def setElement (c : Counts) (id : Ident) (count : Nat) : Counts :=
  { c with elements := c.elements.insert id count }

/-- Changes the number of references to the text of a token. -/
def updateText (c : Counts) (update : Nat → Nat) : Green → Counts
  | .token t =>
    let count := update (c.ofText t.id.store t.data.text)
    { c with texts := c.texts.insert (t.id.store, t.data.text) count }
  | .node .. => c

/-- Takes one reference to each of some elements. What was not alive before comes to life, and takes
references to what stands in its slots. -/
def hold (c : Counts) (work : List Green) : Counts :=
  match work with
  | [] => c
  | g :: rest =>
    let count := c.ofElement g.id
    let c := c.setElement g.id (count + 1)
    if count = 0 then (c.updateText (· + 1) g).hold (g.children ++ rest) else c.hold rest
termination_by sumOf Green.size work
decreasing_by
  · have := g.sumOf_size_children
    simp only [sumOf_append, sumOf_cons]
    omega
  · have := g.size_pos
    simp only [sumOf_cons]
    omega

/-- Gives up one reference to each of some elements. What loses its last one dies, and gives up its
references to what stands in its slots. -/
def release (c : Counts) (work : List Green) : Counts :=
  match work with
  | [] => c
  | g :: rest =>
    let count := c.ofElement g.id
    let c := c.setElement g.id (count - 1)
    if count = 1 then (c.updateText (· - 1) g).release (g.children ++ rest) else c.release rest
termination_by sumOf Green.size work
decreasing_by
  · have := g.sumOf_size_children
    simp only [sumOf_append, sumOf_cons]
    omega
  · have := g.size_pos
    simp only [sumOf_cons]
    omega

/-- Goes over the entries of a table once, and gives up those to which nothing else refers. Adds the
others to `kept`. -/
def sweepOnce (c : Counts) (kept : List Green) : List Green → List Green × Counts
  | [] => (kept, c)
  | g :: rest =>
    if c.ofElement g.id = 1 then (c.release [g]).sweepOnce kept rest
    else c.sweepOnce (g :: kept) rest

/-- Goes over the entries of a table until none is given up. They are visited in the order that
`visit` gives them. -/
def sweep (visit : List Green → List Green) (entries : List Green) (c : Counts) : Counts :=
  let (kept, c) := c.sweepOnce [] (visit entries)
  if kept.length < entries.length then sweep visit kept c else c
termination_by entries.length

end Counts

namespace Store

/-- Below this many entries a store is never collected on its own account. -/
def minCollected : Nat := 512

/-- The nodes a store shares. -/
def sharedNodes (s : Store) : List Green := s.nodes.toList.map (·.2)

/-- The tokens a store shares. -/
def sharedTokens (s : Store) : List Green := s.tokens.toList.map fun entry => .token entry.2

/-- The elements a store holds on to. -/
def held (s : Store) : List Green := s.sharedNodes ++ s.sharedTokens

/-- The numbers of references when the store has given up every entry to which nothing else refers,
given the trees held outside the store. Tables are visited in the order that `visit` gives their
entries. -/
def settledCounts (visit : List Green → List Green) (outside : List Green) (s : Store) : Counts :=
  let counts := (({} : Counts).hold (outside ++ s.held)).sweep visit s.sharedNodes
  (counts.sweepOnce [] (visit s.sharedTokens)).2

/-- The store with only those entries that are alive. -/
def keepAlive (s : Store) (counts : Counts) : Store :=
  { s with
    nodes := s.nodes.filter fun _ g => counts.ofElement g.id != 0
    tokens := s.tokens.filter fun _ t => counts.ofElement t.id != 0
    texts := s.texts.filter fun text => counts.ofText s.tag text != 0 }

/-- Drops every entry that is not in use, given the trees held outside the store; also tells how
many entries were dropped. Tables are visited in the order that `visit` gives their entries. -/
def collectBy (visit : List Green → List Green) (outside : List Green) (s : Store) : Nat × Store :=
  let kept := s.keepAlive (s.settledCounts visit outside)
  (s.entryCount - kept.entryCount, { kept with survivors := kept.entryCount })

/-- Elements from the one made last to the one made first. A node is younger than what stands in its
slots, so that going over entries in this order gives up everything the first time. -/
def youngestFirst (entries : List Green) : List Green :=
  entries.mergeSort fun a b => b.id.serial ≤ a.id.serial

/-- Drops every entry that is not in use, given the trees held outside the store; also tells how
many entries were dropped. -/
def collect (outside : List Green) (s : Store) : Nat × Store := s.collectBy youngestFirst outside

/-- Collects once the store has grown to more than twice what the last collection left. -/
def collectIfGrown (outside : List Green) (s : Store) : Nat × Store :=
  if s.entryCount ≤ max (2 * s.survivors) minCollected then (0, s) else s.collect outside

end Store

end Verbatim
