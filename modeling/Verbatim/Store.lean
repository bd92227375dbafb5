import Std.Data.HashMap
import Std.Data.HashSet
import Verbatim.Green
import Verbatim.Layout
import Verbatim.Width

/-!
# Stores

A store makes green elements and remembers them. It interns texts and shares tokens and small nodes:
asking again for equal content gives back the element made before. A node is looked up by the
identities of its children, so a look-up never goes deeper than one level.

Making an element is an action on the store that may fail. What an action did to the store before it
failed stays done.
-/

namespace Verbatim

/-- What a store shares. -/
structure StoreConfig where
  /-- Nodes with more slots than this are never shared. -/
  maxSharedSlots : Nat := 3
  /-- Whether texts are interned and tokens shared. -/
  sharesTokens : Bool := true
  deriving DecidableEq, Repr

/-- What two nodes must agree in to be shared. -/
structure NodeKey where
  /-- What the node is. -/
  kind : Kind
  /-- Whether it was read or stands in. -/
  presence : Presence
  /-- Which elements its slots hold. -/
  children : List (Option Ident)
  deriving DecidableEq, Hashable

/-- How much a store remembers. -/
structure StoreStats where
  /-- Number of interned texts. -/
  texts : Nat
  /-- Number of shared tokens. -/
  tokens : Nat
  /-- Number of shared nodes. -/
  nodes : Nat
  deriving DecidableEq, Repr

/-- A maker of green elements, with everything it remembers. -/
structure Store where
  /-- The number that tells this store from every other. -/
  tag : Nat
  /-- What it shares. -/
  config : StoreConfig := {}
  /-- How many elements it has made. -/
  issued : Nat := 0
  /-- The interned texts. -/
  texts : Std.HashSet String := ∅
  /-- The shared tokens. -/
  tokens : Std.HashMap TokenData GreenToken := ∅
  /-- The shared nodes. -/
  nodes : Std.HashMap NodeKey Green := ∅
  /-- How many entries the last collection left. -/
  survivors : Nat := 0

/-- An action on a store that may fail; a failed action keeps what it did to the store. -/
abbrev Alloc := ExceptT Fault (StateM Store)

namespace Store

/-- How much the store remembers. -/
def stats (s : Store) : StoreStats := ⟨s.texts.size, s.tokens.size, s.nodes.size⟩

/-- Number of remembered entries of all sorts. -/
def entryCount (s : Store) : Nat := s.texts.size + s.tokens.size + s.nodes.size

/-- The identity the next element will get. -/
def nextIdent (s : Store) : Ident := ⟨s.tag, s.issued⟩

/-- Counts one more element as made. -/
def countIssued (s : Store) : Store := { s with issued := s.issued + 1 }

/-- Remembers a text. -/
def internText (s : Store) (text : String) : Store := { s with texts := s.texts.insert text }

/-- Remembers a token under its content. -/
def rememberToken (s : Store) (t : GreenToken) : Store :=
  { s with tokens := s.tokens.insert t.data t }

/-- Remembers a node under its key. -/
def rememberNode (s : Store) (key : NodeKey) (g : Green) : Store :=
  { s with nodes := s.nodes.insert key g }

/-- A store as it is shown for debugging. -/
def render (s : Store) : String :=
  let stats := s.stats
  s!"Arena \x7b config: ArenaConfig \x7b max_cached_children: {s.config.maxSharedSlots}, " ++
    s!"dedup_tokens: {s.config.sharesTokens} \x7d, stats: ArenaStats \x7b " ++
    s!"interned_strings: {stats.texts}, cached_tokens: {stats.tokens}, " ++
    s!"cached_nodes: {stats.nodes} \x7d \x7d"

end Store

/-- The key under which a node is shared. -/
def NodeKey.ofSlots (kind : Kind) (presence : Presence) (slots : List Slot) : NodeKey :=
  ⟨kind, presence, slots.map fun slot => slot.map Green.id⟩

namespace TokenData

/-- The contract of a token: its trivia fits its text, and a placeholder has no text. -/
def check (d : TokenData) : Except Fault Unit := do
  let trivia ← Width.add d.leadingWidth d.trailingWidth
  unless d.width < Width.limit do throw .textTooLong
  unless trivia ≤ d.width do throw .triviaTooLong
  unless d.presence = .present ∨ d.text.isEmpty do throw .missingWithText

end TokenData

namespace Alloc

/-- A fresh identity. -/
def issue : Alloc Ident := do
  let id := (← get).nextIdent
  modify Store.countIssued
  return id

/-- A new token, shared with nothing. -/
def freshToken (d : TokenData) : Alloc GreenToken := do
  ofExcept d.check
  return ⟨← issue, d⟩

/-- A token with the given content. -/
def makeToken (d : TokenData) : Alloc GreenToken := do
  unless d.kind.isToken do throw (.notTokenKind d.kind)
  let _ ← ofExcept (Width.sum (d.leading.map (·.length)))
  let _ ← ofExcept (Width.sum (d.trailing.map (·.length)))
  if (← get).config.sharesTokens then
    match (← get).tokens[d]? with
    | some t => return t
    | none =>
      modify (·.internText d.text)
      let t ← freshToken d
      modify (·.rememberToken t)
      return t
  else
    freshToken d

/-- A present token without trivia. -/
def plainToken (kind : Kind) (text : String) : Alloc GreenToken :=
  makeToken ⟨kind, .present, text, [], []⟩

/-- A present token spelled the only way its kind can be. -/
def punctuation (kind : Kind) : Alloc GreenToken := do
  match kind.fixedText? with
  | some text => plainToken kind text
  | none => throw (.noFixedText kind)

/-- A placeholder for a required token. -/
def missingToken (kind : Kind) : Alloc GreenToken := makeToken ⟨kind, .missing, "", [], []⟩

/-- A new node, shared with nothing. -/
def freshNode (kind : Kind) (presence : Presence) (slots : List Slot) : Alloc Green := do
  let width ← ofExcept (Width.sum (slots.filterMap fun slot => slot.map Green.width))
  let hasError := presence == .missing || kind == .unexpected ||
    slots.any fun slot => slot.any Green.hasError
  return .node ⟨← issue, kind, presence, width, hasError⟩ slots

/-- A node with the given slots; small nodes are shared. -/
def allocNode (kind : Kind) (presence : Presence) (slots : List Slot) : Alloc Green := do
  if slots.length > (← get).config.maxSharedSlots then
    freshNode kind presence slots
  else
    let key := NodeKey.ofSlots kind presence slots
    match (← get).nodes[key]? with
    | some g => return g
    | none =>
      let g ← freshNode kind presence slots
      modify (·.rememberNode key g)
      return g

/-- A present node. -/
def makeNode (kind : Kind) (slots : List Slot) : Alloc Green := allocNode kind .present slots

/-- A placeholder for a required node; every slot its layout declares is empty. -/
def missingNode (kind : Kind) : Alloc Green := do
  unless kind.isNode do throw (.notNodeKind kind)
  allocNode kind .missing (List.replicate kind.slotSpecs.length none)

/-- A placeholder of whichever sort the kind is. -/
def missing (kind : Kind) : Alloc Green :=
  if kind.isToken then Green.token <$> missingToken kind else missingNode kind

/-- Wraps elements that fit no slot so that their text survives. -/
def unexpected (elements : List Green) : Alloc Green :=
  makeNode .unexpected (elements.map some)

end Alloc

end Verbatim
