import Verbatim.Edit
import Verbatim.Parse
import Verbatim.Workspace

/-!
# Calls

A call is one thing that can be asked of a store: to make an element, to edit one, to parse a text,
or to take a step in building a tree. What a call is about is left open, so that elements, views and
builders can be given as they are, or by something that tells where to find them.
-/

namespace Verbatim

/-- A call about elements, views and builders of the given types. -/
inductive Call (ε ν β : Type) where
  /-- A token with the given content. -/
  | token (data : TokenData)
  /-- A present token spelled the only way its kind can be. -/
  | punctuation (kind : Kind)
  /-- A placeholder for a required token. -/
  | missingToken (kind : Kind)
  /-- A placeholder for a required node. -/
  | missingNode (kind : Kind)
  /-- A placeholder of whichever sort the kind is. -/
  | missing (kind : Kind)
  /-- A present node. -/
  | node (kind : Kind) (slots : List (Option ε))
  /-- A node around elements that fit no slot. -/
  | unexpected (elements : List ε)
  /-- An element with one slot replaced. -/
  | replaceSlot (element : ε) (index : Nat) (slot : Option ε)
  /-- An element with a range of slots replaced. -/
  | spliceSlots (element : ε) (start stop : Nat) (replacement : List (Option ε))
  /-- The tree of a text. -/
  | parse (text : String)
  /-- A tree with one slot of a view in it replaced. -/
  | replaceChild (view : ν) (index : Nat) (slot : Option ε)
  /-- A tree with another element in the place of a view. -/
  | replaceWith (view : ν) (element : ε)
  /-- A builder that has taken no step. -/
  | build
  /-- One step of a builder. -/
  | step (builder : β) (step : BuildStep)
  /-- The tree that a builder has finished. -/
  | finish (builder : β)

namespace Call

/-- Does what is called for. -/
def act : Call Green View Builder → Alloc Handle
  | token data => return .green (.token (← Alloc.makeToken data))
  | punctuation kind => return .green (.token (← Alloc.punctuation kind))
  | missingToken kind => return .green (.token (← Alloc.missingToken kind))
  | missingNode kind => .green <$> Alloc.missingNode kind
  | missing kind => .green <$> Alloc.missing kind
  | node kind slots => .green <$> Alloc.makeNode kind slots
  | unexpected elements => .green <$> Alloc.unexpected elements
  | replaceSlot g index slot => .green <$> g.replaceSlot index slot
  | spliceSlots g start stop replacement => .green <$> g.spliceSlots start stop replacement
  | parse text => .view <$> Verbatim.parse text
  | replaceChild v index slot => .view <$> v.replaceSlot index slot
  | replaceWith v g => .view <$> v.replaceWith g
  | build => return .builder (← get).tag {}
  | step b s => do return .builder (← get).tag (← b.step s)
  | finish b => .green <$> ofExcept b.root

/-- Gives what a call is about in another way. -/
def map {ε ν β ε' ν' β' : Type} (f : ε → ε') (g : ν → ν') (h : β → β') :
    Call ε ν β → Call ε' ν' β'
  | token data => token data
  | punctuation kind => punctuation kind
  | missingToken kind => missingToken kind
  | missingNode kind => missingNode kind
  | missing kind => missing kind
  | node kind slots => node kind (slots.map (Option.map f))
  | unexpected elements => unexpected (elements.map f)
  | replaceSlot e index slot => replaceSlot (f e) index (slot.map f)
  | spliceSlots e start stop replacement =>
    spliceSlots (f e) start stop (replacement.map (Option.map f))
  | parse text => parse text
  | replaceChild v index slot => replaceChild (g v) index (slot.map f)
  | replaceWith v e => replaceWith (g v) (f e)
  | build => build
  | step b s => step (h b) s
  | finish b => finish (h b)

/-- The trees that a call is about. -/
def trees : Call Green View Builder → List Green
  | token _ | punctuation _ | missingToken _ | missingNode _ | missing _ | parse _ | build => []
  | node _ slots => slots.filterMap fun slot => slot
  | unexpected elements => elements
  | replaceSlot g _ slot => g :: slot.toList
  | spliceSlots g _ _ replacement => g :: replacement.filterMap fun slot => slot
  | replaceChild v _ slot => v.ancestors.map View.green ++ slot.toList
  | replaceWith v g => v.ancestors.map View.green ++ [g]
  | step b _ | finish b => b.elements

end Call

namespace Workspace

/-- Makes a call in a store. What comes out is held under a name, if there is one for it. -/
def perform (w : Workspace) (store : Store) (call : Call Green View Builder)
    (name? : Option String) : Except Fault Handle × Workspace :=
  match w.run store call.act with
  | (.ok handle, w) => (.ok handle, name?.elim w fun name => w.hold name handle)
  | (.error fault, w) => (.error fault, w)

end Workspace

end Verbatim
