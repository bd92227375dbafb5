import Verbatim.Proofs.Histories
import Verbatim.Proofs.Placing

/-!
# Scenes

A scene is what calls have made, one after another, in one store. All of it is held. Whatever is in
use may be called for, and the workspace of a scene can be reached. Trees whose elements are
numbered tell the calls by which they are made, and whether just these trees are made can be
computed. So a scene shows that they can be in use.
-/

namespace Verbatim

/-- A store and what was made in it, the last first. -/
structure Scene where
  /-- The store that everything was made in. -/
  store : Store := { tag := 0, config := ⟨0, false⟩ }
  /-- What was made. -/
  handles : List Handle := []

namespace Scene

section Trees

/-- A token without trivia. -/
def word (serial : Nat) (kind : Kind) (text : String) : Green :=
  .token ⟨⟨0, serial⟩, ⟨kind, .present, text, [], []⟩⟩

/-- A token that ends with a space. -/
def spaced (serial : Nat) (kind : Kind) (text : String) : Green :=
  .token ⟨⟨0, serial⟩, ⟨kind, .present, text, [], [⟨.whitespace, 1⟩]⟩⟩

/-- A placeholder for a token. -/
def gap (serial : Nat) (kind : Kind) : Green :=
  .token ⟨⟨0, serial⟩, ⟨kind, .missing, "", [], []⟩⟩

/-- A placeholder for a node. -/
def hole (serial : Nat) (kind : Kind) : Green :=
  .node ⟨⟨0, serial⟩, kind, .missing, 0, true⟩ (List.replicate kind.slotSpecs.length none)

/-- A present node. -/
def branch (serial : Nat) (kind : Kind) (slots : List Slot) : Green :=
  .node ⟨⟨0, serial⟩, kind, .present, Green.slotsWidth slots,
    kind == .unexpected || slots.any fun slot => slot.any Green.hasError⟩ slots

mutual
/-- The elements of a tree, each after what stands in its slots. -/
def parts : Green → List Green
  | .token t => [.token t]
  | .node head slots => partsOf slots ++ [.node head slots]
/-- The elements that stand in some slots or below. -/
def partsOf : List Slot → List Green
  | [] => []
  | none :: rest => partsOf rest
  | some g :: rest => parts g ++ partsOf rest
end

/-- The elements of some trees in the order of their numbers, those with the same number once. -/
def numbered (trees : List Green) : List Green :=
  let all := trees.flatMap parts
  (List.range (all.foldl (fun count g => max count (g.id.serial + 1)) 0)).filterMap fun n =>
    all.find? fun g => g.id.serial == n

/-- A keyword as an item that fits nowhere. -/
def strayItem : Green := branch 1 .unexpected [some (word 0 .letKw "let")]

/-- A list of one item that fits nowhere. -/
def strayItems : Green := branch 2 .itemList [some strayItem]

/-- A file with one item that fits nowhere. -/
def strayFile : Green := branch 4 .sourceFile [some strayItems, some (word 3 .eof "")]

end Trees

/-- Holds handles under different names. -/
def entries : List Handle → List (String × Handle)
  | [] => []
  | handle :: earlier =>
    (String.ofList (List.replicate earlier.length '+'), handle) :: entries earlier

/-- The workspace in which all of a scene is held. -/
def workspace (c : Scene) : Workspace :=
  { stores := [c.store]
    names := [("store", c.store.tag)]
    made := 1
    handles := entries c.handles }

/-- The trees that are held. -/
def trees (c : Scene) : List Green := c.handles.flatMap Handle.trees

/-- The element that was made after so many others. -/
def element? (c : Scene) (n : Nat) : Option Green := c.handles.reverse[n]?.bind Handle.element?

/-- Makes a call; what comes out is held. -/
def perform (c : Scene) (call : Call Green View Builder) : Scene :=
  match call.act c.store with
  | (.ok handle, s) => ⟨s, handle :: c.handles⟩
  | (.error _, s) => ⟨s, c.handles⟩

/-- The call for an element like a given one, of what was made under the numbers of its children. -/
def callFor (c : Scene) : Green → Call Green View Builder
  | .token t => .token t.data
  | .node head slots =>
    match head.presence with
    | .missing => .missingNode head.kind
    | .present => .node head.kind (slots.map fun slot => slot.bind fun x => c.element? x.id.serial)

/-- The scene in which elements like the given ones were called for in order. -/
def calling (elements : List Green) : Scene :=
  elements.foldl (fun c g => c.perform (c.callFor g)) {}

/-- The scene in which the elements of some trees and no others were made, in a store that shares
nothing with slots. -/
def ofTrees (trees : List Green) : Scene :=
  ⟨{ tag := 0, config := ⟨0, false⟩, issued := (numbered trees).length },
    (numbered trees).reverse.map .green⟩

variable {c : Scene} {call : Call Green View Builder} {handle : Handle} {s : Store} {g : Green}

theorem mem_parts_self (g : Green) : g ∈ parts g := by
  cases g with
  | token t => exact List.mem_singleton.mpr rfl
  | node head slots => exact List.mem_append_right _ (List.mem_singleton.mpr rfl)

theorem mem_partsOf {x child : Green} {slots : List Slot} (hchild : some child ∈ slots)
    (hx : x ∈ parts child) : x ∈ partsOf slots := by
  induction slots with
  | nil => cases hchild
  | cons slot rest ih =>
    cases slot with
    | none => exact ih (List.mem_of_ne_of_mem (by simp) hchild)
    | some y =>
      rcases List.mem_cons.mp hchild with heq | hchild
      · exact List.mem_append_left _ (Option.some.inj heq ▸ hx)
      · exact List.mem_append_right _ (ih hchild)

/-- What holds of all elements of a tree holds of everything within it. -/
theorem of_within {p : Green → Bool} (h : (parts g).all p = true) {x : Green} (hx : x.Within g) :
    p x = true := by
  refine List.all_eq_true.mp h x ?_
  clear h
  induction hx with
  | refl => exact mem_parts_self x
  | @slot child parent hslot _ ih =>
    cases parent with
    | token t => cases hslot
    | node head slots => exact List.mem_append_left _ (mem_partsOf hslot ih)

theorem length_of_mem_entries {handles : List Handle} {entry : String × Handle}
    (h : entry ∈ entries handles) : entry.1.length < handles.length := by
  induction handles with
  | nil => cases h
  | cons handle earlier ih =>
    rcases List.mem_cons.mp h with rfl | h
    · simp
    · exact Nat.lt_succ_of_lt (ih h)

theorem trees_workspace (c : Scene) : c.workspace.trees = c.trees := by
  have hentries (handles : List Handle) :
      (entries handles).flatMap (fun entry => entry.2.trees) = handles.flatMap Handle.trees := by
    induction handles with
    | nil => rfl
    | cons handle earlier ih => simp [entries, ih]
  exact hentries c.handles

theorem perform_of_ok (h : call.act c.store = (.ok handle, s)) :
    c.perform call = ⟨s, handle :: c.handles⟩ := by
  rw [perform, h]

/-- What a scene holds is in use in its workspace. -/
theorem live_of_mem (h : g ∈ c.trees) : c.workspace.Live g :=
  .of_mem (List.mem_append_left _ (c.trees_workspace ▸ h))

theorem store_mem (c : Scene) : c.store ∈ c.workspace.stores := List.mem_cons_self

theorem mem_trees_of_element? {n : Nat} (h : c.element? n = some g) : g ∈ c.trees := by
  obtain ⟨handle, hhandle, helement⟩ := Option.bind_eq_some_iff.mp h
  have hmem : handle ∈ c.handles := List.mem_reverse.mp (List.mem_of_getElem? hhandle)
  refine List.mem_flatMap.mpr ⟨handle, hmem, ?_⟩
  cases handle with
  | green x => exact List.mem_singleton.mpr (Option.some.inj helement).symm
  | view v =>
    rw [← Option.some.inj helement]
    cases v <;> exact List.mem_cons_self
  | builder tag b => cases helement

/-- A call about what is in use leads from a workspace that can be reached to another. -/
theorem reachable_perform (hc : c.workspace.Reachable)
    (hcall : ∀ g ∈ call.trees, g.InUse c.trees) : (c.perform call).workspace.Reachable := by
  rw [← trees_workspace] at hcall
  obtain ⟨r, hsound⟩ := hc.exists_sound
  have hs : c.store ∈ c.workspace.stores := List.mem_cons_self
  have hput {t : Store} (htag : t.tag = c.store.tag) :
      c.workspace.putStore t = workspace ⟨t, c.handles⟩ := by
    simp [workspace, Workspace.putStore, htag]
  obtain ⟨f, hf, ⟨fault, hact⟩ | ⟨handle, hact, -⟩⟩ := hsound.exists_outcome hs hcall
  · have hstep := hc.step (.call none hs hcall)
    rw [Workspace.perform_eq_of_error hact, hput hf.tag_eq] at hstep
    rwa [perform, hact]
  · -- the name is longer than those in use, so nothing that is held gives way
    let name := String.ofList (List.replicate c.handles.length '+')
    have hfilter : (entries c.handles).filter (fun entry => entry.1 != name) =
        entries c.handles := by
      refine List.filter_eq_self.mpr fun entry hentry => bne_iff_ne.mpr fun hname => ?_
      have hlength := length_of_mem_entries hentry
      simp [hname, name] at hlength
    have hhold := hc.perform_ok hs hcall hact (some name)
    rw [Option.elim_some, hput hf.tag_eq, Workspace.hold] at hhold
    rw [perform_of_ok hact]
    simpa [Workspace.dropStores, Workspace.isAlive, workspace, hfilter, entries] using hhold

/-- The workspace can be reached in which what one more call gave is held as well. -/
theorem reachable_of_ok (hc : c.workspace.Reachable) (call : Call Green View Builder)
    (hcall : ∀ g ∈ call.trees, g.InUse c.trees) (hact : call.act c.store = (.ok handle, s)) :
    (workspace ⟨s, handle :: c.handles⟩).Reachable :=
  perform_of_ok hact ▸ reachable_perform hc hcall

/-- What comes out of a call can be in use. -/
theorem exists_live_of_ok (hc : c.workspace.Reachable) (call : Call Green View Builder)
    (hcall : ∀ g ∈ call.trees, g.InUse c.trees) (hact : call.act c.store = (.ok (.green g), s)) :
    ∃ w : Workspace, w.Reachable ∧ w.Live g :=
  ⟨_, reachable_of_ok hc call hcall hact, live_of_mem List.mem_cons_self⟩

theorem inUse_of_mem_trees_callFor (c : Scene) (x : Green) :
    ∀ g ∈ (c.callFor x).trees, g.InUse c.trees := by
  intro g hg
  cases x with
  | token t => cases hg
  | node head slots =>
    obtain ⟨id, kind, presence, width, hasError⟩ := head
    cases presence with
    | missing => cases hg
    | present =>
      obtain ⟨slot, hslot, rfl⟩ := List.mem_filterMap.mp hg
      obtain ⟨place, -, hplace⟩ := List.mem_map.mp hslot
      obtain ⟨y, -, hy⟩ := Option.bind_eq_some_iff.mp hplace
      exact .of_mem (mem_trees_of_element? hy)

/-- Whatever is called for in turn, the workspace of the scene can be reached. -/
theorem reachable_calling (elements : List Green) : (calling elements).workspace.Reachable := by
  have hall (c : Scene) (hc : c.workspace.Reachable) :
      (elements.foldl (fun c g => c.perform (c.callFor g)) c).workspace.Reachable := by
    induction elements generalizing c with
    | nil => exact hc
    | cons x elements ih =>
      exact ih _ (reachable_perform hc (c.inUse_of_mem_trees_callFor x))
  exact hall {} (.ofStore "store" ⟨0, false⟩)

/-- Trees that come out when their elements are called for can be held. -/
theorem reachable_ofTrees {trees : List Green} (h : calling (numbered trees) = ofTrees trees) :
    (ofTrees trees).workspace.Reachable :=
  h ▸ reachable_calling (numbered trees)

/-- What is found in a scene under its own number is in use. -/
theorem live_of_found (h : c.element? g.id.serial = some g) : c.workspace.Live g :=
  live_of_mem (mem_trees_of_element? h)

/-- The tree of a view that comes out of a call is in use. -/
theorem live_top (s : Store) (u : View) (handles : List Handle) :
    (workspace ⟨s, .view u :: handles⟩).Live u.top.green :=
  live_of_mem (List.mem_append_left _ (List.mem_map_of_mem u.top_mem_ancestors))

/-- Trees that are found under their numbers are in use. -/
theorem inUse_of_found {trees : List Green}
    (h : trees.map (fun g => c.element? g.id.serial) = trees.map some) :
    ∀ g ∈ trees, g.InUse c.trees := by
  intro g hg
  obtain ⟨i, hi⟩ := List.getElem?_of_mem hg
  have hfound := congrArg (·[i]?) h
  simp only [List.getElem?_map, hi, Option.map_some, Option.some.injEq] at hfound
  exact .of_mem (mem_trees_of_element? hfound)

end Scene

end Verbatim
