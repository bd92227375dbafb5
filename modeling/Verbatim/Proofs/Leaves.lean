import Verbatim.Proofs.Building
import Verbatim.Proofs.Walking

/-!
# The tokens of a tree

The tokens of a tree are collected with a list of slots still to be visited, and again by a walk.
Both give the leaves of the tree from left to right. The leaves of what is built from a sketch are
the tokens that were read, with placeholders without text in between.
-/

namespace Verbatim

namespace Green

mutual
/-- The tokens of a tree from left to right. -/
def leaves : Green → List GreenToken
  | token t => [t]
  | node _ slots => leavesOf slots
/-- The tokens of some slots from left to right. -/
def leavesOf : List Slot → List GreenToken
  | [] => []
  | none :: rest => leavesOf rest
  | some g :: rest => g.leaves ++ leavesOf rest
end

theorem leavesOf_append (a b : List Slot) : leavesOf (a ++ b) = leavesOf a ++ leavesOf b := by
  induction a with
  | nil => rfl
  | cons s a ih =>
    cases s with
    | none => exact ih
    | some g => simp [leavesOf, ih]

theorem leavesOf_replicate_none (n : Nat) : leavesOf (List.replicate n none) = [] := by
  induction n with
  | zero => rfl
  | succ n ih => exact ih

/-- Opening nodes in place finds the leaves. -/
theorem toList_pendingTokens (work : List Slot) (found : Array GreenToken) :
    (pendingTokens work found).toList = found.toList ++ leavesOf work := by
  fun_induction pendingTokens work found with
  | case1 found => simp [leavesOf]
  | case2 found rest ih => rw [ih, leavesOf]
  | case3 found t rest ih => simp [ih, leavesOf, leaves]
  | case4 found head slots rest ih => rw [ih, leavesOf_append, leavesOf, leaves]

theorem tokens_eq (g : Green) : g.tokens = g.leaves := by
  simp [tokens, toList_pendingTokens, leavesOf]

/-- The text of a tree is the texts of its leaves, one after another. -/
theorem text_eq_join (g : Green) : g.text = String.join (g.leaves.map fun t => t.data.text) := by
  rw [text, tokens_eq, String.join, List.foldl_map]

end Green

namespace View

mutual
/-- The tokens that a traversal enters are the leaves. -/
theorem filter_entriesAt (v : View) : ∀ g, v.green = g →
    ((entriesAt (fun _ => false) v g).filter fun d => !d.isNode).map green =
      g.leaves.map Green.token
  | .token t, hg => by
    simp [entriesAt, Green.leaves, isNode, hg, Green.isNode]
  | .node head slots, hg => by
    have hslots := filter_entriesIn v 0 v.offset slots
    simpa [entriesAt, Green.leaves, isNode, hg, Green.isNode] using hslots
theorem filter_entriesIn (parent : View) (index offset : Nat) : ∀ slots,
    ((entriesIn (fun _ => false) parent index offset slots).filter fun d => !d.isNode).map green =
      (Green.leavesOf slots).map Green.token
  | [] => rfl
  | none :: rest => by
    rw [entriesIn, Green.leavesOf]
    exact filter_entriesIn parent (index + 1) offset rest
  | some g :: rest => by
    rw [entriesIn, Green.leavesOf, List.filter_append, List.map_append, List.map_append,
      filter_entriesAt (.child parent index offset g) g rfl,
      filter_entriesIn parent (index + 1) (offset + g.width) rest]
end

/-- Walking over a view finds the same tokens as opening its nodes in place. -/
theorem map_green_tokens (v : View) : v.tokens.map green = v.green.tokens.map Green.token := by
  rw [tokens, descendants_eq, filter_entriesAt v v.green rfl, Green.tokens_eq]

end View

namespace Sketch

/-- What a store keeps of a placeholder for a token. -/
def placeholder (kind : Kind) : TokenData := ⟨kind, .missing, "", [], []⟩

mutual
/-- What a store keeps of the tokens of a slot, from left to right. -/
def leaves : Sketch → List TokenData
  | token t => [t.stored]
  | missing kind => if kind.isToken then [placeholder kind] else []
  | absent => []
  | node _ _ slots => leavesOf slots
/-- What a store keeps of the tokens of some slots. -/
def leavesOf : List Sketch → List TokenData
  | [] => []
  | s :: rest => s.leaves ++ leavesOf rest
end

/-- Slots that hold what sketches show hold their tokens. -/
theorem BuiltAll.leaves_eq {slots : List Sketch} {built : List Slot} (h : BuiltAll slots built)
    (hslots : ∀ s ∈ slots, ∀ slot, s.Built slot →
      (Green.leavesOf [slot]).map GreenToken.data = s.leaves) :
    (Green.leavesOf built).map GreenToken.data = leavesOf slots := by
  induction slots generalizing built with
  | nil =>
    obtain rfl := h
    rfl
  | cons s slots ih =>
    obtain ⟨slot, rest, rfl, hs, hrest⟩ := h
    have htail := ih hrest fun t ht => hslots t (List.mem_cons_of_mem _ ht)
    rw [leavesOf, ← htail, ← hslots s List.mem_cons_self slot hs, ← List.map_append,
      ← Green.leavesOf_append, List.singleton_append]

/-- A slot that holds what a sketch shows holds its tokens. -/
theorem Built.leaves_eq {s : Sketch} {slot : Slot} (h : s.Built slot) :
    (Green.leavesOf [slot]).map GreenToken.data = s.leaves := by
  induction s using Sketch.induct generalizing slot with
  | token t =>
    obtain ⟨g, rfl, hg⟩ := h
    simp [Green.leavesOf, Green.leaves, hg, leaves]
  | missing kind =>
    simp only [Built] at h
    split at h
    · next hkind =>
      obtain ⟨g, rfl, hg⟩ := h
      simp [Green.leavesOf, Green.leaves, hg, leaves, hkind, placeholder]
    · next hkind =>
      obtain ⟨id, rfl⟩ := h
      simp [Green.leavesOf, Green.leaves, Green.leavesOf_replicate_none, leaves, hkind]
  | absent =>
    obtain rfl := h
    rfl
  | node kind late slots ih =>
    obtain ⟨id, built, rfl, hbuilt⟩ := h
    have hleaves := hbuilt.leaves_eq fun s hs slot => ih s hs
    simpa [Green.leavesOf, Green.leaves, leaves] using hleaves

end Sketch

end Verbatim
