import Verbatim.Proofs.Coherence

/-!
# Elements within elements

An element is within another if it is that element, or stands in one of its slots or below. It is in
use if it is within one of the trees that are held. A registry that knows an element knows
everything within it.
-/

namespace Verbatim

namespace Green

/-- Whether an element is `g` itself or holds it somewhere below. -/
inductive Within (g : Green) : Green → Prop where
  | refl : Within g g
  | slot {child parent : Green} : some child ∈ parent.slots → Within g child → Within g parent

theorem mem_children {c g : Green} : c ∈ g.children ↔ some c ∈ g.slots := by simp [children]

namespace Within

variable {a b c : Green}

theorem trans (hab : a.Within b) (hbc : b.Within c) : a.Within c := by
  induction hbc with
  | refl => exact hab
  | slot hslot _ ih => exact .slot hslot ih

theorem of_slot (h : some a ∈ b.slots) : a.Within b := .slot h .refl

/-- An element is at least as large as what is within it. -/
theorem size_le (h : a.Within b) : a.size ≤ b.size := by
  induction h with
  | refl => exact Nat.le_refl _
  | slot hslot _ ih => exact Nat.le_trans ih (Nat.le_of_lt (size_lt_of_mem_slots hslot))

/-- Where nothing stands in the slots, there is nothing below. -/
theorem eq_of_children (h : a.Within b) (hb : b.children = []) : a = b := by
  cases h with
  | refl => rfl
  | slot hslot _ => exact absurd (hb ▸ mem_children.mpr hslot) List.not_mem_nil

end Within

/-- Whether an element is within one of some trees. -/
def InUse (g : Green) (trees : List Green) : Prop := ∃ root ∈ trees, g.Within root

namespace InUse

variable {a b g : Green} {trees more : List Green}

theorem of_mem (h : g ∈ trees) : g.InUse trees := ⟨g, h, .refl⟩

theorem of_within (hb : b.InUse trees) (h : a.Within b) : a.InUse trees := by
  obtain ⟨root, hroot, hb⟩ := hb
  exact ⟨root, hroot, h.trans hb⟩

/-- Trees that are in use make nothing more be in use. -/
theorem trans (hg : g.InUse more) (h : ∀ root ∈ more, root.InUse trees) : g.InUse trees := by
  obtain ⟨root, hroot, hg⟩ := hg
  exact (h root hroot).of_within hg

theorem mono (hg : g.InUse trees) (h : ∀ root ∈ trees, root ∈ more) : g.InUse more :=
  hg.trans fun root hroot => of_mem (h root hroot)

end InUse

end Green

/-- What is known is known with everything within it. -/
theorem Registry.Knows.of_within {r : Registry} {g root : Green} (hroot : r.Knows root)
    (h : g.Within root) : r.Knows g := by
  induction h with
  | refl => exact hroot
  | @slot child parent hslot _ ih =>
    refine ih ?_
    cases parent with
    | token t => cases hslot
    | node head slots => exact r.find_slot hroot hslot

theorem Green.InUse.knows {r : Registry} {g : Green} {trees : List Green} (hg : g.InUse trees)
    (h : ∀ root ∈ trees, r.Knows root) : r.Knows g := by
  obtain ⟨root, hroot, hg⟩ := hg
  exact (h root hroot).of_within hg

end Verbatim
