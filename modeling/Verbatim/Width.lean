import Verbatim.Fault
import Verbatim.Sum

/-!
# Checked byte counts

Byte counts of stored elements are 32-bit. A sum that leaves this range is a fault.
-/

namespace Verbatim.Width

/-- One more than the greatest byte count. -/
def limit : Nat := UInt32.size

/-- Adds two byte counts. -/
def add (a b : Nat) : Except Fault Nat :=
  if a + b < limit then .ok (a + b) else .error .widthOverflow

/-- Adds byte counts from left to right. -/
def sum (widths : List Nat) : Except Fault Nat := widths.foldlM add 0

/-- A sum that succeeds is the true sum, and it fits. -/
theorem add_eq_ok_iff {a b c : Nat} : add a b = .ok c ↔ a + b = c ∧ c < limit := by
  unfold add
  split
  · simp only [Except.ok.injEq]
    omega
  · simp only [reduceCtorEq, false_iff, not_and]
    omega

/-- Summing from any start succeeds exactly when the true total fits. -/
theorem foldlM_add_eq_ok_iff {start total : Nat} (hs : start < limit) (widths : List Nat) :
    widths.foldlM add start = .ok total ↔ start + sumOf id widths = total ∧ total < limit := by
  induction widths generalizing start with
  | nil =>
    simp only [List.foldlM_nil, sumOf_nil, Nat.add_zero]
    change Except.ok start = Except.ok total ↔ _
    simp only [Except.ok.injEq]
    omega
  | cons w ws ih =>
    rw [List.foldlM_cons, sumOf_cons, id_eq]
    by_cases h : start + w < limit
    · have ha : add start w = .ok (start + w) := add_eq_ok_iff.mpr ⟨rfl, h⟩
      rw [ha]
      change ws.foldlM add (start + w) = .ok total ↔ _
      rw [ih h, Nat.add_assoc]
    · have ha : add start w = .error .widthOverflow := if_neg h
      rw [ha]
      change Except.error Fault.widthOverflow = Except.ok total ↔ _
      simp only [reduceCtorEq, false_iff, not_and]
      omega

/-- Checked summing succeeds exactly when the true total fits. -/
theorem sum_eq_ok_iff {widths : List Nat} {total : Nat} :
    sum widths = .ok total ↔ sumOf id widths = total ∧ total < limit := by
  have h := @foldlM_add_eq_ok_iff 0 total (by decide) widths
  simpa [sum] using h

end Verbatim.Width
