/-!
# Sums over lists

Bytes, columns and visits are counted by adding up a number for each member of a list.
-/

namespace Verbatim

variable {α β : Type}

/-- Sum of what `f` gives for the members of a list. -/
def sumOf (f : α → Nat) (as : List α) : Nat := as.foldr (fun a n => f a + n) 0

@[simp] theorem sumOf_nil (f : α → Nat) : sumOf f [] = 0 := rfl

@[simp] theorem sumOf_cons (f : α → Nat) (a : α) (as : List α) :
    sumOf f (a :: as) = f a + sumOf f as := rfl

@[simp] theorem sumOf_append (f : α → Nat) (as bs : List α) :
    sumOf f (as ++ bs) = sumOf f as + sumOf f bs := by
  induction as with
  | nil => simp
  | cons a as ih => simp [ih, Nat.add_assoc]

@[simp] theorem sumOf_map (f : β → Nat) (g : α → β) (as : List α) :
    sumOf f (as.map g) = sumOf (fun a => f (g a)) as := by
  induction as with
  | nil => rfl
  | cons a as ih => simp [ih]

@[simp] theorem sumOf_replicate (f : α → Nat) (n : Nat) (a : α) :
    sumOf f (List.replicate n a) = n * f a := by
  induction n with
  | zero => simp
  | succ n ih => rw [List.replicate_succ, sumOf_cons, ih, Nat.succ_mul, Nat.add_comm]

theorem le_sumOf_of_mem (f : α → Nat) {a : α} {as : List α} (h : a ∈ as) : f a ≤ sumOf f as := by
  obtain ⟨before, after, rfl⟩ := List.append_of_mem h
  simp only [sumOf_append, sumOf_cons]
  omega

theorem exists_of_sumOf_pos {f : α → Nat} {as : List α} (h : 0 < sumOf f as) :
    ∃ a ∈ as, 0 < f a := by
  induction as with
  | nil => exact absurd h (Nat.lt_irrefl 0)
  | cons a as ih =>
    by_cases ha : 0 < f a
    · exact ⟨a, List.mem_cons_self, ha⟩
    · rw [sumOf_cons] at h
      obtain ⟨b, hb, hpos⟩ := ih (by omega)
      exact ⟨b, List.mem_cons_of_mem _ hb, hpos⟩

end Verbatim
