import Verbatim.Store

/-!
# Running actions on a store

An action on a store gives a result or a fault, and a store in either case. These are the ways to
take an action that consists of several apart and to put it together.
-/

namespace Verbatim

namespace Alloc

variable {α β : Type} {x : Alloc α} {f : α → Alloc β} {s t u : Store} {a : α} {b : β}
  {fault : Fault}

theorem bind_eq_of_ok (h : x s = (.ok a, t)) : (x >>= f) s = f a t := by
  change ExceptT.bindCont f (x s).1 (x s).2 = f a t
  rw [h]
  rfl

theorem bind_eq_of_error (h : x s = (.error fault, t)) : (x >>= f) s = (.error fault, t) := by
  change ExceptT.bindCont f (x s).1 (x s).2 = _
  rw [h]
  rfl

theorem map_eq_of_ok {g : α → β} (h : x s = (.ok a, t)) : (g <$> x) s = (.ok (g a), t) := by
  rw [map_eq_pure_bind]
  exact bind_eq_of_ok h

theorem map_eq_of_error {g : α → β} (h : x s = (.error fault, t)) :
    (g <$> x) s = (.error fault, t) := by
  rw [map_eq_pure_bind]
  exact bind_eq_of_error h

/-- An action that succeeds has succeeded in each of its parts. -/
theorem exists_of_bind_eq_ok (h : (x >>= f) s = (.ok b, u)) :
    ∃ a t, x s = (.ok a, t) ∧ f a t = (.ok b, u) := by
  rcases hx : x s with ⟨r, t⟩
  cases r with
  | ok a => exact ⟨a, t, rfl, (bind_eq_of_ok hx).symm.trans h⟩
  | error fault =>
    rw [bind_eq_of_error hx] at h
    cases h

theorem ofExcept_eq_of_ok {r : Except Fault α} (h : r = .ok a) :
    (ofExcept r : Alloc α) s = (.ok a, s) := by
  subst h
  rfl

theorem ofExcept_eq_of_error {r : Except Fault α} (h : r = .error fault) :
    (ofExcept r : Alloc α) s = (.error fault, s) := by
  subst h
  rfl

/-- A checked step that succeeds leaves the store as it is. -/
theorem of_ofExcept_eq_ok {r : Except Fault α} (h : (ofExcept r : Alloc α) s = (.ok a, t)) :
    r = .ok a ∧ t = s := by
  cases r with
  | ok b => cases h; exact ⟨rfl, rfl⟩
  | error fault => cases h

end Alloc

end Verbatim
