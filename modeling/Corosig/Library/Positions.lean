import Mathlib.Data.List.Perm.Basic
import Mathlib.Tactic.Common

namespace Positions

variable {α : Type} {l : List α} {a b : α} {i j : Nat}

theorem perm_eraseIdx (h : l[i]? = some a) : (a :: l.eraseIdx i).Perm l := by
  obtain ⟨hi, rfl⟩ := List.getElem?_eq_some_iff.mp h
  exact List.getElem_cons_eraseIdx_perm hi

theorem perm_set (h : l[i]? = some a) (b : α) : (a :: l.set i b).Perm (b :: l) := by
  induction l generalizing i with
  | nil => cases h
  | cons c l ih =>
    cases i with
    | zero =>
      cases h
      exact List.Perm.swap _ _ _
    | succ i =>
      have hl : (a :: l.set i b).Perm (b :: l) := ih h
      rw [List.set_cons_succ]
      exact (List.Perm.swap c a _).trans ((hl.cons c).trans (List.Perm.swap b c l))

theorem perm_move (hi : l[i]? = some a) (hj : l[j]? = some b) (hne : i ≠ j) (c : α) :
    (a :: (l.set i b).set j c).Perm (c :: l) := by
  have hj' : (l.set i b)[j]? = some b := by rw [List.getElem?_set_ne hne, hj]
  have h1 := (perm_set hj' c).cons a
  have h2 := (perm_set hi b).cons c
  refine List.Perm.cons_inv (a := b) ?_
  refine (List.Perm.swap a b _).trans (h1.trans ?_)
  exact (List.Perm.swap c a _).trans (h2.trans (List.Perm.swap b c l))

end Positions
