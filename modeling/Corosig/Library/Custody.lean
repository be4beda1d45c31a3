import Mathlib.Data.List.Nodup
import Mathlib.Data.List.Perm.Basic
import Mathlib.Data.List.Range
import Mathlib.Tactic.Common

namespace Custody

-- Resources are numbered as they are issued; ended lists those given up, once for each time.
structure Book where
  next : Nat := 0
  ended : List Nat := []
  deriving DecidableEq, Repr

def Book.issue (b : Book) : Book := { b with next := b.next + 1 }

def Book.retire (b : Book) (n : Nat) : Book := { b with ended := n :: b.ended }

-- From b to b' the resources held go from l to l': whatever was held or issued on the way is
-- held afterwards or was given up, each exactly once.
def Passes (b b' : Book) (l l' : List Nat) : Prop :=
  b.next ≤ b'.next ∧ ∃ gone, b'.ended = gone ++ b.ended ∧
    (l' ++ gone).Perm (l ++ List.range' b.next (b'.next - b.next))

variable {b b' b'' : Book} {l l' l'' : List Nat} {n : Nat}

theorem passes_of_perm (h : l.Perm l') : Passes b b l l' :=
  ⟨Nat.le_refl _, [], rfl, by simpa using h.symm⟩

theorem passes_refl (b : Book) (l : List Nat) : Passes b b l l := passes_of_perm (.refl l)

theorem passes_issue (b : Book) (l : List Nat) : Passes b b.issue l (b.next :: l) := by
  refine ⟨Nat.le_succ _, [], rfl, ?_⟩
  simp [Book.issue, List.perm_append_singleton b.next l |>.symm]

theorem passes_retire (b : Book) (n : Nat) (l : List Nat) : Passes b (b.retire n) (n :: l) l :=
  ⟨Nat.le_refl _, [n], rfl, by simp [Book.retire]⟩

theorem Passes.trans (h : Passes b b' l l') (h' : Passes b' b'' l' l'') : Passes b b'' l l'' := by
  obtain ⟨hle, gone, hg, hp⟩ := h
  obtain ⟨hle', gone', hg', hp'⟩ := h'
  refine ⟨hle.trans hle', gone' ++ gone, by rw [hg', hg, List.append_assoc], ?_⟩
  have hrange : List.range' b.next (b''.next - b.next) =
      List.range' b.next (b'.next - b.next) ++ List.range' b'.next (b''.next - b'.next) := by
    have h1 : b'.next = b.next + (b'.next - b.next) := by omega
    have h2 : b''.next - b.next = (b'.next - b.next) + (b''.next - b'.next) := by omega
    rw [h2, ← List.range'_append_1, ← h1]
  rw [hrange, ← List.append_assoc, ← List.append_assoc]
  have hp₁ := hp'.append_right gone
  have hp₂ := hp.append_right (List.range' b'.next (b''.next - b'.next))
  refine hp₁.trans (List.Perm.trans ?_ hp₂)
  rw [List.append_assoc, List.append_assoc]
  exact List.perm_append_comm.append_left l'

theorem Passes.perm (h : Passes b b' l l') (h₁ : l''.Perm l) {l₂ : List Nat} (h₂ : l'.Perm l₂) :
    Passes b b' l'' l₂ :=
  ((passes_of_perm h₁).trans h).trans (passes_of_perm h₂)

theorem Passes.partition (h : Passes {} b [] l) : (l ++ b.ended).Perm (List.range b.next) := by
  obtain ⟨-, gone, hg, hp⟩ := h
  rw [hg, List.append_nil]
  simpa [List.range_eq_range'] using hp

end Custody
