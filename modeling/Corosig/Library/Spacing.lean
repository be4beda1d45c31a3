import Mathlib.Algebra.Order.Ring.Int
import Mathlib.Data.List.Basic
import Mathlib.Tactic.Linarith

namespace Spacing

variable {gap a b t : Int} {times : List Int}

def Spaced (gap : Int) (times : List Int) : Prop := times.Pairwise fun s t => s + gap ≤ t

theorem Spaced.concat (h : Spaced gap times) (ht : ∀ s ∈ times, s + gap ≤ t) :
    Spaced gap (times ++ [t]) :=
  List.pairwise_append.mpr ⟨h, List.pairwise_singleton _ _, fun s hs _ ht' =>
    List.mem_singleton.mp ht' ▸ ht s hs⟩

theorem Spaced.within (h : Spaced gap times) (hab : a ≤ b + gap)
    (hmem : ∀ t ∈ times, a ≤ t ∧ t ≤ b) : times.length * gap ≤ b - a + gap := by
  induction times generalizing a with
  | nil =>
    simp only [List.length_nil, Nat.cast_zero, zero_mul]
    omega
  | cons t times ih =>
    obtain ⟨ht, htimes⟩ := List.pairwise_cons.mp h
    obtain ⟨hat, htb⟩ := hmem t List.mem_cons_self
    have hrest : times.length * gap ≤ b - (t + gap) + gap :=
      ih htimes (by omega) fun s hs => ⟨ht s hs, (hmem s (List.mem_cons_of_mem t hs)).2⟩
    rw [List.length_cons, Nat.cast_succ, add_mul, one_mul]
    omega

theorem Spaced.window (h : Spaced gap times) (hgap : 0 ≤ gap) (hab : a ≤ b) :
    (times.filter fun t => a ≤ t ∧ t ≤ b).length * gap ≤ b - a + gap :=
  Spaced.within (h.filter _) (by omega) fun t ht => by simpa using (List.mem_filter.mp ht).2

end Spacing
