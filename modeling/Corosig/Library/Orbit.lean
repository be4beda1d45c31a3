import Mathlib.Data.Fintype.Pigeonhole
import Mathlib.Logic.Function.Iterate
import Mathlib.Logic.Relation
import Mathlib.Tactic.Common

namespace Orbit
open Relation

variable {α ι : Type} {f : α → Option α} {a b c d : α}

def Follows (f : α → Option α) (a b : α) : Prop := f a = some b

def OnCycle (f : α → Option α) (a : α) : Prop := TransGen (Follows f) a a

def EntersCycle (f : α → Option α) (a : α) : Prop :=
  ∃ c, ReflTransGen (Follows f) a c ∧ OnCycle f c

theorem Follows.unique (hb : Follows f a b) (hc : Follows f a c) : b = c :=
  Option.some.inj (hb.symm.trans hc)

theorem OnCycle.enters (h : OnCycle f a) : EntersCycle f a := ⟨a, .refl, h⟩

theorem EntersCycle.next (h : EntersCycle f a) : ∃ b, Follows f a b ∧ EntersCycle f b := by
  obtain ⟨c, hac, hc⟩ := h
  rcases ReflTransGen.cases_head hac with rfl | ⟨b, hab, hbc⟩
  · obtain ⟨b, hab, hba⟩ := TransGen.head'_iff.mp hc
    exact ⟨b, hab, a, hba, hc⟩
  · exact ⟨b, hab, c, hbc, hc⟩

theorem not_enters_of_stops (hac : ReflTransGen (Follows f) a c) (hc : f c = none) :
    ¬ EntersCycle f a := by
  induction hac using ReflTransGen.head_induction_on with
  | refl =>
    intro h
    obtain ⟨b, hb, -⟩ := h.next
    cases hc.symm.trans hb
  | head hab _ ih =>
    intro h
    obtain ⟨b', hab', hb'⟩ := h.next
    exact ih (hab.unique hab' ▸ hb')

theorem enters_or_stops [Finite ι] (g : ι → α) (hg : ∀ a b, f a = some b → ∃ i, g i = b) (a : α) :
    EntersCycle f a ∨ ∃ c, ReflTransGen (Follows f) a c ∧ f c = none := by
  refine or_iff_not_imp_right.mpr fun hstop => ?_
  have hsucc : ∀ c : {c // ReflTransGen (Follows f) a c},
      ∃ d : {d // ReflTransGen (Follows f) a d}, Follows f c d := by
    rintro ⟨c, hc⟩
    obtain ⟨d, hd⟩ := Option.ne_none_iff_exists'.mp fun hn => hstop ⟨c, hc, hn⟩
    exact ⟨⟨d, hc.tail hd⟩, hd⟩
  choose next hnext using hsucc
  let walk (n : Nat) : {c // ReflTransGen (Follows f) a c} := next^[n] ⟨a, .refl⟩
  have hstep (n : Nat) : Follows f (walk n) (walk (n + 1)) := by
    have := hnext (walk n)
    rwa [← Function.iterate_succ_apply' next n] at this
  have hpath (n m : Nat) : TransGen (Follows f) (walk n) (walk (n + m + 1)) := by
    induction m with
    | zero => exact .single (hstep n)
    | succ m ih => exact ih.tail (hstep (n + m + 1))
  choose idx hidx using fun n => hg _ _ (hstep n)
  obtain ⟨i, j, hne, heq⟩ := Finite.exists_ne_map_eq_of_infinite idx
  wlog hlt : i < j generalizing i j
  · exact this j i hne.symm heq.symm (by omega)
  obtain ⟨m, rfl⟩ := Nat.exists_eq_add_of_lt hlt
  have hcollide : (walk (i + 1) : α) = walk (i + m + 1 + 1) := by rw [← hidx i, ← hidx, heq]
  refine ⟨walk (i + 1), (walk (i + 1)).2, ?_⟩
  have := hpath (i + 1) m
  rwa [show i + 1 + m + 1 = i + m + 1 + 1 by omega, ← hcollide] at this

end Orbit
