import Mathlib.Logic.Relation
import Mathlib.Tactic.Common

namespace Loop

inductive Next (σ ρ : Type) where
  | more (s : σ)
  | done (r : ρ)
  deriving DecidableEq, Repr

variable {σ ρ : Type} {step : σ → Next σ ρ}

def run (step : σ → Next σ ρ) : Nat → σ → Option ρ
  | 0, _ => none
  | n + 1, s =>
      match step s with
      | .more t => run step n t
      | .done r => some r

def Advances (step : σ → Next σ ρ) (s t : σ) : Prop := step s = .more t

abbrev Reaches (step : σ → Next σ ρ) : σ → σ → Prop := Relation.ReflTransGen (Advances step)

def Yields (step : σ → Next σ ρ) (s : σ) (r : ρ) : Prop := ∃ n, run step n s = some r

def Halts (step : σ → Next σ ρ) (s : σ) : Prop := ∃ r, Yields step s r

theorem run_more {s t : σ} (h : step s = .more t) (n : Nat) :
    run step (n + 1) s = run step n t := by
  simp [run, h]

theorem run_done {s : σ} {r : ρ} (h : step s = .done r) (n : Nat) :
    run step (n + 1) s = some r := by
  simp [run, h]

theorem run_mono {n m : Nat} {s : σ} {r : ρ} (h : run step n s = some r) (hnm : n ≤ m) :
    run step m s = some r := by
  induction n generalizing m s with
  | zero => simp [run] at h
  | succ n ih =>
    obtain ⟨m, rfl⟩ := Nat.exists_eq_add_of_lt hnm
    cases hs : step s with
    | more t =>
      rw [run_more hs] at h ⊢
      exact ih h (by omega)
    | done r' =>
      rw [run_done hs] at h ⊢
      exact h

theorem yields_unique {s : σ} {r r' : ρ} (h : Yields step s r) (h' : Yields step s r') :
    r = r' := by
  obtain ⟨n, hn⟩ := h
  obtain ⟨m, hm⟩ := h'
  have hl := run_mono hn (Nat.le_max_left n m)
  have hr := run_mono hm (Nat.le_max_right n m)
  exact Option.some.inj (hl.symm.trans hr)

theorem yields_more {s t : σ} {r : ρ} (h : step s = .more t) :
    Yields step s r ↔ Yields step t r := by
  constructor
  · rintro ⟨n, hn⟩
    cases n with
    | zero => simp [run] at hn
    | succ n => exact ⟨n, by rwa [run_more h] at hn⟩
  · rintro ⟨n, hn⟩
    exact ⟨n + 1, by rwa [run_more h]⟩

theorem yields_done {s : σ} {r r' : ρ} (h : step s = .done r) : Yields step s r' ↔ r' = r := by
  constructor
  · intro hy
    exact yields_unique hy ⟨1, run_done h 0⟩
  · rintro rfl
    exact ⟨1, run_done h 0⟩

theorem halts_more {s t : σ} (h : step s = .more t) : Halts step s ↔ Halts step t :=
  exists_congr fun _ => yields_more h

theorem halts_done {s : σ} {r : ρ} (h : step s = .done r) : Halts step s :=
  ⟨r, (yields_done h).mpr rfl⟩

theorem halts_reaches {s t : σ} (h : Reaches step s t) : Halts step s ↔ Halts step t := by
  induction h with
  | refl => rfl
  | tail _ ht ih => exact ih.trans (halts_more ht)

theorem yields_reaches {s t : σ} {r : ρ} (h : Reaches step s t) :
    Yields step s r ↔ Yields step t r := by
  induction h with
  | refl => rfl
  | tail _ ht ih => exact ih.trans (yields_more ht)

theorem yields_simulation {τ : Type} {step' : τ → Next τ ρ} {R : σ → τ → Prop}
    (hR : ∀ s t, R s t →
      (∃ r, (∀ r', Yields step s r' ↔ r' = r) ∧ step' t = .done r) ∨
        ∃ s' t', step s = .more s' ∧ step' t = .more t' ∧ R s' t')
    {s : σ} {t : τ} (h : R s t) (r : ρ) : Yields step s r ↔ Yields step' t r := by
  constructor
  · rintro ⟨n, hn⟩
    induction n generalizing s t with
    | zero => simp [run] at hn
    | succ n ih =>
      obtain ⟨r', hr', hd⟩ | ⟨s', t', hs, ht, h'⟩ := hR s t h
      · exact (yields_done hd).mpr ((hr' r).mp ⟨n + 1, hn⟩)
      · exact (yields_more ht).mpr (ih h' (run_more hs n ▸ hn))
  · rintro ⟨n, hn⟩
    induction n generalizing s t with
    | zero => simp [run] at hn
    | succ n ih =>
      obtain ⟨r', hr', hd⟩ | ⟨s', t', hs, ht, h'⟩ := hR s t h
      · exact (hr' r).mpr ((yields_done hd).mp ⟨n + 1, hn⟩)
      · exact (yields_more hs).mpr (ih h' (run_more ht n ▸ hn))

theorem yields_iff_reaches {s : σ} {r : ρ} :
    Yields step s r ↔ ∃ t, Reaches step s t ∧ step t = .done r := by
  constructor
  · rintro ⟨n, hn⟩
    induction n generalizing s with
    | zero => simp [run] at hn
    | succ n ih =>
      cases hs : step s with
      | more t =>
        obtain ⟨u, hu, hd⟩ := ih (run_more hs n ▸ hn)
        exact ⟨u, .head hs hu, hd⟩
      | done r' =>
        rw [run_done hs] at hn
        exact ⟨s, .refl, Option.some.inj hn ▸ hs⟩
  · rintro ⟨t, ht, hd⟩
    exact (yields_reaches ht).mpr ((yields_done hd).mpr rfl)

theorem reaches_invariant {I : σ → Prop} (hI : ∀ s t, I s → step s = .more t → I t)
    {s t : σ} (hs : I s) (h : Reaches step s t) : I t := by
  induction h with
  | refl => exact hs
  | tail _ ht ih => exact hI _ _ ih ht

theorem yields_post {I : σ → Prop} {Q : ρ → Prop} (hI : ∀ s t, I s → step s = .more t → I t)
    (hp : ∀ s r, I s → step s = .done r → Q r) {s : σ} {r : ρ} (hs : I s)
    (h : Yields step s r) : Q r := by
  obtain ⟨n, hn⟩ := h
  induction n generalizing s with
  | zero => simp [run] at hn
  | succ n ih =>
    cases hc : step s with
    | more t =>
      rw [run_more hc] at hn
      exact ih (hI s t hs hc) hn
    | done r' =>
      rw [run_done hc] at hn
      exact hp s r hs (Option.some.inj hn ▸ hc)

theorem run_of_measure {I : σ → Prop} (μ : σ → Nat)
    (hI : ∀ s t, I s → step s = .more t → I t ∧ μ t < μ s) {s : σ} (hs : I s) {n : Nat}
    (hn : μ s < n) : ∃ r, run step n s = some r := by
  induction n generalizing s with
  | zero => omega
  | succ n ih =>
    cases hc : step s with
    | more t =>
      obtain ⟨ht, hlt⟩ := hI s t hs hc
      rw [run_more hc]
      exact ih ht (by omega)
    | done r => exact ⟨r, run_done hc n⟩

theorem halts_of_measure {I : σ → Prop} (μ : σ → Nat)
    (hI : ∀ s t, I s → step s = .more t → I t ∧ μ t < μ s) {s : σ} (hs : I s) :
    Halts step s := by
  obtain ⟨r, hr⟩ := run_of_measure μ hI hs (Nat.lt_succ_self (μ s))
  exact ⟨r, _, hr⟩

theorem not_halts_of_forever {I : σ → Prop} (hI : ∀ s, I s → ∃ t, step s = .more t ∧ I t)
    {s : σ} (hs : I s) : ¬ Halts step s := by
  rintro ⟨r, n, hn⟩
  induction n generalizing s with
  | zero => simp [run] at hn
  | succ n ih =>
    obtain ⟨t, ht, hIt⟩ := hI s hs
    rw [run_more ht] at hn
    exact ih hIt hn

end Loop
