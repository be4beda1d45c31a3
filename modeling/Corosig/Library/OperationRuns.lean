import Mathlib.Tactic.Common

namespace OperationRuns

variable {σ α : Type} (step : σ → α → Option σ)

def Along (P : σ → α → Prop) : σ → List α → Prop
  | _, [] => True
  | s, a :: as => P s a ∧ ∀ s', step s a = some s' → Along P s' as

def Always (I : σ → Prop) (s : σ) (as : List α) : Prop :=
  I s ∧ Along step (fun s a => ∀ s' ∈ step s a, I s') s as

def Steadily (I : σ → Prop) (s : σ) (as : List α) : Prop :=
  I s ∧ Along step (fun s a => ∃ s' ∈ step s a, I s') s as

variable {step} {P Q R : σ → α → Prop} {I J : σ → Prop} {s : σ}

instance decidableAlong [∀ s a, Decidable (P s a)] :
    (s : σ) → (as : List α) → Decidable (Along step P s as)
  | _, [] => isTrue trivial
  | s, a :: as =>
      match h : step s a with
      | none => decidable_of_iff (P s a) ⟨fun hp => ⟨hp, by simp [h]⟩, And.left⟩
      | some s' =>
          have := decidableAlong s' as
          decidable_of_iff (P s a ∧ Along step P s' as) (by simp [Along, h])

instance [DecidablePred I] (s : σ) (as : List α) : Decidable (Always step I s as) :=
  inferInstanceAs (Decidable (_ ∧ _))

instance [DecidablePred I] (s : σ) (as : List α) : Decidable (Steadily step I s as) :=
  inferInstanceAs (Decidable (_ ∧ _))

theorem Steadily.last {as : List α} (h : Steadily step I s as) :
    ∃ s', as.foldlM step s = some s' ∧ I s' := by
  induction as generalizing s with
  | nil => exact ⟨s, rfl, h.1⟩
  | cons a as ih =>
    obtain ⟨s₁, h₁, hI⟩ := h.2.1
    obtain ⟨s', h', hI'⟩ := ih ⟨hI, h.2.2 s₁ h₁⟩
    exact ⟨s', by rw [List.foldlM_cons, Option.mem_def.mp h₁]; exact h', hI'⟩

theorem along_of_forall (h : ∀ s a, P s a) (s : σ) (as : List α) : Along step P s as := by
  induction as generalizing s with
  | nil => trivial
  | cons a as ih => exact ⟨h s a, fun s' _ => ih s'⟩

theorem along_congr (hkeep : ∀ s a s', J s → R s a → P s a → step s a = some s' → J s')
    (hiff : ∀ s a, J s → R s a → (Q s a ↔ P s a)) (hs : J s) (as : List α)
    (hr : Along step R s as) : Along step Q s as ↔ Along step P s as := by
  induction as generalizing s with
  | nil => exact Iff.rfl
  | cons a as ih =>
    have hrest (hp : P s a) (s' : σ) (h' : step s a = some s') :
        Along step Q s' as ↔ Along step P s' as :=
      ih (hkeep s a s' hs hr.1 hp h') (hr.2 s' h')
    constructor
    · rintro ⟨hq, hqs⟩
      have hp := (hiff s a hs hr.1).mp hq
      exact ⟨hp, fun s' h' => (hrest hp s' h').mp (hqs s' h')⟩
    · rintro ⟨hp, hps⟩
      exact ⟨(hiff s a hs hr.1).mpr hp, fun s' h' => (hrest hp s' h').mpr (hps s' h')⟩

theorem always_iff (hIJ : ∀ s, J s → I s)
    (hkeep : ∀ s a s', J s → P s a → step s a = some s' → J s')
    (hback : ∀ s a, J s → (∀ s', step s a = some s' → I s') → P s a) (hs : J s) (as : List α) :
    Always step I s as ↔ Along step P s as := by
  have hiff (s : σ) (a : α) (h : J s) : (∀ s', step s a = some s' → I s') ↔ P s a :=
    ⟨hback s a h, fun hp s' h' => hIJ s' (hkeep s a s' h hp h')⟩
  have hruns := along_congr (R := fun _ _ => True) (fun s a s' h _ => hkeep s a s' h)
    (fun s a h _ => hiff s a h) hs as (along_of_forall (fun _ _ => trivial) s as)
  exact ⟨fun h => hruns.mp h.2, fun h => ⟨hIJ s hs, hruns.mpr h⟩⟩

theorem steadily_iff (hIJ : ∀ s, J s → I s)
    (hkeep : ∀ s a, J s → R s a → P s a → ∃ s', step s a = some s' ∧ J s')
    (hback : ∀ s a s', J s → R s a → step s a = some s' → I s' → P s a) (hs : J s)
    (as : List α) (hr : Along step R s as) : Steadily step I s as ↔ Along step P s as := by
  have hstep (s : σ) (a : α) (s' : σ) (h : J s) (hr : R s a) (hp : P s a)
      (h' : step s a = some s') : J s' := by
    obtain ⟨s'', h'', hJ⟩ := hkeep s a h hr hp
    cases h'.symm.trans h''
    exact hJ
  have hiff (s : σ) (a : α) (h : J s) (hr : R s a) : (∃ s', step s a = some s' ∧ I s') ↔ P s a := by
    constructor
    · rintro ⟨s', h', hI⟩
      exact hback s a s' h hr h' hI
    · intro hp
      obtain ⟨s', h', hJ⟩ := hkeep s a h hr hp
      exact ⟨s', h', hIJ s' hJ⟩
  have hruns := along_congr hstep hiff hs as hr
  exact ⟨fun h => hruns.mp h.2, fun h => ⟨hIJ s hs, hruns.mpr h⟩⟩

theorem always_of_along (hIJ : ∀ s, J s → I s)
    (hkeep : ∀ s a s', J s → P s a → step s a = some s' → J s') (hs : J s) (as : List α)
    (ha : Along step P s as) : Always step I s as := by
  induction as generalizing s with
  | nil => exact ⟨hIJ s hs, trivial⟩
  | cons a as ih =>
    refine ⟨hIJ s hs, fun s' h' => hIJ s' (hkeep s a s' hs ha.1 h'), fun s' h' => ?_⟩
    exact (ih (hkeep s a s' hs ha.1 h') (ha.2 s' h')).2

theorem steadily_of_along (hIJ : ∀ s, J s → I s)
    (hkeep : ∀ s a, J s → P s a → ∃ s', step s a = some s' ∧ J s') (hs : J s) (as : List α)
    (ha : Along step P s as) : Steadily step I s as := by
  induction as generalizing s with
  | nil => exact ⟨hIJ s hs, trivial⟩
  | cons a as ih =>
    obtain ⟨s', h', hJ⟩ := hkeep s a hs ha.1
    refine ⟨hIJ s hs, ⟨s', h', hIJ s' hJ⟩, fun s'' h'' => ?_⟩
    cases h'.symm.trans h''
    exact (ih hJ (ha.2 s' h')).2

theorem run_invariant (hstep : ∀ s a s', I s → step s a = some s' → I s') {s' : σ} (hs : I s)
    {as : List α} (h : as.foldlM step s = some s') : I s' := by
  induction as generalizing s with
  | nil =>
    cases h
    exact hs
  | cons a as ih =>
    obtain ⟨s₁, h₁, h⟩ := Option.bind_eq_some_iff.mp h
    exact ih (hstep s a s₁ hs h₁) h

theorem run_along (hstep : ∀ s a s', I s → P s a → step s a = some s' → I s') {s' : σ} (hs : I s)
    {as : List α} (ha : Along step P s as) (h : as.foldlM step s = some s') : I s' := by
  induction as generalizing s with
  | nil =>
    cases h
    exact hs
  | cons a as ih =>
    obtain ⟨s₁, h₁, h⟩ := Option.bind_eq_some_iff.mp h
    exact ih (hstep s a s₁ hs ha.1 h₁) (ha.2 s₁ h₁) h

theorem run_ranked {J : Nat → σ → Prop}
    (hstep : ∀ n s a s', J n s → step s a = some s' → ∃ m < n, J m s') {n : Nat} {s' : σ}
    (hs : J n s) {as : List α} (h : as.foldlM step s = some s') :
    ∃ m, J m s' ∧ m + as.length ≤ n := by
  induction as generalizing n s with
  | nil =>
    cases h
    exact ⟨n, hs, Nat.le_refl n⟩
  | cons a as ih =>
    obtain ⟨s₁, h₁, h⟩ := Option.bind_eq_some_iff.mp h
    obtain ⟨m, hlt, hm⟩ := hstep n s a s₁ hs h₁
    obtain ⟨m', hm', hle⟩ := ih hm h
    refine ⟨m', hm', ?_⟩
    rw [List.length_cons]
    omega

end OperationRuns
