import Corosig.Semaphore

namespace Corosig
open OperationRuns Positions

namespace Semaphore

variable {build : Build} {s s' : Semaphore} {units : UInt64} {waiters scheduled : List Waiter}

def AddsUp (s : Semaphore) (units : UInt64) : Prop :=
  s.currentParallelism.toNat + units.toNat < 2 ^ 64

def GrantsAddUp (s : Semaphore) : List Waiter → Prop
  | [] => True
  | waiter :: waiters =>
      s.wouldBlock waiter.units ∨
        s.AddsUp waiter.units ∧ (s.charged waiter.units).GrantsAddUp waiters

instance (s : Semaphore) (units : UInt64) : Decidable (s.AddsUp units) :=
  inferInstanceAs (Decidable (_ < _))

instance decidableGrantsAddUp : (s : Semaphore) → (waiters : List Waiter) →
    Decidable (s.GrantsAddUp waiters)
  | _, [] => isTrue trivial
  | s, waiter :: waiters =>
      have := decidableGrantsAddUp (s.charged waiter.units) waiters
      inferInstanceAs (Decidable (_ ∨ _ ∧ _))

theorem charged_toNat (s : Semaphore) (units : UInt64) :
    (s.charged units).currentParallelism.toNat =
      (s.currentParallelism.toNat + units.toNat) % 2 ^ 64 := by
  rw [charged, UInt64.toNat_add]

theorem charged_of_addsUp (h : s.AddsUp units) :
    (s.charged units).currentParallelism.toNat = s.currentParallelism.toNat + units.toNat := by
  rw [charged_toNat, Nat.mod_eq_of_lt h]

theorem charged_lt_of_not_addsUp (h : ¬s.AddsUp units) :
    (s.charged units).currentParallelism.toNat < s.currentParallelism.toNat + units.toNat := by
  rw [charged_toNat]
  rw [AddsUp] at h
  omega

theorem charged_le (h : ¬s.wouldBlock units) :
    (s.charged units).currentParallelism ≤ (s.charged units).maxParallelism :=
  UInt64.not_lt.mp h

theorem grantWaiters_le (hs : s.grantWaiters build waiters = some (s', scheduled))
    (hle : s.currentParallelism ≤ s.maxParallelism) :
    s'.currentParallelism ≤ s'.maxParallelism := by
  induction waiters generalizing s scheduled with
  | nil =>
    cases hs
    exact hle
  | cons waiter waiters ih =>
    rcases grantWaiters_cases hs with ⟨-, rfl, rfl⟩ | ⟨hb, rest, rfl, hr⟩
    · exact hle
    · exact ih hr (charged_le hb)

theorem grantWaiters_units_le (hs : s.grantWaiters build waiters = some (s', scheduled)) :
    s'.currentParallelism.toNat ≤ s.currentParallelism.toNat + waitingUnits scheduled := by
  induction waiters generalizing s scheduled with
  | nil =>
    cases hs
    exact Nat.le_refl _
  | cons waiter waiters ih =>
    rcases grantWaiters_cases hs with ⟨-, rfl, rfl⟩ | ⟨hb, rest, rfl, hr⟩
    · exact Nat.le_refl _
    · have hrest := ih hr
      have hadmit := Nat.mod_le (s.currentParallelism.toNat + waiter.units.toNat) (2 ^ 64)
      rw [charged_toNat] at hrest
      rw [waitingUnits_cons]
      omega

theorem grantWaiters_units_iff (hs : s.grantWaiters build waiters = some (s', scheduled)) :
    s'.currentParallelism.toNat = s.currentParallelism.toNat + waitingUnits scheduled ↔
      s.GrantsAddUp waiters := by
  induction waiters generalizing s scheduled with
  | nil =>
    cases hs
    exact iff_of_true rfl trivial
  | cons waiter waiters ih =>
    rcases grantWaiters_cases hs with ⟨hb, rfl, rfl⟩ | ⟨hb, rest, rfl, hr⟩
    · exact iff_of_true rfl (.inl hb)
    · have hrest := ih hr
      have hle := grantWaiters_units_le hr
      rw [GrantsAddUp, or_iff_right hb, ← hrest, waitingUnits_cons]
      constructor
      · intro h
        have hadd : s.AddsUp waiter.units := by
          by_contra hn
          have hlt := charged_lt_of_not_addsUp hn
          omega
        rw [charged_of_addsUp hadd]
        exact ⟨hadd, by omega⟩
      · rintro ⟨hadd, h⟩
        rw [charged_of_addsUp hadd] at h
        omega

end Semaphore

namespace Semaphores
open Semaphore

variable {build : Build} {y y' : Semaphores} {op : Op} {h h' : Holder}

def Balanced (y : Semaphores) : Prop :=
  y.semaphore.currentParallelism.toNat = heldUnits y.holders + waitingUnits y.ready

def Bounded (y : Semaphores) : Prop :=
  heldUnits y.holders ≤ y.semaphore.maxParallelism.toNat ∧
    (y.ready = [] → heldUnits y.holders = y.semaphore.currentParallelism.toNat)

instance (y : Semaphores) : Decidable y.Balanced := inferInstanceAs (Decidable (_ = _))

instance (y : Semaphores) : Decidable y.Bounded := inferInstanceAs (Decidable (_ ∧ _))

def AdmitsExactly (y : Semaphores) (op : Op) : Prop :=
  (∀ units ∈ op.requested, y.semaphore.wouldBlock units ∨ y.semaphore.AddsUp units) ∧
  ∀ h ∈ y.released op, h.semaphore = true ∧ h.units ≠ 0 →
    GrantsAddUp { y.semaphore with
      currentParallelism := y.semaphore.currentParallelism - h.units } y.semaphore.waiters

instance (y : Semaphores) (op : Op) : Decidable (y.AdmitsExactly op) :=
  have : Decidable (∀ units ∈ op.requested,
      y.semaphore.wouldBlock units ∨ y.semaphore.AddsUp units) := Option.decidableForallMem _
  inferInstanceAs (Decidable (_ ∧ _))

def CancelsNone (y : Semaphores) (op : Op) : Prop :=
  ∀ waiter ∈ y.cancelled op, waiter.units = 0

structure Sound (y : Semaphores) : Prop where
  balanced : y.Balanced
  within : y.semaphore.currentParallelism ≤ y.semaphore.maxParallelism

theorem sound_init (maxParallelism : UInt64) : (init maxParallelism).Sound :=
  ⟨rfl, UInt64.zero_le⟩

theorem Sound.freeUnits_spec (build : Build) (hy : y.Sound)
    (howned : h.semaphore = true ∧ h.units ≠ 0) (hle : h.held ≤ heldUnits y.holders) :
    ∃ semaphore scheduled, y.semaphore.freeUnits build h.units = some (semaphore, scheduled) ∧
      semaphore.currentParallelism ≤ semaphore.maxParallelism ∧
      (semaphore.currentParallelism.toNat + h.held =
          y.semaphore.currentParallelism.toNat + waitingUnits scheduled ↔
        GrantsAddUp { y.semaphore with
          currentParallelism := y.semaphore.currentParallelism - h.units }
          y.semaphore.waiters) := by
  have hcur : h.units.toNat ≤ y.semaphore.currentParallelism.toNat := by
    have hb := hy.balanced
    rw [held_of_owned howned] at hle
    rw [Balanced] at hb
    omega
  have hcur' : h.units ≤ y.semaphore.currentParallelism := UInt64.le_iff_toNat_le.mpr hcur
  have hsub := UInt64.toNat_sub_of_le _ _ hcur'
  obtain ⟨semaphore, scheduled, hs⟩ := grantWaiters_isSome build
    { y.semaphore with currentParallelism := y.semaphore.currentParallelism - h.units }
    y.semaphore.waiters
  refine ⟨semaphore, scheduled, (freeUnits_eq hcur').trans hs, ?_, ?_⟩
  · refine grantWaiters_le hs ?_
    have hw := UInt64.le_iff_toNat_le.mp hy.within
    refine UInt64.le_iff_toNat_le.mpr ?_
    rw [hsub]
    exact (Nat.sub_le _ _).trans hw
  · have hiff := grantWaiters_units_iff hs
    rw [hsub] at hiff
    rw [← hiff, held_of_owned howned]
    omega

theorem Sound.step (hy : y.Sound) (ha : y.AdmitsExactly op) (hc : y.CancelsNone op)
    (hs : y.step build op = some y') : y'.Sound := by
  obtain ⟨hb, hw⟩ := hy
  rw [Balanced] at hb
  cases step_change hs with
  | @admitted units hop hnb =>
    have hadd := (ha.1 units hop).resolve_left hnb
    refine ⟨?_, charged_le hnb⟩
    simp only [Balanced, charged_of_addsUp hadd, heldUnits_append, heldUnits_cons, held_taken,
      heldUnits_nil]
    omega
  | suspended _ => exact ⟨hb, hw⟩
  | @resumed waiter ready hready =>
    refine ⟨?_, hw⟩
    rw [hready, waitingUnits_cons] at hb
    simp only [Balanced, awaitResume, heldUnits_append, heldUnits_cons, held_taken, heldUnits_nil]
    omega
  | @released h semaphore scheduled holders hop howned hf hsum =>
    obtain ⟨s, w, hs', hle, hiff⟩ := Sound.freeUnits_spec build ⟨hb, hw⟩ howned
      (by omega : h.held ≤ heldUnits y.holders)
    cases hf.symm.trans hs'
    have heq := hiff.mpr (ha.2 h hop howned)
    refine ⟨?_, hle⟩
    simp only [Balanced, freed, waitingUnits_append]
    omega
  | rearranged hsum => exact ⟨by rw [Balanced, hsum]; exact hb, hw⟩
  | dropped _ => exact ⟨hb, hw⟩
  | @cancelled i hop =>
    subst hop
    refine ⟨?_, hw⟩
    rcases hi : y.ready[i]? with _ | waiter
    · rw [List.eraseIdx_of_length_le (List.getElem?_eq_none_iff.mp hi)]
      exact hb
    · have hp := waitingUnits_perm (perm_eraseIdx hi)
      rw [waitingUnits_cons, hc waiter hi] at hp
      simp only [Balanced, ← hp] at hb ⊢
      simpa using hb

theorem Sound.defined (hy : y.Sound) (hn : ¬op.Refused build y) :
    ∃ y', y.step build op = some y' := by
  have hrelease (h : Holder) (hm : h.held ≤ heldUnits y.holders) :
      ∃ r, y.release build h = some r := by
    by_cases howned : h.semaphore = true ∧ h.units ≠ 0
    · obtain ⟨s, w, hs, -, -⟩ := hy.freeUnits_spec build howned hm
      exact ⟨_, release_eq howned hs⟩
    · exact ⟨(h, y), by rw [release, Holder.reset, if_neg howned]; simp⟩
  cases op with
  | tryHold units =>
    rw [Semaphores.step, tryHold_eq]
    split
    · exact ⟨_, rfl⟩
    · exact ⟨_, rfl⟩
  | hold units =>
    by_cases hb : y.semaphore.wouldBlock units
    · exact ⟨_, by rw [Semaphores.step, hold_blocked hn hb]; rfl⟩
    · exact ⟨_, step_requested rfl hn hb⟩
  | resume =>
    rw [Semaphores.step]
    split
    · exact ⟨_, rfl⟩
    · exact ⟨_, rfl⟩
  | reset i =>
    rw [Semaphores.step]
    split
    · exact ⟨_, rfl⟩
    · rename_i h hi
      obtain ⟨r, hr⟩ := hrelease h (held_le_of_released (.reset i) hi)
      exact ⟨_, by rw [hr]; rfl⟩
  | destroy i =>
    rw [Semaphores.step]
    split
    · exact ⟨_, rfl⟩
    · rename_i h hi
      obtain ⟨r, hr⟩ := hrelease h (held_le_of_released (.destroy i) hi)
      exact ⟨_, by rw [hr]; rfl⟩
  | moveConstruct i =>
    rw [Semaphores.step]
    split
    · exact ⟨_, rfl⟩
    · exact ⟨_, rfl⟩
  | moveAssign i j =>
    rw [Semaphores.step]
    split
    · rename_i h rhs hi hj
      obtain ⟨r, hr⟩ := hrelease h (held_le_of_released (.reset i) hi)
      split
      · exact ⟨_, rfl⟩
      · exact ⟨_, by rw [hr]; rfl⟩
    · exact ⟨_, rfl⟩
  | cancelWaiting i => exact ⟨_, rfl⟩
  | cancelGranted i => exact ⟨_, rfl⟩

theorem Sound.exact (hy : y.Sound) (hn : ¬op.Refused build y)
    (hb : ∀ y', y.step build op = some y' → y'.Balanced) :
    y.AdmitsExactly op ∧ y.CancelsNone op := by
  have hcur := hy.balanced
  rw [Balanced] at hcur
  refine ⟨⟨fun units hop => ?_, fun h hop howned => ?_⟩, fun waiter hc => ?_⟩
  · by_contra hno
    obtain ⟨hnb, hadd⟩ := not_or.mp hno
    have hbal := hb _ (step_requested hop hn hnb)
    have hlt := charged_lt_of_not_addsUp hadd
    simp only [Balanced, heldUnits_append, heldUnits_cons, held_taken, heldUnits_nil] at hbal
    omega
  · obtain ⟨s, w, hs, -, hiff⟩ := hy.freeUnits_spec build howned
      (held_le_of_released op hop)
    obtain ⟨holders, hstep, hsum⟩ := step_released hop howned hs
    have hbal := hb _ hstep
    simp only [Balanced, freed, waitingUnits_append] at hbal
    exact hiff.mp (by omega)
  · cases op with
    | cancelGranted i =>
      have hbal := hb _ rfl
      have hp := waitingUnits_perm (perm_eraseIdx hc)
      rw [waitingUnits_cons] at hp
      simp only [Balanced] at hbal
      exact UInt64.toNat_inj.mp (show waiter.units.toNat = 0 by omega)
    | _ => cases hc

theorem balanced_iff (build : Build) (maxParallelism : UInt64) (ops : List Op) :
    Always (step build) Balanced (init maxParallelism) ops ↔
      Along (step build)
        (fun y op => op.Refused build y ∨ y.AdmitsExactly op ∧ y.CancelsNone op)
        (init maxParallelism) ops := by
  refine always_iff (J := Sound) (fun y => Sound.balanced) (fun y op y' hy hop hs => ?_)
    (fun y op hy hb => ?_) (sound_init maxParallelism) ops
  · rcases hop with hrefused | ⟨ha, hc⟩
    · cases (step_refused hrefused).symm.trans hs
    · exact hy.step ha hc hs
  · exact or_iff_not_imp_left.mpr fun hn => hy.exact hn hb

theorem not_balanced_of_cancelled :
    ¬Always (step .debug) Balanced (init 1)
        [.tryHold 1, .hold 1, .reset 0, .cancelGranted 0] ∧
      ¬Always (step .release) Balanced (init 1)
        [.tryHold 1, .hold 1, .reset 0, .cancelGranted 0] := by
  decide

def Op.Cancels : Op → Bool
  | .cancelWaiting _ => true
  | .cancelGranted _ => true
  | _ => false

theorem cancelsNone_of_not_cancels (h : op.Cancels = false) : y.CancelsNone op := by
  intro waiter hc
  cases op with
  | cancelGranted i => cases h
  | _ => cases hc

theorem Sound.bounded (hy : y.Sound) : y.Bounded := by
  have hb := hy.balanced
  have hw := UInt64.le_iff_toNat_le.mp hy.within
  rw [Balanced] at hb
  refine ⟨by omega, fun hr => ?_⟩
  rw [hr, waitingUnits_nil] at hb
  exact hb.symm

theorem bounded_of_admitsExactly (build : Build) (maxParallelism : UInt64) (ops : List Op)
    (ha : Along (step build) (fun y op => op.Cancels = false ∧ y.AdmitsExactly op)
      (init maxParallelism) ops) :
    Always (step build) Bounded (init maxParallelism) ops := by
  refine always_of_along (J := Sound) (fun y => Sound.bounded) (fun y op y' hy hop hs => ?_)
    (sound_init maxParallelism) ops ha
  exact hy.step hop.2 (cancelsNone_of_not_cancels hop.1) hs

theorem bounded_of_admitsExactly_granted :
    Always (step .debug) Bounded (init 5) [.tryHold 3, .hold 4, .reset 0, .resume] :=
  bounded_of_admitsExactly .debug 5 _ (by decide)

theorem not_bounded_of_wrapped :
    ¬Always (step .debug) Bounded (init 5) [.tryHold 3, .tryHold 18446744073709551615] ∧
      ¬Always (step .release) Bounded (init 5) [.tryHold 3, .tryHold 18446744073709551615] := by
  decide

end Semaphores

end Corosig
