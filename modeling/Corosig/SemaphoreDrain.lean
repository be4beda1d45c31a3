import Corosig.SemaphoreQueue

namespace Corosig
open OperationRuns

namespace Semaphore

variable {build : Build} {s s' : Semaphore} {units : UInt64} {waiters scheduled : List Waiter}

theorem addsUp_of_le (hsmall : s.maxParallelism.toNat < 2 ^ 63)
    (hle : s.currentParallelism ≤ s.maxParallelism) (hunits : units ≤ s.maxParallelism) :
    s.AddsUp units := by
  have hcur := UInt64.le_iff_toNat_le.mp hle
  have hreq := UInt64.le_iff_toNat_le.mp hunits
  rw [AddsUp]
  omega

theorem grantsAddUp_of_le (hsmall : s.maxParallelism.toNat < 2 ^ 63)
    (hle : s.currentParallelism ≤ s.maxParallelism)
    (hfits : ∀ waiter ∈ waiters, waiter.units ≤ s.maxParallelism) : s.GrantsAddUp waiters := by
  induction waiters generalizing s with
  | nil => trivial
  | cons waiter waiters ih =>
    obtain ⟨hwaiter, hrest⟩ := List.forall_mem_cons.mp hfits
    by_cases hb : s.wouldBlock waiter.units
    · exact .inl hb
    · exact .inr ⟨addsUp_of_le hsmall hle hwaiter, ih hsmall (charged_le hb) hrest⟩

theorem grantWaiters_max (hs : s.grantWaiters build waiters = some (s', scheduled)) :
    s'.maxParallelism = s.maxParallelism := by
  induction waiters generalizing s scheduled with
  | nil =>
    cases hs
    rfl
  | cons waiter waiters ih =>
    rcases grantWaiters_cases hs with ⟨-, rfl, rfl⟩ | ⟨-, rest, rfl, hr⟩
    · rfl
    · exact (ih hr :)

theorem freeUnits_suffix (hs : s.freeUnits build units = some (s', scheduled)) :
    s'.maxParallelism = s.maxParallelism ∧ scheduled ++ s'.waiters = s.waiters :=
  ⟨(grantWaiters_max (grantWaiters_of_freeUnits hs) :),
    grantWaiters_append (grantWaiters_of_freeUnits hs)⟩

end Semaphore

namespace Semaphores
open Semaphore

variable {build : Build} {y y' : Semaphores} {op : Op} {h h' : Holder}

-- What hold asserts of its argument; and a waiting coroutine is destroyed only where that neither
-- loses granted units nor leaves behind a waiter that could be granted.
def Moderate (y : Semaphores) (op : Op) : Prop :=
  (∀ units ∈ op.requested, units ≤ y.semaphore.maxParallelism) ∧ y.CancelsNone op ∧
    (op = .cancelWaiting 0 → Woken { y.semaphore with waiters := y.semaphore.waiters.tail })

instance (y : Semaphores) (op : Op) : Decidable (y.Moderate op) :=
  have : Decidable (∀ units ∈ op.requested, units ≤ y.semaphore.maxParallelism) :=
    Option.decidableForallMem _
  have : Decidable (y.CancelsNone op) := Option.decidableForallMem _
  inferInstanceAs (Decidable (_ ∧ _ ∧ _))

def Drains (y : Semaphores) : Op → Prop
  | .resume => y.ready ≠ []
  | .destroy i => i < y.holders.length
  | _ => False

instance (y : Semaphores) : (op : Op) → Decidable (y.Drains op)
  | .resume => inferInstanceAs (Decidable (_ ≠ _))
  | .destroy _ => inferInstanceAs (Decidable (_ < _))
  | .tryHold _ | .hold _ | .reset _ | .moveConstruct _ | .moveAssign _ _ | .cancelWaiting _
  | .cancelGranted _ => isFalse id

def due (y : Semaphores) : Nat :=
  3 * y.semaphore.waiters.length + 2 * y.ready.length + y.holders.length

structure Servable (y : Semaphores) : Prop where
  sound : y.Sound
  queued : y.Queued
  small : y.semaphore.maxParallelism.toNat < 2 ^ 63
  fits : ∀ waiter ∈ y.semaphore.waiters, waiter.units ≤ y.semaphore.maxParallelism

theorem servable_init {maxParallelism : UInt64} (hsmall : maxParallelism.toNat < 2 ^ 63) :
    (init maxParallelism).Servable :=
  ⟨sound_init maxParallelism, queued_init maxParallelism, hsmall, by rintro _ ⟨⟩⟩

theorem release_suffix (hr : y.release build h = some (h', y')) :
    y'.semaphore.maxParallelism = y.semaphore.maxParallelism ∧
      y'.semaphore.waiters <:+ y.semaphore.waiters := by
  rcases release_cases hr with ⟨-, -, rfl⟩ | ⟨-, -, semaphore, scheduled, hf, rfl⟩
  · exact ⟨rfl, List.suffix_refl _⟩
  · exact ⟨(freeUnits_suffix hf).1, scheduled, (freeUnits_suffix hf).2⟩

structure Carries (y : Semaphores) (op : Op) (y' : Semaphores) : Prop where
  max : y'.semaphore.maxParallelism = y.semaphore.maxParallelism
  waiters : ∀ waiter ∈ y'.semaphore.waiters,
    waiter ∈ y.semaphore.waiters ∨ waiter.units ∈ op.requested

theorem carries_same (h : y'.semaphore = y.semaphore) : y.Carries op y' := by
  constructor
  · rw [h]
  · rw [h]
    exact fun _ => .inl

theorem carries_release {r : Holder × Semaphores} (hr : y.release build h = some r)
    (hsame : y'.semaphore = r.2.semaphore) : y.Carries op y' := by
  obtain ⟨hmax, hsuffix⟩ := release_suffix hr
  constructor
  · rw [hsame, hmax]
  · rw [hsame]
    exact fun _ hw => .inl (hsuffix.subset hw)

theorem step_carries (hs : y.step build op = some y') : y.Carries op y' := by
  cases op with
  | tryHold units =>
    obtain ⟨⟨semaphore, holder⟩, ht, he⟩ := Option.bind_eq_some_iff.mp hs
    cases he
    rw [tryHold_eq] at ht
    split at ht
    · cases ht
      exact carries_same rfl
    · cases ht
      exact ⟨rfl, fun _ => .inl⟩
  | hold units =>
    obtain ⟨⟨semaphore, holder⟩, ht, he⟩ := Option.bind_eq_some_iff.mp hs
    cases he
    rcases hold_cases ht with ⟨-, rfl, -⟩ | ⟨-, rfl, -⟩
    · refine ⟨rfl, fun waiter hw => (List.mem_append.mp hw).imp_right fun hw => ?_⟩
      cases List.mem_singleton.mp hw
      rfl
    · exact ⟨rfl, fun _ => .inl⟩
  | resume =>
    rw [step] at hs
    split at hs <;> cases hs <;> exact carries_same rfl
  | reset i =>
    rw [step] at hs
    split at hs
    · cases hs
      exact carries_same rfl
    · obtain ⟨r, hr, he⟩ := Option.bind_eq_some_iff.mp hs
      cases he
      exact carries_release hr rfl
  | destroy i =>
    rw [step] at hs
    split at hs
    · cases hs
      exact carries_same rfl
    · obtain ⟨r, hr, he⟩ := Option.bind_eq_some_iff.mp hs
      cases he
      exact carries_release hr rfl
  | moveConstruct i =>
    rw [step] at hs
    split at hs <;> cases hs <;> exact carries_same rfl
  | moveAssign i j =>
    rw [step] at hs
    split at hs
    · split at hs
      · cases hs
        exact carries_same rfl
      · obtain ⟨r, hr, he⟩ := Option.bind_eq_some_iff.mp hs
        cases he
        exact carries_release hr rfl
    · cases hs
      exact carries_same rfl
  | cancelWaiting i =>
    cases hs
    exact ⟨rfl, fun _ hw => .inl (List.mem_of_mem_eraseIdx hw)⟩
  | cancelGranted i =>
    cases hs
    exact carries_same rfl

theorem Servable.step (hy : y.Servable) (hm : y.Moderate op) (hs : y.step build op = some y') :
    y'.Servable := by
  obtain ⟨hsound, hqueued, hsmall, hfits⟩ := hy
  obtain ⟨hunits, hcancels, hdrop⟩ := hm
  obtain ⟨hmax, hwaiters⟩ := step_carries hs
  have hadds (units : UInt64) (hop : units ∈ op.requested) : y.semaphore.AddsUp units :=
    addsUp_of_le hsmall hsound.within (hunits units hop)
  have hadmits : y.AdmitsExactly op := by
    refine ⟨fun units hop => .inr (hadds units hop), fun h hop howned => ?_⟩
    have hheld := held_le_of_released op hop
    have hbalanced := hsound.balanced
    have hwithin := UInt64.le_iff_toNat_le.mp hsound.within
    rw [held_of_owned howned] at hheld
    rw [Balanced] at hbalanced
    have hsub := UInt64.toNat_sub_of_le y.semaphore.currentParallelism h.units
      (UInt64.le_iff_toNat_le.mpr (by omega))
    refine grantsAddUp_of_le hsmall (UInt64.le_iff_toNat_le.mpr ?_) hfits
    rw [hsub]
    exact (Nat.sub_le _ _).trans hwithin
  refine ⟨hsound.step hadmits hcancels hs,
    hqueued.step ⟨fun units hop => .inr (.inl (hadds units hop)), hdrop⟩ hs, ?_, ?_⟩
  · rw [hmax]
    exact hsmall
  · intro waiter hw
    rw [hmax]
    rcases hwaiters waiter hw with hw | hop
    · exact hfits waiter hw
    · exact hunits _ hop

theorem moderate_of_drains (hd : y.Drains op) : y.Moderate op := by
  cases op with
  | resume => exact ⟨nofun, nofun, nofun⟩
  | destroy i => exact ⟨nofun, nofun, nofun⟩
  | _ => exact hd.elim

theorem Servable.drain (build : Build) (hy : y.Servable) (hd : y.Drains op) :
    ∃ y', y.step build op = some y' ∧ y'.Servable ∧ y'.due < y.due ∧ y'.ids = y.ids := by
  have hrefused : ¬op.Refused build y := by
    cases op with
    | hold units => exact hd.elim
    | _ => exact id
  obtain ⟨y', hs⟩ := hy.sound.defined hrefused
  refine ⟨y', hs, hy.step (moderate_of_drains hd) hs, ?_⟩
  cases op with
  | resume =>
    obtain ⟨waiter, ready, hready⟩ := List.exists_cons_of_ne_nil hd
    rw [Semaphores.step, hready] at hs
    cases hs
    refine ⟨?_, rfl⟩
    simp only [due, hready, List.length_append, List.length_cons, List.length_nil]
    omega
  | destroy i =>
    obtain ⟨h, hi⟩ : ∃ h, y.holders[i]? = some h := ⟨_, List.getElem?_eq_getElem hd⟩
    rw [Semaphores.step, hi] at hs
    obtain ⟨⟨h', y₁⟩, hr, he⟩ := Option.bind_eq_some_iff.mp hs
    cases he
    have hfewer : (y.holders.eraseIdx i).length + 1 = y.holders.length :=
      List.length_eraseIdx_add_one hd
    rcases release_cases hr with ⟨-, -, rfl⟩ | ⟨-, -, semaphore, scheduled, hf, rfl⟩
    · refine ⟨?_, rfl⟩
      simp only [due]
      omega
    · refine ⟨?_, ids_freed hf⟩
      have hlength := congrArg List.length (freeUnits_suffix hf).2
      simp only [due, freed, List.length_append] at hlength ⊢
      omega
  | _ => exact hd.elim

theorem Servable.drained (hy : y.Servable) (hstuck : ∀ op, ¬y.Drains op) :
    y.semaphore.waiters = [] ∧ y.semaphore.currentParallelism = 0 := by
  have hready : y.ready = [] := not_not.mp (hstuck .resume)
  have hholders : y.holders = [] := by
    rcases hl : y.holders with _ | ⟨h, l⟩
    · rfl
    · refine absurd ?_ (hstuck (.destroy 0))
      simp only [Drains, hl, List.length_cons, Nat.zero_lt_succ]
  have hbalanced := hy.sound.balanced
  simp only [Balanced, hready, hholders, heldUnits_nil, waitingUnits_nil] at hbalanced
  refine ⟨?_, UInt64.toNat_inj.mp hbalanced⟩
  rcases hw : y.semaphore.waiters with _ | ⟨waiter, waiters⟩
  · rfl
  · have hwoken := hy.queued.woken waiter (by rw [hw]; rfl)
    have hfits := UInt64.le_iff_toNat_le.mp (hy.fits waiter (by rw [hw]; exact List.mem_cons_self))
    omega

theorem Servable.drains {drains : List Op} (hy : y.Servable)
    (hd : Along (Semaphores.step build) Drains y drains) :
    ∃ y', drains.foldlM (Semaphores.step build) y = some y' ∧ y'.Servable ∧
      drains.length + y'.due ≤ y.due ∧ y'.ids = y.ids := by
  induction drains generalizing y with
  | nil => exact ⟨y, rfl, hy, (Nat.zero_add _).le, rfl⟩
  | cons op drains ih =>
    obtain ⟨y₁, hs, hy₁, hlt, hids⟩ := hy.drain build hd.1
    obtain ⟨y', hrun, hy', hle, hids'⟩ := ih hy₁ (hd.2 y₁ hs)
    refine ⟨y', by rw [List.foldlM_cons, hs]; exact hrun, hy', ?_, hids'.trans hids⟩
    rw [List.length_cons]
    omega

theorem drained_in_order (build : Build) (maxParallelism : UInt64) (ops drains : List Op)
    (hsmall : maxParallelism.toNat < 2 ^ 63)
    (hops : Along (step build) Moderate (init maxParallelism) ops)
    (hy : ops.foldlM (step build) (init maxParallelism) = some y)
    (hdrains : Along (step build) Drains y drains) :
    ∃ y', drains.foldlM (step build) y = some y' ∧ drains.length + y'.due ≤ y.due ∧
      ((∀ op, ¬y'.Drains op) → y'.semaphore.waiters = [] ∧ y'.semaphore.currentParallelism = 0 ∧
        y'.granted = y.granted ++ y.semaphore.waiters.map (·.id) ∧
        y'.granted.Pairwise (· < ·)) := by
  have hservable : y.Servable :=
    run_along (fun y op y' hy => hy.step) (servable_init hsmall) hops hy
  obtain ⟨y', hrun, hy', hle, hids⟩ := hservable.drains hdrains
  refine ⟨y', hrun, hle, fun hstuck => ?_⟩
  obtain ⟨hwaiters, hcurrent⟩ := hy'.drained hstuck
  have hgranted : y'.granted = y'.ids := by rw [ids, hwaiters, List.map_nil, List.append_nil]
  refine ⟨hwaiters, hcurrent, hgranted.trans hids, ?_⟩
  rw [hgranted]
  exact hy'.queued.inOrder

def busy : Semaphores where
  semaphore := { maxParallelism := 5, currentParallelism := 3, waiters := [⟨0, 4⟩, ⟨1, 4⟩] }
  holders := [⟨3, true⟩]
  suspended := 2

def idle : Semaphores where
  semaphore := { maxParallelism := 5 }
  suspended := 2
  granted := [0, 1]

theorem not_drains_idle (op : Op) : ¬idle.Drains op := by
  cases op with
  | resume => exact not_not.mpr rfl
  | destroy i => exact Nat.not_lt_zero i
  | _ => exact id

theorem drained_in_order_busy : 5 + idle.due ≤ busy.due ∧ idle.semaphore.waiters = [] ∧
    idle.granted = busy.granted ++ busy.semaphore.waiters.map (·.id) := by
  obtain ⟨y', hrun, hle, hend⟩ := drained_in_order .debug 5 [.tryHold 3, .hold 4, .hold 4]
    [.destroy 0, .resume, .destroy 0, .resume, .destroy 0] (y := busy) (by decide) (by decide)
    (by decide) (by decide)
  obtain rfl : idle = y' := Option.some_inj.mp hrun
  obtain ⟨hwaiters, -, hgranted, -⟩ := hend not_drains_idle
  exact ⟨hle, hwaiters, hgranted⟩

end Semaphores

end Corosig
