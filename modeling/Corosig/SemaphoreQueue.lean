import Corosig.SemaphoreUnits

namespace Corosig
open OperationRuns

namespace Semaphore

variable {build : Build} {s s' : Semaphore} {units : UInt64} {waiters scheduled : List Waiter}

def Woken (s : Semaphore) : Prop :=
  ∀ waiter ∈ s.waiters.head?,
    s.maxParallelism.toNat < s.currentParallelism.toNat + waiter.units.toNat

instance (s : Semaphore) : Decidable s.Woken := inferInstanceAs (Decidable (∀ _ ∈ _, _))

theorem exceeds_of_wouldBlock (h : s.wouldBlock units) :
    s.maxParallelism.toNat < s.currentParallelism.toNat + units.toNat := by
  have hlt := UInt64.lt_iff_toNat_lt.mp h
  rw [UInt64.toNat_add] at hlt
  exact Nat.lt_of_lt_of_le hlt (Nat.mod_le _ _)

theorem grantWaiters_woken (hs : s.grantWaiters build waiters = some (s', scheduled)) :
    s'.Woken := by
  induction waiters generalizing s scheduled with
  | nil =>
    cases hs
    rintro waiter ⟨⟩
  | cons waiter waiters ih =>
    rcases grantWaiters_cases hs with ⟨hb, rfl, rfl⟩ | ⟨-, rest, rfl, hr⟩
    · rintro _ ⟨⟩
      exact exceeds_of_wouldBlock hb
    · exact ih hr

theorem woken_charged (hw : s.Woken) (hadd : s.AddsUp units) : (s.charged units).Woken := by
  intro waiter hm
  have hlt := hw waiter hm
  rw [charged_of_addsUp hadd]
  exact Nat.lt_of_lt_of_le hlt (by omega)

theorem woken_suspend (hw : s.Woken) (hb : s.wouldBlock units) (id : Nat) :
    Woken { s with waiters := s.waiters ++ [⟨id, units⟩] } := by
  rcases hq : s.waiters with _ | ⟨waiter, waiters⟩
  · rintro _ ⟨⟩
    exact exceeds_of_wouldBlock hb
  · rintro _ ⟨⟩
    exact hw waiter (by rw [hq]; rfl)

theorem woken_drop (hw : s.Woken) (i : Nat) :
    Woken { s with waiters := s.waiters.eraseIdx (i + 1) } := by
  rcases hq : s.waiters with _ | ⟨waiter, waiters⟩
  · rintro _ ⟨⟩
  · rintro _ ⟨⟩
    exact hw waiter (by rw [hq]; rfl)

end Semaphore

namespace Semaphores
open Semaphore

variable {build : Build} {y y' : Semaphores} {op : Op}

def ids (y : Semaphores) : List Nat := y.granted ++ y.semaphore.waiters.map (·.id)

def InOrder (y : Semaphores) : Prop := y.ids.Pairwise (· < ·)

instance (y : Semaphores) : Decidable y.InOrder := inferInstanceAs (Decidable (List.Pairwise _ _))

def Rechecks (y : Semaphores) (op : Op) : Prop :=
  (∀ units ∈ op.requested, y.semaphore.wouldBlock units ∨ y.semaphore.AddsUp units ∨
    (y.semaphore.charged units).Woken) ∧
  (op = .cancelWaiting 0 → Woken { y.semaphore with waiters := y.semaphore.waiters.tail })

structure Queued (y : Semaphores) : Prop where
  woken : y.semaphore.Woken
  inOrder : y.InOrder
  numbered : ∀ id ∈ y.ids, id < y.suspended

theorem queued_init (maxParallelism : UInt64) : (init maxParallelism).Queued :=
  ⟨by rintro _ ⟨⟩, .nil, by rintro _ ⟨⟩⟩

theorem ids_suspend (y : Semaphores) (units : UInt64) :
    ({ y with
        semaphore := { y.semaphore with
          waiters := y.semaphore.waiters ++ [⟨y.suspended, units⟩] }
        suspended := y.suspended + 1 } : Semaphores).ids = y.ids ++ [y.suspended] := by
  simp [ids]

theorem ids_freed {h : Holder} {semaphore : Semaphore} {scheduled : List Waiter}
    (hf : y.semaphore.freeUnits build h.units = some (semaphore, scheduled)) :
    (y.freed semaphore scheduled).ids = y.ids := by
  have happ := grantWaiters_append (grantWaiters_of_freeUnits hf)
  have hids := congrArg (List.map Waiter.id) happ
  rw [List.map_append] at hids
  simp only [ids, freed, List.append_assoc, hids]

theorem ids_drop (y : Semaphores) (i : Nat) :
    ({ y with semaphore := { y.semaphore with
        waiters := y.semaphore.waiters.eraseIdx i } } : Semaphores).ids.Sublist y.ids :=
  ((List.eraseIdx_sublist _ _).map _).append_left _

theorem Queued.step (hy : y.Queued) (hr : y.Rechecks op) (hs : y.step build op = some y') :
    y'.Queued := by
  obtain ⟨hw, ho, hn⟩ := hy
  cases step_change hs with
  | @admitted units hop hnb =>
    refine ⟨?_, ho, hn⟩
    rcases (hr.1 units hop).resolve_left hnb with hadd | hwoken
    · exact woken_charged hw hadd
    · exact hwoken
  | suspended hb =>
    refine ⟨woken_suspend hw hb _, ?_, ?_⟩
    · rw [InOrder, ids_suspend]
      refine List.pairwise_append.mpr ⟨ho, List.pairwise_singleton _ _, fun a ha b hb => ?_⟩
      rw [List.mem_singleton.mp hb]
      exact hn a ha
    · intro id hid
      rw [ids_suspend, List.mem_append, List.mem_singleton] at hid
      rcases hid with hid | rfl
      · exact Nat.lt_succ_of_lt (hn id hid)
      · exact Nat.lt_succ_self _
  | resumed _ => exact ⟨hw, ho, hn⟩
  | @released h semaphore scheduled holders _ _ hf _ =>
    have hids := ids_freed hf
    refine ⟨grantWaiters_woken (grantWaiters_of_freeUnits hf), ?_, ?_⟩
    · rw [InOrder]
      exact hids ▸ ho
    · exact hids ▸ hn
  | rearranged _ => exact ⟨hw, ho, hn⟩
  | @dropped i hop =>
    refine ⟨?_, ho.sublist (ids_drop y i), fun id hid => hn id ((ids_drop y i).subset hid)⟩
    cases i with
    | zero => simpa using hr.2 hop
    | succ i => exact woken_drop hw i
  | cancelled _ => exact ⟨hw, ho, hn⟩

theorem rechecks_of_woken (hn : ¬op.Refused build y)
    (hw : ∀ y' ∈ y.step build op, y'.semaphore.Woken) : y.Rechecks op := by
  refine ⟨fun units hop => or_iff_not_imp_left.mpr fun hnb => .inr ?_, ?_⟩
  · exact hw _ (step_requested hop hn hnb)
  · rintro rfl
    simpa using hw _ rfl

theorem woken_iff (build : Build) (maxParallelism : UInt64) (ops : List Op) :
    Always (step build) (fun y => y.semaphore.Woken ∧ y.InOrder) (init maxParallelism) ops ↔
      Along (step build) (fun y op => op.Refused build y ∨ y.Rechecks op)
        (init maxParallelism) ops := by
  refine always_iff (J := Queued) (fun y hy => ⟨hy.woken, hy.inOrder⟩)
    (fun y op y' hy hop hs => ?_) (fun y op hy hw => ?_) (queued_init maxParallelism) ops
  · rcases hop with hrefused | hr
    · cases (step_refused hrefused).symm.trans hs
    · exact hy.step hr hs
  · exact or_iff_not_imp_left.mpr fun hn => rechecks_of_woken hn fun y' hs => (hw y' hs).1

theorem not_woken_of_dropped :
    ¬Always (step .debug) (fun y => y.semaphore.Woken ∧ y.InOrder) (init 5)
        [.tryHold 3, .tryHold 2, .hold 4, .hold 1, .reset 1, .cancelWaiting 0] ∧
      ¬Always (step .release) (fun y => y.semaphore.Woken ∧ y.InOrder) (init 5)
        [.tryHold 3, .tryHold 2, .hold 4, .hold 1, .reset 1, .cancelWaiting 0] := by
  constructor <;> decide

end Semaphores

end Corosig
