import Corosig.Build
import Corosig.Library.OperationRuns
import Corosig.Library.Positions
import Mathlib.Algebra.GroupWithZero.Nat
import Mathlib.Algebra.Order.BigOperators.Group.List
import Mathlib.Data.List.Basic

namespace Corosig

structure Waiter where
  id : Nat
  units : UInt64
  deriving DecidableEq, Repr

-- semaphore = false is the null pointer that a move or reset() leaves behind.
structure Holder where
  units : UInt64 := 0
  semaphore : Bool := false
  deriving DecidableEq, Repr

structure Semaphore where
  maxParallelism : UInt64
  currentParallelism : UInt64 := 0
  waiters : List Waiter := []
  deriving DecidableEq, Repr

namespace Semaphore

def wouldBlock (s : Semaphore) (units : UInt64) : Prop :=
  s.currentParallelism + units > s.maxParallelism

instance (s : Semaphore) (units : UInt64) : Decidable (s.wouldBlock units) :=
  inferInstanceAs (Decidable (_ > _))

variable (build : Build)

def takeUnits (s : Semaphore) (units : UInt64) : Option Semaphore := do
  ensure build (¬s.wouldBlock units)
  return { s with currentParallelism := s.currentParallelism + units }

-- The while loop of free_units; the second component is what it passes to m_reactor.schedule.
def grantWaiters (s : Semaphore) : List Waiter → Option (Semaphore × List Waiter)
  | [] => some ({ s with waiters := [] }, [])
  | waiter :: waiters =>
      if s.wouldBlock waiter.units then some ({ s with waiters := waiter :: waiters }, [])
      else do
        let s ← s.takeUnits build waiter.units
        let (s, scheduled) ← grantWaiters s waiters
        return (s, waiter :: scheduled)

def freeUnits (s : Semaphore) (units : UInt64) : Option (Semaphore × List Waiter) := do
  ensure build (s.currentParallelism ≥ units)
  grantWaiters build { s with currentParallelism := s.currentParallelism - units } s.waiters

def tryHold (s : Semaphore) (units : UInt64) : Option (Semaphore × Option Holder) :=
  if s.wouldBlock units then some (s, none)
  else do
    let s ← s.takeUnits build units
    return (s, some ⟨units, true⟩)

-- co_await hold(units): await_ready and, where it is false, await_suspend.
def hold (s : Semaphore) (id : Nat) (units : UInt64) : Option (Semaphore × Option Holder) := do
  ensure build (units ≤ s.maxParallelism)
  if s.wouldBlock units then return ({ s with waiters := s.waiters ++ [⟨id, units⟩] }, none)
  else do
    let s ← s.takeUnits build units
    return (s, some ⟨units, true⟩)

def awaitResume (waiter : Waiter) : Holder := ⟨waiter.units, true⟩

end Semaphore

def Holder.reset (build : Build) (h : Holder) (s : Semaphore) :
    Option (Holder × Semaphore × List Waiter) :=
  if h.semaphore = true ∧ h.units ≠ 0 then do
    let (s, scheduled) ← s.freeUnits build h.units
    return ({}, s, scheduled)
  else some (h, s, [])

-- A semaphore with its holders, the granted waiters its reactor has yet to resume, the number
-- of coroutines suspended so far and the ids of those granted so far.
structure Semaphores where
  semaphore : Semaphore
  holders : List Holder := []
  ready : List Waiter := []
  suspended : Nat := 0
  granted : List Nat := []
  deriving DecidableEq, Repr

namespace Semaphores

inductive Op where
  | tryHold (units : UInt64)
  | hold (units : UInt64)
  | resume
  | reset (i : Nat)
  | destroy (i : Nat)
  | moveConstruct (i : Nat)
  | moveAssign (i j : Nat)
  | cancelWaiting (i : Nat)
  | cancelGranted (i : Nat)
  deriving DecidableEq, Repr

variable (build : Build)

def init (maxParallelism : UInt64) : Semaphores := { semaphore := { maxParallelism } }

def release (y : Semaphores) (h : Holder) : Option (Holder × Semaphores) := do
  let (h, semaphore, scheduled) ← h.reset build y.semaphore
  return (h, { y with
    semaphore
    ready := y.ready ++ scheduled
    granted := y.granted ++ scheduled.map (·.id) })

def step (y : Semaphores) : Op → Option Semaphores
  | .tryHold units => do
      let (semaphore, holder) ← y.semaphore.tryHold build units
      return { y with semaphore, holders := y.holders ++ holder.toList }
  | .hold units => do
      let (semaphore, holder) ← y.semaphore.hold build y.suspended units
      return { y with
        semaphore
        holders := y.holders ++ holder.toList
        suspended := y.suspended + if holder.isNone then 1 else 0 }
  | .resume =>
      match y.ready with
      | [] => some y
      | waiter :: ready =>
          some { y with ready, holders := y.holders ++ [Semaphore.awaitResume waiter] }
  | .reset i =>
      match y.holders[i]? with
      | none => some y
      | some h => do
          let (h, y) ← y.release build h
          return { y with holders := y.holders.set i h }
  | .destroy i =>
      match y.holders[i]? with
      | none => some y
      | some h => do
          let (_, y) ← y.release build h
          return { y with holders := y.holders.eraseIdx i }
  | .moveConstruct i =>
      match y.holders[i]? with
      | none => some y
      | some h => some { y with holders := y.holders.set i {} ++ [h] }
  | .moveAssign i j =>
      match y.holders[i]?, y.holders[j]? with
      | some h, some rhs =>
          if i = j then some y
          else do
            let (_, y) ← y.release build h
            return { y with holders := (y.holders.set i rhs).set j {} }
      | _, _ => some y
  | .cancelWaiting i =>
      some { y with semaphore := { y.semaphore with waiters := y.semaphore.waiters.eraseIdx i } }
  | .cancelGranted i => some { y with ready := y.ready.eraseIdx i }

end Semaphores

namespace Semaphore

variable {build : Build} {s s' : Semaphore} {units : UInt64} {waiter : Waiter}
  {waiters scheduled : List Waiter}

def charged (s : Semaphore) (units : UInt64) : Semaphore :=
  { s with currentParallelism := s.currentParallelism + units }

theorem takeUnits_eq (h : ¬s.wouldBlock units) :
    s.takeUnits build units = some (s.charged units) := by
  simp only [takeUnits, ensure_of h]
  rfl

theorem tryHold_eq : s.tryHold build units =
    if s.wouldBlock units then some (s, none) else some (s.charged units, some ⟨units, true⟩) := by
  rw [tryHold]
  split
  · rfl
  · rename_i h
    rw [takeUnits_eq h]
    rfl

theorem grantWaiters_blocked (h : s.wouldBlock waiter.units) :
    s.grantWaiters build (waiter :: waiters) =
      some ({ s with waiters := waiter :: waiters }, []) := by
  rw [grantWaiters, if_pos h]

theorem grantWaiters_granted (h : ¬s.wouldBlock waiter.units) :
    s.grantWaiters build (waiter :: waiters) =
      ((s.charged waiter.units).grantWaiters build waiters).map fun r => (r.1, waiter :: r.2) := by
  rw [grantWaiters, if_neg h, takeUnits_eq h]
  simp only [Option.bind_eq_bind, Option.bind_some]
  cases grantWaiters build (s.charged waiter.units) waiters <;> rfl

theorem grantWaiters_isSome (build : Build) (s : Semaphore) (waiters : List Waiter) :
    ∃ s' scheduled, s.grantWaiters build waiters = some (s', scheduled) := by
  induction waiters generalizing s with
  | nil => exact ⟨_, _, rfl⟩
  | cons waiter waiters ih =>
    by_cases h : s.wouldBlock waiter.units
    · exact ⟨_, _, grantWaiters_blocked h⟩
    · obtain ⟨s', scheduled, hs⟩ := ih (s.charged waiter.units)
      exact ⟨s', waiter :: scheduled, by rw [grantWaiters_granted h, hs]; rfl⟩

theorem grantWaiters_cases
    (hs : s.grantWaiters build (waiter :: waiters) = some (s', scheduled)) :
    (s.wouldBlock waiter.units ∧ s' = { s with waiters := waiter :: waiters } ∧ scheduled = []) ∨
    (¬s.wouldBlock waiter.units ∧ ∃ rest, scheduled = waiter :: rest ∧
      (s.charged waiter.units).grantWaiters build waiters = some (s', rest)) := by
  by_cases h : s.wouldBlock waiter.units
  · rw [grantWaiters_blocked h] at hs
    cases hs
    exact .inl ⟨h, rfl, rfl⟩
  · rw [grantWaiters_granted h] at hs
    obtain ⟨⟨s₁, rest⟩, hr, he⟩ := Option.map_eq_some_iff.mp hs
    cases he
    exact .inr ⟨h, rest, rfl, hr⟩

theorem grantWaiters_append (hs : s.grantWaiters build waiters = some (s', scheduled)) :
    scheduled ++ s'.waiters = waiters := by
  induction waiters generalizing s scheduled with
  | nil =>
    cases hs
    rfl
  | cons waiter waiters ih =>
    rcases grantWaiters_cases hs with ⟨-, rfl, rfl⟩ | ⟨-, rest, rfl, hr⟩
    · rfl
    · rw [List.cons_append, ih hr]

theorem freeUnits_eq (h : units ≤ s.currentParallelism) : s.freeUnits build units =
    grantWaiters build { s with currentParallelism := s.currentParallelism - units } s.waiters := by
  rw [freeUnits, ensure_of h]
  rfl

theorem grantWaiters_of_freeUnits (hs : s.freeUnits build units = some (s', scheduled)) :
    grantWaiters build { s with currentParallelism := s.currentParallelism - units } s.waiters =
      some (s', scheduled) := by
  obtain ⟨_, -, hs⟩ := Option.bind_eq_some_iff.mp hs
  exact hs

theorem hold_cases {r : Option Holder} {id : Nat} (hs : s.hold build id units = some (s', r)) :
    (s.wouldBlock units ∧ s' = { s with waiters := s.waiters ++ [⟨id, units⟩] } ∧ r = none) ∨
    (¬s.wouldBlock units ∧ s' = s.charged units ∧ r = some ⟨units, true⟩) := by
  obtain ⟨_, -, hs⟩ := Option.bind_eq_some_iff.mp hs
  split at hs
  · rename_i h
    cases hs
    exact .inl ⟨h, rfl, rfl⟩
  · rename_i h
    rw [takeUnits_eq h] at hs
    cases hs
    exact .inr ⟨h, rfl, rfl⟩

theorem ensure_hold (hn : ¬(build = .debug ∧ units > s.maxParallelism)) :
    ensure build (units ≤ s.maxParallelism) = some () := by
  cases build with
  | debug => exact ensure_of (UInt64.not_lt.mp fun h => hn ⟨rfl, h⟩)
  | release => rfl

theorem hold_blocked {id : Nat} (hn : ¬(build = .debug ∧ units > s.maxParallelism))
    (hb : s.wouldBlock units) :
    s.hold build id units = some ({ s with waiters := s.waiters ++ [⟨id, units⟩] }, none) := by
  rw [hold, ensure_hold hn, Option.bind_eq_bind, Option.bind_some, if_pos hb]
  rfl

theorem hold_admitted {id : Nat} (hn : ¬(build = .debug ∧ units > s.maxParallelism))
    (hb : ¬s.wouldBlock units) :
    s.hold build id units = some (s.charged units, some ⟨units, true⟩) := by
  rw [hold, ensure_hold hn, Option.bind_eq_bind, Option.bind_some, if_neg hb, takeUnits_eq hb]
  rfl

end Semaphore

def Holder.held (h : Holder) : Nat := if h.semaphore then h.units.toNat else 0

def heldUnits (holders : List Holder) : Nat := (holders.map Holder.held).sum

def waitingUnits (waiters : List Waiter) : Nat := (waiters.map (·.units.toNat)).sum

@[simp] theorem held_default : ({} : Holder).held = 0 := rfl

@[simp] theorem held_taken (units : UInt64) : (⟨units, true⟩ : Holder).held = units.toNat := rfl

@[simp] theorem heldUnits_nil : heldUnits [] = 0 := rfl

@[simp] theorem heldUnits_cons (h : Holder) (l : List Holder) :
    heldUnits (h :: l) = h.held + heldUnits l := by
  simp [heldUnits]

@[simp] theorem heldUnits_append (l l' : List Holder) :
    heldUnits (l ++ l') = heldUnits l + heldUnits l' := by
  simp [heldUnits]

theorem heldUnits_perm {l l' : List Holder} (h : l.Perm l') : heldUnits l = heldUnits l' :=
  (h.map Holder.held).sum_eq

theorem heldUnits_set {l : List Holder} {i : Nat} {h : Holder} (hi : l[i]? = some h)
    (h' : Holder) : heldUnits (l.set i h') + h.held = heldUnits l + h'.held := by
  have hp := heldUnits_perm (Positions.perm_set hi h')
  simp only [heldUnits_cons] at hp
  omega

theorem heldUnits_eraseIdx {l : List Holder} {i : Nat} {h : Holder} (hi : l[i]? = some h) :
    heldUnits (l.eraseIdx i) + h.held = heldUnits l := by
  have hp := heldUnits_perm (Positions.perm_eraseIdx hi)
  simp only [heldUnits_cons] at hp
  omega

theorem heldUnits_move {l : List Holder} {i j : Nat} {h rhs : Holder} (hi : l[i]? = some h)
    (hj : l[j]? = some rhs) (hne : i ≠ j) :
    heldUnits ((l.set i rhs).set j {}) + h.held = heldUnits l := by
  have hp := heldUnits_perm (Positions.perm_move hi hj hne {})
  simp only [heldUnits_cons, held_default] at hp
  omega

@[simp] theorem waitingUnits_nil : waitingUnits [] = 0 := rfl

@[simp] theorem waitingUnits_cons (w : Waiter) (l : List Waiter) :
    waitingUnits (w :: l) = w.units.toNat + waitingUnits l := by
  simp [waitingUnits]

@[simp] theorem waitingUnits_append (l l' : List Waiter) :
    waitingUnits (l ++ l') = waitingUnits l + waitingUnits l' := by
  simp [waitingUnits]

theorem waitingUnits_perm {l l' : List Waiter} (h : l.Perm l') :
    waitingUnits l = waitingUnits l' :=
  (h.map fun w : Waiter => w.units.toNat).sum_eq

theorem held_eq_zero {h : Holder} : h.held = 0 ↔ ¬(h.semaphore = true ∧ h.units ≠ 0) := by
  obtain ⟨units, semaphore⟩ := h
  cases semaphore <;> simp [Holder.held, ← UInt64.toNat_inj]

theorem held_of_owned {h : Holder} (hs : h.semaphore = true ∧ h.units ≠ 0) :
    h.held = h.units.toNat := by
  rw [Holder.held, if_pos hs.1]

namespace Semaphores
open Semaphore Positions

variable {build : Build} {y y' : Semaphores} {op : Op} {h h' : Holder}

def Op.requested : Op → Option UInt64
  | .tryHold units => some units
  | .hold units => some units
  | _ => none

def released (y : Semaphores) : Op → Option Holder
  | .reset i => y.holders[i]?
  | .destroy i => y.holders[i]?
  | .moveAssign i j => if i = j ∨ y.holders[j]? = none then none else y.holders[i]?
  | _ => none

def Op.Refused (build : Build) (y : Semaphores) : Op → Prop
  | .hold units => build = .debug ∧ units > y.semaphore.maxParallelism
  | _ => False

def cancelled (y : Semaphores) : Op → Option Waiter
  | .cancelGranted i => y.ready[i]?
  | _ => none

def freed (y : Semaphores) (semaphore : Semaphore) (scheduled : List Waiter) : Semaphores :=
  { y with
    semaphore
    ready := y.ready ++ scheduled
    granted := y.granted ++ scheduled.map (·.id) }

theorem release_cases (hr : y.release build h = some (h', y')) :
    (h.held = 0 ∧ h' = h ∧ y' = y) ∨
    ((h.semaphore = true ∧ h.units ≠ 0) ∧ h' = {} ∧ ∃ semaphore scheduled,
      y.semaphore.freeUnits build h.units = some (semaphore, scheduled) ∧
        y' = y.freed semaphore scheduled) := by
  obtain ⟨⟨h₁, semaphore, scheduled⟩, hs, he⟩ := Option.bind_eq_some_iff.mp hr
  cases he
  rw [Holder.reset] at hs
  split at hs
  · rename_i howned
    obtain ⟨⟨semaphore₁, scheduled₁⟩, hf, he⟩ := Option.bind_eq_some_iff.mp hs
    cases he
    exact .inr ⟨howned, rfl, _, _, hf, rfl⟩
  · rename_i hnot
    cases hs
    exact .inl ⟨held_eq_zero.mpr hnot, rfl, by simp⟩

inductive Change (build : Build) (y : Semaphores) (op : Op) : Semaphores → Prop where
  | admitted {units : UInt64} : op.requested = some units → ¬y.semaphore.wouldBlock units →
      Change build y op { y with
        semaphore := y.semaphore.charged units, holders := y.holders ++ [⟨units, true⟩] }
  | suspended {units : UInt64} : y.semaphore.wouldBlock units →
      Change build y op { y with
        semaphore := { y.semaphore with
          waiters := y.semaphore.waiters ++ [⟨y.suspended, units⟩] }
        suspended := y.suspended + 1 }
  | resumed {waiter : Waiter} {ready : List Waiter} : y.ready = waiter :: ready →
      Change build y op { y with ready, holders := y.holders ++ [awaitResume waiter] }
  | released {h : Holder} {semaphore : Semaphore} {scheduled : List Waiter}
      {holders : List Holder} : y.released op = some h → h.semaphore = true ∧ h.units ≠ 0 →
      y.semaphore.freeUnits build h.units = some (semaphore, scheduled) →
      heldUnits holders + h.held = heldUnits y.holders →
      Change build y op { y.freed semaphore scheduled with holders }
  | rearranged {holders : List Holder} : heldUnits holders = heldUnits y.holders →
      Change build y op { y with holders }
  | dropped {i : Nat} : op = .cancelWaiting i →
      Change build y op { y with semaphore :=
        { y.semaphore with waiters := y.semaphore.waiters.eraseIdx i } }
  | cancelled {i : Nat} : op = .cancelGranted i →
      Change build y op { y with ready := y.ready.eraseIdx i }

theorem release_holders (hr : y.release build h = some (h', y')) : y'.holders = y.holders := by
  rcases release_cases hr with ⟨-, -, rfl⟩ | ⟨-, -, s, scheduled, -, rfl⟩
  · rfl
  · rfl

theorem change_of_release {holders : List Holder} (hop : y.released op = some h)
    (hr : y.release build h = some (h', y'))
    (hsum : h'.held = 0 → heldUnits holders + h.held = heldUnits y.holders) :
    Change build y op { y' with holders } := by
  rcases release_cases hr with ⟨h0, rfl, rfl⟩ | ⟨howned, rfl, s, scheduled, hf, rfl⟩
  · exact .rearranged (by simpa only [h0, Nat.add_zero] using hsum h0)
  · exact .released hop howned hf (hsum rfl)

theorem release_eq {semaphore : Semaphore} {scheduled : List Waiter}
    (howned : h.semaphore = true ∧ h.units ≠ 0)
    (hf : y.semaphore.freeUnits build h.units = some (semaphore, scheduled)) :
    y.release build h = some ({}, y.freed semaphore scheduled) := by
  rw [release, Holder.reset, if_pos howned, hf]
  rfl

theorem step_released {semaphore : Semaphore} {scheduled : List Waiter}
    (hop : y.released op = some h) (howned : h.semaphore = true ∧ h.units ≠ 0)
    (hf : y.semaphore.freeUnits build h.units = some (semaphore, scheduled)) :
    ∃ holders, y.step build op = some { y.freed semaphore scheduled with holders } ∧
      heldUnits holders + h.held = heldUnits y.holders := by
  have hr := release_eq howned hf
  cases op with
  | reset i =>
    have hi : y.holders[i]? = some h := hop
    exact ⟨y.holders.set i {}, by simp only [step, hi, hr]; rfl, by simpa using heldUnits_set hi {}⟩
  | destroy i =>
    have hi : y.holders[i]? = some h := hop
    exact ⟨_, by simp only [step, hi, hr]; rfl, heldUnits_eraseIdx hi⟩
  | moveAssign i j =>
    rw [released] at hop
    split at hop
    · cases hop
    · rename_i hn
      obtain ⟨hne, hj⟩ := not_or.mp hn
      obtain ⟨rhs, hj⟩ := Option.ne_none_iff_exists'.mp hj
      exact ⟨_, by simp only [step, hop, hj, if_neg hne, hr]; rfl, heldUnits_move hop hj hne⟩
  | _ => cases hop

theorem held_le_of_released (op : Op) (hop : y.released op = some h) :
    h.held ≤ heldUnits y.holders := by
  have hm : ∃ i : Nat, y.holders[i]? = some h := by
    cases op with
    | reset i => exact ⟨i, hop⟩
    | destroy i => exact ⟨i, hop⟩
    | moveAssign i j =>
      rw [released] at hop
      split at hop
      · cases hop
      · exact ⟨i, hop⟩
    | _ => cases hop
  obtain ⟨i, hi⟩ := hm
  have hsum := heldUnits_eraseIdx hi
  omega

theorem step_refused (h : op.Refused build y) : y.step build op = none := by
  cases op with
  | hold units =>
    obtain ⟨rfl, hlt⟩ := h
    simp only [step, Semaphore.hold, ensure, if_neg (UInt64.not_le.mpr hlt)]
    rfl
  | _ => cases h

theorem step_requested {units : UInt64} (hop : op.requested = some units)
    (hn : ¬op.Refused build y) (hb : ¬y.semaphore.wouldBlock units) :
    y.step build op = some { y with
      semaphore := y.semaphore.charged units, holders := y.holders ++ [⟨units, true⟩] } := by
  cases op with
  | tryHold u =>
    cases hop
    simp only [step, tryHold_eq, if_neg hb]
    rfl
  | hold u =>
    cases hop
    simp only [step, hold_admitted hn hb]
    rfl
  | _ => cases hop

theorem change_of_reset {i : Nat} (hs : y.step build (.reset i) = some y') :
    Change build y (.reset i) y' := by
  rw [step] at hs
  split at hs
  · cases hs
    exact .rearranged rfl
  · rename_i h hi
    obtain ⟨⟨h', y₁⟩, hr, he⟩ := Option.bind_eq_some_iff.mp hs
    cases he
    refine change_of_release (by exact hi) hr fun h0 => ?_
    rw [release_holders hr, heldUnits_set hi h', h0, Nat.add_zero]

theorem change_of_destroy {i : Nat} (hs : y.step build (.destroy i) = some y') :
    Change build y (.destroy i) y' := by
  rw [step] at hs
  split at hs
  · cases hs
    exact .rearranged rfl
  · rename_i h hi
    obtain ⟨⟨h', y₁⟩, hr, he⟩ := Option.bind_eq_some_iff.mp hs
    cases he
    refine change_of_release (by exact hi) hr fun _ => ?_
    rw [release_holders hr, heldUnits_eraseIdx hi]

theorem change_of_moveAssign {i j : Nat} (hs : y.step build (.moveAssign i j) = some y') :
    Change build y (.moveAssign i j) y' := by
  rw [step] at hs
  split at hs
  · rename_i h rhs hi hj
    split at hs
    · cases hs
      exact .rearranged rfl
    · rename_i hne
      obtain ⟨⟨h', y₁⟩, hr, he⟩ := Option.bind_eq_some_iff.mp hs
      cases he
      have hop : y.released (.moveAssign i j) = some h := by simp [released, hne, hi, hj]
      refine change_of_release hop hr fun _ => ?_
      rw [release_holders hr, heldUnits_move hi hj hne]
  · cases hs
    exact .rearranged rfl

theorem step_change (hs : y.step build op = some y') : Change build y op y' := by
  cases op with
  | tryHold units =>
    obtain ⟨⟨semaphore, holder⟩, ht, he⟩ := Option.bind_eq_some_iff.mp hs
    cases he
    rw [tryHold_eq] at ht
    split at ht
    · cases ht
      exact .rearranged (by simp)
    · rename_i hb
      cases ht
      exact .admitted rfl hb
  | hold units =>
    obtain ⟨⟨semaphore, holder⟩, ht, he⟩ := Option.bind_eq_some_iff.mp hs
    cases he
    rcases hold_cases ht with ⟨hb, rfl, rfl⟩ | ⟨hb, rfl, rfl⟩
    · have hc : Change build y (.hold units) _ := .suspended hb
      simpa using hc
    · exact .admitted rfl hb
  | resume =>
    rw [step] at hs
    split at hs
    · cases hs
      exact .rearranged rfl
    · rename_i waiter ready hready
      cases hs
      exact .resumed hready
  | reset i => exact change_of_reset hs
  | destroy i => exact change_of_destroy hs
  | moveConstruct i =>
    rw [step] at hs
    split at hs
    · cases hs
      exact .rearranged rfl
    · rename_i h hi
      cases hs
      refine .rearranged ?_
      simpa using heldUnits_set hi {}
  | moveAssign i j => exact change_of_moveAssign hs
  | cancelWaiting i =>
    cases hs
    exact .dropped rfl
  | cancelGranted i =>
    cases hs
    exact .cancelled rfl

end Semaphores

end Corosig
