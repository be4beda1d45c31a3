import Corosig.Build
import Corosig.Library.OperationRuns

namespace Corosig
open OperationRuns

-- allocated: the frame came from the reactor's allocator, it was not elided into the caller's.
structure BackgroundTask where
  allocated : Bool
  needsDealloc : Bool
  finished : Bool := false
  destroyed : Bool := false
  deriving DecidableEq, Repr

-- Tasks in the order in which their promises were constructed. starting holds, innermost first,
-- the spawns that have a frame but no promise yet, and whether the frame was allocated: a nested
-- spawn starts there when a parameter is copied into the frame.
structure Background where
  currentCoroWasAllocated : Bool := false
  starting : List Bool := []
  tasks : List BackgroundTask := []
  gcList : List Nat := []
  deallocated : List Nat := []
  deriving DecidableEq, Repr

namespace Background

inductive FrameKind where
  | elided
  | allocated
  | failed
  deriving DecidableEq, Repr

inductive Op where
  | spawn (frame : FrameKind)
  | construct
  | finish (i : Nat)
  | gc
  deriving DecidableEq, Repr

def operatorNew (build : Build) (s : Background) : Option Background := do
  ensure build (s.currentCoroWasAllocated = false)
  return { s with currentCoroWasAllocated := true }

def spawn (build : Build) (s : Background) : FrameKind → Option Background
  | .elided => some { s with starting := false :: s.starting }
  | .allocated => (s.operatorNew build).map fun s => { s with starting := true :: s.starting }
  | .failed => s.operatorNew build

def construct (s : Background) : Background :=
  match s.starting with
  | [] => s
  | allocated :: starting => { s with
      currentCoroWasAllocated := false
      starting := starting
      tasks := s.tasks ++ [{ allocated, needsDealloc := s.currentCoroWasAllocated }] }

def finish (s : Background) (i : Nat) : Background :=
  match s.tasks[i]? with
  | none => s
  | some task =>
      if task.finished then s
      else { s with
        tasks := s.tasks.set i { task with finished := true }
        gcList := i :: s.gcList }

def destroy (s : Background) (i : Nat) : Background :=
  match s.tasks[i]? with
  | none => s
  | some task => { s with
      tasks := s.tasks.set i { task with destroyed := true }
      deallocated := if task.needsDealloc then s.deallocated ++ [i] else s.deallocated }

def gc (s : Background) : Background := s.gcList.foldl destroy { s with gcList := [] }

def step (build : Build) (s : Background) : Op → Option Background
  | .spawn frame => s.spawn build frame
  | .construct => some s.construct
  | .finish i => some (s.finish i)
  | .gc => some s.gc

structure Lawful (s : Background) : Prop where
  quiet : s.starting = [] → s.currentCoroWasAllocated = false
  own : ∀ task ∈ s.tasks, task.needsDealloc = task.allocated
  once : ∀ i task, s.tasks[i]? = some task →
    s.deallocated.count i = if task.allocated ∧ task.destroyed then 1 else 0
  other : ∀ i ∈ s.deallocated, i < s.tasks.length

def Orderly (s : Background) : Op → Prop
  | .spawn frame => frame ≠ .failed ∧ true ∉ s.starting
  | _ => True

instance (s : Background) : DecidablePred s.Orderly := fun op => by
  cases op <;> unfold Orderly <;> infer_instance

structure Accounted (deallocated : List Nat) (i : Nat) (task : BackgroundTask) : Prop where
  own : task.needsDealloc = task.allocated
  once : deallocated.count i = if task.allocated ∧ task.destroyed then 1 else 0

structure Tracked (pending : List Nat) (s : Background) : Prop where
  account : ∀ i task, s.tasks[i]? = some task → Accounted s.deallocated i task
  other : ∀ i ∈ s.deallocated, i < s.tasks.length
  nodup : pending.Nodup
  waiting : ∀ i ∈ pending, ∃ task, s.tasks[i]? = some task ∧ task.finished = true ∧
    task.destroyed = false
  alive : ∀ task ∈ s.tasks, task.destroyed = true → task.finished = true

structure Inv (s : Background) : Prop where
  tracked : Tracked s.gcList s
  flag : s.currentCoroWasAllocated = (s.starting.head? == some true)
  inner : true ∉ s.starting.tail

variable {build : Build} {s t : Background} {pending : List Nat} {i : Nat} {task : BackgroundTask}

theorem inv_init : Inv {} where
  tracked := ⟨by simp, by simp, .nil, by simp, by simp⟩
  flag := rfl
  inner := List.not_mem_nil

theorem Inv.lawful (h : s.Inv) : s.Lawful where
  quiet hnone := by rw [h.flag, hnone]; rfl
  own task htask := by
    obtain ⟨i, hi⟩ := List.mem_iff_getElem?.mp htask
    exact (h.tracked.account i task hi).own
  once i task hi := (h.tracked.account i task hi).once
  other := h.tracked.other

theorem getElem?_set_cases {tasks : List BackgroundTask} {new : BackgroundTask} {j : Nat}
    (h : (tasks.set i new)[j]? = some task) :
    j = i ∧ task = new ∨ j ≠ i ∧ tasks[j]? = some task := by
  rw [List.getElem?_set] at h
  split at h
  · rename_i hij
    split at h <;> cases h
    exact .inl ⟨hij.symm, rfl⟩
  · rename_i hij
    exact .inr ⟨fun hji => hij hji.symm, h⟩

theorem waiting_set {P : BackgroundTask → Prop} {tasks : List BackgroundTask}
    (h : ∀ j ∈ pending, ∃ task, tasks[j]? = some task ∧ P task) (hi : i ∉ pending)
    (new : BackgroundTask) : ∀ j ∈ pending, ∃ task, (tasks.set i new)[j]? = some task ∧ P task := by
  intro j hj
  obtain ⟨task, htask, hp⟩ := h j hj
  have hij : i ≠ j := by
    rintro rfl
    exact hi hj
  exact ⟨task, by rw [List.getElem?_set_ne hij, htask], hp⟩

theorem Tracked.of_running (h : Tracked pending s) (htask : s.tasks[i]? = some task)
    (hrunning : ¬task.finished = true) : task.destroyed = false ∧ i ∉ pending := by
  constructor
  · by_contra hgone
    exact hrunning (h.alive task (List.mem_of_getElem? htask) (by simpa using hgone))
  · intro hi
    obtain ⟨task', htask', hfinished, -⟩ := h.waiting i hi
    cases htask.symm.trans htask'
    exact hrunning hfinished

theorem Tracked.finish (h : Tracked s.gcList s) (i : Nat) :
    Tracked (s.finish i).gcList (s.finish i) := by
  rw [Background.finish]
  split
  · exact h
  · rename_i task htask
    split
    · exact h
    · rename_i hrunning
      have hlt : i < s.tasks.length := (List.getElem?_eq_some_iff.mp htask).1
      obtain ⟨halive, hnew⟩ := h.of_running htask hrunning
      refine ⟨fun j t hj => ?_, fun j hj => ?_, List.nodup_cons.mpr ⟨hnew, h.nodup⟩,
        fun j hj => ?_, fun t ht hgone => ?_⟩
      · obtain ⟨rfl, rfl⟩ | ⟨-, hj⟩ := getElem?_set_cases hj
        · obtain ⟨hown, honce⟩ := h.account j task htask
          exact ⟨hown, honce⟩
        · exact h.account j t hj
      · dsimp only
        rw [List.length_set]
        exact h.other j hj
      · dsimp only
        rcases List.mem_cons.mp hj with rfl | hj
        · exact ⟨_, List.getElem?_set_self hlt, rfl, halive⟩
        · exact waiting_set h.waiting hnew _ j hj
      · rcases List.mem_or_eq_of_mem_set ht with ht | rfl
        · exact h.alive t ht hgone
        · rfl

theorem Tracked.destroy (h : Tracked (i :: pending) s) : Tracked pending (s.destroy i) := by
  obtain ⟨task, htask, hfinished, halive⟩ := h.waiting i List.mem_cons_self
  obtain ⟨hi, hnodup⟩ := List.nodup_cons.mp h.nodup
  have hlt : i < s.tasks.length := (List.getElem?_eq_some_iff.mp htask).1
  obtain ⟨hown, honce⟩ := h.account i task htask
  have hzero : s.deallocated.count i = 0 := by simpa [halive] using honce
  rw [Background.destroy, htask]
  refine ⟨fun j t hj => ?_, fun j hj => ?_, hnodup, fun j hj => ?_, fun t ht hgone => ?_⟩
  · obtain ⟨rfl, rfl⟩ | ⟨hne, hj⟩ := getElem?_set_cases hj
    · refine ⟨hown, ?_⟩
      dsimp only
      rw [hown]
      cases task.allocated <;> simp [hzero]
    · obtain ⟨hown', honce'⟩ := h.account j t hj
      refine ⟨hown', ?_⟩
      dsimp only
      rw [← honce']
      split
      · rw [List.count_append, List.count_singleton, if_neg (by simpa using Ne.symm hne),
          Nat.add_zero]
      · rfl
  · dsimp only at hj ⊢
    rw [List.length_set]
    split at hj
    · rcases List.mem_append.mp hj with hj | hj
      · exact h.other j hj
      · rwa [List.mem_singleton.mp hj]
    · exact h.other j hj
  · exact waiting_set (fun j hj => h.waiting j (List.mem_cons_of_mem i hj)) hi _ j hj
  · rcases List.mem_or_eq_of_mem_set ht with ht | rfl
    · exact h.alive t ht hgone
    · exact hfinished

theorem Tracked.destroy_all (h : Tracked pending s) :
    Tracked [] (pending.foldl Background.destroy s) := by
  induction pending generalizing s with
  | nil => exact h
  | cons i pending ih => exact ih h.destroy

theorem destroy_frame (pending : List Nat) (s : Background) :
    (pending.foldl destroy s).gcList = s.gcList ∧ (pending.foldl destroy s).starting = s.starting ∧
      (pending.foldl destroy s).currentCoroWasAllocated = s.currentCoroWasAllocated := by
  induction pending generalizing s with
  | nil => exact ⟨rfl, rfl, rfl⟩
  | cons i pending ih =>
    obtain ⟨hgc, hstarting, hflag⟩ := ih (s.destroy i)
    rw [List.foldl_cons, hgc, hstarting, hflag, destroy]
    split <;> exact ⟨rfl, rfl, rfl⟩

theorem Inv.gc (h : s.Inv) : s.gc.Inv := by
  obtain ⟨hgc, hstarting, hflag⟩ := destroy_frame s.gcList { s with gcList := [] }
  have htracked : Tracked s.gcList { s with gcList := [] } :=
    ⟨h.tracked.account, h.tracked.other, h.tracked.nodup, h.tracked.waiting, h.tracked.alive⟩
  have hall := htracked.destroy_all
  rw [Background.gc]
  refine ⟨hgc ▸ hall, ?_, ?_⟩
  · rw [hflag, hstarting]
    exact h.flag
  · rw [hstarting]
    exact h.inner

theorem Inv.finish (h : s.Inv) (i : Nat) : (s.finish i).Inv := by
  have hframe : (s.finish i).starting = s.starting ∧
      (s.finish i).currentCoroWasAllocated = s.currentCoroWasAllocated := by
    rw [Background.finish]
    split
    · exact ⟨rfl, rfl⟩
    · split <;> exact ⟨rfl, rfl⟩
  exact ⟨h.tracked.finish i, hframe.1 ▸ hframe.2 ▸ h.flag, hframe.1 ▸ h.inner⟩

theorem Tracked.construct (h : Tracked pending s) (allocated : Bool) :
    Tracked pending { s with
      tasks := s.tasks ++ [{ allocated, needsDealloc := allocated }] } := by
  have hlast : ∀ i task, (s.tasks ++ [{ allocated, needsDealloc := allocated }])[i]? = some task →
      s.tasks[i]? = some task ∨
        i = s.tasks.length ∧ task = { allocated, needsDealloc := allocated } := by
    intro i task hi
    rw [List.getElem?_append] at hi
    split at hi
    · exact .inl hi
    · rename_i hge
      rw [List.getElem?_singleton] at hi
      split at hi <;> cases hi
      exact .inr ⟨by omega, rfl⟩
  refine ⟨fun i task hi => ?_, fun i hi => ?_, h.nodup, fun i hi => ?_, fun task htask hgone => ?_⟩
  · obtain hi | ⟨rfl, rfl⟩ := hlast i task hi
    · exact h.account i task hi
    · refine ⟨rfl, ?_⟩
      have hnone : s.tasks.length ∉ s.deallocated := fun hmem =>
        Nat.lt_irrefl _ (h.other _ hmem)
      simp [List.count_eq_zero_of_not_mem hnone]
  · rw [List.length_append]
    exact Nat.lt_add_right 1 (h.other i hi)
  · obtain ⟨task, htask, hdone⟩ := h.waiting i hi
    have hlt := (List.getElem?_eq_some_iff.mp htask).1
    exact ⟨task, by rw [List.getElem?_append_left hlt, htask], hdone⟩
  · rcases List.mem_append.mp htask with htask | htask
    · exact h.alive task htask hgone
    · rw [List.mem_singleton.mp htask] at hgone
      cases hgone

theorem Inv.construct (h : s.Inv) : s.construct.Inv := by
  rw [Background.construct]
  split
  · exact h
  · rename_i allocated starting hstarting
    have hflag := h.flag
    have hinner := h.inner
    rw [hstarting] at hflag hinner
    have hown : s.currentCoroWasAllocated = allocated := by
      rw [hflag]
      cases allocated <;> rfl
    have hrest : true ∉ starting := hinner
    obtain ⟨haccount, hother, hnodup, hwaiting, halive⟩ := h.tracked.construct allocated
    rw [hown]
    refine ⟨⟨haccount, hother, hnodup, hwaiting, halive⟩, ?_, fun hmem => ?_⟩
    · cases starting with
      | nil => rfl
      | cons first rest => cases first <;> simp_all
    · exact hrest (List.mem_of_mem_tail hmem)

theorem inv_step {op : Op} (h : s.Inv) (hop : s.Orderly op) :
    ∃ t, s.step build op = some t ∧ t.Inv := by
  cases op with
  | spawn frame =>
    obtain ⟨hframe, hno⟩ := hop
    have hflag : s.currentCoroWasAllocated = false := by
      rw [h.flag]
      cases hstarting : s.starting with
      | nil => rfl
      | cons first rest => cases first <;> simp_all
    obtain ⟨haccount, hother, hnodup, hwaiting, halive⟩ := h.tracked
    cases frame with
    | elided => exact ⟨_, rfl, ⟨haccount, hother, hnodup, hwaiting, halive⟩, hflag, hno⟩
    | allocated =>
      refine ⟨{ s with currentCoroWasAllocated := true, starting := true :: s.starting }, ?_,
        ⟨haccount, hother, hnodup, hwaiting, halive⟩, rfl, hno⟩
      simp only [step, spawn, operatorNew, ensure_of hflag]
      rfl
    | failed => exact absurd rfl hframe
  | construct => exact ⟨_, rfl, h.construct⟩
  | finish i => exact ⟨_, rfl, h.finish i⟩
  | gc => exact ⟨_, rfl, h.gc⟩

theorem lawful_of_orderly (build : Build) (ops : List Op)
    (h : Along (step build) Orderly {} ops) : Steadily (step build) Lawful {} ops :=
  steadily_of_along (fun _ => Inv.lawful) (fun _ _ => inv_step) inv_init ops h

def nestedSpawns : List Op :=
  [.spawn .elided, .spawn .allocated, .construct, .construct, .finish 1, .finish 0, .gc]

theorem lawful_nested : Steadily (step .debug) Lawful {} nestedSpawns :=
  lawful_of_orderly .debug nestedSpawns (by decide)

theorem not_lawful_of_failed :
    [Op.spawn .failed, .spawn .allocated].foldlM (step .debug) {} = none ∧
    ([Op.spawn .failed, .spawn .elided, .construct, .finish 0, .gc].foldlM (step .release) {}).map
      (fun s => (s.tasks.map BackgroundTask.allocated, s.deallocated)) = some ([false], [0]) ∧
    ¬∀ build ops, Steadily (step build) Lawful {} ops := by
  refine ⟨rfl, rfl, fun hall => ?_⟩
  obtain ⟨s, hs, hlawful⟩ := (hall .debug [.spawn .failed]).last
  cases hs
  cases hlawful.quiet rfl

end Background

end Corosig
