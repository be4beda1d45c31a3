import Corosig.Reactor.EventLoop
import Corosig.Reactor.PollFallback
import Corosig.TaskRuns

namespace Corosig
open EventLoop OperationRuns Registrations

-- main has called its coroutine and is in block_on of the future that it got.
structure BlockOn (V : Type) where
  tasks : Tasks V
  loop : EventLoop Path := {}
  returned : Option (Except Int V) := none

namespace BlockOn

inductive Op where
  | turn (wait : Wait)
  | react (op : EventLoop.Op Path)
  | leave

variable {V : Type}

def start (allocates : Path → Bool) (failed : V) (main : Body V) : BlockOn V :=
  { tasks := Tasks.start allocates failed main }

def completed (s : BlockOn V) : Option V := (s.tasks.tasks []).bind Task.result

def nodeCalls {κ : Type} [DecidableEq κ] (wait : Wait) (before after : List κ) :
    List (EventLoop.Op κ) :=
  (before.filter (· ∉ after)).map .destroy ++ (after.filter (· ∉ before)).map (.link · wait)

def turn (build : Build) (allocates : Path → Bool) (failed : V) (wait : Wait) (s : BlockOn V) :
    Option (BlockOn V) := do
  let tasks ← s.tasks.turn allocates failed
  let loop ← (nodeCalls wait s.tasks.linked tasks.linked).foldlM (next build) s.loop
  return { s with tasks, loop }

def permits (s : BlockOn V) : EventLoop.Op Path → Bool
  | .doEventLoopIteration _ => s.completed.isNone && s.loop.phase = .returned (.ok ())
  | op => !op.isCall

def react (build : Build) (allocates : Path → Bool) (failed : V) (op : EventLoop.Op Path)
    (s : BlockOn V) : Option (BlockOn V) :=
  if s.tasks.stack = [] ∧ s.permits op then do
    let (loop, resumed) ← s.loop.step build op
    match resumed with
    | none => return { s with loop }
    | some p => do
        let tasks ← s.tasks.step allocates failed (.resume p)
        return { s with tasks, loop }
  else none

def leave (s : BlockOn V) : Option (BlockOn V) :=
  if s.tasks.stack = [] then
    match s.loop.phase with
    | .returned (.error e) => some { s with returned := some (.error e) }
    | .returned (.ok ()) => s.completed.map fun value => { s with returned := some (.ok value) }
    | _ => none
  else none

def step (build : Build) (allocates : Path → Bool) (failed : V) (s : BlockOn V) (op : Op) :
    Option (BlockOn V) :=
  if s.returned.isSome then none
  else
    match op with
    | .turn wait => s.turn build allocates failed wait
    | .react op => s.react build allocates failed op
    | .leave => s.leave

structure Inv (allocates : Path → Bool) (failed : V) (main : Body V) (s : BlockOn V) : Prop where
  run : ∃ ops : List Tasks.Op, ops.foldlM (Tasks.step allocates failed)
    (Tasks.start allocates failed main) = some s.tasks
  loop : s.loop.Inv
  linked : s.tasks.linked.Perm s.loop.linked
  waiting : s.loop.phase.isPoll → s.tasks.stack = []
  result : ∀ value, s.returned = some (.ok value) → s.completed = some value

end BlockOn

namespace Tasks

variable {V : Type} {allocates : Path → Bool} {failed : V} {w w' : Tasks V}

theorem Moves.linked (hm : Moves allocates failed w w') (hi : Inv allocates w) :
    (∃ p, p ∉ w.linked ∧ w'.linked = w.linked ++ [p]) ∨
      ∃ kept : Path → Bool, w'.linked = w.linked.filter kept := by
  cases hm with
  | suspend => exact .inl ⟨_, hi.places.apart _ (.head _), rfl⟩
  | call | failedCall | pend => exact .inr ⟨fun _ => true, (List.filter_true _).symm⟩
  | take | destroy | coReturn => exact .inr ⟨_, rfl⟩

end Tasks

namespace BlockOn

variable {V : Type} {build : Build} {allocates : Path → Bool} {failed : V} {main : Body V}
  {s t : BlockOn V} {loop : EventLoop Path}

theorem nodeCalls_run {κ : Type} [DecidableEq κ] {loop : EventLoop κ} {before after : List κ}
    (build : Build) (wait : Wait) (hi : loop.Inv) (hp : loop.phase.isPoll = false)
    (hperm : before.Perm loop.linked)
    (h : (∃ p, p ∉ before ∧ after = before ++ [p]) ∨
      ∃ kept : κ → Bool, after = before.filter kept) :
    ∃ loop', (nodeCalls wait before after).foldlM (next build) loop = some loop' ∧ loop'.Inv ∧
      loop'.phase = loop.phase ∧ after.Perm loop'.linked := by
  rcases h with ⟨p, hnew, rfl⟩ | ⟨kept, rfl⟩
  · have hcalls : nodeCalls wait before (before ++ [p]) = [.link p wait] := by
      have hgone : before.filter (· ∉ before ++ [p]) = [] :=
        List.filter_eq_nil_iff.mpr fun q hq => by simp [hq]
      have hold : before.filter (· ∉ before) = [] :=
        List.filter_eq_nil_iff.mpr fun q hq => by simp [hq]
      rw [nodeCalls, hgone, List.filter_append, hold]
      simp [hnew]
    obtain ⟨loop', hnext, hi', hphase, hlinked⟩ :=
      next_link hi hp (fun hmem => hnew (hperm.mem_iff.mpr hmem)) wait
    refine ⟨loop', ?_, hi', hphase, ?_⟩
    · rw [hcalls, List.foldlM_cons, hnext]
      rfl
    · exact (List.perm_append_singleton p before).trans ((hperm.cons p).trans hlinked.symm)
  · have hnone : (before.filter kept).filter (· ∉ before) = [] :=
      List.filter_eq_nil_iff.mpr fun q hq => by simp [(List.mem_filter.mp hq).1]
    obtain ⟨loop', hrun, hi', hphase, hlinked⟩ :=
      destroy_all hi hp (before.filter (· ∉ before.filter kept))
    refine ⟨loop', ?_, hi', hphase, ?_⟩
    · rw [nodeCalls, hnone, List.map_nil, List.append_nil]
      exact hrun
    · have hkept : before.filter kept =
          before.filter (· ∉ before.filter (· ∉ before.filter kept)) := by
        refine List.filter_congr fun q hq => ?_
        cases hk : kept q <;> simp [hq, hk]
      rw [hlinked]
      refine (List.Perm.of_eq hkept).trans ((hperm.filter _).trans (.of_eq ?_))
      exact List.filter_congr fun q _ => decide_eq_decide.mpr Iff.rfl

theorem Inv.tasks (hmain : main.Scoped 0 ∅) (hi : s.Inv allocates failed main) :
    Tasks.Inv allocates s.tasks := by
  obtain ⟨ops, hrun⟩ := hi.run
  obtain ⟨m, ⟨htasks, -⟩, -⟩ := Tasks.sound_run hmain hrun
  exact htasks

theorem run_snoc {w : Tasks V} (hi : s.Inv allocates failed main) (op : Tasks.Op)
    (h : s.tasks.step allocates failed op = some w) :
    ∃ ops : List Tasks.Op, ops.foldlM (Tasks.step allocates failed)
      (Tasks.start allocates failed main) = some w := by
  obtain ⟨ops, hrun⟩ := hi.run
  refine ⟨ops ++ [op], ?_⟩
  rw [List.foldlM_append, hrun]
  simp [h]

theorem turn_step (build : Build) (hmain : main.Scoped 0 ∅) (hi : s.Inv allocates failed main)
    (hr : s.returned = none) (hs : s.tasks.stack ≠ []) (wait : Wait) :
    ∃ t, s.turn build allocates failed wait = some t ∧ t.Inv allocates failed main := by
  have htasks := hi.tasks hmain
  obtain ⟨w, hturn, hmoves⟩ : ∃ w, s.tasks.turn allocates failed = some w ∧ _ :=
    Tasks.turn_moves htasks hs
  have hp : s.loop.phase.isPoll = false := Bool.eq_false_iff.mpr fun hpoll => hs (hi.waiting hpoll)
  obtain ⟨loop, hloop, hi', hphase, hlinked⟩ :=
    nodeCalls_run build wait hi.loop hp hi.linked (hmoves.linked htasks)
  refine ⟨{ s with tasks := w, loop }, ?_, run_snoc hi .turn hturn, hi', hlinked, ?_, ?_⟩
  · exact Option.bind_eq_some_iff.mpr
      ⟨w, hturn, Option.bind_eq_some_iff.mpr ⟨loop, hloop, rfl⟩⟩
  · intro hpoll
    rw [hphase, hp] at hpoll
    cases hpoll
  · intro value hvalue
    cases hr.symm.trans hvalue

theorem react_step (hmain : main.Scoped 0 ∅) (hi : s.Inv allocates failed main)
    (hr : s.returned = none) (hs : s.tasks.stack = []) {op : EventLoop.Op Path}
    (hop : s.permits op) {resumed : Option Path}
    (hloop : s.loop.step build op = some (loop, resumed)) :
    ∃ t, s.react build allocates failed op = some t ∧ t.Inv allocates failed main := by
  have hcall : op.isCall = false := by
    cases op with
    | link | destroy => cases hop
    | _ => rfl
  obtain ⟨hcontrol, haside⟩ := control_step hi.loop hcall hloop
  have hnext : next build s.loop op = some loop := by
    rw [next, hloop]
    rfl
  have hi' : loop.Inv := hi.loop.next hnext
  cases hcontrol with
  | quiet hlog hperm =>
    refine ⟨{ s with loop }, ?_, hi.run, hi', ?_, fun _ => hs, ?_⟩
    · rw [react, if_pos ⟨hs, hop⟩]
      exact Option.bind_eq_some_iff.mpr ⟨_, hloop, rfl⟩
    · exact hi.linked.trans (hperm.map Prod.fst)
    · intro value hvalue
      cases hr.symm.trans hvalue
  | @resumed p wait cause hlog hallows hphase hperm =>
    have hlinked : s.tasks.linked.Perm (p :: loop.linked) :=
      hi.linked.trans (hperm.map Prod.fst)
    obtain ⟨hresume, -⟩ := (hi.tasks hmain).resume failed hs (hlinked.mem_iff.mpr (.head _))
    refine ⟨{ s with
      tasks := { s.tasks with stack := [p], linked := s.tasks.linked.erase p }, loop }, ?_,
      run_snoc hi _ hresume, hi', ?_, ?_, ?_⟩
    · rw [react, if_pos ⟨hs, hop⟩]
      exact Option.bind_eq_some_iff.mpr
        ⟨_, hloop, Option.bind_eq_some_iff.mpr ⟨_, hresume, rfl⟩⟩
    · have herase := hlinked.erase p
      rwa [List.erase_cons_head] at herase
    · intro hpoll
      rw [hphase] at hpoll
      cases hpoll
    · intro value hvalue
      cases hr.symm.trans hvalue

theorem inv_start (allocates : Path → Bool) (failed : V) (main : Body V) :
    (start allocates failed main).Inv allocates failed main where
  run := ⟨[], rfl⟩
  loop := EventLoop.inv_start
  linked := by
    rw [start, Tasks.start]
    split <;> exact .refl _
  waiting h := by cases h
  result _ h := by cases h

theorem leave_inv (hi : s.Inv allocates failed main) (h : s.leave = some t) :
    t.Inv allocates failed main := by
  rw [leave] at h
  split at h
  · split at h
    · cases h
      refine ⟨hi.run, hi.loop, hi.linked, hi.waiting, ?_⟩
      rintro _ ⟨⟩
    · obtain ⟨value, hvalue, rfl⟩ := Option.map_eq_some_iff.mp h
      refine ⟨hi.run, hi.loop, hi.linked, hi.waiting, ?_⟩
      rintro _ ⟨⟩
      exact hvalue
    · cases h
  · cases h

theorem inv_step {op : Op} (hmain : main.Scoped 0 ∅) (hi : s.Inv allocates failed main)
    (h : s.step build allocates failed op = some t) : t.Inv allocates failed main := by
  unfold step at h
  split at h
  · cases h
  rename_i hr
  have hr : s.returned = none := Option.not_isSome_iff_eq_none.mp hr
  cases op with
  | turn wait =>
    have hs : s.tasks.stack ≠ [] := by
      intro hnil
      obtain ⟨w, hturn, -⟩ := Option.bind_eq_some_iff.mp h
      simp [Tasks.turn, hnil] at hturn
    obtain ⟨t', ht', hi'⟩ := turn_step build hmain hi hr hs wait
    cases ht'.symm.trans h
    exact hi'
  | react op =>
    have hreact : s.react build allocates failed op = some t := h
    replace h := hreact
    rw [react] at h
    split at h
    · rename_i hop
      obtain ⟨⟨loop, resumed⟩, hloop, -⟩ := Option.bind_eq_some_iff.mp h
      obtain ⟨t', ht', hi'⟩ := react_step hmain hi hr hop.1 hop.2 hloop
      cases ht'.symm.trans hreact
      exact hi'
    · cases h
  | leave => exact leave_inv hi h

def nestedOps : List Op :=
  List.replicate 8 (.turn (.time 5)) ++
    [.react (.doEventLoopIteration 7), .react .resumeReadySleepers] ++
    List.replicate 7 (.turn .turn) ++ [.react .resumeReadySleepers, .react (.resumeReady 8),
      .react (.pollAndResume .fallback (Reactor.quiet [] 0)), .leave]

end BlockOn

end Corosig
