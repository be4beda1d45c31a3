import Corosig.Build
import Corosig.Library.OperationRuns
import Corosig.Library.Registrations
import Corosig.Reactor.Poll
import Corosig.Reactor.PollTimeout

namespace Corosig
open OperationRuns Reactor Registrations

namespace EventLoop

inductive Wait where
  | turn
  | time (awakeTime : Int)
  | event (handle : Int) (event : BitVec 16)
  deriving DecidableEq, Repr

inductive Cause where
  | turn
  | time (now : Int)
  | event (pollFd : PollFd)
  deriving DecidableEq, Repr

def Wait.allows : Wait → Cause → Bool
  | .turn, .turn => true
  | .time awakeTime, .time now => awakeTime ≤ now
  | .event handle _, .event pollFd => pollFd.fd = handle ∧ pollFd.revents ≠ 0
  | _, _ => false

-- Where do_event_loop_iteration is; returned is the state between two iterations.
inductive Phase where
  | returned (result : Except Int Unit)
  | sleepers (now : Int)
  | ready
  | poll (timeout : Int)
  | polled (pollFds : List PollFd) (ret i handled : Nat)
  deriving DecidableEq

-- m_poll_and_resume_method; room is how many entries can be pushed.
inductive PollMethod where
  | normal (room : Nat)
  | fallback

def PollMethod.room : PollMethod → Nat
  | .normal room => room
  | .fallback => bufSize

-- A node's handle is checked before the push that may fail.
def PollMethod.checked : PollMethod → Nat
  | .normal room => room + 1
  | .fallback => bufSize

inductive Op (κ : Type) where
  | link (c : κ) (wait : Wait)
  | destroy (c : κ)
  | doEventLoopIteration (now : Int)
  | resumeReadySleepers
  | resumeReady (now : Int)
  | pollAndResume (method : PollMethod) (answer : PollAnswer)
  | pollAndResumeImpl

def Op.isCall {κ : Type} : Op κ → Bool
  | .link .. | .destroy _ => true
  | _ => false

def Phase.isPolled : Phase → Bool
  | .polled .. => true
  | _ => false

def Phase.isPoll : Phase → Bool
  | .poll _ => true
  | _ => false

end EventLoop

open EventLoop

-- A node is named by the coroutine that waits at it, which waits at no other one. polled is the
-- list of poll_and_resume_impl.
structure EventLoop (κ : Type) where
  mReady : List κ := []
  mSleeping : SleepList κ Unit := .empty
  mPolled : List (PollListNode κ) := []
  polled : List (PollListNode κ) := []
  phase : Phase := .returned (.ok ())
  log : List (Registrations.Event κ Wait Cause) := []

namespace EventLoop

variable {κ : Type}

def waits (s : EventLoop κ) : List (κ × Wait) :=
  s.mReady.map (·, .turn) ++
    (s.mSleeping.entries.map fun e => (e.value.address, .time e.value.awakeTime)) ++
    (s.mPolled ++ s.polled).map fun node => (node.waitingCoro, .event node.handle node.event)

def linked (s : EventLoop κ) : List κ := s.waits.map Prod.fst

def schedule (s : EventLoop κ) (c : κ) : EventLoop κ := { s with mReady := s.mReady ++ [c] }

def scheduleWhenTimePasses (s : EventLoop κ) (c : κ) (awakeTime : Int) : EventLoop κ :=
  { s with mSleeping := s.mSleeping.insert ⟨c, (), awakeTime⟩ }

def scheduleWhenReady (s : EventLoop κ) (c : κ) (handle : Int) (event : BitVec 16) : EventLoop κ :=
  { s with mPolled := s.mPolled ++ [⟨c, handle, event⟩] }

def hasActiveTasks (s : EventLoop κ) : Bool :=
  !s.mPolled.isEmpty || !s.mReady.isEmpty || !s.mSleeping.entries.isEmpty

def doEventLoopIteration (build : Build) (now : Int) (s : EventLoop κ) : Option (EventLoop κ) :=
  match s.phase with
  | .returned _ => do
      ensure build s.hasActiveTasks
      return { s with phase := if s.mSleeping.entries.isEmpty then .ready else .sleepers now }
  | _ => none

def splice (s : EventLoop κ) : EventLoop κ :=
  { s with mPolled := s.mPolled ++ s.polled, polled := [], phase := .returned (.ok ()) }

-- One round of each loop; the coroutine that it resumes is returned with the state.
def resumeReadySleepers (s : EventLoop κ) : Option (EventLoop κ × Option κ) :=
  match s.phase, s.mSleeping.entries with
  | .sleepers _, [] => some ({ s with phase := .ready }, none)
  | .sleepers now, e :: _ =>
      if now < e.value.awakeTime then some ({ s with phase := .ready }, none)
      else
        let log := s.log ++ [.resumed e.value.address (.time now)]
        some ({ s with mSleeping := s.mSleeping.pop, log }, some e.value.address)
  | _, _ => none

def resumeReady (now : Int) (s : EventLoop κ) : Option (EventLoop κ × Option κ) :=
  match s.phase, s.mReady with
  | .ready, [] => (pollTimeout s.mReady s.mSleeping now).map fun timeout =>
      ({ s with phase := .poll timeout }, none)
  | .ready, c :: ready =>
      let log := s.log ++ [.resumed c .turn]
      some ({ s with mReady := ready, log }, some c)
  | _, _ => none

def pollAndResume (build : Build) (method : PollMethod) (answer : PollAnswer) (s : EventLoop κ) :
    Option (EventLoop κ) :=
  match s.phase with
  | .poll _ =>
      if s.mPolled.isEmpty then some { s with phase := .returned (.ok ()) }
      else do
        ensure build (∀ node ∈ s.mPolled.take method.checked, node.handle ≠ -1)
        if answer.ret = -1 then return { s with phase := .returned (.error answer.errno) }
        else
          let pollFds := writeRevents answer.revents (buildPollFds (s.mPolled.take method.room))
          return { s with
            mPolled := []
            polled := s.mPolled
            phase := .polled pollFds (sizeT answer.ret) 0 0 }
  | _ => none

def pollAndResumeImpl (s : EventLoop κ) : Option (EventLoop κ × Option κ) :=
  match s.phase with
  | .polled pollFds ret i handled =>
      if handled < ret then
        match pollFds[i]?, s.polled with
        | some pollFd, node :: polled =>
            if pollFd.fd ≠ node.handle then
              let handled := if pollFd.revents ≠ 0 then handled + 1 else handled
              some ({ s with phase := .polled pollFds ret (i + 1) handled }, none)
            else if pollFd.revents = 0 then
              let mPolled := s.mPolled ++ [node]
              some ({ s with mPolled, polled, phase := .polled pollFds ret (i + 1) handled }, none)
            else
              let log := s.log ++ [.resumed node.waitingCoro (.event pollFd)]
              some ({ s with polled, log, phase := .polled pollFds ret (i + 1) (handled + 1) },
                some node.waitingCoro)
        | _, _ => some (s.splice, none)
      else some (s.splice, none)
  | _ => none

def Does (s t : EventLoop κ) : Prop :=
  ∃ events, t.log = s.log ++ events ∧ Moves Wait.allows s.waits t.waits events

variable {build : Build} {s t : EventLoop κ} {c : κ} {wait : Wait} {resumed : Option κ}

inductive Control (s t : EventLoop κ) : Option κ → Prop where
  | quiet (hlog : t.log = s.log) (hperm : s.waits.Perm t.waits) : Control s t none
  | resumed {c : κ} {wait : Wait} {cause : Cause} (hlog : t.log = s.log ++ [.resumed c cause])
      (hallows : wait.allows cause) (hphase : t.phase.isPoll = false)
      (hperm : s.waits.Perm ((c, wait) :: t.waits)) : Control s t (some c)

theorem Control.does (h : s.Control t resumed) : s.Does t := by
  cases h with
  | quiet hlog hperm => exact ⟨[], by rw [hlog, List.append_nil], .quiet hperm⟩
  | resumed hlog hallows _ hperm => exact ⟨_, hlog, .resume hallows hperm⟩

theorem waits_place (s : EventLoop κ) (c : κ) (awakeTime : Int) :
    ((s.scheduleWhenTimePasses c awakeTime).mSleeping.entries.map fun e =>
        (e.value.address, Wait.time e.value.awakeTime)).Perm
      ((c, .time awakeTime) :: s.mSleeping.entries.map fun e =>
        (e.value.address, .time e.value.awakeTime)) :=
  let e : StableQueue.Entry (SleepListNode κ Unit) := ⟨⟨c, (), awakeTime⟩, s.mSleeping.next⟩
  (List.perm_orderedInsert _ e _).map _

theorem mem_linked : c ∈ s.linked ↔ ∃ wait, (c, wait) ∈ s.waits := by
  simp [linked]

theorem doEventLoopIteration_cases {now : Int} (hs : s.doEventLoopIteration build now = some t) :
    (∃ result, s.phase = .returned result) ∧
      (s.mSleeping.entries = [] ∧ t = { s with phase := .ready } ∨
        t = { s with phase := .sleepers now }) := by
  rw [doEventLoopIteration] at hs
  split at hs
  · rename_i result hphase
    obtain ⟨-, -, h⟩ := Option.bind_eq_some_iff.mp hs
    cases h
    refine ⟨⟨result, hphase⟩, ?_⟩
    cases hempty : s.mSleeping.entries.isEmpty
    · exact .inr rfl
    · exact .inl ⟨List.isEmpty_iff.mp hempty, rfl⟩
  · cases hs

theorem resumeReadySleepers_cases (hs : s.resumeReadySleepers = some (t, resumed)) :
    ∃ now, s.phase = .sleepers now ∧
      (t = { s with phase := .ready } ∧ resumed = none ∧
          (∀ e ∈ s.mSleeping.entries, now < e.value.awakeTime) ∨
        ∃ e rest, s.mSleeping.entries = e :: rest ∧ e.value.awakeTime ≤ now ∧
          resumed = some e.value.address ∧ t = { s with
            mSleeping := s.mSleeping.pop
            log := s.log ++ [.resumed e.value.address (.time now)] }) := by
  rw [resumeReadySleepers] at hs
  split at hs
  · rename_i now hphase hentries
    cases hs
    exact ⟨now, hphase, .inl ⟨rfl, rfl, by simp [hentries]⟩⟩
  · rename_i now e rest hphase hentries
    refine ⟨now, hphase, ?_⟩
    split at hs
    · rename_i hlater
      cases hs
      have hordered := hentries ▸ s.mSleeping.ordered
      refine .inl ⟨rfl, rfl, hentries ▸ List.forall_mem_cons.mpr ⟨hlater, fun e he => ?_⟩⟩
      rcases (List.pairwise_cons.mp hordered).1 e he with hlt | ⟨heq, -⟩
      · exact hlater.trans hlt
      · exact hlater.trans_eq heq
    · rename_i hdue
      cases hs
      exact .inr ⟨e, rest, hentries, not_lt.mp hdue, rfl, rfl⟩
  · cases hs

theorem resumeReady_cases {now : Int} (hs : s.resumeReady now = some (t, resumed)) :
    s.phase = .ready ∧
      ((∃ timeout, t = { s with phase := .poll timeout }) ∧ s.mReady = [] ∧ resumed = none ∨
        ∃ c ready, s.mReady = c :: ready ∧ resumed = some c ∧
          t = { s with mReady := ready, log := s.log ++ [.resumed c .turn] }) := by
  rw [resumeReady] at hs
  split at hs
  · rename_i hphase hready
    obtain ⟨timeout, -, h⟩ := Option.map_eq_some_iff.mp hs
    cases h
    exact ⟨hphase, .inl ⟨⟨timeout, rfl⟩, hready, rfl⟩⟩
  · rename_i c ready hphase hready
    cases hs
    exact ⟨hphase, .inr ⟨c, ready, hready, rfl, rfl⟩⟩
  · cases hs

theorem pollAndResume_cases {method : PollMethod} {answer : PollAnswer}
    (hs : s.pollAndResume build method answer = some t) : (∃ timeout, s.phase = .poll timeout) ∧
      ((∃ result, t = { s with phase := .returned result }) ∨
        ∃ pollFds ret, t = { s with
          mPolled := []
          polled := s.mPolled
          phase := .polled pollFds ret 0 0 }) := by
  rw [pollAndResume] at hs
  split at hs
  · rename_i timeout hphase
    refine ⟨⟨timeout, hphase⟩, ?_⟩
    split at hs
    · cases hs
      exact .inl ⟨_, rfl⟩
    · obtain ⟨-, -, hs⟩ := Option.bind_eq_some_iff.mp hs
      split at hs
      · cases hs
        exact .inl ⟨_, rfl⟩
      · cases hs
        exact .inr ⟨_, _, rfl⟩
  · cases hs

theorem pollAndResumeImpl_cases (hs : s.pollAndResumeImpl = some (t, resumed)) :
    ∃ pollFds ret i handled, s.phase = .polled pollFds ret i handled ∧
      (t = s.splice ∧ resumed = none ∨ ∃ handled',
        t = { s with phase := .polled pollFds ret (i + 1) handled' } ∧ resumed = none ∨
        ∃ node polled, s.polled = node :: polled ∧
          (resumed = none ∧ t = { s with
              mPolled := s.mPolled ++ [node]
              polled
              phase := .polled pollFds ret (i + 1) handled' } ∨
            ∃ pollFd, pollFd.fd = node.handle ∧ pollFd.revents ≠ 0 ∧
              resumed = some node.waitingCoro ∧ t = { s with
                polled
                log := s.log ++ [.resumed node.waitingCoro (.event pollFd)]
                phase := .polled pollFds ret (i + 1) handled' })) := by
  rw [pollAndResumeImpl] at hs
  split at hs
  · rename_i pollFds ret i handled hphase
    refine ⟨pollFds, ret, i, handled, hphase, ?_⟩
    split at hs
    · split at hs
      · rename_i pollFd node polled hfd hpolled
        split at hs
        · cases hs
          exact .inr ⟨_, .inl ⟨rfl, rfl⟩⟩
        · rename_i hhandle
          split at hs
          · cases hs
            exact .inr ⟨_, .inr ⟨node, polled, hpolled, .inl ⟨rfl, rfl⟩⟩⟩
          · rename_i hrevents
            cases hs
            exact .inr ⟨_, .inr ⟨node, polled, hpolled, .inr ⟨pollFd, not_not.mp hhandle, hrevents,
              rfl, rfl⟩⟩⟩
      · cases hs
        exact .inl ⟨rfl, rfl⟩
    · cases hs
      exact .inl ⟨rfl, rfl⟩
  · cases hs

theorem doEventLoopIteration_control {now : Int} (hi : s.phase.isPolled = false → s.polled = [])
    (hs : s.doEventLoopIteration build now = some t) :
    s.Control t none ∧ (t.phase.isPolled = false → t.polled = []) := by
  obtain ⟨⟨result, hphase⟩, ⟨-, rfl⟩ | rfl⟩ := doEventLoopIteration_cases hs
  · exact ⟨.quiet rfl (.refl _), fun _ => hi (hphase ▸ rfl)⟩
  · exact ⟨.quiet rfl (.refl _), fun _ => hi (hphase ▸ rfl)⟩

theorem pollAndResume_control {method : PollMethod} {answer : PollAnswer}
    (hi : s.phase.isPolled = false → s.polled = [])
    (hs : s.pollAndResume build method answer = some t) :
    s.Control t none ∧ (t.phase.isPolled = false → t.polled = []) := by
  obtain ⟨⟨timeout, hphase⟩, h⟩ := pollAndResume_cases hs
  have haside := hi (hphase ▸ rfl)
  obtain ⟨result, rfl⟩ | ⟨pollFds, ret, rfl⟩ := h
  · exact ⟨.quiet rfl (.refl _), fun _ => haside⟩
  · refine ⟨.quiet rfl ?_, fun h => Bool.noConfusion h⟩
    simp only [waits, haside, List.append_nil, List.nil_append]
    exact .refl _

variable [DecidableEq κ]

-- Pushing a node that is in a list already fails the check of the hook.
def link (s : EventLoop κ) (c : κ) (wait : Wait) : Option (EventLoop κ) :=
  if c ∈ s.linked then none
  else
    let s : EventLoop κ := { s with log := s.log ++ [.linked c wait] }
    match wait with
    | .turn => some (s.schedule c)
    | .time awakeTime => some (s.scheduleWhenTimePasses c awakeTime)
    | .event handle event => some (s.scheduleWhenReady c handle event)

def unlink (s : EventLoop κ) (c : κ) : EventLoop κ :=
  if c ∈ s.linked then { s with
    mReady := s.mReady.filter (· ≠ c)
    mSleeping := s.mSleeping.remove fun node => node.address = c
    mPolled := s.mPolled.filter (·.waitingCoro ≠ c)
    polled := s.polled.filter (·.waitingCoro ≠ c)
    log := s.log ++ [.unlinked c] }
  else s

-- No coroutine runs while poll waits.
def step (build : Build) (s : EventLoop κ) : Op κ → Option (EventLoop κ × Option κ)
  | .link c wait => if s.phase.isPoll then none else (s.link c wait).map (·, none)
  | .destroy c => if s.phase.isPoll then none else some (s.unlink c, none)
  | .doEventLoopIteration now => (s.doEventLoopIteration build now).map (·, none)
  | .resumeReadySleepers => s.resumeReadySleepers
  | .resumeReady now => s.resumeReady now
  | .pollAndResume method answer => (s.pollAndResume build method answer).map (·, none)
  | .pollAndResumeImpl => s.pollAndResumeImpl

def next (build : Build) (s : EventLoop κ) (op : Op κ) : Option (EventLoop κ) :=
  (s.step build op).map Prod.fst

structure Inv (s : EventLoop κ) : Prop where
  consistent : Consistent Wait.allows s.waits s.log
  aside : s.phase.isPolled = false → s.polled = []

theorem link_cases (hs : s.link c wait = some t) : c ∉ s.linked ∧
    t.log = s.log ++ [.linked c wait] ∧ t.waits.Perm ((c, wait) :: s.waits) ∧
    t.phase = s.phase ∧ t.polled = s.polled := by
  rw [link] at hs
  split at hs
  · cases hs
  rename_i hc
  refine ⟨hc, ?_⟩
  cases wait with
  | turn =>
    cases hs
    refine ⟨rfl, List.perm_iff_count.mpr fun a => ?_, rfl, rfl⟩
    simp only [waits, schedule, List.map_append, List.map_cons, List.map_nil, List.count_append,
      List.count_cons, List.count_nil]
    omega
  | time awakeTime =>
    cases hs
    refine ⟨rfl, List.perm_iff_count.mpr fun a => ?_, rfl, rfl⟩
    have hplace := (waits_place s c awakeTime).count_eq a
    simp only [waits, scheduleWhenTimePasses, List.count_append, List.count_cons] at hplace ⊢
    omega
  | event handle event =>
    cases hs
    refine ⟨rfl, List.perm_iff_count.mpr fun a => ?_, rfl, rfl⟩
    simp only [waits, scheduleWhenReady, List.map_append, List.map_cons, List.map_nil,
      List.count_append, List.count_cons, List.count_nil]
    omega

theorem link_does (hs : s.link c wait = some t) : s.Does t := by
  obtain ⟨hc, hlog, hperm, -⟩ := link_cases hs
  exact ⟨_, hlog, .link hc hperm⟩

theorem waits_unlink (h : c ∈ s.linked) : (s.unlink c).waits = s.waits.filter (·.1 ≠ c) := by
  rw [unlink, if_pos h]
  simp only [waits, StableQueue.Queue.remove, StableQueue.Queue.keep, List.filter_append,
    List.filter_map, List.map_append, Function.comp_def]
  simp

theorem unlink_does (hi : s.Inv) (c : κ) : s.Does (s.unlink c) ∧
    (s.unlink c).phase = s.phase ∧ (s.polled = [] → (s.unlink c).polled = []) := by
  by_cases hc : c ∈ s.linked
  · have hwaits := waits_unlink hc
    obtain ⟨wait, hmem⟩ := mem_linked.mp hc
    have hperm := hwaits ▸ perm_cons_filter hi.consistent.nodup hmem
    rw [unlink, if_pos hc] at hperm ⊢
    refine ⟨⟨_, rfl, .unlink hperm⟩, rfl, fun h => ?_⟩
    rw [h, List.filter_nil]
  · rw [unlink, if_neg hc]
    exact ⟨(Control.quiet rfl (.refl _)).does, rfl, id⟩

theorem resumeReadySleepers_control (hi : s.phase.isPolled = false → s.polled = [])
    (hs : s.resumeReadySleepers = some (t, resumed)) :
    s.Control t resumed ∧ (t.phase.isPolled = false → t.polled = []) := by
  obtain ⟨now, hphase, h⟩ := resumeReadySleepers_cases hs
  have haside := hi (hphase ▸ rfl)
  obtain ⟨rfl, rfl, -⟩ | ⟨e, rest, hentries, hdue, rfl, rfl⟩ := h
  · exact ⟨.quiet rfl (.refl _), fun _ => haside⟩
  · have hperm : s.waits.Perm ((e.value.address, .time e.value.awakeTime) ::
        waits { s with mSleeping := s.mSleeping.pop }) := by
      refine List.perm_iff_count.mpr fun a => ?_
      simp only [waits, StableQueue.Queue.pop, StableQueue.Queue.keep, hentries, List.tail_cons,
        List.map_cons, List.count_append, List.count_cons]
      omega
    have hallows : Wait.allows (.time e.value.awakeTime) (.time now) := decide_eq_true hdue
    exact ⟨.resumed rfl hallows (hphase ▸ rfl) hperm, fun _ => haside⟩

theorem resumeReady_control {now : Int} (hi : s.phase.isPolled = false → s.polled = [])
    (hs : s.resumeReady now = some (t, resumed)) :
    s.Control t resumed ∧ (t.phase.isPolled = false → t.polled = []) := by
  obtain ⟨hphase, h⟩ := resumeReady_cases hs
  have haside := hi (hphase ▸ rfl)
  obtain ⟨⟨timeout, rfl⟩, -, rfl⟩ | ⟨c, ready, hready, rfl, rfl⟩ := h
  · exact ⟨.quiet rfl (.refl _), fun _ => haside⟩
  · have hperm : s.waits.Perm ((c, .turn) :: waits { s with mReady := ready }) := by
      refine List.perm_iff_count.mpr fun a => ?_
      simp only [waits, hready, List.map_cons, List.count_append, List.count_cons]
      omega
    exact ⟨.resumed rfl rfl (hphase ▸ rfl) hperm, fun _ => haside⟩

theorem pollAndResumeImpl_control (hs : s.pollAndResumeImpl = some (t, resumed)) :
    s.Control t resumed ∧ (t.phase.isPolled = false → t.polled = []) := by
  obtain ⟨pollFds, ret, i, handled, hphase, h⟩ := pollAndResumeImpl_cases hs
  obtain ⟨rfl, rfl⟩ | ⟨handled', ⟨rfl, rfl⟩ | ⟨node, polled, hpolled, ⟨rfl, rfl⟩ |
    ⟨pollFd, hfd, hrevents, rfl, rfl⟩⟩⟩ := h
  · refine ⟨.quiet rfl ?_, fun _ => rfl⟩
    simp only [waits, splice, List.append_nil]
    exact .refl _
  · exact ⟨.quiet rfl (.refl _), fun h => Bool.noConfusion h⟩
  · refine ⟨.quiet rfl ?_, fun h => Bool.noConfusion h⟩
    simp only [waits, hpolled, List.append_assoc, List.singleton_append]
    exact .refl _
  · have hperm : s.waits.Perm ((node.waitingCoro, .event node.handle node.event) ::
        waits { s with polled }) := by
      refine List.perm_iff_count.mpr fun a => ?_
      simp only [waits, hpolled, List.map_append, List.map_cons, List.count_append,
        List.count_cons]
      omega
    have hallows : Wait.allows (.event node.handle node.event) (.event pollFd) :=
      decide_eq_true ⟨hfd, hrevents⟩
    exact ⟨.resumed rfl hallows rfl hperm, fun h => Bool.noConfusion h⟩

theorem control_step {op : Op κ} (hi : s.Inv) (hop : op.isCall = false)
    (hs : s.step build op = some (t, resumed)) :
    s.Control t resumed ∧ (t.phase.isPolled = false → t.polled = []) := by
  cases op with
  | link c wait => cases hop
  | destroy c => cases hop
  | doEventLoopIteration now =>
    obtain ⟨t', h', h⟩ := Option.map_eq_some_iff.mp hs
    cases h
    exact doEventLoopIteration_control hi.aside h'
  | resumeReadySleepers => exact resumeReadySleepers_control hi.aside hs
  | resumeReady now => exact resumeReady_control hi.aside hs
  | pollAndResume method answer =>
    obtain ⟨t', h', h⟩ := Option.map_eq_some_iff.mp hs
    cases h
    exact pollAndResume_control hi.aside h'
  | pollAndResumeImpl => exact pollAndResumeImpl_control hs

theorem step_does {op : Op κ} (hi : s.Inv) (hs : s.step build op = some (t, resumed)) :
    s.Does t ∧ (t.phase.isPolled = false → t.polled = []) := by
  by_cases hop : op.isCall = false
  · obtain ⟨hcontrol, haside⟩ := control_step hi hop hs
    exact ⟨hcontrol.does, haside⟩
  cases op with
  | link c wait =>
    rw [step] at hs
    split at hs
    · cases hs
    obtain ⟨t', hlink, h⟩ := Option.map_eq_some_iff.mp hs
    cases h
    obtain ⟨-, -, -, hphase, hpolled⟩ := link_cases hlink
    exact ⟨link_does hlink, fun h => hpolled.trans (hi.aside (hphase ▸ h))⟩
  | destroy c =>
    rw [step] at hs
    split at hs
    · cases hs
    cases hs
    obtain ⟨hdoes, hphase, hpolled⟩ := unlink_does hi c
    exact ⟨hdoes, fun h => hpolled (hi.aside (hphase ▸ h))⟩
  | _ => exact absurd rfl hop

theorem inv_start : ({} : EventLoop κ).Inv := ⟨consistent_nil, fun _ => rfl⟩

theorem next_step {op : Op κ} (hs : s.next build op = some t) :
    ∃ resumed, s.step build op = some (t, resumed) := by
  obtain ⟨⟨t', resumed⟩, h, rfl⟩ := Option.map_eq_some_iff.mp hs
  exact ⟨resumed, h⟩

theorem Inv.next {op : Op κ} (hi : s.Inv) (hs : s.next build op = some t) : t.Inv := by
  obtain ⟨resumed, hstep⟩ := next_step hs
  obtain ⟨⟨events, hlog, hmoves⟩, haside⟩ := step_does hi hstep
  exact ⟨hlog ▸ hi.consistent.moves hmoves, haside⟩

theorem linked_unlink (s : EventLoop κ) (c : κ) :
    (s.unlink c).linked = s.linked.filter (· ≠ c) := by
  by_cases hc : c ∈ s.linked
  · rw [linked, waits_unlink hc, linked, List.filter_map]
    rfl
  · rw [unlink, if_neg hc]
    refine (List.filter_eq_self.mpr fun d hd => decide_eq_true ?_).symm
    rintro rfl
    exact hc hd

theorem next_destroy (hi : s.Inv) (hp : s.phase.isPoll = false) (c : κ) :
    s.next build (.destroy c) = some (s.unlink c) ∧ (s.unlink c).Inv ∧
      (s.unlink c).phase = s.phase := by
  have hnext : s.next build (.destroy c) = some (s.unlink c) := by
    simp [next, step, hp]
  exact ⟨hnext, hi.next hnext, (unlink_does hi c).2.1⟩

theorem destroy_all (hi : s.Inv) (hp : s.phase.isPoll = false) (gone : List κ) :
    ∃ t, (gone.map Op.destroy).foldlM (next build) s = some t ∧ t.Inv ∧ t.phase = s.phase ∧
      t.linked = s.linked.filter (· ∉ gone) := by
  induction gone generalizing s with
  | nil => exact ⟨s, rfl, hi, rfl, by simp⟩
  | cons c gone ih =>
    obtain ⟨hnext, hi', hphase⟩ : s.next build (.destroy c) = _ ∧ _ := next_destroy hi hp c
    obtain ⟨t, ht, hti, htphase, hlinked⟩ := ih hi' (hphase ▸ hp)
    refine ⟨t, ?_, hti, htphase.trans hphase, ?_⟩
    · rw [List.map_cons, List.foldlM_cons, hnext]
      exact ht
    · rw [hlinked, linked_unlink, List.filter_filter]
      refine List.filter_congr fun d _ => ?_
      simp [Bool.and_comm]

theorem next_link (hi : s.Inv) (hp : s.phase.isPoll = false) (hc : c ∉ s.linked) (wait : Wait) :
    ∃ t, s.next build (.link c wait) = some t ∧ t.Inv ∧ t.phase = s.phase ∧
      t.linked.Perm (c :: s.linked) := by
  obtain ⟨t, ht⟩ : ∃ t, s.link c wait = some t := by
    rw [link, if_neg hc]
    cases wait <;> exact ⟨_, rfl⟩
  have hnext : s.next build (.link c wait) = some t := by
    simp [next, step, hp, ht]
  obtain ⟨-, -, hperm, hphase, -⟩ := link_cases ht
  exact ⟨t, hnext, hi.next hnext, hphase, hperm.map Prod.fst⟩

end EventLoop

end Corosig
