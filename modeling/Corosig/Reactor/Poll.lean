import Corosig.Reactor.Ready
import Mathlib.Algebra.Group.Int.Defs
import Mathlib.Data.List.Nodup

namespace Corosig.Reactor
open Loop

structure PollListNode (κ : Type) where
  waitingCoro : κ
  handle : Int
  event : BitVec 16
  deriving DecidableEq, Repr

structure PollFd where
  fd : Int
  events : BitVec 16
  revents : BitVec 16 := 0
  deriving DecidableEq, Repr

structure PollAnswer where
  ret : Int
  int : -2 ^ 31 ≤ ret ∧ ret < 2 ^ 31
  revents : Nat → BitVec 16
  errno : Int := 0

-- The system as poll finds and leaves it.
abbrev Poll (ω : Type) := ω → List PollFd → Int → PollAnswer × ω

abbrev Coros (σ κ : Type) := σ → κ → σ × List (Action (PollListNode κ))

structure Registered (σ κ : Type) where
  coros : σ
  mPolled : List (PollListNode κ)
  nodup : mPolled.Nodup

structure Polling (σ κ : Type) where
  coros : σ
  mPolled : List (PollListNode κ)
  polled : List (PollListNode κ) := []
  i : Nat := 0
  handled : Nat := 0
  log : List (Event (PollListNode κ)) := []

variable {σ κ ω : Type}

def Registered.untouched (s : Registered σ κ) : Polling σ κ :=
  { coros := s.coros, mPolled := s.mPolled }

def Registered.enter (s : Registered σ κ) : Polling σ κ :=
  { coros := s.coros, mPolled := [], polled := s.mPolled }

def Polling.splice (s : Polling σ κ) : Polling σ κ :=
  { s with mPolled := s.mPolled ++ s.polled, polled := [] }

def buildPollFds (nodes : List (PollListNode κ)) : List PollFd :=
  nodes.map fun node => { fd := node.handle, events := node.event }

def writeRevents (revents : Nat → BitVec 16) (pollFds : List PollFd) : List PollFd :=
  pollFds.mapIdx fun i fd => { fd with revents := revents i }

def sizeT (ret : Int) : Nat := (ret % 2 ^ 64).toNat

def resumptions (resume : Coros σ κ) :
    σ → List (PollListNode κ) → σ × List (Event (PollListNode κ))
  | coros, [] => (coros, [])
  | coros, node :: nodes =>
      let (coros, actions) := resume coros node.waitingCoro
      let (coros, log) := resumptions resume coros nodes
      (coros, .resumed node :: actions.map .did ++ log)

theorem resumptions_concat (resume : Coros σ κ) (coros : σ) (nodes : List (PollListNode κ))
    (node : PollListNode κ) :
    resumptions resume coros (nodes ++ [node]) =
      ((resume (resumptions resume coros nodes).1 node.waitingCoro).1,
        (resumptions resume coros nodes).2 ++ .resumed node ::
          (resume (resumptions resume coros nodes).1 node.waitingCoro).2.map .did) := by
  induction nodes generalizing coros with
  | nil => simp [resumptions]
  | cons first nodes ih => simp [resumptions, ih]

variable [DecidableEq κ]

def pollStep (resume : Coros σ κ) (pollFds : List PollFd) (ret : Nat) (s : Polling σ κ) :
    Next (Polling σ κ) (Option (Polling σ κ)) :=
  if s.handled < ret then
    match pollFds[s.i]?, s.polled with
    | some pollFd, node :: polled =>
        if pollFd.fd ≠ node.handle then
          .more { s with
            i := s.i + 1
            handled := if pollFd.revents ≠ 0 then s.handled + 1 else s.handled }
        else if pollFd.revents = 0 then
          .more { s with i := s.i + 1, polled := polled, mPolled := s.mPolled ++ [node] }
        else
          match (resume s.coros node.waitingCoro).2.foldlM performApart (polled, s.mPolled) with
          | some (polled, mPolled) => .more ⟨(resume s.coros node.waitingCoro).1, mPolled, polled,
              s.i + 1, s.handled + 1,
              s.log ++ .resumed node :: (resume s.coros node.waitingCoro).2.map .did⟩
          | none => .done none
    | _, _ => .done (some s.splice)
  else .done (some s.splice)

def pollPass (resume : Coros σ κ) (answer : PollAnswer) (pollFds : List PollFd) :
    Polling σ κ → Next (Polling σ κ) (Option (Polling σ κ)) :=
  pollStep resume (writeRevents answer.revents pollFds) (sizeT answer.ret)

def pollAndResumeImpl (poll : Poll ω) (resume : Coros σ κ) (pollFds : List PollFd) (timeout : Int)
    (system : ω) (s : Registered σ κ) : Option (Except Int Unit × Polling σ κ × ω) :=
  let (answer, system) := poll system pollFds timeout
  if answer.ret = -1 then some (.error answer.errno, s.untouched, system)
  else
    (run (pollPass resume answer pollFds) (pollFds.length + 1) s.enter).join.map
      fun t => (.ok (), t, system)

def pollAndResumeNormal (poll : Poll ω) (resume : Coros σ κ) (room : Nat) (timeout : Int)
    (system : ω) (s : Registered σ κ) : Option (Except Int Unit × Polling σ κ × ω) :=
  if s.mPolled = [] then some (.ok (), s.untouched, system)
  else pollAndResumeImpl poll resume (buildPollFds (s.mPolled.take room)) timeout system s

def bufSize : Nat := 64

def pollAndResumeFallback (poll : Poll ω) (resume : Coros σ κ) (timeout : Int) (system : ω)
    (s : Registered σ κ) : Option (Except Int Unit × Polling σ κ × ω) :=
  if s.mPolled = [] then some (.ok (), s.untouched, system)
  else pollAndResumeImpl poll resume (buildPollFds (s.mPolled.take bufSize)) timeout system s

variable {resume : Coros σ κ} {pollFds : List PollFd} {ret : Nat} {s t : Polling σ κ}

theorem pollStep_more (h : pollStep resume pollFds ret s = .more t) :
    ∃ pollFd node polled, s.handled < ret ∧ pollFds[s.i]? = some pollFd ∧
      s.polled = node :: polled ∧ t.i = s.i + 1 ∧
      (pollFd.fd ≠ node.handle ∧
          t.polled = s.polled ∧ t.mPolled = s.mPolled ∧ t.log = s.log ∧ t.coros = s.coros ∨
        pollFd.fd = node.handle ∧ pollFd.revents = 0 ∧
          t.polled = polled ∧ t.mPolled = s.mPolled ++ [node] ∧ t.log = s.log ∧
          t.coros = s.coros ∨
        pollFd.fd = node.handle ∧ pollFd.revents ≠ 0 ∧
          (resume s.coros node.waitingCoro).2.foldlM performApart (polled, s.mPolled) =
            some (t.polled, t.mPolled) ∧
          t.log = s.log ++ .resumed node :: (resume s.coros node.waitingCoro).2.map .did ∧
          t.coros = (resume s.coros node.waitingCoro).1) := by
  unfold pollStep at h
  split at h
  · rename_i hlt
    split at h
    · rename_i pollFd node polled hfd hp
      refine ⟨pollFd, node, polled, hlt, hfd, hp, ?_⟩
      split at h
      · rename_i hne
        cases h
        exact ⟨rfl, .inl ⟨hne, rfl, rfl, rfl, rfl⟩⟩
      · rename_i heq
        rw [not_not] at heq
        split at h
        · rename_i hz
          cases h
          exact ⟨rfl, .inr (.inl ⟨heq, hz, rfl, rfl, rfl, rfl⟩)⟩
        · rename_i hz
          split at h
          · rename_i hf
            cases h
            exact ⟨rfl, .inr (.inr ⟨heq, hz, hf, rfl, rfl⟩)⟩
          · cases h
    · cases h
  · cases h

def Relinks (resume : Coros σ κ) (pollFds : List PollFd) (ret : Nat) (s : Polling σ κ) : Prop :=
  s.handled < ret ∧ ∃ pollFd node polled, pollFds[s.i]? = some pollFd ∧
    s.polled = node :: polled ∧ pollFd.fd = node.handle ∧ pollFd.revents ≠ 0 ∧
    (resume s.coros node.waitingCoro).2.foldlM performApart (polled, s.mPolled) = none

theorem pollStep_done {r : Option (Polling σ κ)} (h : pollStep resume pollFds ret s = .done r) :
    r = some s.splice ∨ r = none ∧ Relinks resume pollFds ret s := by
  unfold pollStep at h
  split at h
  · rename_i hlt
    split at h
    · rename_i pollFd node polled hfd hp
      split at h
      · cases h
      · rename_i heq
        split at h
        · cases h
        · rename_i hz
          split at h
          · cases h
          · rename_i hf
            cases h
            exact .inr ⟨rfl, hlt, pollFd, node, polled, hfd, hp, not_not.mp heq, hz, hf⟩
    · cases h
      exact .inl rfl
  · cases h
    exact .inl rfl

theorem pollPass_halts (resume : Coros σ κ) (answer : PollAnswer) (pollFds : List PollFd)
    (s : Registered σ κ) :
    ∃ r, run (pollPass resume answer pollFds) (pollFds.length + 1) s.enter = some r := by
  refine run_of_measure (I := fun _ => True) (fun s => pollFds.length - s.i)
    (fun s t _ h => ⟨trivial, ?_⟩) trivial (Nat.lt_succ_of_le (Nat.sub_le _ _))
  obtain ⟨pollFd, node, polled, -, hfd, -, hi, -⟩ := pollStep_more h
  obtain ⟨hlt, -⟩ := List.getElem?_eq_some_iff.mp hfd
  rw [writeRevents, List.length_mapIdx] at hlt
  rw [hi]
  omega

variable {ν : Type}

def Event.node : Event ν → ν
  | .resumed n => n
  | .did (.schedule n) => n
  | .did (.cancel n) => n

structure Account (present : Prop) (n : ν) (inPolled inMPolled : Prop) (events : List (Event ν)) :
    Prop where
  fresh : inPolled → present ∧ events = []
  linked : inMPolled → present ∧ events = [] ∨ events.getLast? = some (.did (.schedule n))
  kept : present → events = [] → inPolled ∨ inMPolled
  registered : events.getLast? = some (.did (.schedule n)) → inMPolled
  first : ∀ e rest, events = e :: rest →
    (present → e = .resumed n ∨ e = .did (.cancel n)) ∧ .resumed n ∉ rest
  served : .resumed n ∈ events → present

variable {n : ν} {present inPolled inMPolled : Prop} {events : List (Event ν)}

theorem Account.congr {inPolled' inMPolled' : Prop}
    (h : Account present n inPolled inMPolled events) (hw : inPolled' ↔ inPolled)
    (hs : inMPolled' ↔ inMPolled) : Account present n inPolled' inMPolled' events := by
  rw [propext hw, propext hs]
  exact h

theorem Account.later (h : Account present n inPolled inMPolled events) :
    Account present n False (inPolled ∨ inMPolled) events where
  fresh hw := hw.elim
  linked hs := hs.elim (fun hw => .inl (h.fresh hw)) h.linked
  kept hp he := .inr (h.kept hp he)
  registered hl := .inr (h.registered hl)
  first := h.first
  served := h.served

theorem Account.resumed (h : Account present n True inMPolled events) :
    Account present n False False (events ++ [.resumed n]) := by
  obtain ⟨hp, rfl⟩ := h.fresh trivial
  refine ⟨False.elim, False.elim, fun _ he => ?_, fun hl => ?_, fun e rest he => ?_, fun _ => hp⟩
  · cases he
  · cases hl
  · cases he
    exact ⟨fun _ => .inl rfl, List.not_mem_nil⟩

theorem Account.scheduled (h : Account present n False False events) :
    Account present n False True (events ++ [.did (.schedule n)]) := by
  refine ⟨False.elim, fun _ => .inr (by simp), fun _ _ => .inr trivial, fun _ => trivial,
    fun e rest he => ?_, fun hr => h.served (by simpa using hr)⟩
  cases events with
  | nil =>
    cases he
    exact ⟨fun hp => ((h.kept hp rfl).elim id id).elim, List.not_mem_nil⟩
  | cons e' rest' =>
    cases he
    obtain ⟨hf, hr⟩ := h.first e rest' rfl
    exact ⟨hf, by simpa using hr⟩

theorem Account.cancelled (h : Account present n inPolled inMPolled events) :
    Account present n False False (events ++ [.did (.cancel n)]) := by
  refine ⟨False.elim, False.elim, fun _ he => ?_, fun hl => ?_, fun e rest he => ?_,
    fun hr => h.served (by simpa using hr)⟩
  · simp at he
  · simp at hl
  · cases events with
    | nil =>
      cases he
      exact ⟨fun _ => .inr rfl, List.not_mem_nil⟩
    | cons e' rest' =>
      cases he
      obtain ⟨hf, hr⟩ := h.first e rest' rfl
      exact ⟨hf, by simpa using hr⟩

variable [DecidableEq ν]

def eventsOf (log : List (Event ν)) (n : ν) : List (Event ν) := log.filter (·.node = n)

theorem eventsOf_self (log : List (Event ν)) (e : Event ν) {n : ν} (h : e.node = n) :
    eventsOf (log ++ [e]) n = eventsOf log n ++ [e] := by
  simp [eventsOf, h]

theorem eventsOf_other (log : List (Event ν)) (e : Event ν) {n : ν} (h : e.node ≠ n) :
    eventsOf (log ++ [e]) n = eventsOf log n := by
  simp [eventsOf, h]

theorem mem_eventsOf {log : List (Event ν)} {n : ν} :
    .resumed n ∈ eventsOf log n ↔ .resumed n ∈ log := by
  simp [eventsOf, Event.node]

theorem count_eventsOf (log : List (Event ν)) (n : ν) :
    (eventsOf log n).count (.resumed n) = log.count (.resumed n) :=
  List.count_filter (by simp [Event.node])

structure Accounts (entry polled mPolled : List ν) (log : List (Event ν)) : Prop where
  nodup : (polled ++ mPolled).Nodup
  account : ∀ n, Account (n ∈ entry) n (n ∈ polled) (n ∈ mPolled) (eventsOf log n)

variable {entry polled mPolled : List ν} {log : List (Event ν)}

theorem Accounts.enter (h : entry.Nodup) : Accounts entry entry [] [] where
  nodup := by simpa using h
  account n :=
    ⟨fun hn => ⟨hn, rfl⟩, fun hn => absurd hn List.not_mem_nil, fun hn _ => .inl hn,
      fun hl => (by cases hl), fun e rest he => (by cases he),
      fun hr => absurd hr List.not_mem_nil⟩

theorem Accounts.defer (h : Accounts entry (n :: polled) mPolled log) :
    Accounts entry polled (mPolled ++ [n]) log := by
  have hnodup := h.nodup
  refine ⟨?_, fun m => ?_⟩
  · rw [← List.append_assoc]
    exact ((List.perm_append_singleton n _).symm).nodup_iff.mp hnodup
  · obtain rfl | hm := eq_or_ne n m
    · have hn : n ∉ polled := fun hn => (List.nodup_cons.mp hnodup).1 (by simp [hn])
      exact (h.account n).later.congr (by simp [hn]) (by simp)
    · exact (h.account m).congr (by simp [hm.symm]) (by simp [hm.symm])

theorem Accounts.splice (h : Accounts entry polled mPolled log) :
    Accounts entry [] (mPolled ++ polled) log where
  nodup := by simpa using List.perm_append_comm.nodup_iff.mp h.nodup
  account n := (h.account n).later.congr (by simp) (by simp [or_comm])

theorem Accounts.resumed (h : Accounts entry (n :: polled) mPolled log) :
    Accounts entry polled mPolled (log ++ [.resumed n]) := by
  have hnodup := h.nodup
  rw [List.cons_append, List.nodup_cons, List.mem_append, not_or] at hnodup
  obtain ⟨hn, hnodup⟩ := hnodup
  refine ⟨hnodup, fun m => ?_⟩
  obtain rfl | hm := eq_or_ne n m
  · rw [eventsOf_self (n := n) log (.resumed n) rfl]
    exact ((h.account n).congr (by simp) .rfl).resumed.congr (by simp [hn.1]) (by simp [hn.2])
  · rw [eventsOf_other log (.resumed n) hm]
    exact (h.account m).congr (by simp [hm.symm]) .rfl

theorem Accounts.did {q q' : List ν × List ν} {a : Action ν} (h : Accounts entry q.1 q.2 log)
    (ha : performApart q a = some q') : Accounts entry q'.1 q'.2 (log ++ [.did a]) := by
  cases a with
  | schedule n =>
    simp only [performApart] at ha
    split at ha <;> cases ha
    rename_i hn
    have hnot := hn
    rw [List.mem_append, not_or] at hnot
    refine ⟨?_, fun m => ?_⟩
    · rw [← List.append_assoc]
      exact List.nodup_append.mpr ⟨h.nodup, List.nodup_singleton n, by
        rintro a ha b hb rfl
        exact hn (List.mem_singleton.mp hb ▸ ha)⟩
    · obtain rfl | hm := eq_or_ne n m
      · rw [eventsOf_self (n := n) log (.did (.schedule n)) rfl]
        exact ((h.account n).congr (by simp [hnot.1]) (by simp [hnot.2])).scheduled.congr
          (by simp [hnot.1]) (by simp)
      · rw [eventsOf_other log (.did (.schedule n)) hm]
        exact (h.account m).congr .rfl (by simp [hm.symm])
  | cancel n =>
    cases ha
    refine ⟨?_, fun m => ?_⟩
    · simpa only [← List.filter_append] using h.nodup.filter _
    · obtain rfl | hm := eq_or_ne n m
      · rw [eventsOf_self (n := n) log (.did (.cancel n)) rfl]
        exact (h.account n).cancelled.congr (by simp) (by simp)
      · rw [eventsOf_other log (.did (.cancel n)) hm]
        exact (h.account m).congr (by simp [hm.symm]) (by simp [hm.symm])

theorem Accounts.did_all {as : List (Action ν)} {q q' : List ν × List ν}
    (h : Accounts entry q.1 q.2 log) (ha : as.foldlM performApart q = some q') :
    Accounts entry q'.1 q'.2 (log ++ as.map .did) := by
  induction as generalizing q log with
  | nil =>
    cases ha
    simpa using h
  | cons a as ih =>
    obtain ⟨q₁, h₁, h₂⟩ := Option.bind_eq_some_iff.mp ha
    simpa using ih (h.did h₁) h₂

structure NoneLost (entry mPolled : List ν) (log : List (Event ν)) : Prop where
  entered : ∀ n ∈ entry,
    eventsOf log n = [] ∧ mPolled.count n = 1 ∨
    (eventsOf log n).head? = some (.resumed n) ∧ log.count (.resumed n) = 1 ∨
    (eventsOf log n).head? = some (.did (.cancel n)) ∧ .resumed n ∉ log
  registered : ∀ n, (eventsOf log n).getLast? = some (.did (.schedule n)) → mPolled.count n = 1
  linked : ∀ n ∈ mPolled, n ∈ entry ∧ eventsOf log n = [] ∨
    (eventsOf log n).getLast? = some (.did (.schedule n))
  resumed : ∀ n, .resumed n ∈ log → n ∈ entry

theorem Accounts.noneLost (h : Accounts entry [] mPolled log) : NoneLost entry mPolled log := by
  have hcount : ∀ n ∈ mPolled, mPolled.count n = 1 :=
    fun n => List.count_eq_one_of_mem (by simpa using h.nodup)
  refine ⟨fun n hn => ?_, fun n hl => hcount n ((h.account n).registered hl),
    fun n hn => (h.account n).linked hn, fun n hn => (h.account n).served (mem_eventsOf.mpr hn)⟩
  cases he : eventsOf log n with
  | nil =>
    have hk := (h.account n).kept hn he
    exact .inl ⟨rfl, hcount n (by simpa using hk)⟩
  | cons e rest =>
    obtain ⟨hf, hr⟩ := (h.account n).first e rest he
    obtain rfl | rfl := hf hn
    · refine .inr (.inl ⟨rfl, ?_⟩)
      rw [← count_eventsOf, he, List.count_cons_self, List.count_eq_zero_of_not_mem hr]
    · refine .inr (.inr ⟨rfl, fun hm => ?_⟩)
      rw [← mem_eventsOf, he] at hm
      exact hr (by simpa using hm)

theorem Accounts.step {entry : List (PollListNode κ)}
    (h : Accounts entry s.polled s.mPolled s.log) (hs : pollStep resume pollFds ret s = .more t) :
    Accounts entry t.polled t.mPolled t.log := by
  obtain ⟨pollFd, node, polled, -, -, hp, -, ⟨-, h₁, h₂, h₃, -⟩ | ⟨-, -, h₁, h₂, h₃, -⟩ |
    ⟨-, -, hq, h₃, -⟩⟩ := pollStep_more hs
  · rwa [h₁, h₂, h₃]
  · rw [hp] at h
    rw [h₁, h₂, h₃]
    exact h.defer
  · rw [hp] at h
    rw [h₃, List.append_cons]
    exact h.resumed.did_all hq

def Interrupted (resume : Coros σ κ) (answer : PollAnswer) (pollFds : List PollFd)
    (s : Registered σ κ) : Prop :=
  answer.ret ≠ -1 ∧ ∃ u, Reaches (pollPass resume answer pollFds) s.enter u ∧
    Relinks resume (writeRevents answer.revents pollFds) (sizeT answer.ret) u

def Kept (resume : Coros σ κ) (s : Registered σ κ) (t : Polling σ κ) : Prop :=
  t.polled = [] ∧ NoneLost s.mPolled t.mPolled t.log ∧
    (t.coros, t.log) = resumptions resume s.coros (resumedNodes t.log)

theorem pollStep_resumptions {coros : σ}
    (h : (s.coros, s.log) = resumptions resume coros (resumedNodes s.log))
    (hs : pollStep resume pollFds ret s = .more t) :
    (t.coros, t.log) = resumptions resume coros (resumedNodes t.log) := by
  obtain ⟨pollFd, node, polled, -, -, -, -, ⟨-, -, -, h₃, h₄⟩ | ⟨-, -, -, -, h₃, h₄⟩ |
    ⟨-, -, -, h₃, h₄⟩⟩ := pollStep_more hs
  · rwa [h₃, h₄]
  · rwa [h₃, h₄]
  · rw [h₃, h₄, resumedNodes_step, resumptions_concat, ← h]

theorem untouched_kept (resume : Coros σ κ) (s : Registered σ κ) : Kept resume s s.untouched :=
  ⟨rfl, (Accounts.enter s.nodup).splice.noneLost, rfl⟩

theorem Registered.kept {answer : PollAnswer} {u : Polling σ κ} (s : Registered σ κ)
    (hu : Reaches (pollPass resume answer pollFds) s.enter u) : Kept resume s u.splice := by
  have haccounts : Accounts s.mPolled u.polled u.mPolled u.log :=
    reaches_invariant (I := fun t : Polling σ κ => Accounts s.mPolled t.polled t.mPolled t.log)
      (fun _ _ => .step) (.enter s.nodup) hu
  have hresumed : (u.coros, u.log) = resumptions resume s.coros (resumedNodes u.log) :=
    reaches_invariant
      (I := fun t : Polling σ κ =>
        (t.coros, t.log) = resumptions resume s.coros (resumedNodes t.log))
      (fun _ _ => pollStep_resumptions) rfl hu
  exact ⟨rfl, haccounts.splice.noneLost, hresumed⟩

theorem pollAndResumeImpl_cases (poll : Poll ω) (resume : Coros σ κ) (pollFds : List PollFd)
    (timeout : Int) (system : ω) (s : Registered σ κ) :
    pollAndResumeImpl poll resume pollFds timeout system s = none ∧
        Interrupted resume (poll system pollFds timeout).1 pollFds s ∨
      ∃ r t, pollAndResumeImpl poll resume pollFds timeout system s =
        some (r, t, (poll system pollFds timeout).2) ∧ Kept resume s t := by
  simp only [pollAndResumeImpl]
  split
  · exact .inr ⟨_, _, rfl, untouched_kept resume s⟩
  · rename_i hret
    obtain ⟨r, hr⟩ := pollPass_halts resume (poll system pollFds timeout).1 pollFds s
    obtain ⟨u, hu, hd⟩ := yields_iff_reaches.mp ⟨_, hr⟩
    rw [hr]
    obtain rfl | ⟨rfl, hn⟩ := pollStep_done hd
    · exact .inr ⟨_, _, rfl, s.kept hu⟩
    · exact .inl ⟨rfl, hret, u, hu, hn⟩

theorem pollAndResumeNormal_cases (poll : Poll ω) (resume : Coros σ κ) (room : Nat)
    (timeout : Int) (system : ω) (s : Registered σ κ) :
    pollAndResumeNormal poll resume room timeout system s = none ∧
        Interrupted resume (poll system (buildPollFds (s.mPolled.take room)) timeout).1
          (buildPollFds (s.mPolled.take room)) s ∨
      ∃ r t system', pollAndResumeNormal poll resume room timeout system s = some (r, t, system') ∧
        Kept resume s t := by
  rw [pollAndResumeNormal]
  split
  · exact .inr ⟨_, _, _, rfl, untouched_kept resume s⟩
  · obtain hnone | ⟨r, t, h, ht⟩ := pollAndResumeImpl_cases poll resume
      (buildPollFds (s.mPolled.take room)) timeout system s
    · exact .inl hnone
    · exact .inr ⟨r, t, _, h, ht⟩

theorem pollAndResumeFallback_eq (poll : Poll ω) (resume : Coros σ κ) :
    pollAndResumeFallback poll resume = pollAndResumeNormal poll resume bufSize := rfl

theorem pollAndResumeImpl_noneLost (poll : Poll ω) (resume : Coros σ κ) (pollFds : List PollFd)
    (timeout : Int) (system : ω) (s : Registered σ κ) :
    pollAndResumeImpl poll resume pollFds timeout system s = none ∧
        Interrupted resume (poll system pollFds timeout).1 pollFds s ∨
      ∃ r t, pollAndResumeImpl poll resume pollFds timeout system s =
        some (r, t, (poll system pollFds timeout).2) ∧
        t.polled = [] ∧ NoneLost s.mPolled t.mPolled t.log ∧
        (t.coros, t.log) = resumptions resume s.coros (resumedNodes t.log) :=
  pollAndResumeImpl_cases poll resume pollFds timeout system s

end Corosig.Reactor
