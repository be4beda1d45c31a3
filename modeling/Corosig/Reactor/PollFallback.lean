import Corosig.Reactor.Poll

namespace Corosig.Reactor
open Loop

variable {σ κ : Type}

structure Silent (answer : PollAnswer) (pollFds : List PollFd) : Prop where
  ret : answer.ret = 0
  revents : ∀ i < pollFds.length, answer.revents i = 0

def recording (answer : List PollFd → Int → PollAnswer) : Poll (List (List PollFd)) :=
  fun passed pollFds timeout => (answer pollFds timeout, passed ++ [pollFds])

def rounds (s : Registered σ κ) : Nat := (s.mPolled.length + (bufSize - 1)) / bufSize

-- m_polled as a call of the fallback found it and the arrays that it passed to poll.
structure FallbackCall (κ : Type) where
  mPolled : List (PollListNode κ)
  passed : List (List PollFd)

def FallbackCall.Polls (call : FallbackCall κ) (node : PollListNode κ) : Prop :=
  ∃ pollFds ∈ call.passed, ∃ (i : Nat) (pollFd : PollFd), call.mPolled[i]? = some node ∧
    pollFds[i]? = some pollFd ∧ pollFd.fd = node.handle ∧ pollFd.events = node.event

def Covered (s : Registered σ κ) (calls : List (FallbackCall κ)) : Prop :=
  ∀ node ∈ s.mPolled, ∃ call ∈ calls, call.Polls node

def Registered.firstCall (s : Registered σ κ) : FallbackCall κ where
  mPolled := s.mPolled
  passed := if s.mPolled = [] then [] else [buildPollFds (s.mPolled.take bufSize)]

variable {s : Registered σ κ} {n : Nat}

theorem firstCall_polls {node : PollListNode κ} :
    s.firstCall.Polls node ↔ node ∈ s.mPolled.take bufSize := by
  constructor
  · rintro ⟨pollFds, hpassed, i, pollFd, hnode, hfd, -⟩
    rw [Registered.firstCall] at hpassed hnode
    dsimp only at hpassed hnode
    split at hpassed
    · cases hpassed
    · rw [List.mem_singleton.mp hpassed, buildPollFds, List.getElem?_map] at hfd
      obtain ⟨m, hm, -⟩ := Option.map_eq_some_iff.mp hfd
      have hlt : i < bufSize := by
        have hlen := (List.getElem?_eq_some_iff.mp hm).1
        rw [List.length_take] at hlen
        omega
      exact List.mem_of_getElem? (by rwa [List.getElem?_take_of_lt hlt])
  · intro hmem
    have hne : s.mPolled ≠ [] := List.ne_nil_of_mem (List.mem_of_mem_take hmem)
    obtain ⟨i, hi⟩ := List.mem_iff_getElem?.mp hmem
    have hlt : i < bufSize := by
      have hlen := (List.getElem?_eq_some_iff.mp hi).1
      rw [List.length_take] at hlen
      omega
    have hpassed : buildPollFds (s.mPolled.take bufSize) ∈ s.firstCall.passed := by
      rw [Registered.firstCall, if_neg hne]
      exact List.mem_singleton_self _
    have hfd : (buildPollFds (s.mPolled.take bufSize))[i]? =
        some { fd := node.handle, events := node.event } := by
      rw [buildPollFds, List.getElem?_map, hi, Option.map_some]
    rw [List.getElem?_take_of_lt hlt] at hi
    exact ⟨_, hpassed, i, _, hi, hfd, rfl, rfl⟩

theorem covered_replicate (hn : s.mPolled ≠ [] → n ≠ 0) :
    Covered s (List.replicate n s.firstCall) ↔ s.mPolled.length ≤ bufSize := by
  constructor
  · intro h
    by_contra hlong
    have hlt : bufSize < s.mPolled.length := Nat.not_le.mp hlong
    obtain ⟨call, hcall, hnode⟩ := h s.mPolled[bufSize] (List.getElem_mem hlt)
    rw [List.eq_of_mem_replicate hcall, firstCall_polls] at hnode
    have hlate : s.mPolled[bufSize] ∈ s.mPolled.drop bufSize := by
      rw [List.drop_eq_getElem_cons hlt]
      exact List.mem_cons_self
    exact List.disjoint_take_drop s.nodup (Nat.le_refl bufSize) hnode hlate
  · intro hshort node hnode
    refine ⟨s.firstCall, List.mem_replicate.mpr ⟨hn (List.ne_nil_of_mem hnode), rfl⟩, ?_⟩
    rwa [firstCall_polls, List.take_of_length_le hshort]

theorem rounds_ne_zero (h : s.mPolled ≠ []) : rounds s ≠ 0 := by
  have hpos := List.length_pos_iff.mpr h
  unfold rounds bufSize
  omega

variable [DecidableEq κ]

-- Calls one after the other, where poll reports no event; nothing is registered or cancelled in
-- between.
inductive SilentCalls (resume : Coros σ κ) :
    Nat → Registered σ κ → List (FallbackCall κ) → Prop
  | nil (s : Registered σ κ) : SilentCalls resume 0 s []
  | call {n : Nat} {s s' : Registered σ κ} {t : Polling σ κ} {passed : List (List PollFd)}
      {calls : List (FallbackCall κ)} (answer : List PollFd → Int → PollAnswer) (timeout : Int) :
      pollAndResumeFallback (recording answer) resume timeout [] s = some (.ok (), t, passed) →
      (∀ pollFds ∈ passed, Silent (answer pollFds timeout) pollFds) →
      s'.coros = t.coros → s'.mPolled = t.mPolled → SilentCalls resume n s' calls →
      SilentCalls resume (n + 1) s (⟨s.mPolled, passed⟩ :: calls)

variable {resume : Coros σ κ} {t : Polling σ κ} {answer : List PollFd → Int → PollAnswer}
  {timeout : Int} {calls : List (FallbackCall κ)}

theorem pollStep_none (resume : Coros σ κ) (pollFds : List PollFd) (t : Polling σ κ)
    (h : t.handled = 0) : pollStep resume pollFds 0 t = .done (some t.splice) := by
  rw [pollStep, h]
  exact if_neg (Nat.lt_irrefl 0)

theorem pollAndResumeFallback_silent (resume : Coros σ κ)
    (h : ∀ pollFds ∈ s.firstCall.passed, Silent (answer pollFds timeout) pollFds) :
    ∃ t, pollAndResumeFallback (recording answer) resume timeout [] s =
      some (.ok (), t, s.firstCall.passed) ∧ t.coros = s.coros ∧ t.mPolled = s.mPolled := by
  rw [Registered.firstCall] at h ⊢
  rw [pollAndResumeFallback_eq, pollAndResumeNormal]
  dsimp only at h ⊢
  split at h
  · rename_i hnil
    rw [if_pos hnil, if_pos hnil]
    exact ⟨_, rfl, rfl, rfl⟩
  · rename_i hne
    rw [if_neg hne, if_neg hne]
    have hret : (answer (buildPollFds (s.mPolled.take bufSize)) timeout).ret = 0 :=
      (h _ (List.mem_singleton_self _)).ret
    have hzero : sizeT 0 = 0 := rfl
    refine ⟨s.enter.splice, ?_, rfl, rfl⟩
    simp only [pollAndResumeImpl, recording, hret, pollPass, hzero]
    rw [run_done (pollStep_none resume _ s.enter rfl)]
    rfl

theorem pollAndResumeFallback_passed {r : Except Int Unit} {passed : List (List PollFd)}
    (h : pollAndResumeFallback (recording answer) resume timeout [] s = some (r, t, passed)) :
    passed = s.firstCall.passed := by
  rw [pollAndResumeFallback] at h
  rw [Registered.firstCall]
  dsimp only
  split at h
  · rename_i hnil
    cases h
    rw [if_pos hnil]
  · rename_i hne
    rw [if_neg hne]
    rcases pollAndResumeImpl_cases (recording answer) resume
      (buildPollFds (s.mPolled.take bufSize)) timeout [] s with ⟨hnone, -⟩ | ⟨r', t', hsome, -⟩
    · cases hnone.symm.trans h
    · cases hsome.symm.trans h
      rfl

theorem SilentCalls.eq_replicate (h : SilentCalls resume n s calls) :
    calls = List.replicate n s.firstCall := by
  induction h with
  | nil => rfl
  | @call n s s' t passed calls answer timeout hcall hsilent _ hpolled _ ih =>
    obtain rfl := pollAndResumeFallback_passed hcall
    obtain ⟨t', hcall', -, hsame⟩ := pollAndResumeFallback_silent resume hsilent
    rw [hcall] at hcall'
    cases hcall'
    have hfirst : s'.firstCall = s.firstCall := by
      rw [Registered.firstCall, Registered.firstCall, hpolled.trans hsame]
    rw [ih, hfirst, List.replicate_succ]
    rfl

def quiet : List PollFd → Int → PollAnswer :=
  fun _ _ => { ret := 0, int := by decide, revents := fun _ => 0 }

theorem silentCalls_exist (resume : Coros σ κ) (n : Nat) (s : Registered σ κ) :
    SilentCalls resume n s (List.replicate n s.firstCall) := by
  induction n with
  | zero => exact .nil s
  | succ n ih =>
    have hsilent : ∀ pollFds ∈ s.firstCall.passed, Silent (quiet pollFds 0) pollFds :=
      fun _ _ => ⟨rfl, fun _ _ => rfl⟩
    obtain ⟨t, hcall, hcoros, hpolled⟩ := pollAndResumeFallback_silent resume hsilent
    rw [List.replicate_succ]
    exact .call quiet 0 hcall hsilent hcoros.symm hpolled.symm ih

theorem silentCalls_covered_iff (resume : Coros σ κ) (s : Registered σ κ) :
    (∀ calls, SilentCalls resume (rounds s) s calls → Covered s calls) ↔
      s.mPolled.length ≤ bufSize := by
  rw [← covered_replicate rounds_ne_zero]
  constructor
  · exact fun h => h _ (silentCalls_exist resume (rounds s) s)
  · rintro h calls hcalls
    rwa [hcalls.eq_replicate]

def waitingNodes (n : Nat) : List (PollListNode Nat) := (List.range n).map fun i => ⟨i, i, 1⟩

def sixtyFive : Registered Unit Nat where
  coros := ()
  mPolled := waitingNodes 65
  nodup := by decide

theorem silentCalls_uncovered : ¬∀ (resume : Coros Unit Nat) (s : Registered Unit Nat) calls,
    SilentCalls resume (rounds s) s calls → Covered s calls := by
  intro hall
  have hcovered := hall (fun _ _ => ((), [])) sixtyFive _ (silentCalls_exist _ _ _)
  exact absurd ((covered_replicate rounds_ne_zero).mp hcovered) (by decide)

end Corosig.Reactor
