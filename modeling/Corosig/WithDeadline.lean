import Corosig.Library.OperationRuns

namespace Corosig
open OperationRuns

namespace WithDeadline

inductive Slot (α : Type) where
  | notReady
  | timedOut
  | value (v : α)
  deriving DecidableEq, Repr

inductive Outcome (α : Type) where
  | value (v : α)
  | timedOut
  | allocationError
  deriving DecidableEq, Repr

inductive Op where
  | complete
  | expire
  | await
  deriving DecidableEq, Repr

end WithDeadline

open WithDeadline

-- awaiting and sleeping tell whether the two helper coroutines got a frame, waitingCoro whether
-- the handle of a suspended caller was stored. given are the results await_resume has returned.
structure WithDeadlineAwaiter (α : Type) where
  awaiting : Bool
  sleeping : Bool
  result : Slot α := .notReady
  waitingCoro : Bool := false
  completed : Bool := false
  expired : Bool := false
  timedOutFirst : Bool := false
  suspended : Bool := false
  resumptions : Nat := 0
  given : List (Outcome α) := []
  deriving DecidableEq, Repr

namespace WithDeadlineAwaiter

variable {α : Type}

def awaitReady (s : WithDeadlineAwaiter α) : Bool :=
  match s.result with
  | .notReady => false
  | _ => true

def awaitSuspend (s : WithDeadlineAwaiter α) : WithDeadlineAwaiter α :=
  { s with waitingCoro := true, suspended := true }

-- The value is moved out of the slot; moved is what the move leaves there.
def awaitResume (moved : α → α) (s : WithDeadlineAwaiter α) : Option (WithDeadlineAwaiter α) :=
  match s.result with
  | .notReady => none
  | .timedOut => some { s with suspended := false, given := s.given ++ [.timedOut] }
  | .value v => some { s with
      result := .value (moved v), suspended := false, given := s.given ++ [.value v] }

def resumeWaitingCoro (moved : α → α) (s : WithDeadlineAwaiter α) :
    Option (WithDeadlineAwaiter α) :=
  if s.waitingCoro then
    let s := { s with resumptions := s.resumptions + 1 }
    if s.suspended then s.awaitResume moved else some s
  else some s

def complete (own : α) (moved : α → α) (s : WithDeadlineAwaiter α) :
    Option (WithDeadlineAwaiter α) :=
  if s.awaiting ∧ s.completed = false then
    resumeWaitingCoro moved { s with completed := true, result := .value own }
  else some s

def expire (moved : α → α) (s : WithDeadlineAwaiter α) : Option (WithDeadlineAwaiter α) :=
  if s.sleeping ∧ s.expired = false then
    let s := { s with expired := true, timedOutFirst := !s.completed }
    if s.awaitReady then some s
    else resumeWaitingCoro moved { s with result := .timedOut }
  else some s

def await (moved : α → α) (s : WithDeadlineAwaiter α) : Option (WithDeadlineAwaiter α) :=
  if s.suspended then some s
  else if s.awaitReady then s.awaitResume moved
  else some s.awaitSuspend

def step (own : α) (moved : α → α) (s : WithDeadlineAwaiter α) : Op → Option (WithDeadlineAwaiter α)
  | .complete => s.complete own moved
  | .expire => s.expire moved
  | .await => s.await moved

structure Lawful (own : α) (s : WithDeadlineAwaiter α) : Prop where
  once : s.resumptions ≤ 1
  only : s.waitingCoro = false → s.resumptions = 0
  outcome : ∀ o ∈ s.given, o = if s.timedOutFirst then .timedOut else .value own

-- The awaitable does not complete after the deadline while a caller's handle is stored, and the
-- caller does not take the value of a late completion or a value it has moved out.
def Orderly (own : α) (moved : α → α) (s : WithDeadlineAwaiter α) : Op → Prop
  | .complete => s.awaiting ∧ s.completed = false ∧ s.timedOutFirst → s.waitingCoro = false
  | .expire => True
  | .await => s.suspended = false ∧ s.completed →
      s.timedOutFirst = false ∧ (s.given ≠ [] → moved own = own)

instance [DecidableEq α] (own : α) (moved : α → α) (s : WithDeadlineAwaiter α) :
    DecidablePred (s.Orderly own moved) := fun op => by
  cases op <;> unfold Orderly <;> infer_instance

inductive Phase (own : α) (moved : α → α) (s : WithDeadlineAwaiter α) : Prop where
  | pending (result : s.result = .notReady) (completed : s.completed = false)
      (first : s.timedOutFirst = false) (suspended : s.suspended = s.waitingCoro)
      (resumptions : s.resumptions = 0) (given : s.given = [])
  | timedOut (result : s.result = .timedOut) (completed : s.completed = false)
      (expired : s.expired = true) (first : s.timedOutFirst = true)
      (suspended : s.suspended = false)
      (resumptions : s.resumptions = s.waitingCoro.toNat) (given : ∀ o ∈ s.given, o = .timedOut)
  | late (result : s.result = .value own) (completed : s.completed = true)
      (expired : s.expired = true) (first : s.timedOutFirst = true)
      (suspended : s.suspended = false)
      (waitingCoro : s.waitingCoro = false) (resumptions : s.resumptions = 0)
      (given : ∀ o ∈ s.given, o = .timedOut)
  | done (result : s.result = .value (if s.given = [] then own else moved own))
      (completed : s.completed = true) (first : s.timedOutFirst = false)
      (suspended : s.suspended = false) (resumptions : s.resumptions = s.waitingCoro.toNat)
      (given : ∀ o ∈ s.given, o = .value own)

variable {own : α} {moved : α → α} {s t : WithDeadlineAwaiter α}

theorem phase_start (awaiting sleeping : Bool) :
    Phase own moved ({ awaiting, sleeping } : WithDeadlineAwaiter α) :=
  .pending rfl rfl rfl rfl rfl rfl

theorem Phase.lawful (h : s.Phase own moved) : s.Lawful own := by
  have hnat : s.resumptions = s.waitingCoro.toNat →
      s.resumptions ≤ 1 ∧ (s.waitingCoro = false → s.resumptions = 0) := by
    intro hcount
    rw [hcount]
    exact ⟨Bool.toNat_le _, fun hnone => by rw [hnone]; rfl⟩
  cases h with
  | pending _ _ _ _ hcount hgiven =>
    exact ⟨by omega, fun _ => hcount, by simp [hgiven]⟩
  | timedOut _ _ _ hfirst _ hcount hgiven =>
    exact ⟨(hnat hcount).1, (hnat hcount).2, by simpa [hfirst] using hgiven⟩
  | late _ _ _ hfirst _ _ hcount hgiven =>
    exact ⟨by omega, fun _ => hcount, by simpa [hfirst] using hgiven⟩
  | done _ _ hfirst _ hcount hgiven =>
    exact ⟨(hnat hcount).1, (hnat hcount).2, by simpa [hfirst] using hgiven⟩

theorem resumeWaitingCoro_of_not_waiting (h : s.waitingCoro = false) :
    s.resumeWaitingCoro moved = some s := by
  rw [resumeWaitingCoro, if_neg (by simp [h])]

theorem resumeWaitingCoro_of_left (h : s.waitingCoro = true) (hleft : s.suspended = false) :
    s.resumeWaitingCoro moved = some { s with resumptions := s.resumptions + 1 } := by
  rw [resumeWaitingCoro, if_pos h, if_neg (by simp [hleft])]

theorem resumeWaitingCoro_of_suspended (h : s.waitingCoro = true) (hon : s.suspended = true) :
    s.resumeWaitingCoro moved =
      awaitResume moved { s with resumptions := s.resumptions + 1 } := by
  rw [resumeWaitingCoro, if_pos h, if_pos hon]

theorem Phase.complete (h : s.Phase own moved) (hop : s.Orderly own moved .complete) :
    ∃ t, s.complete own moved = some t ∧ t.Phase own moved := by
  rw [WithDeadlineAwaiter.complete]
  split
  · rename_i hruns
    cases h with
    | pending _ _ hfirst hsuspended hcount hgiven =>
      obtain hwaiting | hwaiting := Bool.eq_false_or_eq_true s.waitingCoro
      · refine ⟨_, resumeWaitingCoro_of_suspended hwaiting (hsuspended.trans hwaiting),
          .done ?_ rfl hfirst rfl ?_ ?_⟩
        · simp
        · dsimp only
          rw [hcount, hwaiting, Bool.toNat_true]
        · simp [hgiven]
      · refine ⟨_, resumeWaitingCoro_of_not_waiting hwaiting, .done ?_ rfl hfirst ?_ ?_ ?_⟩
        · dsimp only
          rw [if_pos hgiven]
        · exact hsuspended.trans hwaiting
        · dsimp only
          rw [hcount, hwaiting, Bool.toNat_false]
        · simp [hgiven]
    | timedOut _ hcompleted hexpired hfirst hsuspended hcount hgiven =>
      have hwaiting : s.waitingCoro = false := hop ⟨hruns.1, hcompleted, hfirst⟩
      refine ⟨_, resumeWaitingCoro_of_not_waiting hwaiting,
        .late rfl rfl hexpired hfirst hsuspended hwaiting ?_ hgiven⟩
      dsimp only
      rw [hcount, hwaiting, Bool.toNat_false]
    | late _ hcompleted => exact absurd hruns.2 (by simp [hcompleted])
    | done _ hcompleted => exact absurd hruns.2 (by simp [hcompleted])
  · exact ⟨s, rfl, h⟩

theorem Phase.expire (h : s.Phase own moved) :
    ∃ t, s.expire moved = some t ∧ t.Phase own moved := by
  rw [WithDeadlineAwaiter.expire]
  split
  · rename_i hruns
    cases h with
    | pending hresult hcompleted _ hsuspended hcount hgiven =>
      have hready :
          awaitReady { s with expired := true, timedOutFirst := !s.completed } = false := by
        simp [awaitReady, hresult]
      have hfirst : (!s.completed) = true := by simp [hcompleted]
      rw [if_neg (by simp [hready])]
      obtain hwaiting | hwaiting := Bool.eq_false_or_eq_true s.waitingCoro
      · refine ⟨_, resumeWaitingCoro_of_suspended hwaiting (hsuspended.trans hwaiting),
          .timedOut rfl hcompleted rfl hfirst rfl ?_ ?_⟩
        · dsimp only
          rw [hcount, hwaiting, Bool.toNat_true]
        · simp [hgiven]
      · refine ⟨_, resumeWaitingCoro_of_not_waiting hwaiting,
          .timedOut rfl hcompleted rfl hfirst (hsuspended.trans hwaiting) ?_ ?_⟩
        · dsimp only
          rw [hcount, hwaiting, Bool.toNat_false]
        · simp [hgiven]
    | timedOut _ _ hexpired => exact absurd hruns.2 (by simp [hexpired])
    | late _ _ hexpired => exact absurd hruns.2 (by simp [hexpired])
    | done hresult hcompleted _ hsuspended hcount hgiven =>
      have hready :
          awaitReady { s with expired := true, timedOutFirst := !s.completed } = true := by
        simp [awaitReady, hresult]
      rw [if_pos hready]
      exact ⟨_, rfl, .done hresult hcompleted (by simp [hcompleted]) hsuspended hcount hgiven⟩
  · exact ⟨s, rfl, h⟩

theorem Phase.await (h : s.Phase own moved) (hop : s.Orderly own moved .await) :
    ∃ t, s.await moved = some t ∧ t.Phase own moved := by
  rw [WithDeadlineAwaiter.await]
  split
  · exact ⟨s, rfl, h⟩
  · rename_i hruns
    have hfree : s.suspended = false := by simpa using hruns
    cases h with
    | pending hresult hcompleted hfirst hsuspended hcount hgiven =>
      rw [if_neg (by simp [awaitReady, hresult])]
      exact ⟨_, rfl, .pending hresult hcompleted hfirst rfl hcount hgiven⟩
    | timedOut hresult hcompleted hexpired hfirst _ hcount hgiven =>
      rw [if_pos (by simp [awaitReady, hresult])]
      refine ⟨{ s with suspended := false, given := s.given ++ [.timedOut] },
        by simp [awaitResume, hresult],
        .timedOut hresult hcompleted hexpired hfirst rfl hcount ?_⟩
      simpa [or_imp, forall_and] using hgiven
    | late _ hcompleted _ hfirst =>
      have hno := (hop ⟨hfree, hcompleted⟩).1
      rw [hfirst] at hno
      cases hno
    | done hresult hcompleted hfirst _ hcount hgiven =>
      have hagain := (hop ⟨hfree, hcompleted⟩).2
      have hvalue : s.result = .value own := by
        rw [hresult]
        split
        · rfl
        · rename_i htaken
          rw [hagain htaken]
      rw [if_pos (by simp [awaitReady, hvalue])]
      refine ⟨{ s with
          result := .value (moved own), suspended := false, given := s.given ++ [.value own] },
        by simp [awaitResume, hvalue], .done ?_ hcompleted hfirst rfl hcount ?_⟩
      · simp
      · simpa [or_imp, forall_and] using hgiven

theorem phase_step {op : Op} (h : s.Phase own moved) (hop : s.Orderly own moved op) :
    ∃ t, s.step own moved op = some t ∧ t.Phase own moved := by
  cases op with
  | complete => exact h.complete hop
  | expire => exact h.expire
  | await => exact h.await hop

theorem Phase.orderly_of_complete (h : s.Phase own moved) (hstep : s.complete own moved = some t)
    (hlawful : t.Lawful own) : s.Orderly own moved .complete := by
  rintro ⟨hawaiting, hcompleted, hfirst⟩
  by_contra hwaiting
  rw [Bool.not_eq_false] at hwaiting
  cases h with
  | pending _ _ hno => rw [hfirst] at hno; cases hno
  | timedOut _ _ _ _ hsuspended hcount _ =>
    have hagain : resumeWaitingCoro moved { s with completed := true, result := .value own } =
        some { s with
          completed := true, result := .value own, resumptions := s.resumptions + 1 } :=
      resumeWaitingCoro_of_left hwaiting hsuspended
    rw [WithDeadlineAwaiter.complete, if_pos ⟨hawaiting, hcompleted⟩, hagain] at hstep
    cases hstep
    have honce : s.resumptions + 1 ≤ 1 := hlawful.once
    rw [hcount, hwaiting, Bool.toNat_true] at honce
    omega
  | late _ hdone => rw [hcompleted] at hdone; cases hdone
  | done _ hdone => rw [hcompleted] at hdone; cases hdone

theorem Phase.orderly_of_await (h : s.Phase own moved) (hstep : s.await moved = some t)
    (hlawful : t.Lawful own) : s.Orderly own moved .await := by
  rintro ⟨hfree, hcompleted⟩
  have htake (v : α) (hresult : s.result = .value v) :
      Outcome.value v = if s.timedOutFirst then .timedOut else .value own := by
    rw [WithDeadlineAwaiter.await, if_neg (by simp [hfree]), if_pos (by simp [awaitReady, hresult]),
      awaitResume, hresult] at hstep
    cases hstep
    exact hlawful.outcome (.value v) (List.mem_append_right _ List.mem_cons_self)
  cases h with
  | pending _ hno => rw [hcompleted] at hno; cases hno
  | timedOut _ hno => rw [hcompleted] at hno; cases hno
  | late hresult _ _ hfirst =>
    have hvalue := htake own hresult
    rw [hfirst] at hvalue
    cases hvalue
  | done hresult _ hfirst =>
    refine ⟨hfirst, fun htaken => ?_⟩
    rw [if_neg htaken] at hresult
    have hvalue := htake (moved own) hresult
    rw [hfirst] at hvalue
    exact Outcome.value.inj hvalue

theorem lawful_iff_orderly (own : α) (moved : α → α) (awaiting sleeping : Bool) (ops : List Op) :
    Steadily (step own moved) (Lawful own) { awaiting, sleeping } ops ↔
      Along (step own moved) (Orderly own moved) { awaiting, sleeping } ops :=
  steadily_iff (R := fun _ _ => True) (J := Phase own moved) (fun _ => Phase.lawful)
    (fun _ _ h _ => phase_step h)
    (fun s op t h _ hstep hlawful => by
      cases op with
      | complete => exact h.orderly_of_complete hstep hlawful
      | expire => trivial
      | await => exact h.orderly_of_await hstep hlawful)
    (phase_start awaiting sleeping) ops (along_of_forall (fun _ _ => trivial) _ ops)

theorem not_lawful_late :
    ([Op.await, .expire, .complete].foldlM (step 7 id) { awaiting := true, sleeping := true }).map
      (fun s => (s.resumptions, s.given)) = some (2, [.timedOut]) ∧
    ([Op.expire, .complete, .await].foldlM (step 7 id) { awaiting := true, sleeping := true }).map
      (fun s => (s.timedOutFirst, s.given)) = some (true, [.value 7]) ∧
    ¬∀ (own : Nat) (moved : Nat → Nat) (ops : List Op),
      Steadily (step own moved) (Lawful own) { awaiting := true, sleeping := true } ops := by
  refine ⟨rfl, rfl, fun hall => ?_⟩
  obtain ⟨s, hs, hlawful⟩ := (hall 7 id [.await, .expire, .complete]).last
  cases hs
  exact absurd hlawful.once (by decide)

structure Answers (s full : WithDeadlineAwaiter α) : Prop where
  agrees : s.given = full.given ∧ s.suspended = full.suspended ∨ .allocationError ∈ s.given
  live : s.suspended → s.result = .notReady →
    s.awaiting ∧ s.completed = false ∨ s.sleeping ∧ s.expired = false
  timeout : s.awaiting = false ∨ s.sleeping = false → .timedOut ∉ s.given
  deadline : s.suspended → s.sleeping

def Sound (own : α) (moved : α → α) (awaiting sleeping : Bool) : Prop :=
  ∀ ops : List Op, ∃ s full,
    ops.foldlM (step own moved) { awaiting, sleeping } = some s ∧
    ops.foldlM (step own moved) { awaiting := true, sleeping := true } = some full ∧
    Answers s full

structure Armed (s : WithDeadlineAwaiter α) : Prop where
  awaiting : s.awaiting = true
  sleeping : s.sleeping = true
  pending : s.result = .notReady → s.completed = false

theorem Armed.of_ready (ha : s.awaiting = true) (hs : s.sleeping = true)
    (hr : s.result ≠ .notReady) : s.Armed :=
  ⟨ha, hs, fun hnone => absurd hnone hr⟩

theorem Armed.answers (h : s.Armed) : Answers s s where
  agrees := .inl ⟨rfl, rfl⟩
  live _ hnone := .inl ⟨h.awaiting, h.pending hnone⟩
  timeout hmissing := by rw [h.awaiting, h.sleeping] at hmissing; simp at hmissing
  deadline _ := h.sleeping

theorem awaitResume_of_ready (moved : α → α) (hr : s.result ≠ .notReady) :
    ∃ t, s.awaitResume moved = some t ∧ t.given.length = s.given.length + 1 ∧
      t.result ≠ .notReady ∧ t.awaiting = s.awaiting ∧ t.sleeping = s.sleeping := by
  rw [awaitResume]
  split
  · rename_i hnone
    exact absurd hnone hr
  · exact ⟨_, rfl, List.length_append, hr, rfl, rfl⟩
  · exact ⟨_, rfl, List.length_append, by simp, rfl, rfl⟩

theorem Armed.awaitResume (h : s.Armed) (hr : s.result ≠ .notReady) :
    ∃ t, s.awaitResume moved = some t ∧ t.Armed := by
  obtain ⟨t, ht, -, hready, hawaiting, hsleeping⟩ := awaitResume_of_ready moved hr
  exact ⟨t, ht, .of_ready (hawaiting.trans h.awaiting) (hsleeping.trans h.sleeping) hready⟩

theorem Armed.resumeWaitingCoro (h : s.Armed) (hr : s.result ≠ .notReady) :
    ∃ t, s.resumeWaitingCoro moved = some t ∧ t.Armed := by
  have hcounted : Armed { s with resumptions := s.resumptions + 1 } :=
    ⟨h.awaiting, h.sleeping, h.pending⟩
  rw [WithDeadlineAwaiter.resumeWaitingCoro]
  split
  · dsimp only
    split
    · exact hcounted.awaitResume hr
    · exact ⟨_, rfl, hcounted⟩
  · exact ⟨s, rfl, h⟩

theorem ready_of_awaitReady (h : s.awaitReady = true) : s.result ≠ .notReady := by
  intro hnone
  rw [awaitReady, hnone] at h
  cases h

theorem armed_step {op : Op} (h : s.Armed) : ∃ t, s.step own moved op = some t ∧ t.Armed := by
  cases op with
  | complete =>
    rw [step, complete]
    split
    · exact Armed.resumeWaitingCoro (.of_ready h.awaiting h.sleeping (by simp)) (by simp)
    · exact ⟨s, rfl, h⟩
  | expire =>
    rw [step, expire]
    split
    · dsimp only
      split
      · exact ⟨_, rfl, h.awaiting, h.sleeping, h.pending⟩
      · exact Armed.resumeWaitingCoro (.of_ready h.awaiting h.sleeping (by simp)) (by simp)
    · exact ⟨s, rfl, h⟩
  | await =>
    rw [step, await]
    split
    · exact ⟨s, rfl, h⟩
    · split
      · rename_i hready
        exact h.awaitResume (ready_of_awaitReady hready)
      · exact ⟨_, rfl, h.awaiting, h.sleeping, h.pending⟩

theorem armed_run (own : α) (moved : α → α) (ops : List Op) :
    ∃ s, ops.foldlM (step own moved) { awaiting := true, sleeping := true } = some s ∧ s.Armed :=
  (steadily_of_along (I := Armed) (P := fun _ _ => True) (fun _ h => h)
    (fun _ _ h _ => armed_step h) ⟨rfl, rfl, fun _ => rfl⟩ ops
    (along_of_forall (fun _ _ => trivial) _ ops)).last

theorem sound_iff_allocated (own : α) (moved : α → α) (awaiting sleeping : Bool) :
    Sound own moved awaiting sleeping ↔ awaiting = true ∧ sleeping = true := by
  constructor
  · intro h
    have hsleeping : sleeping = true := by
      obtain ⟨s, _, hs, _, hanswers⟩ := h [.await]
      cases hs
      exact hanswers.deadline rfl
    subst hsleeping
    refine ⟨?_, rfl⟩
    by_contra hmissing
    rw [Bool.not_eq_true] at hmissing
    subst hmissing
    obtain ⟨s, _, hs, _, hanswers⟩ := h [.await, .expire]
    cases hs
    exact hanswers.timeout (.inl rfl) List.mem_cons_self
  · rintro ⟨rfl, rfl⟩ ops
    obtain ⟨s, hs, harmed⟩ := armed_run own moved ops
    exact ⟨s, s, hs, hs, harmed.answers⟩

theorem not_sound_of_missing :
    ([Op.await, .complete, .expire].foldlM (step 7 id) { awaiting := false, sleeping := true }).map
      given = some [.timedOut] ∧
    ([Op.await, .expire].foldlM (step 7 id) { awaiting := true, sleeping := false }).map
      (fun s => (s.suspended, s.given)) = some (true, []) ∧
    ([Op.await, .complete, .expire].foldlM (step 7 id)
      { awaiting := false, sleeping := false }).map
      (fun s => (s.suspended, s.result, s.given)) = some (true, .notReady, []) ∧
    ¬∀ (own : Nat) (moved : Nat → Nat) (awaiting sleeping : Bool),
      Sound own moved awaiting sleeping := by
  refine ⟨rfl, rfl, rfl, fun hall => ?_⟩
  obtain ⟨s, _, hs, _, hanswers⟩ := hall 7 id false false [.await]
  cases hs
  cases hanswers.deadline rfl

end WithDeadlineAwaiter

end Corosig
