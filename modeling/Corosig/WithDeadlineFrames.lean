import Corosig.WithDeadline

namespace Corosig
open OperationRuns WithDeadline

namespace WithDeadlineTemporary

inductive Coroutine where
  | caller
  | awaitingHelper
  | sleepingHelper
  deriving DecidableEq, Repr

-- cancel: the caller's own future is dropped while the caller is suspended in the expression.
inductive Op where
  | complete
  | expire
  | await
  | cancel
  deriving DecidableEq, Repr

end WithDeadlineTemporary

open WithDeadlineTemporary

-- The full expression co_await with_deadline(..). Every destroyed frame is kept with the chain of
-- nested resume calls at that moment, innermost first.
structure WithDeadlineTemporary (α : Type) where
  awaiter : WithDeadlineAwaiter α
  ended : Bool := false
  destroyed : List (Coroutine × List Coroutine) := []
  deriving DecidableEq, Repr

namespace WithDeadlineTemporary

variable {α : Type}

-- The members of m_futs in the order of their destructors.
def futs (awaiter : WithDeadlineAwaiter α) : List (Coroutine × Bool) :=
  [(.sleepingHelper, awaiter.sleeping), (.awaitingHelper, awaiter.awaiting)]

def drop (chain : List Coroutine) (s : WithDeadlineTemporary α) (fut : Coroutine × Bool) :
    WithDeadlineTemporary α :=
  if fut.2 then { s with destroyed := s.destroyed ++ [(fut.1, chain)] } else s

def endExpression (chain : List Coroutine) (s : WithDeadlineTemporary α) :
    WithDeadlineTemporary α :=
  (futs s.awaiter).foldl (drop chain) { s with ended := true }

def advance (own : α) (moved : α → α) (op : WithDeadline.Op) (chain : List Coroutine)
    (s : WithDeadlineTemporary α) : Option (WithDeadlineTemporary α) := do
  let awaiter ← s.awaiter.step own moved op
  let t := { s with awaiter }
  return if s.awaiter.given.length < awaiter.given.length then t.endExpression chain else t

def cancel (s : WithDeadlineTemporary α) : WithDeadlineTemporary α :=
  if s.awaiter.suspended then drop [] (s.endExpression []) (.caller, true) else s

def step (own : α) (moved : α → α) (s : WithDeadlineTemporary α) (op : Op) :
    Option (WithDeadlineTemporary α) :=
  if s.ended then some s
  else match op with
    | .complete => s.advance own moved .complete [.caller, .awaitingHelper]
    | .expire => s.advance own moved .expire [.caller, .sleepingHelper]
    | .await => s.advance own moved .await [.caller]
    | .cancel => some s.cancel

def Safe (s : WithDeadlineTemporary α) : Prop := ∀ d ∈ s.destroyed, d.1 ∉ d.2

def Undisturbed (s : WithDeadlineTemporary α) : Op → Prop
  | .complete => s.ended = false ∧ s.awaiter.awaiting → s.awaiter.suspended = false
  | .expire => s.ended = false ∧ s.awaiter.sleeping → s.awaiter.suspended = false
  | _ => True

structure Inv (s : WithDeadlineTemporary α) : Prop where
  safe : s.Safe
  pending : s.awaiter.result = .notReady →
    s.awaiter.completed = false ∧ s.awaiter.expired = false
  suspended : s.ended = false → s.awaiter.suspended = true →
    s.awaiter.result = .notReady ∧ s.awaiter.waitingCoro = true

variable {own : α} {moved : α → α} {s t : WithDeadlineTemporary α} {chain : List Coroutine}

theorem endExpression_awaiter (chain : List Coroutine) (s : WithDeadlineTemporary α) :
    (s.endExpression chain).awaiter = s.awaiter ∧ (s.endExpression chain).ended = true := by
  simp only [endExpression, futs, List.foldl_cons, List.foldl_nil, drop]
  split <;> split <;> exact ⟨rfl, rfl⟩

theorem mem_destroyed_endExpression {d : Coroutine × List Coroutine} :
    d ∈ (s.endExpression chain).destroyed ↔
      d ∈ s.destroyed ∨ (d.1, true) ∈ futs s.awaiter ∧ d.2 = chain := by
  obtain ⟨coroutine, nested⟩ := d
  simp only [endExpression, futs, List.foldl_cons, List.foldl_nil, drop]
  cases s.awaiter.sleeping <;> cases s.awaiter.awaiting <;> simp [or_and_right]

theorem Safe.endExpression (h : s.Safe) (hchain : ∀ fut ∈ futs s.awaiter, fut.1 ∉ chain) :
    (s.endExpression chain).Safe := by
  intro d hd
  obtain hd | ⟨hfut, rfl⟩ := mem_destroyed_endExpression.mp hd
  · exact h d hd
  · exact hchain (d.1, true) hfut

def Quiet (a b : WithDeadlineAwaiter α) : Prop :=
  b = a ∨ b.given = a.given ∧ b.suspended = false ∧ b.result ≠ .notReady

theorem quiet_resume (moved : α → α) {a : WithDeadlineAwaiter α} (hfree : a.suspended = false)
    (hready : a.result ≠ .notReady) :
    ∃ b, a.resumeWaitingCoro moved = some b ∧ b.given = a.given ∧ b.suspended = false ∧
      b.result ≠ .notReady := by
  obtain hwaiting | hwaiting := Bool.eq_false_or_eq_true a.waitingCoro
  · exact ⟨_, WithDeadlineAwaiter.resumeWaitingCoro_of_left hwaiting hfree, rfl, hfree, hready⟩
  · exact ⟨a, WithDeadlineAwaiter.resumeWaitingCoro_of_not_waiting hwaiting, rfl, hfree, hready⟩

theorem quiet_complete (own : α) (moved : α → α) {a : WithDeadlineAwaiter α}
    (h : a.awaiting = true → a.suspended = false) :
    ∃ b, a.step own moved .complete = some b ∧ Quiet a b := by
  rw [WithDeadlineAwaiter.step, WithDeadlineAwaiter.complete]
  split
  · rename_i hruns
    obtain ⟨b, hb, hquiet⟩ := quiet_resume moved
      (a := { a with completed := true, result := .value own }) (h hruns.1) (by simp)
    exact ⟨b, hb, .inr hquiet⟩
  · exact ⟨a, rfl, .inl rfl⟩

theorem quiet_expire (own : α) (moved : α → α) {a : WithDeadlineAwaiter α}
    (h : a.sleeping = true → a.suspended = false) :
    ∃ b, a.step own moved .expire = some b ∧ Quiet a b := by
  rw [WithDeadlineAwaiter.step, WithDeadlineAwaiter.expire]
  split
  · rename_i hruns
    dsimp only
    split
    · rename_i hready
      have hslot : a.result ≠ .notReady := WithDeadlineAwaiter.ready_of_awaitReady hready
      exact ⟨_, rfl, .inr ⟨rfl, h hruns.1, hslot⟩⟩
    · obtain ⟨b, hb, hquiet⟩ := quiet_resume moved
        (a := { a with expired := true, timedOutFirst := !a.completed, result := .timedOut })
        (h hruns.1) (by simp)
      exact ⟨b, hb, .inr hquiet⟩
  · exact ⟨a, rfl, .inl rfl⟩

theorem Inv.quiet {b : WithDeadlineAwaiter α} (h : s.Inv) (hb : Quiet s.awaiter b) :
    Inv { s with awaiter := b } := by
  rcases hb with rfl | ⟨-, hfree, hready⟩
  · exact h
  · refine ⟨h.safe, fun hnone => absurd hnone hready, fun _ hon => ?_⟩
    rw [hfree] at hon
    cases hon

theorem advance_of_quiet {b : WithDeadlineAwaiter α} {op : WithDeadline.Op}
    (hstep : s.awaiter.step own moved op = some b) (hb : Quiet s.awaiter b)
    (chain : List Coroutine) :
    s.advance own moved op chain = some { s with awaiter := b } := by
  have hgiven : b.given = s.awaiter.given := by
    rcases hb with rfl | ⟨hgiven, -⟩
    · rfl
    · exact hgiven
  rw [advance, hstep]
  exact congrArg some (if_neg (by rw [hgiven]; exact Nat.lt_irrefl _))

theorem advance_of_given {b : WithDeadlineAwaiter α} {op : WithDeadline.Op}
    (hstep : s.awaiter.step own moved op = some b)
    (hgiven : b.given.length = s.awaiter.given.length + 1) (chain : List Coroutine) :
    s.advance own moved op chain = some (endExpression chain { s with awaiter := b }) := by
  rw [advance, hstep]
  exact congrArg some (if_pos (by rw [hgiven]; exact Nat.lt_succ_self _))

theorem not_safe_of_given {b : WithDeadlineAwaiter α} {op : WithDeadline.Op} {helper : Coroutine}
    (hstep : s.awaiter.step own moved op = some b)
    (hgiven : b.given.length = s.awaiter.given.length + 1) (hfut : (helper, true) ∈ futs b)
    (hadvance : s.advance own moved op [.caller, helper] = some t) : ¬t.Safe := by
  intro hsafe
  rw [advance_of_given hstep hgiven] at hadvance
  cases hadvance
  have hgone := hsafe (helper, [.caller, helper])
    (mem_destroyed_endExpression.mpr (.inr ⟨hfut, rfl⟩))
  simp at hgone

theorem Inv.endExpression {b : WithDeadlineAwaiter α} (h : s.Inv) (hready : b.result ≠ .notReady)
    (hchain : ∀ fut ∈ futs b, fut.1 ∉ chain) :
    Inv (endExpression chain { s with awaiter := b }) := by
  obtain ⟨hsame, hended⟩ := endExpression_awaiter chain { s with awaiter := b }
  refine ⟨Safe.endExpression h.safe hchain, fun hnone => ?_, fun hopen => ?_⟩
  · rw [hsame] at hnone
    exact absurd hnone hready
  · rw [hended] at hopen
    cases hopen

theorem Inv.await (h : s.Inv) :
    ∃ t, s.advance own moved .await [.caller] = some t ∧ t.Inv := by
  have hstep : s.awaiter.step own moved .await = s.awaiter.await moved := rfl
  obtain hon | hfree := Bool.eq_false_or_eq_true s.awaiter.suspended
  · have hsame : Quiet s.awaiter s.awaiter := .inl rfl
    rw [WithDeadlineAwaiter.await, if_pos hon] at hstep
    exact ⟨_, advance_of_quiet hstep hsame _, h.quiet hsame⟩
  rw [WithDeadlineAwaiter.await, if_neg (by simp [hfree])] at hstep
  split at hstep
  · rename_i hready
    obtain ⟨b, hb, hgiven, hslot, -⟩ := WithDeadlineAwaiter.awaitResume_of_ready moved
      (WithDeadlineAwaiter.ready_of_awaitReady hready)
    exact ⟨_, advance_of_given (hstep.trans hb) hgiven _, h.endExpression hslot (by simp [futs])⟩
  · rename_i hwait
    have hnone : s.awaiter.result = .notReady := by
      cases hslot : s.awaiter.result with
      | notReady => rfl
      | timedOut => simp [WithDeadlineAwaiter.awaitReady, hslot] at hwait
      | value v => simp [WithDeadlineAwaiter.awaitReady, hslot] at hwait
    refine ⟨{ s with awaiter := s.awaiter.awaitSuspend }, ?_, h.safe, h.pending,
      fun _ _ => ⟨hnone, rfl⟩⟩
    rw [advance, hstep]
    exact congrArg some (if_neg (Nat.lt_irrefl _))

theorem Inv.cancel (h : s.Inv) : s.cancel.Inv := by
  rw [WithDeadlineTemporary.cancel]
  split
  · obtain ⟨hsame, hended⟩ := endExpression_awaiter [] s
    have hsafe := h.safe.endExpression fun fut (_ : fut ∈ futs s.awaiter) => List.not_mem_nil
    refine ⟨fun d hd => ?_, fun hnone => ?_, fun hopen => ?_⟩
    · rcases List.mem_append.mp hd with hd | hd
      · exact hsafe d hd
      · cases List.mem_singleton.mp hd
        exact List.not_mem_nil
    · exact hsame ▸ h.pending (hsame ▸ hnone)
    · exact absurd (hended.symm.trans hopen) (by decide)
  · exact h

theorem inv_step {op : Op} (h : s.Inv) (hop : s.Undisturbed op) :
    ∃ t, s.step own moved op = some t ∧ t.Inv := by
  unfold step
  split
  · exact ⟨s, rfl, h⟩
  rename_i hopen
  rw [Bool.not_eq_true] at hopen
  cases op with
  | complete =>
    obtain ⟨b, hb, hquiet⟩ := quiet_complete own moved
      fun hhelper => hop ⟨hopen, hhelper⟩
    exact ⟨_, advance_of_quiet hb hquiet _, h.quiet hquiet⟩
  | expire =>
    obtain ⟨b, hb, hquiet⟩ := quiet_expire own moved
      fun hhelper => hop ⟨hopen, hhelper⟩
    exact ⟨_, advance_of_quiet hb hquiet _, h.quiet hquiet⟩
  | await => exact h.await
  | cancel => exact ⟨_, rfl, h.cancel⟩

theorem given_resume (moved : α → α) {a : WithDeadlineAwaiter α} (hwaiting : a.waitingCoro = true)
    (hon : a.suspended = true) (hready : a.result ≠ .notReady) :
    ∃ b, a.resumeWaitingCoro moved = some b ∧ b.given.length = a.given.length + 1 ∧
      b.awaiting = a.awaiting ∧ b.sleeping = a.sleeping := by
  obtain ⟨b, hb, hgiven, -, hframes⟩ := WithDeadlineAwaiter.awaitResume_of_ready
    moved (s := { a with resumptions := a.resumptions + 1 }) hready
  exact ⟨b, (WithDeadlineAwaiter.resumeWaitingCoro_of_suspended hwaiting hon).trans hb, hgiven,
    hframes⟩

theorem Inv.undisturbed_of_complete (h : s.Inv) (hstep : s.step own moved .complete = some t)
    (hsafe : t.Safe) : s.Undisturbed .complete := by
  rintro ⟨hopen, hhelper⟩
  by_contra hon
  rw [Bool.not_eq_false] at hon
  obtain ⟨hnone, hwaiting⟩ := h.suspended hopen hon
  obtain ⟨b, hb, hgiven, hawaiting, -⟩ := given_resume moved
    (a := { s.awaiter with completed := true, result := .value own }) hwaiting hon (by simp)
  have hruns : s.awaiter.step own moved .complete = some b := by
    rw [WithDeadlineAwaiter.step, WithDeadlineAwaiter.complete,
      if_pos ⟨hhelper, (h.pending hnone).1⟩]
    exact hb
  have hfut : (.awaitingHelper, true) ∈ futs b := by simp [futs, hawaiting, hhelper]
  rw [step, if_neg (by simp [hopen])] at hstep
  exact not_safe_of_given hruns hgiven hfut hstep hsafe

theorem Inv.undisturbed_of_expire (h : s.Inv) (hstep : s.step own moved .expire = some t)
    (hsafe : t.Safe) : s.Undisturbed .expire := by
  rintro ⟨hopen, hhelper⟩
  by_contra hon
  rw [Bool.not_eq_false] at hon
  obtain ⟨hnone, hwaiting⟩ := h.suspended hopen hon
  obtain ⟨b, hb, hgiven, -, hsleeping⟩ := given_resume moved
    (a := { s.awaiter with
      expired := true, timedOutFirst := !s.awaiter.completed, result := .timedOut })
    hwaiting hon (by simp)
  have hruns : s.awaiter.step own moved .expire = some b := by
    rw [WithDeadlineAwaiter.step, WithDeadlineAwaiter.expire,
      if_pos ⟨hhelper, (h.pending hnone).2⟩]
    dsimp only
    rw [if_neg (by simp [WithDeadlineAwaiter.awaitReady, hnone])]
    exact hb
  have hfut : (.sleepingHelper, true) ∈ futs b := by simp [futs, hsleeping, hhelper]
  rw [step, if_neg (by simp [hopen])] at hstep
  exact not_safe_of_given hruns hgiven hfut hstep hsafe

theorem inv_start (awaiting sleeping : Bool) :
    Inv ({ awaiter := { awaiting, sleeping } } : WithDeadlineTemporary α) where
  safe := by simp [Safe]
  pending _ := ⟨rfl, rfl⟩
  suspended _ hon := by cases hon

theorem safe_iff_undisturbed (own : α) (moved : α → α) (awaiting sleeping : Bool) (ops : List Op) :
    Steadily (step own moved) Safe { awaiter := { awaiting, sleeping } } ops ↔
      Along (step own moved) Undisturbed { awaiter := { awaiting, sleeping } } ops :=
  steadily_iff (R := fun _ _ => True) (J := Inv) (fun _ => Inv.safe)
    (fun _ _ h _ => inv_step h)
    (fun s op t h _ hstep hsafe => by
      cases op with
      | complete => exact h.undisturbed_of_complete hstep hsafe
      | expire => exact h.undisturbed_of_expire hstep hsafe
      | await => trivial
      | cancel => trivial)
    (inv_start awaiting sleeping) ops (along_of_forall (fun _ _ => trivial) _ ops)

theorem not_safe_of_suspended :
    ([Op.await, .complete].foldlM (step 7 id)
      { awaiter := { awaiting := true, sleeping := true } }).map destroyed =
      some [(.sleepingHelper, [.caller, .awaitingHelper]),
        (.awaitingHelper, [.caller, .awaitingHelper])] ∧
    ([Op.await, .expire].foldlM (step 7 id)
      { awaiter := { awaiting := true, sleeping := true } }).map destroyed =
      some [(.sleepingHelper, [.caller, .sleepingHelper]),
        (.awaitingHelper, [.caller, .sleepingHelper])] ∧
    ¬∀ (own : Nat) (moved : Nat → Nat) (awaiting sleeping : Bool) (ops : List Op),
      Steadily (step own moved) Safe { awaiter := { awaiting, sleeping } } ops := by
  refine ⟨rfl, rfl, fun hall => ?_⟩
  obtain ⟨s, hs, hsafe⟩ := (hall 7 id true true [.await, .complete]).last
  cases hs
  have hgone := hsafe (.awaitingHelper, [.caller, .awaitingHelper]) (by decide)
  simp at hgone

end WithDeadlineTemporary

end Corosig
