import Corosig.Reactor.EventLoop

namespace Corosig.EventLoop
open OperationRuns Reactor Registrations

variable {κ : Type} {build : Build} {s t : EventLoop κ} {c : κ} {resumed : Option κ}

def Op.begins : Op κ → Bool
  | .doEventLoopIteration _ => true
  | _ => false

def Phase.stage : Phase → Nat
  | .sleepers _ => 0
  | .ready => 1
  | _ => 2

structure Underway (start : EventLoop κ) (now : Int)
    (events : List (Registrations.Event κ Wait Cause)) (s : EventLoop κ) : Prop where
  log : s.log = start.log ++ events
  kept : ∀ c wait, (c, wait) ∈ start.waits → (c, wait) ∈ s.waits ∨ Ended c events
  clock : ∀ now', s.phase = .sleepers now' → now' = now
  woken : 1 ≤ s.phase.stage → ∀ c awakeTime, (c, .time awakeTime) ∈ start.waits →
    awakeTime ≤ now → Ended c events
  turned : 2 ≤ s.phase.stage → ∀ c, (c, .turn) ∈ start.waits → Ended c events

structure Passes (now : Int) (s t : EventLoop κ) : Prop where
  clock : ∀ now', t.phase = .sleepers now' → s.phase = .sleepers now'
  woken : 1 ≤ t.phase.stage → 1 ≤ s.phase.stage ∨
    ∀ c awakeTime, (c, .time awakeTime) ∈ t.waits → now < awakeTime
  turned : 2 ≤ t.phase.stage → 2 ≤ s.phase.stage ∨ ∀ c, (c, .turn) ∉ t.waits

theorem passes_same {now : Int} (h : t.phase = s.phase) : Passes now s t := by
  constructor
  · rw [h]
    exact fun _ => id
  · rw [h]
    exact .inl
  · rw [h]
    exact .inl

theorem passes_late {now : Int} (hs : s.phase.stage = 2) (ht : t.phase.stage = 2) :
    Passes now s t := by
  refine ⟨fun now' h => ?_, fun _ => .inl (hs ▸ by decide), fun _ => .inl hs.ge⟩
  rw [h] at ht
  cases ht

theorem mem_waits_time {awakeTime : Int} (h : (c, .time awakeTime) ∈ s.waits) :
    ∃ e ∈ s.mSleeping.entries, e.value.awakeTime = awakeTime := by
  simp only [waits, List.mem_append, List.mem_map, Prod.mk.injEq, reduceCtorEq, and_false,
    exists_false, or_false, false_or, Wait.time.injEq] at h
  obtain ⟨e, he, -, htime⟩ := h
  exact ⟨e, he, htime⟩

theorem mem_waits_turn (h : (c, .turn) ∈ s.waits) : c ∈ s.mReady := by
  simpa [waits] using h

variable [DecidableEq κ]

theorem step_passes {op : Op κ} {now : Int} (hs : s.step build op = some (t, resumed))
    (hop : op.begins = false)
    (hclock : ∀ now', s.phase = .sleepers now' → now' = now) : Passes now s t := by
  cases op with
  | link c wait =>
    rw [step] at hs
    split at hs
    · cases hs
    obtain ⟨t', hlink, h⟩ := Option.map_eq_some_iff.mp hs
    cases h
    exact passes_same (link_cases hlink).2.2.2.1
  | destroy c =>
    rw [step] at hs
    split at hs
    · cases hs
    cases hs
    refine passes_same ?_
    rw [unlink]
    split <;> rfl
  | doEventLoopIteration now' => cases hop
  | resumeReadySleepers =>
    obtain ⟨now', hphase, h⟩ := resumeReadySleepers_cases hs
    obtain ⟨rfl, -, hlater⟩ | ⟨e, rest, -, -, -, rfl⟩ := h
    · refine ⟨fun now h => Phase.noConfusion h, fun _ => .inr fun c awakeTime hmem => ?_,
        fun h => absurd h (Nat.not_succ_le_self 1)⟩
      obtain ⟨e, he, rfl⟩ := mem_waits_time hmem
      exact hclock now' hphase ▸ hlater e he
    · exact passes_same rfl
  | resumeReady now' =>
    obtain ⟨hphase, h⟩ := resumeReady_cases hs
    obtain ⟨⟨timeout, rfl⟩, hready, -⟩ | ⟨c, ready, -, -, rfl⟩ := h
    · refine ⟨fun now h => Phase.noConfusion h, fun _ => .inl (hphase ▸ Nat.le_refl 1),
        fun _ => .inr fun c hmem => ?_⟩
      have hmem : c ∈ s.mReady := mem_waits_turn hmem
      rw [hready] at hmem
      cases hmem
    · exact passes_same rfl
  | pollAndResume method answer =>
    obtain ⟨t', h', h⟩ := Option.map_eq_some_iff.mp hs
    cases h
    obtain ⟨⟨timeout, hphase⟩, h⟩ := pollAndResume_cases h'
    obtain ⟨result, rfl⟩ | ⟨pollFds, ret, rfl⟩ := h
    · exact passes_late (hphase ▸ rfl) rfl
    · exact passes_late (hphase ▸ rfl) rfl
  | pollAndResumeImpl =>
    obtain ⟨pollFds, ret, i, handled, hphase, h⟩ := pollAndResumeImpl_cases hs
    obtain ⟨rfl, -⟩ | ⟨handled', ⟨rfl, -⟩ | ⟨node, polled, -, ⟨-, rfl⟩ |
      ⟨pollFd, -, -, -, rfl⟩⟩⟩ := h
    · exact passes_late (hphase ▸ rfl) rfl
    · exact passes_late (hphase ▸ rfl) rfl
    · exact passes_late (hphase ▸ rfl) rfl
    · exact passes_late (hphase ▸ rfl) rfl

def resumptions (build : Build) (s : EventLoop κ) : List (Op κ) → List κ
  | [] => []
  | op :: ops =>
      match s.step build op with
      | some (t, resumed) => resumed.toList ++ t.resumptions build ops
      | none => []

theorem Underway.next {start : EventLoop κ} {now : Int} {op : Op κ}
    {events : List (Registrations.Event κ Wait Cause)} (h : Underway start now events s)
    (hi : s.Inv) (hop : op.begins = false) (hs : s.next build op = some t) :
    ∃ events', Underway start now (events ++ events') t := by
  obtain ⟨resumed, hstep⟩ := next_step hs
  obtain ⟨⟨events', hlog, hmoves⟩, -⟩ := step_does hi hstep
  have hpasses := step_passes hstep hop h.clock
  have hkept (c : κ) (wait : Wait) (hmem : (c, wait) ∈ start.waits) :
      (c, wait) ∈ t.waits ∨ Ended c (events ++ events') := by
    rcases h.kept c wait hmem with hmem | hended
    · exact (hmoves.kept_or_ended hmem).imp_right fun hended => hended.append_right events
    · exact .inr (hended.append_left events')
  refine ⟨events', ?_, hkept, fun now' hphase => h.clock now' (hpasses.clock now' hphase), ?_, ?_⟩
  · rw [hlog, h.log, List.append_assoc]
  · intro hstage c awakeTime hmem hdue
    rcases hpasses.woken hstage with hstage | hlater
    · exact (h.woken hstage c awakeTime hmem hdue).append_left events'
    · exact (hkept c _ hmem).resolve_left fun hmem => not_lt.mpr hdue (hlater c awakeTime hmem)
  · intro hstage c hmem
    rcases hpasses.turned hstage with hstage | hnone
    · exact (h.turned hstage c hmem).append_left events'
    · exact (hkept c _ hmem).resolve_left (hnone c)

theorem Underway.run {start : EventLoop κ} {now : Int} {ops : List (Op κ)}
    {events : List (Registrations.Event κ Wait Cause)} (h : Underway start now events s)
    (hi : s.Inv) (hops : ∀ op ∈ ops, op.begins = false)
    (hs : ops.foldlM (EventLoop.next build) s = some t) :
    ∃ events', Underway start now events' t := by
  induction ops generalizing s events with
  | nil =>
    cases hs
    exact ⟨events, h⟩
  | cons op ops ih =>
    obtain ⟨s', hnext, hs⟩ := Option.bind_eq_some_iff.mp hs
    obtain ⟨hop, hops⟩ := List.forall_mem_cons.mp hops
    obtain ⟨events', h'⟩ := h.next hi hop hnext
    exact ih h' (hi.next hnext) hops hs

end Corosig.EventLoop
