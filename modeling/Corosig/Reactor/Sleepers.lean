import Corosig.Library.Loop
import Corosig.Library.StableQueue
import Mathlib.Algebra.Order.Ring.Int

namespace Corosig.Reactor
open Loop StableQueue

-- The address of a node tells nodes apart, the times are in nanoseconds.
structure SleepListNode (ν κ : Type) where
  address : ν
  waitingCoro : κ
  awakeTime : Int
  deriving DecidableEq, Repr

variable {ν κ σ : Type}

-- The multiset orders nodes by their awake time and inserts after equal ones.
abbrev SleepList (ν κ : Type) := Queue (SleepListNode.awakeTime (ν := ν) (κ := κ))

inductive SleepAction (ν κ : Type) where
  | insert (node : SleepListNode ν κ)
  | cancel (address : ν)
  deriving DecidableEq, Repr

abbrev SleepingCoros (σ ν κ : Type) := σ → κ → σ × List (SleepAction ν κ)

structure Sleeping (σ ν κ : Type) where
  coros : σ
  mSleeping : SleepList ν κ
  log : List (StableQueue.Event (SleepListNode ν κ)) := []

variable [DecidableEq ν]

-- Linking a node that is linked already is an error; destroying a node unlinks it.
def scheduleWhenTimePasses (s : Sleeping σ ν κ) (node : SleepListNode ν κ) :
    Option (Sleeping σ ν κ) :=
  if ∃ e ∈ s.mSleeping.entries, e.value.address = node.address then none
  else some { s with
    mSleeping := s.mSleeping.insert node
    log := s.log ++ [.inserted ⟨node, s.mSleeping.next⟩] }

def unlink (s : Sleeping σ ν κ) (address : ν) : Sleeping σ ν κ :=
  let gone (node : SleepListNode ν κ) : Bool := node.address = address
  { s with
    mSleeping := s.mSleeping.remove gone
    log := s.log ++ (s.mSleeping.entries.filter fun e => gone e.value).map .removed }

def act (s : Sleeping σ ν κ) : SleepAction ν κ → Option (Sleeping σ ν κ)
  | .insert node => scheduleWhenTimePasses s node
  | .cancel address => some (unlink s address)

def resumeReadySleepersStep (resume : SleepingCoros σ ν κ) (now : Int) (s : Sleeping σ ν κ) :
    Next (Sleeping σ ν κ) (Option (Sleeping σ ν κ)) :=
  match s.mSleeping.entries with
  | [] => .done (some s)
  | e :: _ =>
      if now < e.value.awakeTime then .done (some s)
      else
        let (coros, actions) := resume s.coros e.value.waitingCoro
        let erased : Sleeping σ ν κ :=
          { coros := coros, mSleeping := s.mSleeping.pop, log := s.log ++ [.popped e] }
        match actions.foldlM act erased with
        | some t => .more t
        | none => .done none

def Turn (resume : SleepingCoros σ ν κ) (s t : Sleeping σ ν κ) : Prop :=
  ∃ e rest, s.mSleeping.entries = e :: rest ∧
    (resume s.coros e.value.waitingCoro).2.foldlM act
      ⟨(resume s.coros e.value.waitingCoro).1, s.mSleeping.pop, s.log ++ [.popped e]⟩ = some t

def resumeAll (resume : SleepingCoros σ ν κ) (coros : σ)
    (nodes : List (Entry (SleepListNode ν κ))) : σ :=
  nodes.foldl (fun coros e => (resume coros e.value.waitingCoro).1) coros

structure Woken (resume : SleepingCoros σ ν κ) (now : Int) (coros : σ) (start : SleepList ν κ)
    (t : Sleeping σ ν κ) : Prop where
  turns : Relation.ReflTransGen (Turn resume) ⟨coros, start, []⟩ t
  resumed : t.coros = resumeAll resume coros (pops t.log)
  left : ∀ e ∈ t.mSleeping.entries, now < e.value.awakeTime
  history : History start t.log t.mSleeping
  due : ∀ e ∈ pops t.log, e.value.awakeTime ≤ now
  present : ∀ e ∈ pops t.log, e ∈ start.entries ++ insertions t.log
  stamps : ((start.entries ++ insertions t.log).map Entry.stamp).Nodup
  once : ((pops t.log).map Entry.stamp).Nodup
  inOrder : ∀ l₁ m l₂ n l₃, t.log = l₁ ++ .popped m :: l₂ ++ .popped n :: l₃ →
    (∀ e ∈ insertions l₂, m.value.awakeTime ≤ e.value.awakeTime) →
    Before SleepListNode.awakeTime m n
  noneLeft : ∀ e ∈ start.entries ++ insertions t.log, e.value.awakeTime ≤ now →
    e ∈ pops t.log ∨ e ∈ removals t.log

variable {resume : SleepingCoros σ ν κ} {now : Int} {s t : Sleeping σ ν κ}
  {coros : σ} {start : SleepList ν κ} {actions : List (SleepAction ν κ)}

theorem act_history {action : SleepAction ν κ} (h : History start s.log s.mSleeping)
    (ht : act s action = some t) :
    History start t.log t.mSleeping ∧ pops t.log = pops s.log ∧ t.coros = s.coros := by
  cases action with
  | insert node =>
    rw [act, scheduleWhenTimePasses] at ht
    split at ht
    · cases ht
    · cases ht
      exact ⟨h.insert node, by simp, rfl⟩
  | cancel address =>
    cases ht
    exact ⟨h.remove fun node : SleepListNode ν κ => node.address = address, by simp [unlink], rfl⟩

theorem foldlM_history (h : History start s.log s.mSleeping) (ht : actions.foldlM act s = some t) :
    History start t.log t.mSleeping ∧ pops t.log = pops s.log ∧ t.coros = s.coros := by
  induction actions generalizing s with
  | nil =>
    cases ht
    exact ⟨h, rfl, rfl⟩
  | cons action actions ih =>
    obtain ⟨s', hs', hrest⟩ := Option.bind_eq_some_iff.mp ht
    obtain ⟨h', hpops, hcoros⟩ := act_history h hs'
    obtain ⟨ht, hpops', hcoros'⟩ := ih h' hrest
    exact ⟨ht, hpops'.trans hpops, hcoros'.trans hcoros⟩

theorem resumeReadySleepersStep_more (hstep : resumeReadySleepersStep resume now s = .more t) :
    Turn resume s t ∧ ∃ e rest, s.mSleeping.entries = e :: rest ∧ e.value.awakeTime ≤ now := by
  rw [resumeReadySleepersStep] at hstep
  split at hstep
  · cases hstep
  · rename_i e rest hentries
    split at hstep
    · cases hstep
    · rename_i hdue
      dsimp only at hstep
      split at hstep
      · rename_i t' hacts
        cases hstep
        exact ⟨⟨e, rest, hentries, hacts⟩, e, rest, hentries, not_lt.mp hdue⟩
      · cases hstep

structure Waking (resume : SleepingCoros σ ν κ) (now : Int) (coros : σ) (start : SleepList ν κ)
    (s : Sleeping σ ν κ) : Prop where
  turns : Relation.ReflTransGen (Turn resume) ⟨coros, start, []⟩ s
  resumed : s.coros = resumeAll resume coros (pops s.log)
  history : History start s.log s.mSleeping
  due : ∀ e ∈ pops s.log, e.value.awakeTime ≤ now

theorem Waking.step (h : Waking resume now coros start s)
    (hstep : resumeReadySleepersStep resume now s = .more t) :
    Waking resume now coros start t := by
  obtain ⟨hturn, first, _, hfirst, hdue⟩ := resumeReadySleepersStep_more hstep
  have ⟨e, rest, hentries, hacts⟩ := hturn
  obtain ⟨rfl, rfl⟩ := List.cons.inj (hfirst.symm.trans hentries)
  obtain ⟨hhistory, hpops, hcoros⟩ := foldlM_history (h.history.pop first _ hentries) hacts
  have hlog : pops t.log = pops s.log ++ [first] := by
    rw [hpops, pops_append, pops_popped]
  refine ⟨h.turns.tail hturn, ?_, hhistory, fun m hm => ?_⟩
  · rw [hcoros, hlog, h.resumed, resumeAll, resumeAll, List.foldl_append]
    rfl
  · rw [hlog] at hm
    rcases List.mem_append.mp hm with hm | hm
    · exact h.due m hm
    · rw [List.mem_singleton.mp hm]
      exact hdue

theorem Waking.woken (h : Waking resume now coros start s)
    (hnone : ∀ e ∈ s.mSleeping.entries, now < e.value.awakeTime) :
    Woken resume now coros start s where
  turns := h.turns
  resumed := h.resumed
  left := hnone
  history := h.history
  due := h.due
  present := fun _ he => h.history.mem_of_popped he
  stamps := h.history.stamped.2
  once := h.history.pops_nodup
  inOrder := fun _ _ _ _ _ => h.history.popped_before
  noneLeft := by
    intro e he hdue
    rcases List.mem_append.mp (h.history.perm.mem_iff.mp he) with hgone | hstill
    · exact List.mem_append.mp hgone
    · exact absurd hdue (not_le.mpr (hnone e hstill))

end Corosig.Reactor
