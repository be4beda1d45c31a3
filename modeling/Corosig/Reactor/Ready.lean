import Corosig.Library.Loop
import Mathlib.Data.List.Basic

namespace Corosig.Reactor
open Loop

inductive Action (ν : Type) where
  | schedule (node : ν)
  | cancel (node : ν)
  deriving DecidableEq, Repr

inductive Event (ν : Type) where
  | resumed (node : ν)
  | did (action : Action ν)
  deriving DecidableEq, Repr

abbrev Tasks (σ ν : Type) := σ → ν → σ × List (Action ν)

structure State (σ ν : Type) where
  tasks : σ
  ready : List ν
  log : List (Event ν) := []

structure Snapshot (σ ν : Type) where
  tasks : σ
  snapshot : List ν
  ready : List ν := []
  log : List (Event ν) := []

variable {σ ν : Type}

def resumedNodes (log : List (Event ν)) : List ν :=
  log.filterMap fun
    | .resumed n => some n
    | .did _ => none

theorem resumedNodes_step (log : List (Event ν)) (n : ν) (as : List (Action ν)) :
    resumedNodes (log ++ .resumed n :: as.map .did) = resumedNodes log ++ [n] := by
  have hnone : (as.map Event.did).filterMap (fun
      | .resumed n => some n
      | .did _ => none) = ([] : List ν) := by
    induction as with
    | nil => rfl
    | cons a as ih => exact ih
  simp [resumedNodes, hnone]

variable [DecidableEq ν]

-- Pushing a node whose hook is already linked fails the safe-link check of the intrusive list.
def perform (ready : List ν) : Action ν → Option (List ν)
  | .schedule n => if n ∈ ready then none else some (ready ++ [n])
  | .cancel n => some (ready.filter (· ≠ n))

def resumeReadyStep (resume : Tasks σ ν) (s : State σ ν) :
    Next (State σ ν) (Option (State σ ν)) :=
  match s.ready with
  | [] => .done (some s)
  | n :: ready =>
      match (resume s.tasks n).2.foldlM perform ready with
      | some ready => .more ⟨(resume s.tasks n).1, ready,
          s.log ++ .resumed n :: (resume s.tasks n).2.map .did⟩
      | none => .done none

def performApart (q : List ν × List ν) : Action ν → Option (List ν × List ν)
  | .schedule n => if n ∈ q.1 ++ q.2 then none else some (q.1, q.2 ++ [n])
  | .cancel n => some (q.1.filter (· ≠ n), q.2.filter (· ≠ n))

def snapshotStep (resume : Tasks σ ν) (s : Snapshot σ ν) :
    Next (Snapshot σ ν) (Option (State σ ν)) :=
  match s.snapshot with
  | [] => .done (some ⟨s.tasks, s.ready, s.log⟩)
  | n :: snapshot =>
      match (resume s.tasks n).2.foldlM performApart (snapshot, s.ready) with
      | some (snapshot, ready) => .more ⟨(resume s.tasks n).1, snapshot, ready,
          s.log ++ .resumed n :: (resume s.tasks n).2.map .did⟩
      | none => .done none

def State.snapshot (s : State σ ν) : Snapshot σ ν := ⟨s.tasks, s.ready, [], s.log⟩

def Snapshot.whole (s : Snapshot σ ν) : State σ ν := ⟨s.tasks, s.snapshot ++ s.ready, s.log⟩

variable {resume : Tasks σ ν} {s : Snapshot σ ν} {r : Option (State σ ν)}

theorem performApart_append (q : List ν × List ν) (a : Action ν) :
    perform (q.1 ++ q.2) a = (performApart q a).map fun q => q.1 ++ q.2 := by
  cases a with
  | schedule n =>
    simp only [perform, performApart]
    split <;> simp
  | cancel n => simp [perform, performApart]

theorem foldlM_performApart (as : List (Action ν)) (q : List ν × List ν) :
    as.foldlM perform (q.1 ++ q.2) = (as.foldlM performApart q).map fun q => q.1 ++ q.2 := by
  induction as generalizing q with
  | nil => simp
  | cons a as ih =>
    simp only [List.foldlM_cons, performApart_append]
    cases performApart q a with
    | none => rfl
    | some q => exact ih q

theorem performApart_sublist {q q' : List ν × List ν} {a : Action ν}
    (h : performApart q a = some q') : q'.1.Sublist q.1 := by
  cases a with
  | schedule n =>
    simp only [performApart] at h
    split at h <;> cases h
    exact .refl _
  | cancel n =>
    cases h
    exact List.filter_sublist

theorem foldlM_sublist {as : List (Action ν)} {q q' : List ν × List ν}
    (h : as.foldlM performApart q = some q') : q'.1.Sublist q.1 := by
  induction as generalizing q with
  | nil =>
    cases h
    exact .refl _
  | cons a as ih =>
    obtain ⟨q₁, h₁, h₂⟩ := Option.bind_eq_some_iff.mp h
    exact (ih h₂).trans (performApart_sublist h₁)

theorem snapshotStep_more {t : Snapshot σ ν} (h : snapshotStep resume s = .more t) :
    ∃ n rest, s.snapshot = n :: rest ∧ t.snapshot.Sublist rest ∧
      t.log = s.log ++ .resumed n :: (resume s.tasks n).2.map .did := by
  unfold snapshotStep at h
  split at h
  · cases h
  · rename_i n rest hs
    split at h
    · rename_i q snapshot ready hf
      cases h
      exact ⟨n, rest, hs, foldlM_sublist hf, rfl⟩
    · cases h

theorem snapshot_halts (resume : Tasks σ ν) (s : Snapshot σ ν) : Halts (snapshotStep resume) s := by
  refine halts_of_measure (I := fun _ => True) (fun s => s.snapshot.length)
    (fun s t _ h => ⟨trivial, ?_⟩) trivial
  obtain ⟨n, rest, hs, ht, -⟩ := snapshotStep_more h
  rw [hs, List.length_cons]
  exact Nat.lt_succ_of_le ht.length_le

theorem resumeReadyStep_whole {t : Snapshot σ ν} (h : snapshotStep resume s = .more t) :
    resumeReadyStep resume s.whole = .more t.whole := by
  unfold snapshotStep at h
  split at h
  · cases h
  · rename_i n rest hs
    have hf := foldlM_performApart (resume s.tasks n).2 (rest, s.ready)
    split at h
    · rename_i snapshot ready he
      cases h
      rw [he, Option.map_some] at hf
      simp only [resumeReadyStep, Snapshot.whole, hs, List.cons_append, hf]
    · cases h

theorem snapshotStep_done (h : snapshotStep resume s = .done r) :
    s.snapshot = [] ∧ r = some s.whole ∨ r = none ∧ resumeReadyStep resume s.whole = .done none := by
  unfold snapshotStep at h
  split at h
  · rename_i hs
    cases h
    exact .inl ⟨hs, by simp [Snapshot.whole, hs]⟩
  · rename_i n rest hs
    have hf := foldlM_performApart (resume s.tasks n).2 (rest, s.ready)
    split at h
    · cases h
    · rename_i he
      cases h
      rw [he, Option.map_none] at hf
      exact .inr ⟨rfl, by simp only [resumeReadyStep, Snapshot.whole, hs, List.cons_append, hf]⟩

theorem snapshot_yields (h : Yields (snapshotStep resume) s r) :
    r = none ∧ Yields (resumeReadyStep resume) s.whole none ∨
      ∃ t, r = some t ∧ Reaches (resumeReadyStep resume) s.whole t := by
  obtain ⟨u, hu, hd⟩ := yields_iff_reaches.mp h
  have hr : Reaches (resumeReadyStep resume) s.whole u.whole :=
    hu.lift Snapshot.whole fun _ _ h => resumeReadyStep_whole h
  rcases snapshotStep_done hd with ⟨-, rfl⟩ | ⟨rfl, hn⟩
  · exact .inr ⟨u.whole, rfl, hr⟩
  · exact .inl ⟨rfl, (yields_reaches hr).mpr ((yields_done hn).mpr rfl)⟩

theorem resumeReadyStep_log {s t : State σ ν} (h : resumeReadyStep resume s = .more t) :
    s.log.length < t.log.length := by
  unfold resumeReadyStep at h
  split at h
  · cases h
  · split at h
    · cases h
      simp
    · cases h

theorem resumeReadyStep_done {s : State σ ν} {r : Option (State σ ν)}
    (h : resumeReadyStep resume s = .done r) : s.ready = [] ∧ r = some s ∨ r = none := by
  unfold resumeReadyStep at h
  split at h
  · rename_i hs
    cases h
    exact .inl ⟨hs, rfl⟩
  · split at h
    · cases h
    · cases h
      exact .inr rfl

theorem ready_empty_of_yields {t : State σ ν} (h : Yields (resumeReadyStep resume) t (some t)) :
    t.ready = [] := by
  cases hs : resumeReadyStep resume t with
  | done r =>
    obtain rfl := (yields_done hs).mp h
    rcases resumeReadyStep_done hs with ⟨he, -⟩ | hr
    · exact he
    · cases hr
  | more u =>
    rw [yields_more hs] at h
    have hlt : ∀ v, some t = some v → t.log.length < v.log.length := by
      refine yields_post (I := fun v => t.log.length < v.log.length)
        (Q := fun r => ∀ v, r = some v → t.log.length < v.log.length) ?_ ?_
        (resumeReadyStep_log hs) h
      · exact fun v w hv hw => Nat.lt_trans hv (resumeReadyStep_log hw)
      · rintro v r hv hd w rfl
        rcases resumeReadyStep_done hd with ⟨-, hr⟩ | hr
        · cases hr
          exact hv
        · cases hr
    exact absurd (hlt t rfl) (Nat.lt_irrefl _)

theorem resume_ready_iff {s : State σ ν} :
    (∃ r, Yields (resumeReadyStep resume) s r ∧ Yields (snapshotStep resume) s.snapshot r) ↔
      ∀ t, Yields (snapshotStep resume) s.snapshot (some t) → t.ready = [] := by
  have hwhole : s.snapshot.whole = s := by simp [State.snapshot, Snapshot.whole]
  constructor
  · rintro ⟨r, hc, hs⟩ t ht
    obtain rfl := yields_unique hs ht
    rcases snapshot_yields ht with ⟨hn, -⟩ | ⟨u, hu, hr⟩
    · cases hn
    · cases hu
      rw [hwhole] at hr
      exact ready_empty_of_yields ((yields_reaches hr).mp hc)
  · intro h
    obtain ⟨r, hs⟩ := snapshot_halts resume s.snapshot
    refine ⟨r, ?_, hs⟩
    rcases snapshot_yields hs with ⟨rfl, hc⟩ | ⟨t, rfl, hr⟩
    · rwa [hwhole] at hc
    · rw [hwhole] at hr
      have hd : resumeReadyStep resume t = .done (some t) := by
        rw [resumeReadyStep, h t hs]
      exact (yields_reaches hr).mpr ((yields_done hd).mpr rfl)

theorem resume_ready_endless : ¬ ∀ (resume : Tasks Unit Unit) (s : State Unit Unit), ∃ r,
    Yields (resumeReadyStep resume) s r ∧ Yields (snapshotStep resume) s.snapshot r := by
  intro hall
  obtain ⟨r, hr, -⟩ := hall (fun _ n => ((), [.schedule n])) ⟨(), [()], []⟩
  refine not_halts_of_forever (I := fun s => s.ready = [()]) (fun s hs => ?_) rfl ⟨r, hr⟩
  exact ⟨⟨(), [()], s.log ++ [.resumed (), .did (.schedule ())]⟩,
    by simp [resumeReadyStep, hs, perform], rfl⟩

structure Served (ready : List ν) (s : Snapshot σ ν) : Prop where
  order : (resumedNodes s.log ++ s.snapshot).Sublist ready
  served : ∀ n ∈ ready, n ∈ resumedNodes s.log ∨ n ∈ s.snapshot ∨ .did (.cancel n) ∈ s.log
  scheduled : ∀ n ∈ s.ready, .did (.schedule n) ∈ s.log

theorem foldlM_mem {as : List (Action ν)} {q q' : List ν × List ν} {n : ν}
    (h : as.foldlM performApart q = some q') :
    (n ∈ q.1 → n ∈ q'.1 ∨ .cancel n ∈ as) ∧ (n ∈ q'.2 → n ∈ q.2 ∨ .schedule n ∈ as) := by
  induction as generalizing q with
  | nil =>
    cases h
    exact ⟨.inl, .inl⟩
  | cons a as ih =>
    obtain ⟨q₁, h₁, h₂⟩ := Option.bind_eq_some_iff.mp h
    obtain ⟨ih₁, ih₂⟩ := ih h₂
    cases a with
    | schedule m =>
      simp only [performApart] at h₁
      split at h₁ <;> cases h₁
      refine ⟨fun hn => (ih₁ hn).imp_right (List.mem_cons_of_mem _), fun hn => ?_⟩
      rcases ih₂ hn with h | h
      · rcases List.mem_append.mp h with h | h
        · exact .inl h
        · exact .inr (by simp [List.mem_singleton.mp h])
      · exact .inr (List.mem_cons_of_mem _ h)
    | cancel m =>
      cases h₁
      refine ⟨fun hn => ?_, fun hn => ?_⟩
      · by_cases hm : n = m
        · exact .inr (by simp [hm])
        · exact (ih₁ (List.mem_filter.mpr ⟨hn, by simpa using hm⟩)).imp_right
            (List.mem_cons_of_mem _)
      · exact (ih₂ hn).imp (fun h => (List.mem_filter.mp h).1) (List.mem_cons_of_mem _)

theorem Served.step {ready : List ν} {t : Snapshot σ ν} (h : Served ready s)
    (hs : snapshotStep resume s = .more t) : Served ready t := by
  unfold snapshotStep at hs
  split at hs
  · cases hs
  · rename_i n rest hn
    split at hs
    · rename_i snapshot later hf
      cases hs
      have hsub := foldlM_sublist hf
      have hmem := fun m => foldlM_mem (n := m) hf
      have horder := h.order
      rw [hn, List.append_cons] at horder
      refine ⟨?_, fun m hm => ?_, fun m hm => ?_⟩
      · rw [resumedNodes_step]
        exact (hsub.append_left _).trans horder
      · rw [resumedNodes_step]
        rcases h.served m hm with hr | hr | hr
        · exact .inl (List.mem_append_left _ hr)
        · rw [hn] at hr
          rcases List.mem_cons.mp hr with rfl | hr
          · exact .inl (by simp)
          · rcases (hmem m).1 hr with hr | hr
            · exact .inr (.inl hr)
            · exact .inr (.inr (by simp [hr]))
        · exact .inr (.inr (List.mem_append_left _ hr))
      · rcases (hmem m).2 hm with hr | hr
        · exact List.mem_append_left _ (h.scheduled m hr)
        · simp [hr]
    · cases hs

theorem snapshot_serves {s : State σ ν} {t : State σ ν} (hl : s.log = [])
    (h : Yields (snapshotStep resume) s.snapshot (some t)) :
    (resumedNodes t.log).Sublist s.ready ∧
      (∀ n ∈ s.ready, n ∈ resumedNodes t.log ∨ .did (.cancel n) ∈ t.log) ∧
        ∀ n ∈ t.ready, .did (.schedule n) ∈ t.log := by
  obtain ⟨u, hu, hd⟩ := yields_iff_reaches.mp h
  have hstart : Served s.ready s.snapshot :=
    ⟨by simp [State.snapshot, hl, resumedNodes], fun n hn => .inr (.inl hn),
      by simp [State.snapshot]⟩
  obtain ⟨h₁, h₂, h₃⟩ := reaches_invariant (I := Served s.ready) (fun _ _ => .step) hstart hu
  rcases snapshotStep_done hd with ⟨hs, ht⟩ | ⟨hn, -⟩
  · cases ht
    simp only [hs, List.append_nil, List.not_mem_nil, false_or] at h₁ h₂
    refine ⟨h₁, h₂, fun n hn => h₃ n ?_⟩
    simpa [Snapshot.whole, hs] using hn
  · cases hn

end Corosig.Reactor
