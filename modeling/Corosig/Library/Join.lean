import Mathlib.Data.List.Forall2
import Mathlib.Tactic.Common

namespace Join

inductive Phase where
  | spawning
  | waiting (task : Nat)
  | finished
  deriving DecidableEq, Repr

-- A coroutine that spawns tasks and then awaits them one after another; what is known of a task
-- is its result once it is complete.
structure Joining (ρ σ : Type) where
  tasks : List (Option ρ) := []
  acc : σ
  phase : Phase := .spawning
  deriving Repr

variable {ρ σ : Type}

def awaitTasks (take : σ → ρ → σ) : Nat → List (Option ρ) → σ → σ × Phase
  | _, [], acc => (acc, .finished)
  | i, none :: _, acc => (acc, .waiting i)
  | i, some r :: rest, acc => awaitTasks take (i + 1) rest (take acc r)

def Joining.awaitFrom (take : σ → ρ → σ) (tasks : List (Option ρ)) (i : Nat) (acc : σ) :
    Joining ρ σ :=
  let (acc, phase) := awaitTasks take i (tasks.drop i) acc
  { tasks, acc, phase }

inductive Op where
  | spawn (ready : Bool)
  | complete (task : Nat)
  deriving DecidableEq, Repr

def start (take : σ → ρ → σ) (outcomes : List ρ) (init : σ) : Joining ρ σ :=
  if outcomes = [] then .awaitFrom take [] 0 init else { acc := init }

def call (take : σ → ρ → σ) (outcomes : List ρ) (ready : Nat → Bool) (init : σ) : Joining ρ σ :=
  .awaitFrom take (outcomes.mapIdx fun i r => if ready i then some r else none) 0 init

-- outcomes are the results of the tasks in the order in which they are spawned. Only the task
-- that is waited for resumes the coroutine.
def step (take : σ → ρ → σ) (outcomes : List ρ) (s : Joining ρ σ) : Op → Option (Joining ρ σ)
  | .spawn ready =>
      match s.phase, outcomes[s.tasks.length]? with
      | .spawning, some r =>
          let tasks := s.tasks ++ [if ready then some r else none]
          if tasks.length = outcomes.length then some (.awaitFrom take tasks 0 s.acc)
          else some { s with tasks }
      | _, _ => none
  | .complete i =>
      match s.tasks[i]?, outcomes[i]? with
      | some none, some r =>
          let tasks := s.tasks.set i (some r)
          if s.phase = .waiting i then some (.awaitFrom take tasks i s.acc)
          else some { s with tasks }
      | _, _ => none

def settle (outcomes : List ρ) (tasks : List (Option ρ)) : Op → List (Option ρ)
  | .spawn ready => tasks ++ [if ready then outcomes[tasks.length]? else none]
  | .complete i => tasks.set i outcomes[i]?

def Known (task : Option ρ) (r : ρ) : Prop := ∀ r' ∈ task, r' = r

inductive Progress (take : σ → ρ → σ) (init : σ) (outcomes : List ρ) : Joining ρ σ → Prop
  | spawning {tasks} (spawned left : List ρ) : outcomes = spawned ++ left → left ≠ [] →
      List.Forall₂ Known tasks spawned → Progress take init outcomes ⟨tasks, init, .spawning⟩
  | waiting {rest} (done : List ρ) (r : ρ) (left : List ρ) : outcomes = done ++ r :: left →
      List.Forall₂ Known rest left → Progress take init outcomes
        ⟨done.map some ++ none :: rest, done.foldl take init, .waiting done.length⟩
  | finished : Progress take init outcomes
      ⟨outcomes.map some, outcomes.foldl take init, .finished⟩

variable {take : σ → ρ → σ} {outcomes done left : List ρ} {init : σ} {s t : Joining ρ σ}
  {rest : List (Option ρ)} {ops : List Op}

theorem step_tasks {op : Op} (h : step take outcomes s op = some t) :
    t.tasks = settle outcomes s.tasks op := by
  cases op with
  | spawn ready =>
    simp only [step] at h
    split at h
    · rename_i r _ hr
      have hadded : (if ready then some r else none) =
          if ready then outcomes[s.tasks.length]? else none := by rw [hr]
      rw [settle, ← hadded]
      generalize s.tasks ++ [if ready then some r else none] = tasks at h ⊢
      split at h <;> cases h <;> rfl
    · cases h
  | complete i =>
    simp only [step] at h
    split at h
    · rename_i r _ hr
      rw [settle, hr]
      split at h <;> cases h <;> rfl
    · cases h

theorem run_tasks (h : ops.foldlM (step take outcomes) s = some t) :
    t.tasks = ops.foldl (settle outcomes) s.tasks := by
  induction ops generalizing s with
  | nil =>
    cases h
    rfl
  | cons op ops ih =>
    obtain ⟨s', hs, hrest⟩ := Option.bind_eq_some_iff.mp h
    rw [List.foldl_cons, ← step_tasks hs]
    exact ih hrest

theorem tasks_start (take : σ → ρ → σ) (outcomes : List ρ) (init : σ) :
    (start take outcomes init).tasks = [] := by
  rw [start]
  split <;> rfl

theorem progress_awaitTasks (done : List ρ) (h : List.Forall₂ Known rest left) :
    Progress take init (done ++ left) ⟨done.map some ++ rest,
      (awaitTasks take done.length rest (done.foldl take init)).1,
      (awaitTasks take done.length rest (done.foldl take init)).2⟩ := by
  induction h generalizing done with
  | nil =>
    rw [List.append_nil, List.append_nil]
    exact .finished
  | @cons task r rest left hr hrest ih =>
    cases task with
    | none => exact .waiting done r left rfl hrest
    | some r' =>
      obtain rfl := hr r' rfl
      have hnext := ih (done ++ [r'])
      simp only [List.length_append, List.length_singleton, List.foldl_append, List.map_append,
        List.append_assoc, List.singleton_append, List.map_singleton] at hnext
      exact hnext

theorem progress_awaitFrom {tasks : List (Option ρ)} (h : List.Forall₂ Known tasks outcomes) :
    Progress take init outcomes (.awaitFrom take tasks 0 init) :=
  progress_awaitTasks [] h

theorem progress_start (take : σ → ρ → σ) (outcomes : List ρ) (init : σ) :
    Progress take init outcomes (start take outcomes init) := by
  rw [start]
  split
  · rename_i hnil
    subst hnil
    exact progress_awaitFrom .nil
  · rename_i hne
    exact .spawning [] outcomes rfl hne .nil

theorem known_ready (r : ρ) (ready : Bool) : Known (if ready then some r else none) r := by
  intro r' hr'
  split at hr' <;> cases hr'
  rfl

theorem progress_call (take : σ → ρ → σ) (outcomes : List ρ) (ready : Nat → Bool) (init : σ) :
    Progress take init outcomes (call take outcomes ready init) := by
  refine progress_awaitFrom (List.forall₂_iff_get.mpr ⟨List.length_mapIdx, fun i hi hi' => ?_⟩)
  simp only [List.get_eq_getElem, List.getElem_mapIdx]
  exact known_ready _ _

theorem known_set {tasks : List (Option ρ)} {i : Nat} {r : ρ}
    (h : List.Forall₂ Known tasks outcomes) (hr : outcomes[i]? = some r) :
    List.Forall₂ Known (tasks.set i (some r)) outcomes := by
  induction h generalizing i with
  | nil => cases hr
  | cons hfirst hrest ih =>
    cases i with
    | zero =>
      cases hr
      exact .cons (by rintro _ ⟨⟩; rfl) hrest
    | succ i => exact .cons hfirst (ih hr)

theorem step_complete {i : Nat} (hs : step take outcomes s (.complete i) = some t) :
    ∃ r, s.tasks[i]? = some none ∧ outcomes[i]? = some r ∧
      t = if s.phase = .waiting i then .awaitFrom take (s.tasks.set i (some r)) i s.acc
        else { s with tasks := s.tasks.set i (some r) } := by
  rw [step] at hs
  split at hs
  · rename_i r htask hr
    refine ⟨r, htask, hr, ?_⟩
    dsimp only at hs
    split at hs <;> cases hs <;> simp_all
  · cases hs

theorem Progress.complete {i : Nat} (h : Progress take init outcomes s)
    (hs : step take outcomes s (.complete i) = some t) : Progress take init outcomes t := by
  obtain ⟨r, htask, hr, rfl⟩ := step_complete hs
  cases h with
  | @spawning tasks spawned left hout hleft hknown =>
    have hlt : i < spawned.length := hknown.length_eq ▸ (List.getElem?_eq_some_iff.mp htask).1
    rw [hout, List.getElem?_append_left hlt] at hr
    rw [if_neg (by rintro ⟨⟩)]
    exact .spawning spawned left hout hleft (known_set hknown hr)
  | @waiting rest done r' left hout hknown =>
    have hlen : (done.map some).length = done.length := List.length_map _
    rcases Nat.lt_trichotomy i done.length with hlt | rfl | hgt
    · rw [List.getElem?_append_left (hlen ▸ hlt), List.getElem?_map] at htask
      obtain ⟨_, -, hnone⟩ := Option.map_eq_some_iff.mp htask
      cases hnone
    · obtain rfl : r' = r := by simpa [hout] using hr
      have hset : (done.map some ++ none :: rest).set done.length (some r') =
          done.map some ++ some r' :: rest := by
        rw [List.set_append_right _ _ (Nat.le_of_eq hlen), hlen, Nat.sub_self, List.set_cons_zero]
      have hdrop : (done.map some ++ some r' :: rest).drop done.length = some r' :: rest := by
        rw [← hlen, List.drop_left]
      rw [if_pos rfl, hset, Joining.awaitFrom, hdrop, hout]
      exact progress_awaitTasks done (.cons (by rintro _ ⟨⟩; rfl) hknown)
    · obtain ⟨k, rfl⟩ := Nat.exists_eq_add_of_lt hgt
      have hrest : left[k]? = some r := by
        rw [hout, List.getElem?_append_right (by omega)] at hr
        simpa [Nat.add_assoc, Nat.add_sub_cancel_left] using hr
      have hset : (done.map some ++ none :: rest).set (done.length + k + 1) (some r) =
          done.map some ++ none :: rest.set k (some r) := by
        rw [List.set_append_right _ _ (by omega), hlen, Nat.add_assoc, Nat.add_sub_cancel_left,
          List.set_cons_succ]
      rw [if_neg (by simp; omega), hset]
      exact .waiting done r' left hout (known_set hknown hrest)
  | finished =>
    rw [List.getElem?_map] at htask
    obtain ⟨_, -, hnone⟩ := Option.map_eq_some_iff.mp htask
    cases hnone

theorem Progress.spawn {ready : Bool} (h : Progress take init outcomes s)
    (hs : step take outcomes s (.spawn ready) = some t) : Progress take init outcomes t := by
  cases h with
  | @spawning tasks spawned left hout hleft hknown =>
    obtain ⟨r, left, rfl⟩ := List.exists_cons_of_ne_nil hleft
    have hr : outcomes[tasks.length]? = some r := by
      rw [hout, hknown.length_eq, List.getElem?_append_right (Nat.le_refl _), Nat.sub_self]
      rfl
    have hnext : List.Forall₂ Known (tasks ++ [if ready then some r else none])
        (spawned ++ [r]) := List.rel_append hknown (.cons (known_ready r ready) .nil)
    simp only [step, hr] at hs
    generalize tasks ++ [if ready then some r else none] = tasks at hnext hs
    have hlen : tasks.length + left.length = outcomes.length := by
      rw [hout, hnext.length_eq]
      simp only [List.length_append, List.length_cons, List.length_nil]
      omega
    rw [List.append_cons] at hout
    split at hs
    · obtain rfl := List.eq_nil_of_length_eq_zero (show left.length = 0 by omega)
      cases hs
      rw [List.append_nil] at hout
      exact progress_awaitFrom (hout ▸ hnext)
    · rename_i hmore
      cases hs
      refine .spawning (spawned ++ [r]) left hout ?_ hnext
      rintro rfl
      exact hmore hlen
  | waiting done r left => cases hs
  | finished => cases hs

theorem Progress.run (h : Progress take init outcomes s)
    (hrun : ops.foldlM (step take outcomes) s = some t) : Progress take init outcomes t := by
  induction ops generalizing s with
  | nil =>
    cases hrun
    exact h
  | cons op ops ih =>
    obtain ⟨s', hs, hrest⟩ := Option.bind_eq_some_iff.mp hrun
    cases op with
    | spawn ready => exact ih (h.spawn hs) hrest
    | complete i => exact ih (h.complete hs) hrest

theorem Progress.finished_iff (h : Progress take init outcomes s) :
    s.phase = .finished ↔ s.tasks = outcomes.map some := by
  cases h with
  | @spawning tasks spawned left hout hleft hknown =>
    refine iff_of_false (by rintro ⟨⟩) fun hall => hleft ?_
    have hlen := congrArg List.length hall
    rw [hout, List.length_map, List.length_append, hknown.length_eq] at hlen
    exact List.eq_nil_of_length_eq_zero (by omega)
  | waiting done r left hout hknown =>
    refine iff_of_false (by rintro ⟨⟩) fun hall => ?_
    have hnone : none ∈ outcomes.map some := hall ▸ List.mem_append_right _ List.mem_cons_self
    obtain ⟨_, -, hnone⟩ := List.mem_map.mp hnone
    cases hnone
  | finished => exact iff_of_true rfl rfl

theorem Progress.acc_eq (h : Progress take init outcomes s) (hs : s.phase = .finished) :
    s.acc = outcomes.foldl take init := by
  cases h with
  | spawning => cases hs
  | waiting => cases hs
  | finished => rfl

end Join
