import Corosig.Library.Join

namespace Corosig.Parallel
open Join

variable {α ε : Type}

def keepFirst (result tempResult : Except ε Unit) : Except ε Unit :=
  match result, tempResult with
  | .ok (), .error e => .error e
  | result, _ => result

abbrev ParallelForeach (ε : Type) := Joining (Except ε Unit) (Except ε Unit)

def parallelForeach (tasks : List (Except ε Unit)) (ops : List Op) : Option (ParallelForeach ε) :=
  ops.foldlM (step keepFirst tasks) (start keepFirst tasks (.ok ()))

def foreachResult (s : ParallelForeach ε) : Option (Except ε Unit) :=
  if s.phase = .finished then some s.acc else none

def firstError : List (Except ε α) → Option ε
  | [] => none
  | .error e :: _ => some e
  | .ok _ :: results => firstError results

-- Taking the value of a result that is an error is undefined.
def value : Except ε α → Option α
  | .ok v => some v
  | .error _ => none

def valuesOf (results : List (Except ε α)) : Option (Except ε (List α)) :=
  match firstError results with
  | some e => some (.error e)
  | none => (results.mapM value).map .ok

abbrev WhenAllSucceed (ε α : Type) := Joining (Except ε α) (List (Except ε α))

def collect (results : List (Except ε α)) (r : Except ε α) : List (Except ε α) := results ++ [r]

-- The awaitables are passed in: ready tells which of them are complete at the call.
def whenAllSucceed (awaitables : List (Except ε α)) (ready : Nat → Bool) (ops : List Op) :
    Option (WhenAllSucceed ε α) :=
  ops.foldlM (step collect awaitables) (call collect awaitables ready [])

def whenAllResult (s : WhenAllSucceed ε α) : Option (Except ε (List α)) :=
  if s.phase = .finished then valuesOf s.acc else none

def LowestError (tasks : List (Except ε α)) (e : ε) : Prop :=
  ∃ i : Nat, tasks[i]? = some (.error e) ∧ ∀ j < i, ∃ v, tasks[j]? = some (.ok v)

variable {tasks : List (Except ε α)} {e : ε}

theorem firstError_eq_some : firstError tasks = some e ↔ LowestError tasks e := by
  induction tasks with
  | nil => exact iff_of_false (by rintro ⟨⟩) (by rintro ⟨i, ⟨⟩, -⟩)
  | cons r tasks ih =>
    cases r with
    | error e' =>
      constructor
      · rintro ⟨⟩
        exact ⟨0, rfl, by rintro j ⟨⟩⟩
      · rintro ⟨i, hi, hbefore⟩
        cases i with
        | zero =>
          cases hi
          rfl
        | succ i =>
          obtain ⟨v, hv⟩ := hbefore 0 (Nat.zero_lt_succ i)
          cases hv
    | ok v =>
      rw [firstError, ih]
      constructor
      · rintro ⟨i, hi, hbefore⟩
        refine ⟨i + 1, hi, fun j hj => ?_⟩
        cases j with
        | zero => exact ⟨v, rfl⟩
        | succ j => exact hbefore j (Nat.lt_of_succ_lt_succ hj)
      · rintro ⟨i, hi, hbefore⟩
        cases i with
        | zero => cases hi
        | succ i => exact ⟨i, hi, fun j hj => hbefore (j + 1) (Nat.succ_lt_succ hj)⟩

theorem firstError_eq_none :
    firstError tasks = none ↔ ∃ values : List α, tasks = values.map .ok := by
  induction tasks with
  | nil => exact iff_of_true rfl ⟨[], rfl⟩
  | cons r tasks ih =>
    cases r with
    | error e' => exact iff_of_false (by rintro ⟨⟩) (by rintro ⟨_ | ⟨v, values⟩, ⟨⟩⟩)
    | ok v =>
      rw [firstError, ih]
      constructor
      · rintro ⟨values, rfl⟩
        exact ⟨v :: values, rfl⟩
      · rintro ⟨_ | ⟨v, values⟩, h⟩ <;> cases h
        exact ⟨values, rfl⟩

theorem foldl_keepFirst_error (tasks : List (Except ε Unit)) (e : ε) :
    tasks.foldl keepFirst (.error e) = .error e := by
  induction tasks with
  | nil => rfl
  | cons r tasks ih => exact ih

theorem foldl_keepFirst (tasks : List (Except ε Unit)) : tasks.foldl keepFirst (.ok ()) =
    match firstError tasks with
    | some e => .error e
    | none => .ok () := by
  induction tasks with
  | nil => rfl
  | cons r tasks ih =>
    cases r with
    | error e => exact foldl_keepFirst_error tasks e
    | ok v => exact ih

theorem foldl_collect (results tasks : List (Except ε α)) :
    tasks.foldl collect results = results ++ tasks := by
  induction tasks generalizing results with
  | nil => exact (List.append_nil _).symm
  | cons r tasks ih => rw [List.foldl_cons, ih, collect, List.append_assoc, List.singleton_append]

theorem mapM_value (values : List α) :
    (values.map (Except.ok (ε := ε))).mapM value = some values := by
  induction values with
  | nil => rfl
  | cons v values ih => simp [value, ih]

structure InOrder (tasks : List (Except ε α)) (result : Except ε (List α)) : Prop where
  ok : ∀ values, result = .ok values ↔ tasks = values.map .ok
  error : ∀ e, result = .error e ↔ LowestError tasks e

theorem valuesOf_inOrder (tasks : List (Except ε α)) :
    ∃ result, valuesOf tasks = some result ∧ InOrder tasks result := by
  cases hfirst : firstError tasks with
  | some e =>
    refine ⟨.error e, by rw [valuesOf, hfirst], fun values => ?_, fun e' => ?_⟩
    · refine iff_of_false (by rintro ⟨⟩) fun hvalues => ?_
      rw [firstError_eq_none.mpr ⟨values, hvalues⟩] at hfirst
      cases hfirst
    · rw [← firstError_eq_some, hfirst, Except.error.injEq, Option.some.injEq]
  | none =>
    obtain ⟨values, rfl⟩ := firstError_eq_none.mp hfirst
    refine ⟨.ok values, by rw [valuesOf, hfirst, mapM_value]; rfl, fun values' => ?_, fun e => ?_⟩
    · rw [Except.ok.injEq, List.map_inj_right fun _ _ => Except.ok.inj]
    · rw [← firstError_eq_some, hfirst]
      exact iff_of_false (by rintro ⟨⟩) (by rintro ⟨⟩)

theorem parallelForeach_progress {tasks : List (Except ε Unit)} {ops : List Op}
    {s : ParallelForeach ε} (h : parallelForeach tasks ops = some s) :
    Progress keepFirst (.ok ()) tasks s := (progress_start keepFirst tasks (.ok ())).run h

theorem whenAllSucceed_progress {ready : Nat → Bool} {ops : List Op} {s : WhenAllSucceed ε α}
    (h : whenAllSucceed tasks ready ops = some s) : Progress collect [] tasks s :=
  (progress_call collect tasks ready []).run h

theorem foreachResult_of_progress {tasks : List (Except ε Unit)} {s : ParallelForeach ε}
    (h : Progress keepFirst (.ok ()) tasks s) :
    ((foreachResult s).isSome ↔ s.tasks = tasks.map some) ∧ ∀ result ∈ foreachResult s,
      (result = .ok () ↔ ∀ r ∈ tasks, r = .ok ()) ∧
        ∀ e, result = .error e ↔ LowestError tasks e := by
  rw [← h.finished_iff, foreachResult]
  split
  · rename_i hdone
    refine ⟨iff_of_true rfl hdone, ?_⟩
    rintro result ⟨⟩
    rw [h.acc_eq hdone, foldl_keepFirst]
    cases hfirst : firstError tasks with
    | some e =>
      obtain ⟨i, hi, -⟩ := firstError_eq_some.mp hfirst
      refine ⟨iff_of_false (by rintro ⟨⟩) fun hall => ?_, fun e' => ?_⟩
      · cases hall _ (List.mem_of_getElem? hi)
      · rw [← firstError_eq_some, hfirst, Except.error.injEq, Option.some.injEq]
    | none =>
      obtain ⟨values, rfl⟩ := firstError_eq_none.mp hfirst
      refine ⟨iff_of_true rfl fun r hr => ?_, fun e => ?_⟩
      · obtain ⟨value, -, rfl⟩ := List.mem_map.mp hr
        rfl
      · rw [← firstError_eq_some, hfirst]
        exact iff_of_false (by rintro ⟨⟩) (by rintro ⟨⟩)
  · rename_i hdone
    exact ⟨iff_of_false Bool.false_ne_true hdone, by rintro result ⟨⟩⟩

theorem whenAllResult_of_progress {s : WhenAllSucceed ε α} (h : Progress collect [] tasks s) :
    ((whenAllResult s).isSome ↔ s.tasks = tasks.map some) ∧
      ∀ result ∈ whenAllResult s, InOrder tasks result := by
  rw [← h.finished_iff, whenAllResult]
  split
  · rename_i hdone
    obtain ⟨result, hresult, hinOrder⟩ := valuesOf_inOrder tasks
    rw [h.acc_eq hdone, foldl_collect, List.nil_append, hresult]
    refine ⟨iff_of_true rfl hdone, ?_⟩
    rintro result' ⟨⟩
    exact hinOrder
  · rename_i hdone
    exact ⟨iff_of_false Bool.false_ne_true hdone, by rintro result ⟨⟩⟩

theorem parallelForeach_tasks {tasks : List (Except ε Unit)} {ops : List Op}
    {s : ParallelForeach ε} (h : parallelForeach tasks ops = some s) :
    s.tasks = ops.foldl (settle tasks) [] := by
  rw [run_tasks h, tasks_start]

theorem whenAllSucceed_tasks {ready : Nat → Bool} {ops : List Op} {s : WhenAllSucceed ε α}
    (h : whenAllSucceed tasks ready ops = some s) : s.tasks =
      ops.foldl (settle tasks) (tasks.mapIdx fun i r => if ready i then some r else none) :=
  run_tasks h

theorem parallel_settles :
    (∀ (tasks : List (Except ε Unit)) ops s, parallelForeach tasks ops = some s →
      s.tasks = ops.foldl (settle tasks) [] ∧
      ((foreachResult s).isSome ↔ s.tasks = tasks.map some) ∧ ∀ result ∈ foreachResult s,
        (result = .ok () ↔ ∀ r ∈ tasks, r = .ok ()) ∧
          ∀ e, result = .error e ↔ LowestError tasks e) ∧
    ∀ (awaitables : List (Except ε α)) ready ops s, whenAllSucceed awaitables ready ops = some s →
      s.tasks = ops.foldl (settle awaitables)
        (awaitables.mapIdx fun i r => if ready i then some r else none) ∧
      ((whenAllResult s).isSome ↔ s.tasks = awaitables.map some) ∧
        ∀ result ∈ whenAllResult s, InOrder awaitables result :=
  ⟨fun _ _ _ h =>
      ⟨parallelForeach_tasks h, foreachResult_of_progress (parallelForeach_progress h)⟩,
    fun _ _ _ _ h =>
      ⟨whenAllSucceed_tasks h, whenAllResult_of_progress (whenAllSucceed_progress h)⟩⟩

def oneFails : List (Except Nat Unit) := [.ok (), .error 7, .error 8]

def threeValues : List (Except Nat Nat) := [.ok 1, .ok 2, .ok 3]

theorem parallel_settles_reversed :
    (∃ s, parallelForeach oneFails
        [.spawn false, .spawn false, .spawn true, .complete 1, .complete 0] = some s ∧
      foreachResult s = some (.error 7) ∧ LowestError oneFails 7) ∧
    ∃ s, whenAllSucceed threeValues (· = 1) [.complete 2, .complete 0] = some s ∧
      whenAllResult s = some (.ok [1, 2, 3]) ∧ InOrder threeValues (.ok [1, 2, 3]) := by
  have hforeach : parallelForeach oneFails
      [.spawn false, .spawn false, .spawn true, .complete 1, .complete 0] =
        some ⟨oneFails.map some, .error 7, .finished⟩ := rfl
  have hwhenAll : whenAllSucceed threeValues (· = 1) [.complete 2, .complete 0] =
      some ⟨threeValues.map some, threeValues, .finished⟩ := rfl
  refine ⟨⟨_, hforeach, rfl, ?_⟩, ⟨_, hwhenAll, rfl, ?_⟩⟩
  · exact (((parallel_settles (α := Nat)).1 _ _ _ hforeach).2.2 _ rfl).2 7 |>.mp rfl
  · exact (parallel_settles.2 _ _ _ _ hwhenAll).2.2 _ rfl

end Corosig.Parallel
