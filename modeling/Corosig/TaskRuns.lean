import Corosig.Tasks

namespace Corosig.Tasks
open Function

variable {V : Type} {allocates : Path → Bool} {failed : V}

inductive Moves (allocates : Path → Bool) (failed : V) : Tasks V → Tasks V → Prop where
  | suspend {f frames} {p : Path} {rest linked task k} (hp : f p = some task)
      (hb : task.body = some (.suspend k)) :
      Moves allocates failed ⟨f, frames, p :: rest, linked⟩
        ⟨advance f (fun _ => False) p { task with body := some k }, frames, rest, linked ++ [p]⟩
  | call {f frames} {p : Path} {rest linked task coroutine k} (hp : f p = some task)
      (hb : task.body = some (.call coroutine k)) (ha : allocates (task.called :: p) = true) :
      Moves allocates failed ⟨f, frames, p :: rest, linked⟩
        ⟨extend f p task { body := some coroutine } k, insert (task.called :: p) frames,
          (task.called :: p) :: p :: rest, linked⟩
  | failedCall {f frames} {p : Path} {rest linked task coroutine k} (hp : f p = some task)
      (hb : task.body = some (.call coroutine k)) (ha : allocates (task.called :: p) = false) :
      Moves allocates failed ⟨f, frames, p :: rest, linked⟩
        ⟨extend f p task { result := some failed } k, frames, p :: rest, linked⟩
  | take {f frames} {p : Path} {rest linked task i k fut value} (hp : f p = some task)
      (hb : task.body = some (.coAwait i k)) (hfut : f (i :: p) = some fut)
      (hr : fut.result = some value) :
      Moves allocates failed ⟨f, frames, p :: rest, linked⟩
        ⟨advance f (i :: p <:+ ·) p { task with body := some (k value) },
          frames.filter fun q => ¬ i :: p <:+ q, p :: rest, linked.filter fun q => ¬ i :: p <:+ q⟩
  | pend {f frames} {p : Path} {rest linked task i k fut body} (hp : f p = some task)
      (hb : task.body = some (.coAwait i k)) (hfut : f (i :: p) = some fut)
      (hfb : fut.body = some body) :
      Moves allocates failed ⟨f, frames, p :: rest, linked⟩ ⟨pend f p i fut, frames, rest, linked⟩
  | destroy {f frames} {p : Path} {rest linked task i k} (hp : f p = some task)
      (hb : task.body = some (.destroy i k)) :
      Moves allocates failed ⟨f, frames, p :: rest, linked⟩
        ⟨advance f (i :: p <:+ ·) p { task with body := some k },
          frames.filter fun q => ¬ i :: p <:+ q, p :: rest, linked.filter fun q => ¬ i :: p <:+ q⟩
  | coReturn {f frames} {p : Path} {rest linked task value} (hp : f p = some task)
      (hb : task.body = some (.coReturn value)) :
      Moves allocates failed ⟨f, frames, p :: rest, linked⟩
        ⟨finish (advance f (Local p) p task) p task value, frames.filter fun q => ¬ Local p q,
          task.waiting.toList ++ rest, linked.filter fun q => ¬ Local p q⟩

structure Inv (allocates : Path → Bool) (w : Tasks V) : Prop where
  root : ∃ task, w.tasks [] = some task
  tree : Tree w.tasks
  places : Places w.tasks w.stack w.linked
  frames : ∀ p, p ∈ w.frames ↔ (∃ task, w.tasks p = some task) ∧ allocates p = true
  allocated : ∀ p, Unfinished w.tasks p → allocates p = true

variable {w w' : Tasks V} {f : Path → Option (Task V)} {p q : Path} {task fut : Task V}
  {stack rest linked : List Path} {i : Nat}

theorem Leaves.root {gone : Path → Prop} (hs : Leaves gone p) : ¬ gone [] := by
  intro h
  have hall (q : Path) : gone q := by
    induction q with
    | nil => exact h
    | cons i q ih => exact hs.below i q ih
  exact hs.self (hall p)

theorem leaves_none (p : Path) : Leaves (fun _ => False) p :=
  ⟨fun _ _ => id, fun _ _ => False.elim, id⟩

theorem leaves_future (p : Path) (i : Nat) : Leaves (i :: p <:+ ·) p where
  below j q h := h.trans (List.suffix_cons j q)
  edge j q h := by
    rcases List.suffix_cons_iff.mp h with he | h
    · exact .inr (List.cons.inj he).2.symm
    · exact .inl h
  self h := by
    have hle := h.length_le
    simp at hle

theorem leaves_locals (p : Path) : Leaves (Local p) p where
  below j q h := by
    refine ⟨h.1.trans (List.suffix_cons j q), ?_⟩
    rintro rfl
    have hle := h.1.length_le
    simp at hle
  edge j q h := by
    rcases List.suffix_cons_iff.mp h.1 with he | h'
    · exact absurd he.symm h.2
    · by_cases he : q = p
      · exact .inr he
      · exact .inl ⟨h', he⟩
  self h := h.2 rfl

theorem Places.not_future (hl : Places f (p :: rest) linked) (i : Nat) :
    ∀ q ∈ p :: rest, ¬ i :: p <:+ q := by
  intro q hq h
  have hle := h.length_le
  have hle' := (nested_suffix hl.nested hq).length_le
  simp at hle
  omega

theorem Places.not_local (hl : Places f (p :: rest) linked) : ∀ q ∈ p :: rest, ¬ Local p q := by
  intro q hq h
  have hle := (nested_suffix hl.nested hq).length_le
  exact h.2 (h.1.eq_of_length_le hle).symm

theorem advance_none (f : Path → Option (Task V)) (p : Path) (task : Task V) :
    advance f (fun _ => False) p task = update f p (some task) := by
  simp [advance]

theorem scope_locals (f : Path → Option (Task V)) (p : Path) (task : Task V) :
    scope (advance f (Local p) p task) p = ∅ := by
  ext i
  refine iff_of_false ?_ (Set.notMem_empty i)
  rintro ⟨x, hx⟩
  rcases advance_cases hx with ⟨he, -⟩ | ⟨-, hg, -⟩
  · exact List.cons_ne_self i p he
  · exact hg ⟨List.suffix_cons i p, List.cons_ne_self i p⟩

theorem Places.drop_future (hl : Places w.tasks w.stack w.linked) (hs : w.stack = p :: rest)
    (i : Nat) : w.drop (i :: p) = some (w.remove (i :: p <:+ ·)) := by
  refine if_neg ?_
  rw [hs] at hl ⊢
  rintro ⟨q, hq, h⟩
  exact hl.not_future i q hq h

theorem Places.drop_locals (hl : Places w.tasks w.stack w.linked) (hs : w.stack = p :: rest) :
    w.dropLocals p = some (w.remove (Local p)) := by
  refine if_neg ?_
  rw [hs] at hl ⊢
  rintro ⟨q, hq, h⟩
  exact hl.not_local q hq h

theorem turn_moves (hi : Inv allocates w) (hs : w.stack ≠ []) :
    ∃ w', w.turn allocates failed = some w' ∧ Moves allocates failed w w' := by
  have hfuture {p : Path} {rest : List Path} (hs : w.stack = p :: rest) :=
    hi.places.drop_future hs
  have hlocals {p : Path} {rest : List Path} (hs : w.stack = p :: rest) :=
    hi.places.drop_locals hs
  obtain ⟨f, frames, stack, linked⟩ := w
  obtain ⟨p, rest, rfl⟩ := List.exists_cons_of_ne_nil hs
  have hl : Places f (p :: rest) linked := hi.places
  have hf : Tree f := hi.tree
  obtain ⟨task, body, hp, hb⟩ := hl.running p (.head _)
  cases body with
  | coReturn value =>
    refine ⟨_, ?_, .coReturn hp hb⟩
    rcases hw : task.waiting with _ | q
    · simp [turn, hp, hb, returnValue, hlocals rfl, hw, set, remove, finish, advance]
    · obtain ⟨i, rfl, -, owner, b, hq, hown⟩ := hf.awaits hp hb hw
      obtain rfl := hl.awaited hf hp hb hw
      have hlocal : ¬ Local (i :: q) q := fun h => by simpa using h.1.length_le
      simp [turn, hp, hb, returnValue, hlocals rfl, hw, set, remove, finish, advance, resumeCoro,
        hlocal, hq, hown]
  | suspend k =>
    refine ⟨_, ?_, .suspend hp hb⟩
    have hp' : p ∉ linked := hl.apart p (.head _)
    simp [turn, hp, hb, set, schedule, hp', advance_none]
  | call coroutine k =>
    rcases ha : allocates (task.called :: p) with _ | _
    · refine ⟨_, ?_, .failedCall hp hb ha⟩
      simp [turn, hp, hb, set, callCoroutine, ha, extend]
    · refine ⟨_, ?_, .call hp hb ha⟩
      simp [turn, hp, hb, set, callCoroutine, ha, extend]
  | coAwait i k =>
    obtain ⟨⟨fut, hfut⟩, -⟩ := hf.inScope p task _ hp hb
    rcases hr : fut.result with _ | value
    · obtain ⟨b, hfb⟩ := Option.ne_none_iff_exists'.mp
        (fun hn => (hf.finished _ fut hfut).mp hn hr)
      refine ⟨_, ?_, .pend hp hb hfut hfb⟩
      simp [turn, hp, hb, awaitFut, hfut, hr, hfb, set, Tasks.pend]
    · refine ⟨_, ?_, .take hp hb hfut hr⟩
      simp [turn, hp, hb, awaitFut, hfut, hr, hfuture rfl, set, remove, advance]
  | destroy i k =>
    obtain ⟨⟨fut, hfut⟩, -⟩ := hf.inScope p task _ hp hb
    refine ⟨_, ?_, .destroy hp hb⟩
    simp [turn, hp, hb, hfut, hfuture rfl, set, remove, advance]

theorem exists_advance {gone : Path → Prop} [DecidablePred gone] {task' : Task V}
    (hs : Leaves gone p) (hp : f p = some task) : (∃ x, advance f gone p task' q = some x) ↔
      (∃ x, f q = some x) ∧ ¬ gone q := by
  constructor
  · rintro ⟨x, hx⟩
    rcases advance_cases hx with ⟨rfl, -⟩ | ⟨-, hg, hq⟩
    · exact ⟨⟨task, hp⟩, hs.self⟩
    · exact ⟨⟨x, hq⟩, hg⟩
  · rintro ⟨⟨x, hq⟩, hg⟩
    rcases eq_or_ne q p with rfl | hne
    · exact ⟨task', advance_self f task'⟩
    · exact ⟨x, (advance_of_ne hne hg).trans hq⟩

theorem Inv.result_none {frames : Finset Path} {body : Body V}
    (hi : Inv allocates ⟨f, frames, stack, linked⟩) (hp : f p = some task)
    (hb : task.body = some body) : task.result = none := by
  by_contra hr
  cases hb.symm.trans ((hi.tree.finished p task hp).mpr hr)

theorem Inv.next {gone : Path → Prop} [DecidablePred gone] {body body' : Body V}
    {frames : Finset Path} (hi : Inv allocates ⟨f, frames, p :: rest, linked⟩)
    (hs : Leaves gone p) (hstack : ∀ q ∈ p :: rest, ¬ gone q) (hp : f p = some task)
    (hb : task.body = some body)
    (hscope : body'.Scoped task.called {i | i ∈ scope f p ∧ ¬ gone (i :: p)}) :
    Inv allocates ⟨advance f gone p { task with body := some body' },
      frames.filter fun q => ¬ gone q, p :: rest, linked.filter fun q => ¬ gone q⟩ := by
  have ha : ¬ Awaits f p := fun h => (hi.places.waits p h).1 (.head _)
  have hr := hi.result_none hp hb
  exact {
    root := (exists_advance hs hp).mpr ⟨hi.root, hs.root⟩
    tree := hi.tree.advance hs hp hb ha (Nat.le_refl _) rfl hr rfl hscope
    places := hi.places.advance hp hb hs ha rfl rfl hstack
    frames := fun q => by
      rw [Finset.mem_filter, hi.frames, exists_advance hs hp]
      exact and_right_comm
    allocated := fun q hq => hi.allocated q ((unfinished_advance hp hb hs rfl).mp hq).1 }

theorem Inv.endFuture {body body' : Body V} {frames : Finset Path}
    (hi : Inv allocates ⟨f, frames, p :: rest, linked⟩) (hp : f p = some task)
    (hb : task.body = some body) (hscope : body'.Scoped task.called (scope f p \ {i})) :
    Inv allocates ⟨advance f (i :: p <:+ ·) p { task with body := some body' },
      frames.filter fun q => ¬ i :: p <:+ q, p :: rest,
      linked.filter fun q => ¬ i :: p <:+ q⟩ := by
  refine hi.next (leaves_future p i) (hi.places.not_future i) hp hb ?_
  have hset : {j | j ∈ scope f p ∧ ¬ i :: p <:+ j :: p} = scope f p \ {i} := by
    ext j
    refine and_congr_right fun _ => not_congr ⟨fun h => ?_, ?_⟩
    · exact (List.cons.inj (h.eq_of_length (by simp))).1.symm
    · rintro rfl
      exact List.suffix_refl _
  rw [hset]
  exact hscope

theorem exists_extend (new : Task V) (k : Body V) (hp : f p = some task) :
    (∃ x, extend f p task new k q = some x) ↔ q = task.called :: p ∨ ∃ x, f q = some x := by
  constructor
  · rintro ⟨x, hx⟩
    rcases extend_cases hx with ⟨rfl, -⟩ | ⟨rfl, -⟩ | ⟨-, -, hq⟩
    · exact .inl rfl
    · exact .inr ⟨task, hp⟩
    · exact .inr ⟨x, hq⟩
  · rintro (rfl | ⟨x, hq⟩)
    · exact ⟨new, extend_new⟩
    · rcases eq_or_ne q (task.called :: p) with rfl | hnew
      · exact ⟨new, extend_new⟩
      rcases eq_or_ne q p with rfl | hne
      · exact ⟨_, extend_self⟩
      · exact ⟨x, (extend_of_ne hnew hne).trans hq⟩

theorem Moves.inv (hm : Moves allocates failed w w') (hi : Inv allocates w) :
    Inv allocates w' := by
  cases hm with
  | @suspend f frames p rest linked task k hp hb =>
    have hk : k.Scoped _ _ := hi.tree.inScope p task (.suspend k) hp hb
    have hset : {i | i ∈ scope f p ∧ ¬ False} = scope f p := by simp
    have h := hi.next (leaves_none p) (fun _ _ => id) hp hb (hset.symm ▸ hk)
    simp only [not_false_eq_true, decide_true, List.filter_true, Finset.filter_true] at h
    exact ⟨h.root, h.tree, h.places.suspend, h.frames, h.allocated⟩
  | @call f frames p rest linked task coroutine k hp hb ha =>
    have hfree := hi.tree.free hp
    refine ⟨(exists_extend { body := some coroutine } k hp).mpr (.inr hi.root),
      hi.tree.call hp hb rfl rfl (by simp) (by simp),
      hi.places.call hi.tree hp hb rfl (by simp), fun q => ?_, fun q hq => ?_⟩
    · rw [Finset.mem_insert, exists_extend _ k hp, hi.frames]
      grind
    · rcases (unfinished_extend hfree hp hb).mp hq with hq | ⟨rfl, -⟩
      · exact hi.allocated q hq
      · exact ha
  | @failedCall f frames p rest linked task coroutine k hp hb ha =>
    have hfree := hi.tree.free hp
    refine ⟨(exists_extend { result := some failed } k hp).mpr (.inr hi.root),
      hi.tree.call hp hb rfl rfl (by simp) (by simp),
      hi.places.failedCall hfree hp hb rfl rfl, fun q => ?_, fun q hq => ?_⟩
    · rw [exists_extend _ k hp, hi.frames]
      grind
    · rcases (unfinished_extend hfree hp hb).mp hq with hq | ⟨-, hn⟩
      · exact hi.allocated q hq
      · cases hn rfl
  | @take f frames p rest linked task i k fut value hp hb hfut hr =>
    exact hi.endFuture hp hb ((hi.tree.inScope p task _ hp hb).2 value)
  | @pend f frames p rest linked task i k fut body hp hb hfut hfb =>
    refine ⟨(exists_pend hfut).mpr hi.root, hi.tree.await hp hb hfut, hi.places.await hfut hfb,
      fun q => ?_, fun q hq => ?_⟩
    · rw [hi.frames, exists_pend hfut]
    · exact hi.allocated q ((unfinished_pend hfut).mp hq)
  | @destroy f frames p rest linked task i k hp hb =>
    exact hi.endFuture hp hb (hi.tree.inScope p task _ hp hb).2
  | @coReturn f frames p rest linked task value hp hb =>
    have he : { task with body := some (.coReturn value) } = task := by rw [← hb]
    have h : Inv allocates ⟨advance f (Local p) p task, frames.filter fun q => ¬ Local p q,
        p :: rest, linked.filter fun q => ¬ Local p q⟩ :=
      he ▸ hi.next (leaves_locals p) hi.places.not_local hp hb trivial
    have hself : advance f (Local p) p task p = some task := advance_self f task
    refine ⟨(exists_finish hself).mpr h.root, h.tree.finish hself hb (scope_locals f p task),
      h.places.finish h.tree hself hb, fun q => ?_, fun q hq => ?_⟩
    · rw [h.frames]
      exact and_congr_left fun _ => (exists_finish hself).symm
    · exact h.allocated q (unfinished_finish.mp hq).1

theorem eval_congr {body : Body V} {n : Nat} {scope : Set Nat} {env env' : Nat → V}
    (hb : body.Scoped n scope) (he : ∀ i ∈ scope, env i = env' i) :
    body.eval allocates failed p n env = body.eval allocates failed p n env' := by
  induction body generalizing p n scope env env' with
  | coReturn value => rfl
  | suspend k ih => exact ih hb he
  | call coroutine k _ ih =>
    refine ih hb.2 fun i hi => ?_
    rcases eq_or_ne i n with rfl | hne
    · rw [update_self, update_self]
    · rw [update_of_ne hne, update_of_ne hne]
      exact he i (hi.resolve_left hne)
  | coAwait i k ih =>
    rw [Body.eval, Body.eval, he i hb.1]
    exact ih (env' i) (hb.2 (env' i)) fun j hj => he j hj.1
  | destroy i k ih => exact ih hb.2 fun j hj => he j hj.1

theorem cost_congr {body : Body V} {n : Nat} {scope : Set Nat} {env env' : Nat → V}
    (hb : body.Scoped n scope) (he : ∀ i ∈ scope, env i = env' i) :
    body.cost allocates failed p n env = body.cost allocates failed p n env' := by
  induction body generalizing p n scope env env' with
  | coReturn value => rfl
  | suspend k ih => exact congrArg (· + 2) (ih hb he)
  | call coroutine k _ ih =>
    refine congrArg (_ + · + 2) (ih hb.2 fun i hi => ?_)
    rcases eq_or_ne i n with rfl | hne
    · rw [update_self, update_self]
    · rw [update_of_ne hne, update_of_ne hne]
      exact he i (hi.resolve_left hne)
  | coAwait i k ih =>
    rw [Body.cost, Body.cost, he i hb.1]
    exact congrArg (· + 1) (ih (env' i) (hb.2 (env' i)) fun j hj => he j hj.1)
  | destroy i k ih => exact congrArg (· + 1) (ih hb.2 fun j hj => he j hj.1)

structure Agrees (allocates : Path → Bool) (failed : V) (goal : Path → V)
    (f : Path → Option (Task V)) : Prop where
  result : ∀ p task value, f p = some task → task.result = some value → value = goal p
  body : ∀ p task body, f p = some task → task.body = some body →
    body.eval allocates failed p task.called (fun i => goal (i :: p)) = goal p

def taskCost (allocates : Path → Bool) (failed : V) (goal : Path → V)
    (f : Path → Option (Task V)) (p : Path) : Nat :=
  match f p with
  | none => 0
  | some task =>
      match task.body with
      | none => 0
      | some body => body.cost allocates failed p task.called fun i => goal (i :: p)

def cost (allocates : Path → Bool) (failed : V) (goal : Path → V) (w : Tasks V) : Nat :=
  (∑ p ∈ w.frames, taskCost allocates failed goal w.tasks p) + w.stack.length +
    2 * w.linked.length

theorem taskCost_body {goal : Path → V} {body : Body V} (hp : f p = some task)
    (hb : task.body = some body) : taskCost allocates failed goal f p =
      body.cost allocates failed p task.called fun i => goal (i :: p) := by
  simp [taskCost, hp, hb]

theorem sum_insert_frame {s : Finset Path} (g : Path → Nat) (h : q ∉ s) :
    ∑ r ∈ insert q s, g r = g q + ∑ r ∈ s, g r := Finset.sum_insert h

theorem sum_add_le {s s' : Finset Path} {g g' : Path → Nat} {n : Nat} (hsub : s' ⊆ s)
    (hp : p ∈ s) (hle : ∀ q ∈ s', q ≠ p → g' q ≤ g q) (hlt : g' p + n ≤ g p) :
    ∑ q ∈ s', g' q + n ≤ ∑ q ∈ s, g q := by
  have herase : ∑ q ∈ s'.erase p, g' q ≤ ∑ q ∈ s.erase p, g q := by
    refine (Finset.sum_le_sum fun q hq => ?_).trans
      (Finset.sum_le_sum_of_subset (Finset.erase_subset_erase p hsub))
    exact hle q (Finset.mem_of_mem_erase hq) (Finset.ne_of_mem_erase hq)
  have hold := Finset.sum_erase_add s g hp
  have hnew : ∑ q ∈ s', g' q ≤ ∑ q ∈ s'.erase p, g' q + g' p := by
    by_cases h : p ∈ s'
    · exact (Finset.sum_erase_add s' g' h).ge
    · rw [Finset.erase_eq_of_notMem h]
      exact Nat.le_add_right _ _
  omega

section Agrees

variable {goal : Path → V} {body body' : Body V} {gone : Path → Prop} [DecidablePred gone]
  {frames : Finset Path} {k : Body V}

theorem Agrees.next (hg : Agrees allocates failed goal f) (hp : f p = some task)
    (hb : task.body = some body) (hr : task.result = none)
    (he : body'.eval allocates failed p task.called (fun i => goal (i :: p)) =
      body.eval allocates failed p task.called fun i => goal (i :: p)) :
    Agrees allocates failed goal (advance f gone p { task with body := some body' }) where
  result q x value h hx := by
    rcases advance_cases h with ⟨rfl, rfl⟩ | ⟨-, -, hq⟩
    · cases hr.symm.trans hx
    · exact hg.result q x value hq hx
  body q x b h hx := by
    rcases advance_cases h with ⟨rfl, rfl⟩ | ⟨-, -, hq⟩
    · cases hx
      exact he.trans (hg.body q task body hp hb)
    · exact hg.body q x b hq hx

theorem cost_next {frames' : Finset Path} {stack' linked' : List Path} {n : Nat}
    (hp : f p = some task) (hb : task.body = some body) (hmem : p ∈ frames)
    (hsub : ∀ q ∈ frames', q ∈ frames ∧ ¬ gone q)
    (he : body'.cost allocates failed p task.called (fun i => goal (i :: p)) + n ≤
      body.cost allocates failed p task.called fun i => goal (i :: p))
    (hn : stack'.length + 2 * linked'.length < stack.length + 2 * linked.length + n) :
    cost allocates failed goal
        ⟨advance f gone p { task with body := some body' }, frames', stack', linked'⟩ <
      cost allocates failed goal ⟨f, frames, stack, linked⟩ := by
  have hle : ∑ q ∈ frames',
        taskCost allocates failed goal (advance f gone p { task with body := some body' }) q + n ≤
      ∑ q ∈ frames, taskCost allocates failed goal f q := by
    refine sum_add_le (fun q hq => (hsub q hq).1) hmem (fun q hq hne => ?_) ?_
    · rw [taskCost, taskCost, advance_of_ne hne (hsub q hq).2]
    · rw [taskCost_body (advance_self f _) rfl, taskCost_body hp hb]
      exact he
  simp only [cost]
  omega

theorem cost_endFuture {n : Nat} (hp : f p = some task) (hb : task.body = some body)
    (hmem : p ∈ frames)
    (he : body'.cost allocates failed p task.called (fun i => goal (i :: p)) + 1 ≤
      body.cost allocates failed p task.called fun i => goal (i :: p)) :
    cost allocates failed goal
        ⟨advance f (n :: p <:+ ·) p { task with body := some body' },
          frames.filter fun q => ¬ n :: p <:+ q, stack,
          linked.filter fun q => ¬ n :: p <:+ q⟩ <
      cost allocates failed goal ⟨f, frames, stack, linked⟩ := by
  refine cost_next hp hb hmem (fun q hq => Finset.mem_filter.mp hq) he ?_
  grw [List.length_filter_le]
  exact Nat.lt_succ_self _

theorem Agrees.pend (hg : Agrees allocates failed goal f) (hfut : f (i :: p) = some fut) :
    Agrees allocates failed goal (pend f p i fut) where
  result q x value h hx := by
    obtain ⟨x', hq, he, -⟩ := pend_cases h hfut
    rw [he] at hx
    exact hg.result q x' value hq hx
  body q x b h hx := by
    obtain ⟨x', hq, he, -⟩ := pend_cases h hfut
    rw [he] at hx ⊢
    exact hg.body q x' b hq hx

theorem taskCost_pend (hfut : f (i :: p) = some fut) :
    taskCost allocates failed goal (Tasks.pend f p i fut) q =
      taskCost allocates failed goal f q := by
  rw [taskCost, taskCost, Tasks.pend]
  rcases eq_or_ne q (i :: p) with rfl | hne
  · rw [update_self, hfut]
  · rw [update_of_ne hne]

theorem Agrees.finish (hg : Agrees allocates failed goal f) (hp : f p = some task) {value : V}
    (hb : task.body = some (.coReturn value)) :
    Agrees allocates failed goal (finish f p task value) where
  result q x v h hx := by
    rcases eq_or_ne q p with rfl | hne
    · cases (update_self ..).symm.trans h
      cases hx
      exact hg.body q task _ hp hb
    · exact hg.result q x v ((finish_of_ne hne).symm.trans h) hx
  body q x b h hx := hg.body q x b (finish_of_body h hx).2 hx

def calleeValue (allocates : Path → Bool) (failed : V) (coroutine : Body V) (q : Path) : V :=
  if allocates q then coroutine.eval allocates failed q 0 fun _ => failed else failed

theorem goal_update {n : Nat} {value : V} :
    (fun i => update goal (n :: p) value (i :: p)) = update (fun i => goal (i :: p)) n value := by
  funext i
  rcases eq_or_ne i n with rfl | hne
  · rw [update_self, update_self]
  · rw [update_of_ne hne, update_of_ne fun he => hne (List.cons.inj he).1]

theorem goal_update_of_ne {n : Nat} {value : V} (hne : q ≠ p) :
    (fun i => update goal (n :: p) value (i :: q)) = fun i => goal (i :: q) :=
  funext fun _ => update_of_ne (fun he => hne (List.cons.inj he).2) ..

theorem Agrees.call {new : Task V} {coroutine : Body V} (hg : Agrees allocates failed goal f)
    (hp : f p = some task) (hb : task.body = some (.call coroutine k)) (hr : task.result = none)
    (hco : coroutine.Scoped 0 ∅) (hc : new.called = 0)
    (hnew : ∀ value, new.result = some value →
      value = failed ∧ allocates (task.called :: p) = false)
    (hbody : ∀ b, new.body = some b → b = coroutine ∧ allocates (task.called :: p) = true) :
    Agrees allocates failed (update goal (task.called :: p)
      (calleeValue allocates failed coroutine (task.called :: p))) (extend f p task new k) where
  result q x value h hx := by
    rcases extend_cases h with ⟨rfl, rfl⟩ | ⟨rfl, rfl⟩ | ⟨hne, -, hq⟩
    · obtain ⟨rfl, ha⟩ := hnew value hx
      rw [update_self, calleeValue, ha]
      rfl
    · cases hr.symm.trans hx
    · rw [update_of_ne hne]
      exact hg.result q x value hq hx
  body q x b h hx := by
    rcases extend_cases h with ⟨rfl, rfl⟩ | ⟨rfl, rfl⟩ | ⟨hne, hne', hq⟩
    · obtain ⟨rfl, ha⟩ := hbody b hx
      rw [update_self, calleeValue, if_pos ha, hc]
      exact eval_congr hco fun i hi => absurd hi (Set.notMem_empty i)
    · cases hx
      rw [goal_update, update_of_ne (List.cons_ne_self _ q).symm]
      exact hg.body q task _ hp hb
    · rw [goal_update_of_ne hne', update_of_ne hne]
      exact hg.body q x b hq hx

theorem sum_call (allocates : Path → Bool) (failed : V) (goal : Path → V) (new : Task V)
    {coroutine : Body V} (hp : f p = some task)
    (hb : task.body = some (.call coroutine k)) (hmem : p ∈ frames)
    (hfree : task.called :: p ∉ frames) :
    ∑ q ∈ frames, taskCost allocates failed (update goal (task.called :: p)
        (calleeValue allocates failed coroutine (task.called :: p))) (extend f p task new k) q +
      ((if allocates (task.called :: p) then
        coroutine.cost allocates failed (task.called :: p) 0 fun _ => failed else 0) + 2) ≤
      ∑ q ∈ frames, taskCost allocates failed goal f q := by
  refine sum_add_le (Finset.Subset.refl frames) hmem (fun q hq hne => ?_) ?_
  · have hnew : q ≠ task.called :: p := fun he => hfree (he ▸ hq)
    rw [taskCost, taskCost, extend_of_ne hnew hne]
    simp only [goal_update_of_ne hne, le_refl]
  · rw [taskCost_body extend_self rfl, taskCost_body hp hb, goal_update, Body.cost]
    simp only [calleeValue]
    omega

theorem taskCost_callee {coroutine : Body V} (hco : coroutine.Scoped 0 ∅) :
    taskCost allocates failed goal (extend f p task { body := some coroutine } k)
      (task.called :: p) =
        coroutine.cost allocates failed (task.called :: p) 0 fun _ => failed := by
  rw [taskCost_body extend_new rfl]
  exact cost_congr hco fun i hi => absurd hi (Set.notMem_empty i)

theorem Moves.agrees {w w' : Tasks V} (hm : Moves allocates failed w w') (hi : Inv allocates w)
    (hg : Agrees allocates failed goal w.tasks) :
    ∃ goal', Agrees allocates failed goal' w'.tasks ∧ goal' [] = goal [] ∧
      cost allocates failed goal' w' < cost allocates failed goal w := by
  have hmem {p : Path} {task : Task V} {body : Body V} (hp : w.tasks p = some task)
      (hb : task.body = some body) : p ∈ w.frames :=
    (hi.frames p).mpr ⟨⟨task, hp⟩, hi.allocated p ⟨task, body, hp, hb⟩⟩
  have hfree {p : Path} {task : Task V} (hp : w.tasks p = some task) :
      task.called :: p ∉ w.frames := by
    rw [hi.frames, hi.tree.free hp]
    simp
  have hnew (p : Path) (task : Task V) (value : V) (goal : Path → V) :
      update goal (task.called :: p) value [] = goal [] := update_of_ne (by simp) ..
  cases hm with
  | @suspend f frames p rest linked task k hp hb =>
    refine ⟨goal, hg.next hp hb (hi.result_none hp hb) rfl, rfl, ?_⟩
    refine cost_next hp hb (hmem hp hb) (fun q hq => ⟨hq, id⟩) (le_refl _) ?_
    simp only [List.length_cons, List.length_append, List.length_nil]
    omega
  | @call f frames p rest linked task coroutine k hp hb ha =>
    have hco := (hi.tree.inScope p task _ hp hb).1
    refine ⟨_, hg.call hp hb (hi.result_none hp hb) hco rfl (by simp)
      (fun b hx => ⟨(Option.some.inj hx).symm, ha⟩), hnew .., ?_⟩
    have hle := sum_call allocates failed goal { body := some coroutine } hp hb
      (hmem hp hb) (hfree hp)
    rw [if_pos ha] at hle
    dsimp only at hle
    simp only [cost, sum_insert_frame _ (hfree hp), taskCost_callee hco, List.length_cons]
    omega
  | @failedCall f frames p rest linked task coroutine k hp hb ha =>
    have hco := (hi.tree.inScope p task _ hp hb).1
    refine ⟨_, hg.call hp hb (hi.result_none hp hb) hco rfl
      (fun value hx => ⟨(Option.some.inj hx).symm, ha⟩) (by simp), hnew .., ?_⟩
    have hle := sum_call allocates failed goal { result := some failed } hp hb
      (hmem hp hb) (hfree hp)
    dsimp only at hle
    simp only [cost]
    omega
  | @take f frames p rest linked task i k fut value hp hb hfut hr =>
    have hv := hg.result (i :: p) fut value hfut hr
    refine ⟨goal, hg.next hp hb (hi.result_none hp hb) (by rw [Body.eval, hv]), rfl, ?_⟩
    exact cost_endFuture hp hb (hmem hp hb) (by rw [Body.cost, hv])
  | @pend f frames p rest linked task i k fut body hp hb hfut hfb =>
    refine ⟨goal, hg.pend hfut, rfl, ?_⟩
    simp only [cost, taskCost_pend hfut, List.length_cons]
    omega
  | @destroy f frames p rest linked task i k hp hb =>
    refine ⟨goal, hg.next hp hb (hi.result_none hp hb) rfl, rfl, ?_⟩
    exact cost_endFuture hp hb (hmem hp hb) (le_refl _)
  | @coReturn f frames p rest linked task value hp hb =>
    have hself : advance f (Local p) p task p = some task := advance_self f task
    have he : { task with body := some (.coReturn value) } = task := by rw [← hb]
    have hnext : Agrees allocates failed goal (advance f (Local p) p task) :=
      he ▸ hg.next hp hb (hi.result_none hp hb) rfl
    refine ⟨goal, hnext.finish hself hb, rfl, ?_⟩
    have hle : ∑ q ∈ frames.filter (fun q => ¬ Local p q),
        taskCost allocates failed goal (finish (advance f (Local p) p task) p task value) q + 1 ≤
          ∑ q ∈ frames, taskCost allocates failed goal f q := by
      refine sum_add_le (Finset.filter_subset _ frames) (hmem hp hb) (fun q hq hne => ?_) ?_
      · rw [taskCost, taskCost, finish_of_ne hne, advance_of_ne hne (Finset.mem_filter.mp hq).2]
      · rw [taskCost_body hp hb, Body.cost]
        simp [taskCost, Tasks.finish]
    have hw : (task.waiting.toList ++ rest).length ≤ (p :: rest).length := by
      cases task.waiting <;> simp
    simp only [cost]
    grw [List.length_filter_le, hw]
    omega

end Agrees

theorem Inv.resume (failed : V) (hi : Inv allocates w) (hs : w.stack = []) (hp : p ∈ w.linked) :
    w.step allocates failed (.resume p) =
        some { w with stack := [p], linked := w.linked.erase p } ∧
      Inv allocates { w with stack := [p], linked := w.linked.erase p } := by
  obtain ⟨f, frames, stack, linked⟩ := w
  obtain rfl : stack = [] := hs
  obtain ⟨task, body, htask, hb⟩ := hi.places.scheduled p hp
  dsimp only at hp htask
  refine ⟨?_, hi.root, hi.tree, hi.places.resume hp, hi.frames, hi.allocated⟩
  simp [step, hp, resumeCoro, htask, hb]

def Sound (allocates : Path → Bool) (failed value : V) (n : Nat) (w : Tasks V) : Prop :=
  Inv allocates w ∧ ∃ goal, Agrees allocates failed goal w.tasks ∧ goal [] = value ∧
    cost allocates failed goal w = n

theorem sound_step {value : V} {n : Nat} {op : Op} (hs : Sound allocates failed value n w)
    (h : w.step allocates failed op = some w') : ∃ m < n, Sound allocates failed value m w' := by
  obtain ⟨hi, goal, hg, hv, rfl⟩ := hs
  cases op with
  | turn =>
    have hne : w.stack ≠ [] := by
      intro hnil
      simp [step, turn, hnil] at h
    obtain ⟨w₁, h₁, hm⟩ : ∃ w₁, w.turn allocates failed = some w₁ ∧ _ := turn_moves hi hne
    cases h₁.symm.trans h
    obtain ⟨goal', hg', hv', hlt⟩ := hm.agrees hi hg
    exact ⟨_, hlt, hm.inv hi, goal', hg', hv'.trans hv, rfl⟩
  | resume p =>
    by_cases hc : w.stack = [] ∧ p ∈ w.linked
    · obtain ⟨he, hi'⟩ := hi.resume failed hc.1 hc.2
      cases he.symm.trans h
      refine ⟨_, ?_, hi', goal, hg, hv, rfl⟩
      have hlen := List.length_erase_of_mem hc.2
      have hpos := List.length_pos_of_mem hc.2
      simp only [cost, hc.1, hlen, List.length_cons, List.length_nil]
      omega
    · simp [step, hc] at h

section Start

variable {main : Body V}

theorem start_cases (h : (start allocates failed main).tasks p = some task) :
    p = [] ∧ task.called = 0 ∧ task.waiting = none ∧
      (allocates [] = true ∧ task.body = some main ∧ task.result = none ∨
        allocates [] = false ∧ task.body = none ∧ task.result = some failed) := by
  rw [start] at h
  split at h
  all_goals
    dsimp only at h
    rcases eq_or_ne p [] with rfl | hne
    · rw [update_self] at h
      cases h
      simp [*]
    · rw [update_of_ne hne] at h
      cases h

theorem tree_start (hmain : main.Scoped 0 ∅) : Tree (start allocates failed main).tasks where
  owner i p fut h := by cases (start_cases h).1
  inScope p task body h hb := by
    obtain ⟨rfl, hc, -, ⟨-, hb', -⟩ | ⟨-, hb', -⟩⟩ := start_cases h
    · cases hb'.symm.trans hb
      have hempty : scope (start allocates failed main).tasks [] = ∅ := by
        ext i
        exact iff_of_false (fun ⟨_, h⟩ => by cases (start_cases h).1) (Set.notMem_empty i)
      rw [hempty, hc]
      exact hmain
    · cases hb'.symm.trans hb
  finished p task h := by
    obtain ⟨-, -, -, ⟨-, hb, hr⟩ | ⟨-, hb, hr⟩⟩ := start_cases h <;> simp [hb, hr]
  waiting q fut body p h _ hw := by cases (start_cases h).2.2.1.symm.trans hw

theorem unfinished_start :
    Unfinished (start allocates failed main).tasks p ↔ p = [] ∧ allocates [] = true := by
  constructor
  · rintro ⟨task, body, h, hb⟩
    obtain ⟨rfl, -, -, ⟨ha, -⟩ | ⟨-, hb', -⟩⟩ := start_cases h
    · exact ⟨rfl, ha⟩
    · cases hb'.symm.trans hb
  · rintro ⟨rfl, ha⟩
    simp [start, ha, Unfinished]

theorem places_start :
    Places (start allocates failed main).tasks (start allocates failed main).stack
      (start allocates failed main).linked := by
  have hstack (p : Path) : p ∈ (start allocates failed main).stack ↔
      p = [] ∧ allocates [] = true := by
    rw [start]
    split <;> simp [*]
  have hlinked : (start allocates failed main).linked = [] := by
    rw [start]
    split <;> rfl
  rw [hlinked]
  exact {
    running := fun p hp => unfinished_start.mpr ((hstack p).mp hp)
    scheduled := fun p hp => absurd hp List.not_mem_nil
    nodup := List.nodup_nil
    nested := by
      rw [start]
      split
      · exact .singleton []
      · exact .nil
    apart := fun p _ => List.not_mem_nil
    waits := fun p ⟨i, fut, _, h, _⟩ => absurd (start_cases h).1 (List.cons_ne_nil i p)
    placed := fun p hp => .inl ((hstack p).mpr (unfinished_start.mp hp)) }

theorem inv_start (hmain : main.Scoped 0 ∅) : Inv allocates (start allocates failed main) where
  root := by
    rw [start]
    split
    · exact ⟨{ body := some main }, rfl⟩
    · exact ⟨{ result := some failed }, rfl⟩
  tree := tree_start hmain
  places := places_start
  frames p := by
    rcases eq_or_ne p [] with rfl | hne
    · rcases ha : allocates [] with _ | _ <;> simp [start, ha]
    · rcases ha : allocates [] with _ | _ <;> simp [start, ha, hne]
  allocated p hp := by
    obtain ⟨rfl, ha⟩ := unfinished_start.mp hp
    exact ha

theorem agrees_start (hmain : main.Scoped 0 ∅) :
    Agrees allocates failed (fun _ => calleeValue allocates failed main [])
      (start allocates failed main).tasks where
  result p task value h hr := by
    obtain ⟨rfl, -, -, ⟨-, -, hr'⟩ | ⟨ha, -, hr'⟩⟩ := start_cases h
    · cases hr'.symm.trans hr
    · cases hr'.symm.trans hr
      simp [calleeValue, ha]
  body p task body h hb := by
    obtain ⟨rfl, hc, -, ⟨ha, hb', -⟩ | ⟨-, hb', -⟩⟩ := start_cases h
    · cases hb'.symm.trans hb
      rw [calleeValue, if_pos ha, hc]
      exact eval_congr hmain fun i hi => absurd hi (Set.notMem_empty i)
    · cases hb'.symm.trans hb

theorem sound_start (hmain : main.Scoped 0 ∅) :
    ∃ n ≤ main.cost allocates failed [] 0 (fun _ => failed) + 1,
      Sound allocates failed (calleeValue allocates failed main []) n
        (start allocates failed main) := by
  refine ⟨_, ?_, inv_start hmain, _, agrees_start hmain, rfl, rfl⟩
  have hcost (env : Nat → V) : main.cost allocates failed [] 0 env =
      main.cost allocates failed [] 0 fun _ => failed :=
    cost_congr hmain fun i hi => absurd hi (Set.notMem_empty i)
  rcases ha : allocates [] with _ | _
  · simp [cost, start, ha]
  · simp [cost, start, ha, taskCost, hcost]

end Start

theorem Tree.alone (hf : Tree f) (hroot : ¬ Unfinished f []) (hne : p ≠ []) : f p = none := by
  induction p with
  | nil => exact absurd rfl hne
  | cons i p ih =>
    rcases h : f (i :: p) with _ | fut
    · rfl
    · obtain ⟨task, body, hp, hb, -⟩ := hf.owner i p fut h
      rcases eq_or_ne p [] with rfl | hne'
      · exact absurd ⟨task, body, hp, hb⟩ hroot
      · cases (ih hne').symm.trans hp

theorem sound_run {main : Body V} (hmain : main.Scoped 0 ∅) {ops : List Op}
    (hrun : ops.foldlM (step allocates failed) (start allocates failed main) = some w) :
    ∃ m, Sound allocates failed (calleeValue allocates failed main []) m w ∧
      m + ops.length ≤ main.cost allocates failed [] 0 (fun _ => failed) + 1 := by
  obtain ⟨n, hn, hs⟩ : ∃ n ≤ main.cost allocates failed [] 0 (fun _ => failed) + 1,
      Sound allocates failed (calleeValue allocates failed main []) n
        (start allocates failed main) := sound_start hmain
  obtain ⟨m, hm, hle⟩ := OperationRuns.run_ranked (fun _ _ _ _ => sound_step) hs hrun
  exact ⟨m, hm, hle.trans hn⟩

def nested : Body Nat :=
  .call (.suspend (.coReturn 1)) <|
    .call (.call (.suspend (.coReturn 2)) (.coAwait 0 fun x => .coReturn (x + 3))) <|
      .destroy 0 <| .coAwait 1 fun x => .call (.coReturn 0) (.coAwait 2 fun y => .coReturn (x + y))

theorem scoped_nested : nested.Scoped 0 ∅ := by simp [nested, Body.Scoped]

def nestedOps : List Op := List.replicate 8 .turn ++ .resume [0, 1] :: List.replicate 7 .turn

def nestedEnd : Tasks Nat :=
  (nestedOps.foldlM (step (· ≠ [2]) 40) (start (· ≠ [2]) 40 nested)).get (by decide)

theorem Inv.done (hi : Inv allocates w) {task : Task V} {value : V} (hroot : w.tasks [] = some task)
    (hr : task.result = some value) : ¬ Unfinished w.tasks [] := by
  rintro ⟨task', body, h, hb⟩
  cases hroot.symm.trans h
  cases hb.symm.trans ((hi.tree.finished [] task hroot).mpr (by simp [hr]))

theorem Inv.frames_done (hi : Inv allocates w) (hdone : ¬ Unfinished w.tasks []) :
    w.frames ⊆ {[]} := by
  intro p hp
  obtain ⟨⟨task, h⟩, -⟩ := (hi.frames p).mp hp
  by_contra hne
  cases (hi.tree.alone hdone fun he => hne (by simp [he])).symm.trans h

theorem Inv.places_done (hi : Inv allocates w) (hdone : ¬ Unfinished w.tasks []) :
    w.stack = [] ∧ w.linked = [] := by
  have hnone (p : Path) : ¬ Unfinished w.tasks p := by
    rcases eq_or_ne p [] with rfl | hne
    · exact hdone
    · rintro ⟨_, _, h, -⟩
      cases (hi.tree.alone hdone hne).symm.trans h
  exact ⟨List.eq_nil_iff_forall_not_mem.mpr fun p hp => hnone p (hi.places.running p hp),
    List.eq_nil_iff_forall_not_mem.mpr fun p hp => hnone p (hi.places.scheduled p hp)⟩

theorem runs_leave_nothing {main : Body V} (hmain : main.Scoped 0 ∅) {ops : List Op}
    (hrun : ops.foldlM (step allocates failed) (start allocates failed main) = some w)
    {task : Task V} {value : V} (hroot : w.tasks [] = some task)
    (hr : task.result = some value) :
    (∀ p, p ≠ [] → w.tasks p = none) ∧ w.frames ⊆ {[]} ∧ w.stack = [] ∧ w.linked = [] := by
  obtain ⟨m, ⟨hi, -⟩, -⟩ := sound_run hmain hrun
  have hdone := hi.done hroot hr
  obtain ⟨hstack, hlinked⟩ := hi.places_done hdone
  exact ⟨fun p hne => hi.tree.alone hdone hne, hi.frames_done hdone, hstack, hlinked⟩

theorem runs_leave_nothing_nested :
    (∀ p, p ≠ [] → nestedEnd.tasks p = none) ∧ nestedEnd.frames ⊆ {[]} ∧ nestedEnd.stack = [] ∧
      nestedEnd.linked = [] :=
  runs_leave_nothing scoped_nested (Option.some_get _).symm rfl rfl

end Corosig.Tasks
