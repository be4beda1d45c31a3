import Corosig.Library.OperationRuns
import Mathlib.Algebra.Order.BigOperators.Group.Finset
import Mathlib.Data.Finset.Max
import Mathlib.Data.List.Chain
import Mathlib.Data.Set.Insert
import Mathlib.Logic.Function.Basic

namespace Corosig
open Function

-- Call n of the coroutine at path p returns the future at path n :: p; main's coroutine is at [].
abbrev Path := List Nat

-- The statements of a coroutine that concern other coroutines or the reactor. A future is named by
-- the number of the call that returned it; suspend is co_await of a Yield, Sleep or PollEvent.
inductive Body (V : Type) where
  | coReturn (value : V)
  | suspend (k : Body V)
  | call (coroutine k : Body V)
  | coAwait (i : Nat) (k : V → Body V)
  | destroy (i : Nat) (k : Body V)

def Body.Scoped {V : Type} : Body V → Nat → Set Nat → Prop
  | .coReturn _, _, _ => True
  | .suspend k, n, scope => k.Scoped n scope
  | .call coroutine k, n, scope => coroutine.Scoped 0 ∅ ∧ k.Scoped (n + 1) (insert n scope)
  | .coAwait i k, n, scope => i ∈ scope ∧ ∀ value, (k value).Scoped n (scope \ {i})
  | .destroy i k, n, scope => i ∈ scope ∧ k.Scoped n (scope \ {i})

def Body.eval {V : Type} (allocates : Path → Bool) (failed : V) :
    Body V → Path → Nat → (Nat → V) → V
  | .coReturn value, _, _, _ => value
  | .suspend k, p, n, env => k.eval allocates failed p n env
  | .call coroutine k, p, n, env =>
      let value :=
        if allocates (n :: p) then coroutine.eval allocates failed (n :: p) 0 fun _ => failed
        else failed
      k.eval allocates failed p (n + 1) (update env n value)
  | .coAwait i k, p, n, env => (k (env i)).eval allocates failed p n env
  | .destroy _ k, p, n, env => k.eval allocates failed p n env

def Body.cost {V : Type} (allocates : Path → Bool) (failed : V) :
    Body V → Path → Nat → (Nat → V) → Nat
  | .coReturn _, _, _, _ => 1
  | .suspend k, p, n, env => k.cost allocates failed p n env + 2
  | .call coroutine k, p, n, env =>
      let q := n :: p
      let value :=
        if allocates q then coroutine.eval allocates failed q 0 fun _ => failed else failed
      let callee := if allocates q then coroutine.cost allocates failed q 0 fun _ => failed else 0
      callee + k.cost allocates failed p (n + 1) (update env n value) + 2
  | .coAwait i k, p, n, env => (k (env i)).cost allocates failed p n env + 1
  | .destroy _ k, p, n, env => k.cost allocates failed p n env + 1

-- A Fut with the frame it owns. body is none without a frame and from final_suspend on.
structure Task (V : Type) where
  result : Option V := none
  body : Option (Body V) := none
  called : Nat := 0
  waiting : Option Path := none

-- stack has the coroutines that are running, the innermost first; linked those in a list of the
-- reactor; frames the coroutine frames that were not given back to the allocator.
structure Tasks (V : Type) where
  tasks : Path → Option (Task V) := fun _ => none
  frames : Finset Path := ∅
  stack : List Path := []
  linked : List Path := []

namespace Tasks

variable {V : Type}

def set (w : Tasks V) (p : Path) (task : Task V) : Tasks V :=
  { w with tasks := update w.tasks p (some task) }

-- A frame's destructor destroys its futures, and its nodes unlink themselves.
def remove (w : Tasks V) (gone : Path → Prop) [DecidablePred gone] : Tasks V :=
  { w with
    tasks := fun q => if gone q then none else w.tasks q
    frames := w.frames.filter fun q => ¬ gone q
    linked := w.linked.filter fun q => ¬ gone q }

def Local (p q : Path) : Prop := p <:+ q ∧ q ≠ p

instance (p : Path) : DecidablePred (Local p) :=
  fun q => inferInstanceAs (Decidable (p <:+ q ∧ q ≠ p))

-- Destroying a coroutine that is not suspended is undefined.
def drop (w : Tasks V) (p : Path) : Option (Tasks V) :=
  if ∃ q ∈ w.stack, p <:+ q then none else some (w.remove (p <:+ ·))

def dropLocals (w : Tasks V) (p : Path) : Option (Tasks V) :=
  if ∃ q ∈ w.stack, Local p q then none else some (w.remove (Local p))

def schedule (w : Tasks V) (p : Path) : Option (Tasks V) :=
  if p ∈ w.linked then none else some { w with linked := w.linked ++ [p] }

def resumeCoro (w : Tasks V) (p : Path) : Option (Tasks V) :=
  if p ∈ w.stack ∨ ((w.tasks p).bind Task.body).isNone then none
  else some { w with stack := p :: w.stack }

def returnValue (w : Tasks V) (p : Path) (task : Task V) (value : V) : Option (Tasks V) := do
  let w ← w.dropLocals p
  let w := { w.set p { task with result := some value, body := none } with stack := w.stack.tail }
  match task.waiting with
  | none => return w
  | some waiting => w.resumeCoro waiting

def callCoroutine (allocates : Path → Bool) (failed : V) (w : Tasks V) (p : Path) (task : Task V)
    (coroutine k : Body V) : Tasks V :=
  let q := task.called :: p
  let w := w.set p { task with body := some k, called := task.called + 1 }
  if allocates q then
    { w.set q { body := some coroutine } with frames := insert q w.frames, stack := q :: w.stack }
  else w.set q { result := some failed }

def awaitFut (w : Tasks V) (p : Path) (task : Task V) (i : Nat) (k : V → Body V) :
    Option (Tasks V) := do
  let fut ← w.tasks (i :: p)
  match fut.result with
  | some value => do
      let w ← w.drop (i :: p)
      return w.set p { task with body := some (k value) }
  | none =>
      if fut.body.isNone then none
      else some { w.set (i :: p) { fut with waiting := some p } with stack := w.stack.tail }

-- The innermost running coroutine executes one statement. A future that is awaited is destroyed
-- with the expression it was awaited in.
def turn (allocates : Path → Bool) (failed : V) (w : Tasks V) : Option (Tasks V) := do
  let p ← w.stack.head?
  let task ← w.tasks p
  match ← task.body with
  | .coReturn value => w.returnValue p task value
  | .suspend k =>
      let w := w.set p { task with body := some k }
      schedule { w with stack := w.stack.tail } p
  | .call coroutine k => w.callCoroutine allocates failed p task coroutine k
  | .coAwait i k => w.awaitFut p task i k
  | .destroy i k => do
      let _ ← w.tasks (i :: p)
      let w ← w.drop (i :: p)
      return w.set p { task with body := some k }

-- resume is the reactor's: it takes a node out of its list and resumes the node's coroutine. Which
-- one is open, for it depends on the lists, the clock and the events of the handles.
inductive Op where
  | turn
  | resume (p : Path)

def step (allocates : Path → Bool) (failed : V) (w : Tasks V) : Op → Option (Tasks V)
  | .turn => w.turn allocates failed
  | .resume p =>
      if w.stack = [] ∧ p ∈ w.linked then resumeCoro { w with linked := w.linked.erase p } p
      else none

def start (allocates : Path → Bool) (failed : V) (main : Body V) : Tasks V :=
  if allocates [] then
    { tasks := update (fun _ => none) [] (some { body := some main })
      frames := {[]}
      stack := [[]] }
  else { tasks := update (fun _ => none) [] (some { result := some failed }) }

def scope (f : Path → Option (Task V)) (p : Path) : Set Nat := {i | ∃ task, f (i :: p) = some task}

def Unfinished (f : Path → Option (Task V)) (p : Path) : Prop :=
  ∃ task body, f p = some task ∧ task.body = some body

def Awaits (f : Path → Option (Task V)) (p : Path) : Prop :=
  ∃ i fut body, f (i :: p) = some fut ∧ fut.body = some body ∧ fut.waiting = some p

def Calls (q p : Path) : Prop := ∃ i, q = i :: p

structure Tree (f : Path → Option (Task V)) : Prop where
  owner : ∀ i p fut, f (i :: p) = some fut →
    ∃ task body, f p = some task ∧ task.body = some body ∧ i < task.called
  inScope : ∀ p task body, f p = some task → task.body = some body →
    body.Scoped task.called (scope f p)
  finished : ∀ p task, f p = some task → (task.body = none ↔ task.result ≠ none)
  waiting : ∀ q fut body p, f q = some fut → fut.body = some body → fut.waiting = some p →
    ∃ i k task, q = i :: p ∧ f p = some task ∧ task.body = some (.coAwait i k)

structure Places (f : Path → Option (Task V)) (stack linked : List Path) : Prop where
  running : ∀ p ∈ stack, Unfinished f p
  scheduled : ∀ p ∈ linked, Unfinished f p
  nodup : linked.Nodup
  nested : stack.IsChain Calls
  apart : ∀ p ∈ stack, p ∉ linked
  waits : ∀ p, Awaits f p → p ∉ stack ∧ p ∉ linked
  placed : ∀ p, Unfinished f p → p ∈ stack ∨ p ∈ linked ∨ Awaits f p

variable {f : Path → Option (Task V)} {p q : Path} {task fut : Task V} {body : Body V}
  {stack rest linked : List Path}

theorem nested_suffix (h : (p :: rest).IsChain Calls) (hq : q ∈ p :: rest) : q <:+ p := by
  induction rest generalizing p with
  | nil =>
    cases List.mem_singleton.mp hq
    exact List.suffix_refl _
  | cons r rest ih =>
    obtain ⟨⟨i, rfl⟩, h'⟩ := List.isChain_cons_cons.mp h
    rcases List.mem_cons.mp hq with rfl | hq
    · exact List.suffix_refl _
    · exact (ih h' hq).trans (List.suffix_cons i r)

theorem nested_head (h : (p :: rest).IsChain Calls) : p ∉ rest := by
  intro hp
  cases rest with
  | nil => cases hp
  | cons r rest =>
    obtain ⟨⟨i, rfl⟩, h'⟩ := List.isChain_cons_cons.mp h
    have hle := (nested_suffix h' hp).length_le
    simp at hle

theorem Tree.free (hf : Tree f) (hp : f p = some task) : f (task.called :: p) = none := by
  rcases h : f (task.called :: p) with _ | fut
  · rfl
  · obtain ⟨task', -, hp', -, hlt⟩ := hf.owner _ p fut h
    cases hp.symm.trans hp'
    exact absurd hlt (Nat.lt_irrefl _)

def advance (f : Path → Option (Task V)) (gone : Path → Prop) [DecidablePred gone] (p : Path)
    (task : Task V) : Path → Option (Task V) :=
  update (fun q => if gone q then none else f q) p (some task)

structure Leaves (gone : Path → Prop) (p : Path) : Prop where
  below : ∀ i q, gone q → gone (i :: q)
  edge : ∀ i q, gone (i :: q) → gone q ∨ q = p
  self : ¬ gone p

variable {gone : Path → Prop} [DecidablePred gone]

theorem advance_self (f : Path → Option (Task V)) (task : Task V) :
    advance f gone p task p = some task := update_self ..

theorem advance_cases (h : advance f gone p task q = some fut) :
    q = p ∧ fut = task ∨ q ≠ p ∧ ¬ gone q ∧ f q = some fut := by
  rw [advance] at h
  rcases eq_or_ne q p with rfl | hne
  · rw [update_self] at h
    exact .inl ⟨rfl, (Option.some.inj h).symm⟩
  · rw [update_of_ne hne] at h
    split at h
    · cases h
    · exact .inr ⟨hne, ‹_›, h⟩

theorem advance_of_ne (hne : q ≠ p) (hq : ¬ gone q) : advance f gone p task q = f q := by
  rw [advance, update_of_ne hne, if_neg hq]

section Advance

variable {task' : Task V} {body' : Body V}

theorem Tree.advance (hf : Tree f) (hs : Leaves gone p) (hp : f p = some task)
    (hb : task.body = some body) (ha : ¬ Awaits f p) (hc : task.called ≤ task'.called)
    (hb' : task'.body = some body') (hr : task'.result = none)
    (hw : task'.waiting = task.waiting)
    (hscope : body'.Scoped task'.called {i | i ∈ scope f p ∧ ¬ gone (i :: p)}) :
    Tree (advance f gone p task') where
  owner i q fut h := by
    have hold : ∃ fut', f (i :: q) = some fut' ∧ ¬ gone (i :: q) := by
      rcases advance_cases h with ⟨he, -⟩ | ⟨-, hg, hfut⟩
      · exact ⟨task, he ▸ hp, he ▸ hs.self⟩
      · exact ⟨fut, hfut, hg⟩
    obtain ⟨fut', hfut', hg⟩ := hold
    obtain ⟨owner, b, hq, hown, hlt⟩ := hf.owner i q fut' hfut'
    rcases eq_or_ne q p with rfl | hne
    · cases hp.symm.trans hq
      exact ⟨task', body', advance_self f task', hb', hlt.trans_le hc⟩
    · exact ⟨owner, b, (advance_of_ne hne fun hq => hg (hs.below i q hq)).trans hq, hown, hlt⟩
  inScope q fut b h hfb := by
    have hscope' (hq : ¬ gone q) : scope (Tasks.advance f gone p task') q =
        {i | i ∈ scope f q ∧ ¬ gone (i :: q)} := by
      ext i
      constructor
      · rintro ⟨kid, hkid⟩
        rcases advance_cases hkid with ⟨he, -⟩ | ⟨-, hg, hkid⟩
        · exact ⟨⟨task, he ▸ hp⟩, he ▸ hs.self⟩
        · exact ⟨⟨kid, hkid⟩, hg⟩
      · rintro ⟨⟨kid, hkid⟩, hg⟩
        rcases eq_or_ne (i :: q) p with he | hne
        · exact ⟨task', he ▸ advance_self f task'⟩
        · exact ⟨kid, (advance_of_ne hne hg).trans hkid⟩
    rcases advance_cases h with ⟨rfl, rfl⟩ | ⟨hne, hg, hq⟩
    · cases hb'.symm.trans hfb
      rw [hscope' hs.self]
      exact hscope
    · have hkept : {i | i ∈ scope f q ∧ ¬ gone (i :: q)} = scope f q := by
        ext i
        refine and_iff_left_iff_imp.mpr fun _ hgi => ?_
        rcases hs.edge i q hgi with hgq | rfl
        · exact hg hgq
        · exact hne rfl
      rw [hscope' hg, hkept]
      exact hf.inScope q fut b hq hfb
  finished q fut h := by
    rcases advance_cases h with ⟨rfl, rfl⟩ | ⟨-, -, hq⟩
    · simp [hb', hr]
    · exact hf.finished q fut hq
  waiting q fut b p' h hfb hwait := by
    have hold : ∃ fut' b', f q = some fut' ∧ fut'.body = some b' ∧ fut'.waiting = some p' ∧
        ¬ gone q := by
      rcases advance_cases h with ⟨rfl, rfl⟩ | ⟨-, hg, hq⟩
      · exact ⟨task, body, hp, hb, hw ▸ hwait, hs.self⟩
      · exact ⟨fut, b, hq, hfb, hwait, hg⟩
    obtain ⟨fut', b', hq, hfb', hwait', hg⟩ := hold
    obtain ⟨i, k, owner, rfl, hp', hown⟩ := hf.waiting q fut' b' p' hq hfb' hwait'
    have hne : p' ≠ p := by
      rintro rfl
      exact ha ⟨i, fut', b', hq, hfb', hwait'⟩
    exact ⟨i, k, owner, rfl, (advance_of_ne hne fun hg' => hg (hs.below i p' hg')).trans hp', hown⟩

theorem unfinished_advance (hp : f p = some task) (hb : task.body = some body)
    (hs : Leaves gone p) (hb' : task'.body = some body') :
    Unfinished (Tasks.advance f gone p task') q ↔ Unfinished f q ∧ ¬ gone q := by
  constructor
  · rintro ⟨fut, b, h, hfb⟩
    rcases advance_cases h with ⟨rfl, rfl⟩ | ⟨-, hg, hq⟩
    · exact ⟨⟨task, body, hp, hb⟩, hs.self⟩
    · exact ⟨⟨fut, b, hq, hfb⟩, hg⟩
  · rintro ⟨⟨fut, b, hq, hfb⟩, hg⟩
    rcases eq_or_ne q p with rfl | hne
    · exact ⟨task', body', advance_self f task', hb'⟩
    · exact ⟨fut, b, (advance_of_ne hne hg).trans hq, hfb⟩

theorem awaits_advance (hp : f p = some task) (hb : task.body = some body)
    (hs : Leaves gone p) (ha : ¬ Awaits f p) (hb' : task'.body = some body')
    (hw : task'.waiting = task.waiting) :
    Awaits (Tasks.advance f gone p task') q ↔ Awaits f q ∧ ¬ gone q := by
  constructor
  · rintro ⟨i, fut, b, h, hfb, hwait⟩
    rcases advance_cases h with ⟨he, rfl⟩ | ⟨-, hg, hq⟩
    · refine ⟨⟨i, task, body, he ▸ hp, hb, hw ▸ hwait⟩, fun hg => hs.self ?_⟩
      exact he ▸ hs.below i q hg
    · exact ⟨⟨i, fut, b, hq, hfb, hwait⟩, fun hgq => hg (hs.below i q hgq)⟩
  · rintro ⟨⟨i, fut, b, hq, hfb, hwait⟩, hg⟩
    rcases eq_or_ne (i :: q) p with he | hne
    · cases hp.symm.trans (he ▸ hq)
      exact ⟨i, task', body', he ▸ advance_self f task', hb', hw.trans hwait⟩
    · refine ⟨i, fut, b, (advance_of_ne hne fun hgi => ?_).trans hq, hfb, hwait⟩
      rcases hs.edge i q hgi with hgq | rfl
      · exact hg hgq
      · exact ha ⟨i, fut, b, hq, hfb, hwait⟩

theorem Places.advance (hl : Places f stack linked) (hp : f p = some task)
    (hb : task.body = some body) (hs : Leaves gone p) (ha : ¬ Awaits f p)
    (hb' : task'.body = some body') (hw : task'.waiting = task.waiting)
    (hstack : ∀ q ∈ stack, ¬ gone q) :
    Places (Tasks.advance f gone p task') stack (linked.filter fun q => ¬ gone q) := by
  have hu (q : Path) := unfinished_advance (q := q) hp hb hs hb'
  have hA (q : Path) := awaits_advance (q := q) hp hb hs ha hb' hw
  have hmem (q : Path) : q ∈ linked.filter (fun q => ¬ gone q) ↔ q ∈ linked ∧ ¬ gone q := by
    simp
  exact {
    running := fun q hq => (hu q).mpr ⟨hl.running q hq, hstack q hq⟩
    scheduled := fun q hq =>
      (hu q).mpr ⟨hl.scheduled q ((hmem q).mp hq).1, ((hmem q).mp hq).2⟩
    nodup := hl.nodup.filter _
    nested := hl.nested
    apart := fun q hq hq' => hl.apart q hq ((hmem q).mp hq').1
    waits := fun q hq =>
      ⟨(hl.waits q ((hA q).mp hq).1).1,
        fun hq' => (hl.waits q ((hA q).mp hq).1).2 ((hmem q).mp hq').1⟩
    placed := fun q hq => by
      obtain ⟨hq, hg⟩ := (hu q).mp hq
      rcases hl.placed q hq with h | h | h
      · exact .inl h
      · exact .inr (.inl ((hmem q).mpr ⟨h, hg⟩))
      · exact .inr (.inr ((hA q).mpr ⟨h, hg⟩)) }

end Advance

theorem Places.suspend (hl : Places f (p :: rest) linked) :
    Places f rest (linked ++ [p]) where
  running q hq := hl.running q (.tail _ hq)
  scheduled q hq := by
    rcases List.mem_append.mp hq with hq | hq
    · exact hl.scheduled q hq
    · exact List.mem_singleton.mp hq ▸ hl.running p (.head _)
  nodup := by
    refine List.nodup_append.mpr ⟨hl.nodup, List.nodup_singleton p, ?_⟩
    rintro q hq _ hp rfl
    cases List.mem_singleton.mp hp
    exact hl.apart _ (.head _) hq
  nested := hl.nested.tail
  apart q hq hq' := by
    rcases List.mem_append.mp hq' with hq' | hq'
    · exact hl.apart q (.tail _ hq) hq'
    · cases List.mem_singleton.mp hq'
      exact nested_head hl.nested hq
  waits q hq := by
    obtain ⟨hstack, hlinked⟩ := hl.waits q hq
    refine ⟨fun h => hstack (.tail _ h), fun h => ?_⟩
    rcases List.mem_append.mp h with h | h
    · exact hlinked h
    · exact hstack (List.mem_singleton.mp h ▸ .head _)
  placed q hq := by
    rcases hl.placed q hq with h | h | h
    · rcases List.mem_cons.mp h with rfl | h
      · exact .inr (.inl (by simp))
      · exact .inl h
    · exact .inr (.inl (List.mem_append_left _ h))
    · exact .inr (.inr h)

theorem Places.resume (hl : Places f [] linked) (hp : p ∈ linked) :
    Places f [p] (linked.erase p) where
  running q hq := List.mem_singleton.mp hq ▸ hl.scheduled p hp
  scheduled q hq := hl.scheduled q (List.mem_of_mem_erase hq)
  nodup := hl.nodup.erase p
  nested := .singleton p
  apart q hq := List.mem_singleton.mp hq ▸ hl.nodup.not_mem_erase
  waits q hq := by
    obtain ⟨-, hlinked⟩ := hl.waits q hq
    refine ⟨fun h => hlinked (List.mem_singleton.mp h ▸ hp), fun h => ?_⟩
    exact hlinked (List.mem_of_mem_erase h)
  placed q hq := by
    rcases hl.placed q hq with h | h | h
    · cases h
    · rcases eq_or_ne q p with rfl | hne
      · exact .inl (.head _)
      · exact .inr (.inl ((List.mem_erase_of_ne hne).mpr h))
    · exact .inr (.inr h)

section Call

variable {new : Task V} {coroutine k : Body V}

def extend (f : Path → Option (Task V)) (p : Path) (task new : Task V) (k : Body V) :
    Path → Option (Task V) :=
  update (update f p (some { task with body := some k, called := task.called + 1 }))
    (task.called :: p) (some new)

theorem extend_new : extend f p task new k (task.called :: p) = some new := update_self ..

theorem extend_self : extend f p task new k p =
    some { task with body := some k, called := task.called + 1 } := by
  rw [extend, update_of_ne (List.cons_ne_self _ p).symm, update_self]

theorem extend_of_ne (hnew : q ≠ task.called :: p) (hne : q ≠ p) :
    extend f p task new k q = f q := by
  rw [extend, update_of_ne hnew, update_of_ne hne]

theorem extend_cases (h : extend f p task new k q = some fut) :
    q = task.called :: p ∧ fut = new ∨
      q = p ∧ fut = { task with body := some k, called := task.called + 1 } ∨
        q ≠ task.called :: p ∧ q ≠ p ∧ f q = some fut := by
  rcases eq_or_ne q (task.called :: p) with rfl | hnew
  · exact .inl ⟨rfl, (Option.some.inj (extend_new.symm.trans h)).symm⟩
  rcases eq_or_ne q p with rfl | hne
  · exact .inr (.inl ⟨rfl, (Option.some.inj (extend_self.symm.trans h)).symm⟩)
  · exact .inr (.inr ⟨hnew, hne, (extend_of_ne hnew hne).symm.trans h⟩)

theorem extend_old (new : Task V) (k : Body V) (hfree : f (task.called :: p) = none)
    (hp : f p = some task)
    (hq : f q = some fut) : ∃ fut', extend f p task new k q = some fut' ∧
      fut'.waiting = fut.waiting ∧ (q ≠ p → fut' = fut) := by
  rcases eq_or_ne q p with rfl | hne
  · cases hp.symm.trans hq
    exact ⟨_, extend_self, rfl, fun h => absurd rfl h⟩
  · have hnew : q ≠ task.called :: p := by
      rintro rfl
      cases hfree.symm.trans hq
    exact ⟨fut, (extend_of_ne hnew hne).trans hq, rfl, fun _ => rfl⟩

theorem Tree.call (hf : Tree f) (hp : f p = some task) (hb : task.body = some (.call coroutine k))
    (hc : new.called = 0) (hw : new.waiting = none) (hr : new.body = none ↔ new.result ≠ none)
    (hnew : ∀ b, new.body = some b → b = coroutine) : Tree (extend f p task new k) := by
  have hfree := hf.free hp
  obtain ⟨hco, hk⟩ := hf.inScope p task _ hp hb
  have hnone (j : Nat) : f (j :: task.called :: p) = none := by
    rcases h : f (j :: task.called :: p) with _ | fut
    · rfl
    · obtain ⟨_, _, hq, -, -⟩ := hf.owner j _ fut h
      cases hfree.symm.trans hq
  refine ⟨fun i q fut h => ?_, fun q fut b h hfb => ?_, fun q fut h => ?_,
    fun q fut b p' h hfb hwait => ?_⟩
  · rcases extend_cases h with ⟨he, rfl⟩ | hold
    · obtain ⟨rfl, rfl⟩ := List.cons.inj he
      exact ⟨_, k, extend_self, rfl, Nat.lt_succ_self _⟩
    · have hold' : ∃ fut, f (i :: q) = some fut := by
        rcases hold with ⟨he, -⟩ | ⟨-, -, hq⟩
        · exact ⟨task, he ▸ hp⟩
        · exact ⟨fut, hq⟩
      obtain ⟨fut', hfut'⟩ := hold'
      obtain ⟨owner, b, hq, hown, hlt⟩ := hf.owner i q fut' hfut'
      rcases eq_or_ne q p with rfl | hne
      · cases hp.symm.trans hq
        exact ⟨_, k, extend_self, rfl, hlt.trans (Nat.lt_succ_self _)⟩
      · obtain ⟨owner', hq', -, heq⟩ := extend_old new k hfree hp hq
        exact ⟨owner', b, hq', heq hne ▸ hown, heq hne ▸ hlt⟩
  · rcases extend_cases h with ⟨rfl, rfl⟩ | ⟨rfl, rfl⟩ | ⟨hne', hne, hq⟩
    · have hempty : scope (extend f p task fut k) (task.called :: p) = ∅ := by
        ext j
        refine iff_of_false ?_ (Set.notMem_empty j)
        rintro ⟨x, hx⟩
        rcases extend_cases hx with ⟨he, -⟩ | ⟨he, -⟩ | ⟨-, -, hx⟩
        · simp at he
        · have hlen := congrArg List.length he
          simp only [List.length_cons] at hlen
          omega
        · cases (hnone j).symm.trans hx
      rw [hempty, hc, hnew b hfb]
      exact hco
    · cases hfb
      have hins : scope (extend f q task new k) q = insert task.called (scope f q) := by
        ext j
        constructor
        · rintro ⟨x, hx⟩
          rcases extend_cases hx with ⟨he, -⟩ | ⟨he, -⟩ | ⟨-, -, hx⟩
          · exact .inl (List.cons.inj he).1
          · simp at he
          · exact .inr ⟨x, hx⟩
        · rintro (rfl | ⟨x, hx⟩)
          · exact ⟨new, extend_new⟩
          · obtain ⟨x', hx', -⟩ := extend_old new k hfree hp hx
            exact ⟨x', hx'⟩
      rw [hins]
      exact hk
    · have hsame : scope (extend f p task new k) q = scope f q := by
        ext j
        constructor
        · rintro ⟨x, hx⟩
          rcases extend_cases hx with ⟨he, -⟩ | ⟨he, -⟩ | ⟨-, -, hx⟩
          · exact absurd (List.cons.inj he).2 hne
          · exact ⟨task, he ▸ hp⟩
          · exact ⟨x, hx⟩
        · rintro ⟨x, hx⟩
          obtain ⟨x', hx', -⟩ := extend_old new k hfree hp hx
          exact ⟨x', hx'⟩
      rw [hsame]
      exact hf.inScope q fut b hq hfb
  · rcases extend_cases h with ⟨rfl, rfl⟩ | ⟨rfl, rfl⟩ | ⟨-, -, hq⟩
    · exact hr
    · have hfin := hf.finished q task hp
      rw [hb] at hfin
      exact iff_of_false (by simp) (fun h => by simpa using hfin.mpr h)
    · exact hf.finished q fut hq
  · have hold : ∃ fut' b', f q = some fut' ∧ fut'.body = some b' ∧ fut'.waiting = some p' := by
      rcases extend_cases h with ⟨rfl, rfl⟩ | ⟨rfl, rfl⟩ | ⟨-, -, hq⟩
      · cases hw.symm.trans hwait
      · exact ⟨task, _, hp, hb, hwait⟩
      · exact ⟨fut, b, hq, hfb, hwait⟩
    obtain ⟨fut', b', hq, hfb', hwait'⟩ := hold
    obtain ⟨i, k', owner, rfl, hp', hown⟩ := hf.waiting q fut' b' p' hq hfb' hwait'
    have hne : p' ≠ p := by
      rintro rfl
      cases hp.symm.trans hp'
      cases hb.symm.trans hown
    obtain ⟨owner', hq', -, heq⟩ := extend_old new k hfree hp hp'
    exact ⟨i, k', owner', rfl, hq', heq hne ▸ hown⟩

theorem unfinished_extend (hfree : f (task.called :: p) = none) (hp : f p = some task)
    (hb : task.body = some body) : Unfinished (extend f p task new k) q ↔
      Unfinished f q ∨ q = task.called :: p ∧ new.body ≠ none := by
  constructor
  · rintro ⟨fut, b, h, hfb⟩
    rcases extend_cases h with ⟨rfl, rfl⟩ | ⟨rfl, -⟩ | ⟨-, -, hq⟩
    · exact .inr ⟨rfl, by simp [hfb]⟩
    · exact .inl ⟨task, body, hp, hb⟩
    · exact .inl ⟨fut, b, hq, hfb⟩
  · rintro (⟨fut, b, hq, hfb⟩ | ⟨rfl, hn⟩)
    · rcases eq_or_ne q p with rfl | hne
      · exact ⟨_, k, extend_self, rfl⟩
      · obtain ⟨fut', hq', -, heq⟩ := extend_old new k hfree hp hq
        exact ⟨fut', b, hq', heq hne ▸ hfb⟩
    · obtain ⟨b, hfb⟩ := Option.ne_none_iff_exists'.mp hn
      exact ⟨new, b, extend_new, hfb⟩

theorem awaits_extend (hfree : f (task.called :: p) = none) (hp : f p = some task)
    (hb : task.body = some body) (hw : new.waiting = none) :
    Awaits (extend f p task new k) q ↔ Awaits f q := by
  constructor
  · rintro ⟨i, fut, b, h, hfb, hwait⟩
    rcases extend_cases h with ⟨-, rfl⟩ | ⟨he, rfl⟩ | ⟨-, -, hq⟩
    · cases hw.symm.trans hwait
    · exact ⟨i, task, body, he ▸ hp, hb, hwait⟩
    · exact ⟨i, fut, b, hq, hfb, hwait⟩
  · rintro ⟨i, fut, b, hq, hfb, hwait⟩
    rcases eq_or_ne (i :: q) p with rfl | hne
    · cases hp.symm.trans hq
      exact ⟨i, _, k, extend_self, rfl, hwait⟩
    · obtain ⟨fut', hq', hw', heq⟩ := extend_old new k hfree hp hq
      exact ⟨i, fut', b, hq', heq hne ▸ hfb, hw'.trans hwait⟩

theorem Places.failedCall (hl : Places f stack linked) (hfree : f (task.called :: p) = none)
    (hp : f p = some task) (hb : task.body = some body) (hw : new.waiting = none)
    (hn : new.body = none) : Places (extend f p task new k) stack linked := by
  have hu (q : Path) : Unfinished (extend f p task new k) q ↔ Unfinished f q := by
    simp [unfinished_extend hfree hp hb, hn]
  have hA (q : Path) := awaits_extend (k := k) (q := q) hfree hp hb hw
  exact {
    running := fun q hq => (hu q).mpr (hl.running q hq)
    scheduled := fun q hq => (hu q).mpr (hl.scheduled q hq)
    nodup := hl.nodup
    nested := hl.nested
    apart := hl.apart
    waits := fun q hq => hl.waits q ((hA q).mp hq)
    placed := fun q hq => by
      rw [hA q]
      exact hl.placed q ((hu q).mp hq) }

theorem Places.call (hl : Places f (p :: rest) linked) (hf : Tree f) (hp : f p = some task)
    (hb : task.body = some body) (hw : new.waiting = none) (hn : new.body ≠ none) :
    Places (extend f p task new k) ((task.called :: p) :: p :: rest) linked := by
  have hfree := hf.free hp
  have hu (q : Path) : Unfinished (extend f p task new k) q ↔
      Unfinished f q ∨ q = task.called :: p := by
    rw [unfinished_extend hfree hp hb, and_iff_left hn]
  have hA (q : Path) := awaits_extend (k := k) (q := q) hfree hp hb hw
  have hnew : ¬ Unfinished f (task.called :: p) := by
    rintro ⟨_, _, h, -⟩
    cases hfree.symm.trans h
  exact {
    running := fun q hq => (hu q).mpr <| (List.mem_cons.mp hq).symm.imp_left (hl.running q)
    scheduled := fun q hq => (hu q).mpr (.inl (hl.scheduled q hq))
    nodup := hl.nodup
    nested := .cons_cons ⟨_, rfl⟩ hl.nested
    apart := fun q hq hq' => by
      rcases List.mem_cons.mp hq with rfl | hq
      · exact hnew (hl.scheduled _ hq')
      · exact hl.apart q hq hq'
    waits := fun q hq => by
      have hold := (hA q).mp hq
      refine ⟨fun h => ?_, (hl.waits q hold).2⟩
      rcases List.mem_cons.mp h with rfl | h
      · obtain ⟨i, fut, b, hfut, -, -⟩ := hold
        obtain ⟨_, _, h', -, -⟩ := hf.owner i _ fut hfut
        cases hfree.symm.trans h'
      · exact (hl.waits q hold).1 h
    placed := fun q hq => by
      rw [hA q]
      rcases (hu q).mp hq with hq | rfl
      · rcases hl.placed q hq with h | h
        · exact .inl (.tail _ h)
        · exact .inr h
      · exact .inl (.head _) }

end Call

section Await

variable {i : Nat} {k : V → Body V}

def pend (f : Path → Option (Task V)) (p : Path) (i : Nat) (fut : Task V) :
    Path → Option (Task V) :=
  update f (i :: p) (some { fut with waiting := some p })

theorem pend_cases {x : Task V} (h : pend f p i fut q = some x) (hfut : f (i :: p) = some fut) :
    ∃ x', f q = some x' ∧ x = { x' with waiting := x.waiting } ∧
      (q = i :: p ∧ x.waiting = some p ∨ q ≠ i :: p ∧ x = x') := by
  rw [pend] at h
  rcases eq_or_ne q (i :: p) with rfl | hne
  · rw [update_self] at h
    cases h
    exact ⟨fut, hfut, rfl, .inl ⟨rfl, rfl⟩⟩
  · rw [update_of_ne hne] at h
    exact ⟨x, h, rfl, .inr ⟨hne, rfl⟩⟩

theorem pend_of_some {x : Task V} (hfut : f (i :: p) = some fut) (h : f q = some x) :
    ∃ x', pend f p i fut q = some x' ∧ x = { x' with waiting := x.waiting } ∧
      (q ≠ i :: p → x' = x) := by
  rw [pend]
  rcases eq_or_ne q (i :: p) with rfl | hne
  · cases hfut.symm.trans h
    exact ⟨_, update_self .., rfl, fun h => absurd rfl h⟩
  · rw [update_of_ne hne]
    exact ⟨x, h, rfl, fun _ => rfl⟩

theorem exists_pend (hfut : f (i :: p) = some fut) :
    (∃ x, pend f p i fut q = some x) ↔ ∃ x, f q = some x := by
  constructor
  · rintro ⟨x, hx⟩
    obtain ⟨x', hx', -⟩ := pend_cases hx hfut
    exact ⟨x', hx'⟩
  · rintro ⟨x, hx⟩
    obtain ⟨x', hx', -⟩ := pend_of_some hfut hx
    exact ⟨x', hx'⟩

theorem scope_pend (hfut : f (i :: p) = some fut) : scope (pend f p i fut) q = scope f q :=
  Set.ext fun _ => exists_pend hfut

theorem unfinished_pend (hfut : f (i :: p) = some fut) :
    Unfinished (pend f p i fut) q ↔ Unfinished f q := by
  constructor
  · rintro ⟨x, b, hx, hxb⟩
    obtain ⟨x', hx', he, -⟩ := pend_cases hx hfut
    rw [he] at hxb
    exact ⟨x', b, hx', hxb⟩
  · rintro ⟨x, b, hx, hxb⟩
    obtain ⟨x', hx', he, -⟩ := pend_of_some hfut hx
    rw [he] at hxb
    exact ⟨x', b, hx', hxb⟩

theorem Tree.await (hf : Tree f) (hp : f p = some task) (hb : task.body = some (.coAwait i k))
    (hfut : f (i :: p) = some fut) : Tree (pend f p i fut) where
  owner j q x h := by
    obtain ⟨x', hx', -⟩ := pend_cases h hfut
    obtain ⟨owner, b, hq, hown, hlt⟩ := hf.owner j q x' hx'
    obtain ⟨owner', hq', he, -⟩ := pend_of_some hfut hq
    rw [he] at hown hlt
    exact ⟨owner', b, hq', hown, hlt⟩
  inScope q x b h hfb := by
    obtain ⟨x', hx', he, -⟩ := pend_cases h hfut
    rw [he] at hfb ⊢
    rw [scope_pend hfut]
    exact hf.inScope q x' b hx' hfb
  finished q x h := by
    obtain ⟨x', hx', he, -⟩ := pend_cases h hfut
    rw [he]
    exact hf.finished q x' hx'
  waiting q x b r h hfb hw := by
    obtain ⟨x', hx', he, hcase⟩ := pend_cases h hfut
    have hold : ∃ j k task, q = j :: r ∧ f r = some task ∧ task.body = some (.coAwait j k) := by
      rcases hcase with ⟨rfl, hw'⟩ | ⟨-, rfl⟩
      · cases hw.symm.trans hw'
        exact ⟨i, k, task, rfl, hp, hb⟩
      · exact hf.waiting q x b r hx' hfb hw
    obtain ⟨j, k', owner, rfl, hr, hown⟩ := hold
    obtain ⟨owner', hr', he', -⟩ := pend_of_some hfut hr
    rw [he'] at hown
    exact ⟨j, k', owner', rfl, hr', hown⟩

theorem Places.await (hl : Places f (p :: rest) linked) (hfut : f (i :: p) = some fut)
    (hfb : fut.body = some body) : Places (pend f p i fut) rest linked := by
  have hu (q : Path) : Unfinished (pend f p i fut) q ↔ Unfinished f q := unfinished_pend hfut
  have hA (q : Path) : Awaits (pend f p i fut) q ↔ Awaits f q ∨ q = p := by
    constructor
    · rintro ⟨j, x, b, hx, hxb, hw⟩
      obtain ⟨x', hx', he, hcase⟩ := pend_cases hx hfut
      rcases hcase with ⟨-, hw'⟩ | ⟨-, rfl⟩
      · cases hw.symm.trans hw'
        exact .inr rfl
      · exact .inl ⟨j, x, b, hx', hxb, hw⟩
    · rintro (⟨j, x, b, hx, hxb, hw⟩ | rfl)
      · have hne : j :: q ≠ i :: p := by
          intro he
          obtain ⟨rfl, rfl⟩ := List.cons.inj he
          exact (hl.waits q ⟨j, x, b, hx, hxb, hw⟩).1 (.head _)
        obtain ⟨x', hx', -, he⟩ := pend_of_some hfut hx
        cases he hne
        exact ⟨j, x, b, hx', hxb, hw⟩
      · exact ⟨i, { fut with waiting := some q }, body, update_self .., hfb, rfl⟩
  exact {
    running := fun q hq => (hu q).mpr (hl.running q (.tail _ hq))
    scheduled := fun q hq => (hu q).mpr (hl.scheduled q hq)
    nodup := hl.nodup
    nested := hl.nested.tail
    apart := fun q hq => hl.apart q (.tail _ hq)
    waits := fun q hq => by
      rcases (hA q).mp hq with hq | rfl
      · exact ⟨fun h => (hl.waits q hq).1 (.tail _ h), (hl.waits q hq).2⟩
      · exact ⟨nested_head hl.nested, hl.apart q (.head _)⟩
    placed := fun q hq => by
      rw [hA q]
      rcases hl.placed q ((hu q).mp hq) with h | h | h
      · rcases List.mem_cons.mp h with rfl | h
        · exact .inr (.inr (.inr rfl))
        · exact .inl h
      · exact .inr (.inl h)
      · exact .inr (.inr (.inl h)) }

end Await

section Finish

variable {value : V}

def finish (f : Path → Option (Task V)) (p : Path) (task : Task V) (value : V) :
    Path → Option (Task V) :=
  update f p (some { task with result := some value, body := none })

theorem finish_of_ne (hne : q ≠ p) : finish f p task value q = f q := update_of_ne hne ..

theorem finish_of_body {x : Task V} {b : Body V} (h : finish f p task value q = some x)
    (hb : x.body = some b) : q ≠ p ∧ f q = some x := by
  rw [finish] at h
  rcases eq_or_ne q p with rfl | hne
  · rw [update_self] at h
    cases h
    cases hb
  · exact ⟨hne, (update_of_ne hne ..).symm.trans h⟩

theorem exists_finish (hp : f p = some task) :
    (∃ x, finish f p task value q = some x) ↔ ∃ x, f q = some x := by
  rcases eq_or_ne q p with rfl | hne
  · exact iff_of_true ⟨_, update_self ..⟩ ⟨task, hp⟩
  · rw [finish_of_ne hne]

theorem scope_finish (hp : f p = some task) : scope (finish f p task value) q = scope f q :=
  Set.ext fun _ => exists_finish hp

theorem Tree.finish (hf : Tree f) (hp : f p = some task)
    (hb : task.body = some (.coReturn value)) (hempty : scope f p = ∅) :
    Tree (finish f p task value) where
  owner j q x h := by
    have hold : j ∈ scope f q := (scope_finish hp).le ⟨x, h⟩
    obtain ⟨x', hx'⟩ := hold
    obtain ⟨owner, b, hq, hown, hlt⟩ := hf.owner j q x' hx'
    have hne : q ≠ p := by
      rintro rfl
      exact Set.notMem_empty j (hempty ▸ ⟨x', hx'⟩)
    exact ⟨owner, b, (finish_of_ne hne).trans hq, hown, hlt⟩
  inScope q x b h hxb := by
    rw [scope_finish hp]
    exact hf.inScope q x b (finish_of_body h hxb).2 hxb
  finished q x h := by
    rcases eq_or_ne q p with rfl | hne
    · cases (update_self ..).symm.trans h
      exact iff_of_true rfl (by simp)
    · exact hf.finished q x ((finish_of_ne hne).symm.trans h)
  waiting q x b r h hxb hw := by
    obtain ⟨j, k, owner, rfl, hr, hown⟩ :=
      hf.waiting q x b r (finish_of_body h hxb).2 hxb hw
    have hne : r ≠ p := by
      rintro rfl
      cases hp.symm.trans hr
      cases hb.symm.trans hown
    exact ⟨j, k, owner, rfl, (finish_of_ne hne).trans hr, hown⟩

theorem unfinished_finish :
    Unfinished (Tasks.finish f p task value) q ↔ Unfinished f q ∧ q ≠ p := by
  constructor
  · rintro ⟨x, b, hx, hxb⟩
    obtain ⟨hne, hq⟩ := finish_of_body hx hxb
    exact ⟨⟨x, b, hq, hxb⟩, hne⟩
  · rintro ⟨⟨x, b, hq, hxb⟩, hne⟩
    exact ⟨x, b, (finish_of_ne hne).trans hq, hxb⟩

theorem awaits_finish (value : V) (hf : Tree f) (hp : f p = some task)
    (hb : task.body = some body) :
    Awaits (Tasks.finish f p task value) q ↔ Awaits f q ∧ task.waiting ≠ some q := by
  constructor
  · rintro ⟨i, x, b, hx, hxb, hw⟩
    obtain ⟨hne, hq⟩ := finish_of_body hx hxb
    refine ⟨⟨i, x, b, hq, hxb, hw⟩, fun hw' => ?_⟩
    obtain ⟨j, k, owner, he, ho, hown⟩ := hf.waiting p task body q hp hb hw'
    obtain ⟨j', k', owner', he', ho', hown'⟩ := hf.waiting _ x b q hq hxb hw
    cases ho.symm.trans ho'
    cases hown.symm.trans hown'
    exact hne (he'.trans he.symm)
  · rintro ⟨⟨i, x, b, hx, hxb, hw⟩, hne⟩
    have hkid : i :: q ≠ p := by
      rintro rfl
      cases hp.symm.trans hx
      exact hne hw
    exact ⟨i, x, b, (finish_of_ne hkid).trans hx, hxb, hw⟩

theorem Tree.awaits (hf : Tree f) (hp : f p = some task) (hb : task.body = some body)
    (hw : task.waiting = some q) : ∃ i, p = i :: q ∧ Awaits f q ∧ Unfinished f q := by
  obtain ⟨i, k, owner, rfl, ho, hown⟩ := hf.waiting p task body q hp hb hw
  exact ⟨i, rfl, ⟨i, task, body, hp, hb, hw⟩, owner, _, ho, hown⟩

theorem Places.awaited (hl : Places f (p :: rest) linked) (hf : Tree f) (hp : f p = some task)
    (hb : task.body = some body) (hw : task.waiting = some q) : rest = [] := by
  obtain ⟨i, rfl, hA, -⟩ := hf.awaits hp hb hw
  cases rest with
  | nil => rfl
  | cons r rest =>
    obtain ⟨⟨j, he⟩, -⟩ := List.isChain_cons_cons.mp hl.nested
    refine absurd ?_ (hl.waits q hA).1
    rw [(List.cons.inj he).2]
    exact .tail _ (.head _)

theorem Places.finish (hl : Places f (p :: rest) linked) (hf : Tree f) (hp : f p = some task)
    (hb : task.body = some body) :
    Places (finish f p task value) (task.waiting.toList ++ rest) linked := by
  have hA (q : Path) := awaits_finish (q := q) value hf hp hb
  have hrest (q : Path) (hq : q ∈ rest) : q ≠ p := by
    rintro rfl
    exact nested_head hl.nested hq
  have hmem (q : Path) : q ∈ task.waiting.toList ++ rest ↔ task.waiting = some q ∨ q ∈ rest := by
    simp [Option.mem_toList]
  have hw (q : Path) (h : task.waiting = some q) :
      Unfinished f q ∧ q ≠ p ∧ q ∉ linked := by
    obtain ⟨i, rfl, hA, hu⟩ := hf.awaits hp hb h
    exact ⟨hu, (List.cons_ne_self i q).symm, (hl.waits q hA).2⟩
  exact {
    running := fun q hq => unfinished_finish.mpr <| by
      rcases (hmem q).mp hq with h | h
      · exact ⟨(hw q h).1, (hw q h).2.1⟩
      · exact ⟨hl.running q (.tail _ h), hrest q h⟩
    scheduled := fun q hq => unfinished_finish.mpr
      ⟨hl.scheduled q hq, fun he => hl.apart q (he ▸ .head _) hq⟩
    nodup := hl.nodup
    nested := by
      rcases h : task.waiting with _ | q
      · exact hl.nested.tail
      · rw [hl.awaited hf hp hb h]
        exact .singleton q
    apart := fun q hq => by
      rcases (hmem q).mp hq with h | h
      · exact (hw q h).2.2
      · exact hl.apart q (.tail _ h)
    waits := fun q hq => by
      obtain ⟨hold, hne⟩ := (hA q).mp hq
      refine ⟨fun h => ?_, (hl.waits q hold).2⟩
      rcases (hmem q).mp h with h | h
      · exact hne h
      · exact (hl.waits q hold).1 (.tail _ h)
    placed := fun q hq => by
      rw [hmem, hA]
      obtain ⟨hq, hne⟩ := unfinished_finish.mp hq
      rcases hl.placed q hq with h | h | h
      · exact .inl (.inr ((List.mem_cons.mp h).resolve_left hne))
      · exact .inr (.inl h)
      · by_cases hqw : task.waiting = some q
        · exact .inl (.inl hqw)
        · exact .inr (.inr ⟨h, hqw⟩) }

end Finish

end Tasks

end Corosig
