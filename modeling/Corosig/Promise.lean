import Corosig.Build
import Corosig.Library.OperationRuns
import Corosig.Library.Positions

namespace Corosig
open OperationRuns Positions

structure Promise.State (ν : Type) where
  value : Option ν := none
  refcount : Nat := 1
  linked : Bool := false
  deriving DecidableEq, Repr

def Promise.State.isSet {ν : Type} (state : Promise.State ν) : Bool := state.value.isSome

def Promise.State.hasAwaiter {ν : Type} (state : Promise.State ν) : Bool := state.refcount = 2

-- One shared state with the Promise and Awaiter objects that may hold a pointer to it (false for
-- a null m_state), and what has happened to it: the value passed to set, the values yielded,
-- how often it was scheduled and how often it was destroyed and deallocated.
structure Promise (ν : Type) where
  state : Option (Promise.State ν) := some {}
  promises : List Bool := [true]
  awaiters : List Bool := []
  awaited : Bool := false
  given : Option ν := none
  yielded : List ν := []
  scheduled : Nat := 0
  freed : Nat := 0
  deriving DecidableEq, Repr

namespace Promise

variable {ν : Type}

-- A deallocated state is never accessed, and a linked node never pushed.
def schedule (p : Promise ν) : Option (Promise ν) := do
  let state ← p.state
  if state.linked then none
  else some { p with state := some { state with linked := true }, scheduled := p.scheduled + 1 }

def setValue (build : Build) (p : Promise ν) (value : ν) : Option (Promise ν) := do
  let state ← p.state
  ensure build (!state.isSet)
  schedule { p with state := some { state with value := some value } }

def upref (p : Promise ν) : Option (Promise ν) := do
  let state ← p.state
  return { p with state := some { state with refcount := (state.refcount + 1) % 256 } }

def downref (p : Promise ν) : Option (Promise ν) := do
  let state ← p.state
  let refcount := (state.refcount + 255) % 256
  if refcount = 0 then return { p with state := none, freed := p.freed + 1 }
  else return { p with state := some { state with refcount } }

-- broken is Failure{BrokenPromise{}} converted to T, none where T has no such conversion.
def breakPromise (build : Build) (broken : Option ν) (p : Promise ν) (state : State ν) :
    Option (Promise ν) :=
  match broken with
  | some broken => if state.hasAwaiter then p.setValue build broken else some p
  | none => do
      ensure build (!state.hasAwaiter)
      return p

def dropPromise (build : Build) (broken : Option ν) (p : Promise ν) :
    Bool → Option (Promise ν)
  | false => some p
  | true => do
      let state ← p.state
      let p ← p.breakPromise build broken state
      p.downref

def dropAwaiter (p : Promise ν) : Bool → Option (Promise ν)
  | false => some p
  | true => p.downref

inductive Op (ν : Type) where
  | getAwaiter (i : Nat)
  | set (i : Nat) (value : ν)
  | newPromise
  | movePromise (i : Nat)
  | assignPromise (i j : Nat)
  | destroyPromise (i : Nat)
  | newAwaiter
  | moveAwaiter (i : Nat)
  | assignAwaiter (i j : Nat)
  | destroyAwaiter (i : Nat)
  | awaitResume (i : Nat)
  | turn
  deriving DecidableEq, Repr

def moved (l : List Bool) (i : Nat) : List Bool :=
  match l[i]? with
  | none => l
  | some handle => l.set i false ++ [handle]

def step (build : Build) (broken : Option ν) (p : Promise ν) : Op ν → Option (Promise ν)
  | .getAwaiter i =>
      if p.promises[i]? = some true then do
        let state ← p.state
        ensure build (!state.hasAwaiter)
        let p ← p.upref
        return { p with awaiters := p.awaiters ++ [true], awaited := true }
      else none
  | .set i value =>
      if p.promises[i]? = some true then do
        let p ← p.setValue build value
        return { p with given := p.given <|> some value }
      else none
  | .newPromise => some { p with promises := p.promises ++ [false] }
  | .movePromise i => some { p with promises := moved p.promises i }
  | .assignPromise i j =>
      match p.promises[i]?, p.promises[j]? with
      | some handle, some rhs =>
          if i = j then some p
          else do
            let dropped ← p.dropPromise build broken handle
            return { dropped with promises := (p.promises.set i rhs).set j false }
      | _, _ => some p
  | .destroyPromise i =>
      match p.promises[i]? with
      | none => some p
      | some handle => do
          let dropped ← p.dropPromise build broken handle
          return { dropped with promises := p.promises.eraseIdx i }
  | .newAwaiter => some { p with awaiters := p.awaiters ++ [false] }
  | .moveAwaiter i => some { p with awaiters := moved p.awaiters i }
  | .assignAwaiter i j =>
      match p.awaiters[i]?, p.awaiters[j]? with
      | some handle, some rhs =>
          if i = j then some p
          else do
            let dropped ← p.dropAwaiter handle
            return { dropped with awaiters := (p.awaiters.set i rhs).set j false }
      | _, _ => some p
  | .destroyAwaiter i =>
      match p.awaiters[i]? with
      | none => some p
      | some handle => do
          let dropped ← p.dropAwaiter handle
          return { dropped with awaiters := p.awaiters.eraseIdx i }
  | .awaitResume i =>
      if p.awaiters[i]? = some true then do
        let state ← p.state
        let value ← state.value
        return { p with yielded := p.yielded ++ [value] }
      else none
  | .turn =>
      match p.state with
      | none => some p
      | some state => some { p with state := some { state with linked := false } }

def dropped (p : Promise ν) : Op ν → Option Bool
  | .assignPromise i j => if i = j ∨ p.promises[j]? = none then none else p.promises[i]?
  | .destroyPromise i => p.promises[i]?
  | _ => none

-- What the documentation asks of the caller: get_awaiter and set once each on the Promise that
-- holds the state, await_resume once and after await_ready.
def Legal (p : Promise ν) : Op ν → Prop
  | .getAwaiter i => p.promises[i]? = some true ∧ p.awaited = false
  | .set i _ => p.promises[i]? = some true ∧ p.given = none
  | .awaitResume i =>
      p.awaiters[i]? = some true ∧ p.yielded = [] ∧ ∃ state ∈ p.state, state.isSet = true
  | _ => True

def Keeps (p : Promise ν) (op : Op ν) : Prop :=
  p.dropped op = some true → ∀ state ∈ p.state, ¬(state.isSet = true ∧ state.hasAwaiter = true)

instance [DecidableEq ν] (p : Promise ν) : DecidablePred p.Legal
  | .getAwaiter _ => inferInstanceAs (Decidable (_ ∧ _))
  | .set _ _ => inferInstanceAs (Decidable (_ ∧ _))
  | .awaitResume _ => inferInstanceAs (Decidable (_ ∧ _ ∧ ∃ _ ∈ _, _))
  | .newPromise => isTrue trivial
  | .movePromise _ => isTrue trivial
  | .assignPromise _ _ => isTrue trivial
  | .destroyPromise _ => isTrue trivial
  | .newAwaiter => isTrue trivial
  | .moveAwaiter _ => isTrue trivial
  | .assignAwaiter _ _ => isTrue trivial
  | .destroyAwaiter _ => isTrue trivial
  | .turn => isTrue trivial

instance (p : Promise ν) (op : Op ν) : Decidable (p.Keeps op) :=
  inferInstanceAs (Decidable (_ → ∀ _ ∈ _, _))

structure Good (broken : ν) (p : Promise ν) : Prop where
  yields : ∀ value ∈ p.yielded, p.given = some value ∨
    p.given = none ∧ value = broken ∧ true ∉ p.promises
  scheduled : p.scheduled ≤ 1
  freed : p.freed = if true ∈ p.promises ∨ true ∈ p.awaiters then 0 else 1
  deallocated : p.state = none ↔ p.freed = 1

def holders (p : Promise ν) : Nat := p.promises.count true + p.awaiters.count true

structure Shared (broken : ν) (p : Promise ν) (state : State ν) : Prop where
  refcount : state.refcount = p.holders
  held : 0 < p.holders
  freed : p.freed = 0
  scheduled : p.scheduled = if state.isSet then 1 else 0
  linked : state.linked = true → state.isSet = true
  given : ∀ value ∈ p.given, state.value = some value
  unset : p.given = none →
    state.value = none ∨ state.value = some broken ∧ p.promises.count true = 0

structure Released (p : Promise ν) : Prop where
  held : p.holders = 0
  freed : p.freed = 1
  scheduled : p.scheduled ≤ 1

structure Inv (broken : ν) (p : Promise ν) : Prop where
  promises : p.promises.count true ≤ 1
  awaiters : p.awaiters.count true ≤ if p.awaited then 1 else 0
  yields : ∀ value ∈ p.yielded, p.given = some value ∨
    p.given = none ∧ value = broken ∧ p.promises.count true = 0
  state : (∃ state, p.state = some state ∧ p.Shared broken state) ∨ (p.state = none ∧ p.Released)

variable {build : Build} {broken : ν} {p p' : Promise ν} {st : State ν} {op : Op ν}

theorem inv_init (broken : ν) : ({} : Promise ν).Inv broken where
  promises := Nat.le_refl 1
  awaiters := Nat.le_refl 0
  yields := by rintro _ ⟨⟩
  state := .inl ⟨{}, rfl, rfl, Nat.one_pos, rfl, rfl, by rintro ⟨⟩, by rintro _ ⟨⟩,
    fun _ => .inl rfl⟩

theorem Inv.good (hi : p.Inv broken) : p.Good broken := by
  obtain ⟨hp, ha, hy, hs⟩ := hi
  have hmem (l : List Bool) : true ∈ l ↔ 0 < l.count true := List.count_pos_iff.symm
  refine ⟨fun v hv => ?_, ?_, ?_, ?_⟩
  · rcases hy v hv with h | ⟨h, rfl, h0⟩
    · exact .inl h
    · exact .inr ⟨h, rfl, by rw [hmem, h0]; exact Nat.lt_irrefl 0⟩
  · rcases hs with ⟨st, -, hs⟩ | ⟨-, hs⟩
    · rw [hs.scheduled]
      split
      · exact Nat.le_refl 1
      · exact Nat.zero_le 1
    · exact hs.scheduled
  · have hpos : true ∈ p.promises ∨ true ∈ p.awaiters ↔ 0 < p.holders := by
      rw [hmem, hmem, ← Nat.add_pos_iff_pos_or_pos, holders]
    rcases hs with ⟨st, -, hs⟩ | ⟨-, hs⟩
    · rw [hs.freed, if_pos (hpos.mpr hs.held)]
    · rw [hs.freed, if_neg (fun h => Nat.lt_irrefl 0 (hs.held ▸ hpos.mp h))]
  · rcases hs with ⟨st, hst, hs⟩ | ⟨hst, hs⟩
    · simp [hst, hs.freed]
    · simp [hst, hs.freed]

theorem Inv.rearrange (hi : p.Inv broken) {promises awaiters : List Bool}
    (hp : promises.count true = p.promises.count true)
    (ha : awaiters.count true = p.awaiters.count true) :
    Inv broken { p with promises, awaiters } := by
  obtain ⟨h1, h2, h3, h4⟩ := hi
  refine ⟨hp ▸ h1, ha ▸ h2, by rw [hp]; exact h3, ?_⟩
  have hh : holders { p with promises, awaiters } = p.holders := by
    simp only [holders, hp, ha]
  rcases h4 with ⟨st, hst, hs⟩ | ⟨hst, hs⟩
  · exact .inl ⟨st, hst, by rw [hh]; exact hs.refcount, by rw [hh]; exact hs.held, hs.freed,
      hs.scheduled, hs.linked, hs.given, by rw [hp]; exact hs.unset⟩
  · exact .inr ⟨hst, by rw [hh]; exact hs.held, hs.freed, hs.scheduled⟩

theorem count_moved (l : List Bool) (i : Nat) : (moved l i).count true = l.count true := by
  rw [moved]
  split
  · rfl
  · rename_i handle hi
    have hp := (perm_set hi false).count_eq true
    simpa [List.count_cons] using hp

theorem setValue_eq (hst : p.state = some st) (hset : st.isSet = false) (hl : st.linked = false)
    (value : ν) : p.setValue build value = some { p with
      state := some { st with value := some value, linked := true }
      scheduled := p.scheduled + 1 } := by
  simp [setValue, schedule, hst, hset, hl]

theorem downref_last (hst : p.state = some st) (hr : st.refcount = 1) :
    p.downref = some { p with state := none, freed := p.freed + 1 } := by
  simp [downref, hst, hr]

theorem downref_more (hst : p.state = some st) (hr : st.refcount = 2) :
    p.downref = some { p with state := some { st with refcount := 1 } } := by
  simp [downref, hst, hr]

theorem dropPromise_alone (hst : p.state = some st) (hn : st.hasAwaiter = false) :
    p.dropPromise build (some broken) true = p.downref := by
  simp [dropPromise, breakPromise, hst, hn]

theorem dropPromise_awaited (hst : p.state = some st) (hn : st.hasAwaiter = true) :
    p.dropPromise build (some broken) true = (p.setValue build broken).bind downref := by
  simp [dropPromise, breakPromise, hst, hn]

theorem Shared.not_linked (hs : p.Shared broken st) (h : st.isSet = false) : st.linked = false := by
  cases hl : st.linked with
  | false => rfl
  | true => cases h.symm.trans (hs.linked hl)

theorem Inv.shared (hi : p.Inv broken) (h : 0 < p.holders) :
    ∃ state, p.state = some state ∧ p.Shared broken state := by
  rcases hi.state with hs | ⟨-, hs⟩
  · exact hs
  · exact absurd hs.held (Nat.ne_of_gt h)

theorem Inv.awaiters_le (hi : p.Inv broken) : p.awaiters.count true ≤ 1 := by
  have ha := hi.awaiters
  split at ha
  · exact ha
  · exact Nat.le_succ_of_le ha

theorem Shared.scheduled_le (hs : p.Shared broken st) : p.scheduled ≤ 1 := by
  rw [hs.scheduled]
  split
  · exact Nat.le_refl 1
  · exact Nat.zero_le 1

theorem inv_dropAwaiter (hi : p.Inv broken) {awaiters : List Bool}
    (ha : awaiters.count true + 1 = p.awaiters.count true) :
    ∃ p', p.dropAwaiter true = some p' ∧ Inv broken { p' with awaiters } := by
  have hheld : 0 < p.holders := by rw [holders]; omega
  obtain ⟨st, hst, hs⟩ := hi.shared hheld
  have hle := hi.awaiters_le
  have ha0 : awaiters.count true = 0 := by omega
  have hr := hs.refcount
  rw [holders] at hr
  rcases Nat.eq_zero_or_pos (p.promises.count true) with hp0 | hp0
  · refine ⟨_, downref_last hst (by omega), hi.promises, by simp [ha0], hi.yields, ?_⟩
    exact .inr ⟨rfl, by simp [holders, ha0, hp0], by simp [hs.freed], hs.scheduled_le⟩
  · have hp1 := hi.promises
    refine ⟨_, downref_more hst (by omega), hi.promises, by simp [ha0], hi.yields, ?_⟩
    refine .inl ⟨_, rfl, ?_, ?_, hs.freed, hs.scheduled, hs.linked, hs.given, hs.unset⟩
    · simp only [holders, ha0]
      omega
    · simp only [holders]
      omega

theorem inv_dropPromise (build : Build) (hi : p.Inv broken) {promises : List Bool}
    (hp : promises.count true + 1 = p.promises.count true)
    (hk : ∀ state ∈ p.state, ¬(state.isSet = true ∧ state.hasAwaiter = true)) :
    ∃ p', p.dropPromise build (some broken) true = some p' ∧
      Inv broken { p' with promises } := by
  have hheld : 0 < p.holders := by rw [holders]; omega
  obtain ⟨st, hst, hs⟩ := hi.shared hheld
  have hle := hi.promises
  have hp0 : promises.count true = 0 := by omega
  have hp1 : p.promises.count true = 1 := by omega
  have hr := hs.refcount
  rw [holders, hp1] at hr
  have hyields (value : ν) (hv : value ∈ p.yielded) : p.given = some value ∨
      p.given = none ∧ value = broken ∧ promises.count true = 0 := by
    rcases hi.yields value hv with h | ⟨-, -, h⟩
    · exact .inl h
    · omega
  rcases Nat.eq_zero_or_pos (p.awaiters.count true) with ha0 | ha0
  · have hn : st.hasAwaiter = false := by simp [State.hasAwaiter, hr, ha0]
    refine ⟨{ p with state := none, freed := p.freed + 1 }, ?_, by simp [hp0], hi.awaiters,
      hyields, ?_⟩
    · rw [dropPromise_alone hst hn]
      exact downref_last hst (by omega)
    · exact .inr ⟨rfl, by simp [holders, ha0, hp0], by simp [hs.freed], hs.scheduled_le⟩
  · have ha1 := hi.awaiters_le
    have hr2 : st.refcount = 2 := by omega
    have hn : st.hasAwaiter = true := by simp [State.hasAwaiter, hr2]
    have hset : st.isSet = false := by
      cases h : st.isSet with
      | false => rfl
      | true => exact (hk st hst ⟨h, hn⟩).elim
    have hnone : st.value = none := by simpa [State.isSet] using hset
    have hgiven : p.given = none := by
      cases hg : p.given with
      | none => rfl
      | some value => cases hnone.symm.trans (hs.given value hg)
    have hsched : p.scheduled = 0 := by rw [hs.scheduled, hset]; rfl
    refine ⟨{ p with
      state := some { value := some broken, refcount := 1, linked := true }
      scheduled := p.scheduled + 1 }, ?_, by simp [hp0], hi.awaiters, hyields, ?_⟩
    · rw [dropPromise_awaited hst hn, setValue_eq hst hset (hs.not_linked hset),
        Option.bind_some]
      simp [downref, hr2]
    · refine .inl ⟨_, rfl, ?_, ?_, hs.freed, ?_, fun _ => rfl, ?_, fun _ => .inr ⟨rfl, hp0⟩⟩
      · simp only [holders, hp0]
        omega
      · simp only [holders]
        omega
      · simp [hsched, State.isSet]
      · intro value hv
        cases hgiven.symm.trans hv

theorem scheduled_of_schedule (h : p.schedule = some p') : p'.scheduled = p.scheduled + 1 := by
  obtain ⟨st, -, h⟩ := Option.bind_eq_some_iff.mp h
  split at h
  · cases h
  · cases h
    rfl

theorem scheduled_of_setValue {value : ν} (h : p.setValue build value = some p') :
    p'.scheduled = p.scheduled + 1 := by
  obtain ⟨st, -, h⟩ := Option.bind_eq_some_iff.mp h
  obtain ⟨_, -, h⟩ := Option.bind_eq_some_iff.mp h
  have hs := scheduled_of_schedule h
  exact hs

theorem scheduled_of_downref (h : p.downref = some p') : p'.scheduled = p.scheduled := by
  obtain ⟨st, -, h⟩ := Option.bind_eq_some_iff.mp h
  dsimp only at h
  split at h
  · cases h
    rfl
  · cases h
    rfl

theorem scheduled_of_dropPromise (hs : p.Shared broken st) (hst : p.state = some st)
    (hset : st.isSet = true) (hn : st.hasAwaiter = true)
    (h : p.dropPromise build (some broken) true = some p') : p'.scheduled = 2 := by
  rw [dropPromise_awaited hst hn] at h
  obtain ⟨p₁, h₁, h₂⟩ := Option.bind_eq_some_iff.mp h
  rw [scheduled_of_downref h₂, scheduled_of_setValue h₁, hs.scheduled, hset]
  rfl

theorem dropped_cases (build : Build) (broken : ν) (hd : p.dropped op = some true) :
    ∃ promises, promises.count true + 1 = p.promises.count true ∧
      p.step build (some broken) op =
        (p.dropPromise build (some broken) true).map fun p' => { p' with promises } := by
  cases op with
  | assignPromise i j =>
    rw [dropped] at hd
    split at hd
    · cases hd
    · rename_i hn
      obtain ⟨hne, hj⟩ := not_or.mp hn
      obtain ⟨rhs, hj⟩ := Option.ne_none_iff_exists'.mp hj
      refine ⟨(p.promises.set i rhs).set j false, ?_, ?_⟩
      · have hp := (perm_move hd hj hne false).count_eq true
        simpa [List.count_cons] using hp
      · simp only [step, hd, hj, if_neg hne]
        cases dropPromise build (some broken) p true <;> rfl
  | destroyPromise i =>
    refine ⟨p.promises.eraseIdx i, ?_, ?_⟩
    · have hp := (perm_eraseIdx hd).count_eq true
      simpa [List.count_cons] using hp
    · have hi : p.promises[i]? = some true := hd
      simp only [step, hi]
      cases dropPromise build (some broken) p true <;> rfl
  | _ => cases hd

theorem count_pos {l : List Bool} {i : Nat} (h : l[i]? = some true) : 0 < l.count true :=
  List.count_pos_iff.mpr (List.mem_of_getElem? h)

theorem count_eraseIdx {l : List Bool} {i : Nat} {handle : Bool} (h : l[i]? = some handle) :
    (l.eraseIdx i).count true + handle.toNat = l.count true := by
  have hp := (perm_eraseIdx h).count_eq true
  cases handle <;> simpa [List.count_cons] using hp

theorem count_move {l : List Bool} {i j : Nat} {handle rhs : Bool} (hi : l[i]? = some handle)
    (hj : l[j]? = some rhs) (hne : i ≠ j) :
    ((l.set i rhs).set j false).count true + handle.toNat = l.count true := by
  have hp := (perm_move hi hj hne false).count_eq true
  cases handle <;> simpa [List.count_cons] using hp

theorem inv_getAwaiter {i : Nat} (hi : p.Inv broken) (hm : p.promises[i]? = some true)
    (hn : p.awaited = false) :
    ∃ p', p.step build (some broken) (.getAwaiter i) = some p' ∧ p'.Inv broken := by
  have hpos := count_pos hm
  have hle := hi.promises
  have ha := hi.awaiters
  rw [hn] at ha
  simp only [Bool.false_eq_true, if_false, Nat.le_zero] at ha
  obtain ⟨st, hst, hs⟩ := hi.shared (by rw [holders]; omega)
  have hr := hs.refcount
  rw [holders] at hr
  have hr1 : st.refcount = 1 := by omega
  refine ⟨{ p with
    state := some { st with refcount := 2 }
    awaiters := p.awaiters ++ [true]
    awaited := true }, ?_, hi.promises, ?_, hi.yields, ?_⟩
  · simp [step, upref, hm, hst, hr1, State.hasAwaiter]
  · simp [ha]
  · refine .inl ⟨_, rfl, ?_, ?_, hs.freed, hs.scheduled, hs.linked, hs.given, hs.unset⟩
    · simp only [holders, List.count_append, List.count_singleton_self]
      omega
    · simp only [holders]
      omega

theorem inv_set {i : Nat} {value : ν} (hi : p.Inv broken) (hm : p.promises[i]? = some true)
    (hn : p.given = none) :
    ∃ p', p.step build (some broken) (.set i value) = some p' ∧ p'.Inv broken := by
  have hpos := count_pos hm
  obtain ⟨st, hst, hs⟩ := hi.shared (by rw [holders]; omega)
  have hnone : st.value = none := by
    rcases hs.unset hn with h | ⟨-, h⟩
    · exact h
    · omega
  have hset : st.isSet = false := by simp [State.isSet, hnone]
  refine ⟨{ p with
    state := some { st with value := some value, linked := true }
    scheduled := p.scheduled + 1, given := some value }, ?_, hi.promises, hi.awaiters, ?_, ?_⟩
  · simp [step, hm, setValue_eq hst hset (hs.not_linked hset), hn]
  · intro v hv
    rcases hi.yields v hv with h | ⟨-, -, h⟩
    · cases hn.symm.trans h
    · omega
  · refine .inl ⟨_, rfl, hs.refcount, hs.held, hs.freed, ?_, fun _ => rfl, ?_, by rintro ⟨⟩⟩
    · simp only [hs.scheduled, hset]
      rfl
    · rintro v ⟨⟩
      rfl

theorem inv_awaitResume {i : Nat} (hi : p.Inv broken) (hm : p.awaiters[i]? = some true)
    (hset : ∃ state ∈ p.state, state.isSet = true) :
    ∃ p', p.step build (some broken) (.awaitResume i) = some p' ∧ p'.Inv broken := by
  obtain ⟨st, hst, hset⟩ := hset
  have hst : p.state = some st := hst
  obtain ⟨st', hst', hs⟩ := hi.shared (by have := count_pos hm; rw [holders]; omega)
  cases hst.symm.trans hst'
  obtain ⟨value, hv⟩ := Option.isSome_iff_exists.mp hset
  refine ⟨{ p with yielded := p.yielded ++ [value] }, ?_, hi.promises, hi.awaiters, ?_, ?_⟩
  · simp [step, hm, hst, hv]
  · intro v hmem
    rcases List.mem_append.mp hmem with hmem | hmem
    · exact hi.yields v hmem
    · rw [List.mem_singleton.mp hmem]
      rcases Option.eq_none_or_eq_some p.given with hg | ⟨w, hg⟩
      · rcases hs.unset hg with h | ⟨h, h0⟩
        · cases h.symm.trans hv
        · exact .inr ⟨hg, Option.some.inj (hv.symm.trans h), h0⟩
      · exact .inl (hg.trans ((hs.given w hg).symm.trans hv))
  · exact .inl ⟨st, hst, hs.refcount, hs.held, hs.freed, hs.scheduled, hs.linked, hs.given,
      hs.unset⟩

theorem inv_turn (hi : p.Inv broken) :
    ∃ p', p.step build (some broken) .turn = some p' ∧ p'.Inv broken := by
  rcases hi.state with ⟨st, hst, hs⟩ | ⟨hst, hs⟩
  · refine ⟨{ p with state := some { st with linked := false } }, by simp [step, hst],
      hi.promises, hi.awaiters, hi.yields, .inl ⟨_, rfl, hs.refcount, hs.held, hs.freed,
        hs.scheduled, by rintro ⟨⟩, hs.given, hs.unset⟩⟩
  · exact ⟨p, by simp [step, hst], hi⟩

theorem inv_step (hi : p.Inv broken) (hl : p.Legal op) (hk : p.Keeps op) :
    ∃ p', p.step build (some broken) op = some p' ∧ p'.Inv broken := by
  by_cases hd : p.dropped op = some true
  · obtain ⟨promises, hcount, hstep⟩ := dropped_cases build broken hd
    obtain ⟨p', hp', hi'⟩ := inv_dropPromise build hi hcount (hk hd)
    exact ⟨_, by rw [hstep, hp']; rfl, hi'⟩
  cases op with
  | getAwaiter i => exact inv_getAwaiter hi hl.1 hl.2
  | set i value => exact inv_set hi hl.1 hl.2
  | newPromise => exact ⟨_, rfl, hi.rearrange (by simp) rfl⟩
  | movePromise i => exact ⟨_, rfl, hi.rearrange (count_moved _ i) rfl⟩
  | assignPromise i j =>
    rw [step]
    split
    · rename_i handle rhs hpi hpj
      split
      · exact ⟨p, rfl, hi⟩
      · rename_i hne
        cases handle with
        | false => exact ⟨_, rfl, hi.rearrange (count_move hpi hpj hne) rfl⟩
        | true => exact (hd (by simp [dropped, hne, hpi, hpj])).elim
    · exact ⟨p, rfl, hi⟩
  | destroyPromise i =>
    rw [step]
    split
    · exact ⟨p, rfl, hi⟩
    · rename_i handle hpi
      cases handle with
      | false => exact ⟨_, rfl, hi.rearrange (count_eraseIdx hpi) rfl⟩
      | true => exact (hd hpi).elim
  | newAwaiter => exact ⟨_, rfl, hi.rearrange rfl (by simp)⟩
  | moveAwaiter i => exact ⟨_, rfl, hi.rearrange rfl (count_moved _ i)⟩
  | assignAwaiter i j =>
    rw [step]
    split
    · rename_i handle rhs hpi hpj
      split
      · exact ⟨p, rfl, hi⟩
      · rename_i hne
        cases handle with
        | false => exact ⟨_, rfl, hi.rearrange rfl (count_move hpi hpj hne)⟩
        | true =>
          obtain ⟨p', hp', hi'⟩ := inv_dropAwaiter hi (count_move hpi hpj hne)
          exact ⟨_, by rw [hp']; rfl, hi'⟩
    · exact ⟨p, rfl, hi⟩
  | destroyAwaiter i =>
    rw [step]
    split
    · exact ⟨p, rfl, hi⟩
    · rename_i handle hpi
      cases handle with
      | false => exact ⟨_, rfl, hi.rearrange rfl (count_eraseIdx hpi)⟩
      | true =>
        obtain ⟨p', hp', hi'⟩ := inv_dropAwaiter hi (count_eraseIdx hpi)
        exact ⟨_, by rw [hp']; rfl, hi'⟩
  | awaitResume i => exact inv_awaitResume hi hl.1 hl.2.2
  | turn => exact inv_turn hi

theorem keeps_of_good (hi : p.Inv broken) (hs : p.step build (some broken) op = some p')
    (hg : p'.Good broken) : p.Keeps op := by
  rintro hd st hst ⟨hset, hn⟩
  obtain ⟨promises, hcount, hstep⟩ := dropped_cases build broken hd
  obtain ⟨st', hst', hshared⟩ := hi.shared (by rw [holders]; omega)
  cases Option.mem_def.mp hst ▸ hst'
  rw [hstep] at hs
  obtain ⟨p₁, h₁, rfl⟩ := Option.map_eq_some_iff.mp hs
  have htwo := scheduled_of_dropPromise hshared hst hset hn h₁
  have hone := hg.scheduled
  simp only [htwo] at hone
  omega

theorem good_iff (build : Build) (broken : ν) (ops : List (Op ν))
    (hl : Along (step build (some broken)) Legal {} ops) :
    Steadily (step build (some broken)) (Good broken) {} ops ↔
      Along (step build (some broken)) Keeps {} ops :=
  steadily_iff (J := Inv broken) (fun _ => Inv.good) (fun _ _ => inv_step)
    (fun _ _ _ hi _ hs hg => keeps_of_good hi hs hg) (inv_init broken) ops hl

theorem good_of_awaited :
    Steadily (step .debug (some none)) (Good none) ({} : Promise (Option Nat))
      [.getAwaiter 0, .set 0 (some 42), .movePromise 0, .turn, .awaitResume 0,
        .destroyAwaiter 0, .destroyPromise 1] :=
  (good_iff .debug none _ (by decide)).mpr (by decide)

theorem not_good_of_dropped :
    Along (step .release (some none)) Legal ({} : Promise (Option Nat))
        [.getAwaiter 0, .set 0 (some 42), .turn, .destroyPromise 0, .awaitResume 0] ∧
      ¬Steadily (step .release (some none)) (Good none) ({} : Promise (Option Nat))
        [.getAwaiter 0, .set 0 (some 42), .turn, .destroyPromise 0, .awaitResume 0] := by
  refine ⟨by decide, fun h => ?_⟩
  obtain ⟨p', hp, hg⟩ := h.last
  cases hp
  exact absurd hg.scheduled (by decide)

end Promise

end Corosig
