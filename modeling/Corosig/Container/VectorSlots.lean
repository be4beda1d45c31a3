import Corosig.Container.Vector
import Mathlib.Data.List.Basic

namespace Corosig.Container
open Custody

def Slot.vacant {α : Type} : Slot α → Bool
  | .live _ => false
  | _ => true

def Slot.built {α : Type} : Slot α → Bool
  | .raw => false
  | _ => true

namespace Vector

variable {α : Type} {t : Elements α} {m m' : Memory} {v v' : Vector α} {e : Element α}
  {es cs : List (Element α)} {slots slots' pre post rest : List (Slot α)} {s : Slot α} {i n : Nat}

abbrev ids (es : List (Element α)) : List Nat := es.map (·.id)

def owned (slots : List (Slot α)) : List (Element α) :=
  slots.filterMap fun
    | .live e => some e
    | _ => none

@[simp] theorem owned_live (es : List (Element α)) : owned (es.map .live) = es := by
  induction es with
  | nil => rfl
  | cons e es ih => rw [List.map_cons, owned, List.filterMap_cons]; exact congrArg (e :: ·) ih

@[simp] theorem owned_shells (n : Nat) : owned (List.replicate n (.shell : Slot α)) = [] := by
  induction n with
  | zero => rfl
  | succ n _ => simp [owned]

@[simp] theorem owned_append (slots slots' : List (Slot α)) :
    owned (slots ++ slots') = owned slots ++ owned slots' := by
  simp [owned]

def buffers (v : Vector α) : List Nat := (v.data.map (·.id)).toList

@[simp] theorem buffers_setSlots (v : Vector α) (slots : List (Slot α)) :
    (v.setSlots slots).buffers = v.buffers := by
  cases h : v.data <;> simp [buffers, setSlots, h]

theorem buffers_resized (v : Vector α) (slots : List (Slot α)) (n : Nat) :
    buffers { v.setSlots slots with size := n } = v.buffers := buffers_setSlots v slots

@[simp] theorem size_setSlots (v : Vector α) (slots : List (Slot α)) :
    (v.setSlots slots).size = v.size := rfl

theorem slots_setSlots (h : slots.length = v.slots.length) : (v.setSlots slots).slots = slots := by
  cases hd : v.data with
  | none =>
    have hl : slots = [] := List.length_eq_zero_iff.mp (by simpa [Vector.slots, hd] using h)
    simp [Vector.slots, setSlots, hd, hl]
  | some b => simp [Vector.slots, setSlots, hd]

theorem getElem?_middle (pre post : List (Slot α)) (s : Slot α) :
    (pre ++ s :: post)[pre.length]? = some s := by
  simp

theorem set_middle (pre post : List (Slot α)) (s s' : Slot α) :
    (pre ++ s :: post).set pre.length s' = pre ++ s' :: post := by
  simp

theorem construct_middle (hs : s.vacant = true) (hi : pre.length = i) :
    construct (pre ++ s :: post) i e = some (pre ++ .live e :: post) := by
  subst hi
  rw [construct, getElem?_middle]
  cases s with
  | live _ => cases hs
  | raw => rw [set_middle]
  | shell => rw [set_middle]

theorem moveOut_middle (hi : pre.length = i) :
    moveOut (pre ++ .live e :: post) i = some (e, pre ++ .shell :: post) := by
  subst hi
  rw [moveOut, getElem?_middle]
  simp only [set_middle]

theorem construct_cases (h : construct slots i e = some slots') :
    ∃ pre s post, slots = pre ++ s :: post ∧ pre.length = i ∧ s.vacant = true ∧
      slots' = pre ++ .live e :: post := by
  rw [construct] at h
  rcases hs : slots[i]? with _ | s
  · rw [hs] at h
    cases h
  · obtain ⟨hi, rfl⟩ := List.getElem?_eq_some_iff.mp hs
    have hsplit : slots = slots.take i ++ slots[i] :: slots.drop (i + 1) := by
      rw [← List.drop_eq_getElem_cons hi, List.take_append_drop]
    have hl : (slots.take i).length = i := List.length_take_of_le (Nat.le_of_lt hi)
    have hset (s' : Slot α) : slots.set i s' = slots.take i ++ s' :: slots.drop (i + 1) :=
      List.set_eq_take_append_cons_drop ▸ if_pos hi
    rw [hs] at h
    refine ⟨_, _, _, hsplit, hl, ?_, ?_⟩
    · cases hcell : slots[i] with
      | live _ =>
        rw [hcell] at h
        cases h
      | raw => rfl
      | shell => rfl
    · cases hcell : slots[i] with
      | live _ =>
        rw [hcell] at h
        cases h
      | raw =>
        rw [hcell] at h
        cases h
        exact hset _
      | shell =>
        rw [hcell] at h
        cases h
        exact hset _

theorem lt_of_construct (h : construct slots i e = some slots') : i < slots.length := by
  obtain ⟨pre, s, post, rfl, rfl, -, -⟩ := construct_cases h
  simp

theorem length_of_construct (h : construct slots i e = some slots') :
    slots'.length = slots.length := by
  obtain ⟨pre, s, post, rfl, -, -, rfl⟩ := construct_cases h
  simp

def ended (m : Memory) : Slot α → Memory
  | .live e => discard m e
  | _ => m

theorem destroy_middle (hs : s.built = true) (hi : pre.length = i) :
    destroy m (pre ++ s :: post) i = some (ended m s, pre ++ .raw :: post) := by
  subst hi
  rw [destroy, getElem?_middle]
  cases s with
  | raw => cases hs
  | live e => simp only [set_middle]; rfl
  | shell => simp only [set_middle]; rfl

structure Contains (v : Vector α) (es : List (Element α)) : Prop where
  size : v.size = es.length
  slots : ∃ rest, v.slots = es.map .live ++ rest ∧ ∀ s ∈ rest, s.vacant = true
  room : v.slots.length ≤ v.capacity

theorem contains_empty : ({} : Vector α).Contains [] :=
  ⟨rfl, ⟨[], rfl, by rintro _ ⟨⟩⟩, Nat.le_refl 0⟩

theorem Contains.size_le (h : v.Contains es) : v.size ≤ v.capacity := by
  obtain ⟨hs, ⟨rest, hr, -⟩, hroom⟩ := h
  rw [hr, List.length_append, List.length_map, ← hs] at hroom
  omega

theorem Contains.le_slots (h : v.Contains es) : v.size ≤ v.slots.length := by
  obtain ⟨hsize, ⟨rest, hslots, -⟩, -⟩ := h
  rw [hslots, List.length_append, List.length_map]
  omega

theorem Contains.take (h : v.Contains es) : v.slots.take v.size = es.map .live := by
  obtain ⟨hs, ⟨rest, hr, -⟩, -⟩ := h
  rw [hr, hs]
  simp

theorem moveAll_spec (es : List (Element α)) (dst : List (Slot α)) (hd : dst.length = es.length)
    (hv : ∀ s ∈ dst, s.vacant = true) (rest rest' : List (Slot α)) :
    moveAll (es.map .live ++ rest) (dst ++ rest') es.length =
      some (List.replicate es.length .shell ++ rest, es.map .live ++ rest') := by
  induction es using List.reverseRecOn generalizing dst rest rest' with
  | nil =>
    rw [List.length_eq_zero_iff.mp hd]
    rfl
  | append_singleton es e ih =>
    rcases List.eq_nil_or_concat' dst with rfl | ⟨dst, s, rfl⟩
    · simp at hd
    simp only [List.length_append, List.length_singleton, Nat.add_right_cancel_iff] at hd
    have hs : s.vacant = true := hv s (by simp)
    have hrest : ∀ s ∈ dst, s.vacant = true := fun s hs => hv s (by simp [hs])
    have hih := ih dst hd hrest (.live e :: rest) (s :: rest')
    rw [List.length_append, List.length_singleton, moveAll, List.map_append, List.append_assoc,
      List.append_assoc]
    simp only [List.map_cons, List.map_nil, List.singleton_append] at hih ⊢
    rw [hih]
    simp only [Option.bind_eq_bind, Option.bind_some]
    rw [moveOut_middle (by simp)]
    simp only [Option.bind_some]
    rw [construct_middle hs (by simp)]
    simp [List.replicate_succ', List.append_assoc]

theorem length_of_moveOut (h : moveOut slots i = some (e, slots')) :
    slots'.length = slots.length := by
  rw [moveOut] at h
  split at h
  · cases h
    exact List.length_set ..
  · cases h

theorem lt_of_moveOut (h : moveOut slots i = some (e, slots')) : i < slots.length := by
  rw [moveOut] at h
  split at h
  · rename_i hat
    exact (List.getElem?_eq_some_iff.mp hat).1
  · cases h

theorem length_of_moveAll {src dst src' dst' : List (Slot α)}
    (h : moveAll src dst n = some (src', dst')) : n ≤ dst.length ∧ dst'.length = dst.length := by
  induction n generalizing src' dst' with
  | zero =>
    cases h
    exact ⟨Nat.zero_le _, rfl⟩
  | succ n ih =>
    obtain ⟨⟨src₁, dst₁⟩, h₁, h⟩ := Option.bind_eq_some_iff.mp h
    obtain ⟨⟨e, src₂⟩, -, h⟩ := Option.bind_eq_some_iff.mp h
    obtain ⟨dst₂, h₂, h⟩ := Option.bind_eq_some_iff.mp h
    cases h
    obtain ⟨hle, hl⟩ := ih h₁
    have hlt := lt_of_construct h₂
    exact ⟨by omega, (length_of_construct h₂).trans hl⟩

theorem passes_ended (m : Memory) (s : Slot α) (l : List Nat) :
    Passes m.elements (ended m s).elements (ids (owned [s]) ++ l) l := by
  cases s with
  | live e => exact passes_retire m.elements e.id l
  | raw => exact passes_refl _ _
  | shell => exact passes_refl _ _

structure SameCalls (m m' : Memory) : Prop where
  allocations : m'.allocations = m.allocations
  cloned : m'.cloned = m.cloned
  buffers : m'.buffers = m.buffers

theorem sameCalls_ended (m : Memory) (s : Slot α) : SameCalls m (ended m s) := by
  cases s <;> exact ⟨rfl, rfl, rfl⟩

theorem popTimes_spec (ss tail rest : List (Slot α)) (hslots : v.slots = ss ++ tail ++ rest)
    (hsize : v.size = ss.length + tail.length) (hb : ∀ s ∈ tail, s.built = true)
    (m : Memory) :
    ∃ m' v', popTimes m v tail.length = some (m', v') ∧
      v'.slots = ss ++ List.replicate tail.length .raw ++ rest ∧ v'.size = ss.length ∧
      v'.capacity = v.capacity ∧ v'.buffers = v.buffers ∧ SameCalls m m' ∧
      ∀ l, Passes m.elements m'.elements (ids (owned tail) ++ l) l := by
  induction tail using List.reverseRecOn generalizing v m rest with
  | nil =>
    exact ⟨m, v, rfl, hslots, hsize, rfl, rfl, ⟨rfl, rfl, rfl⟩, passes_refl _⟩
  | append_singleton tail s ih =>
    have hs : s.built = true := hb s (by simp)
    have hslots' : v.slots = (ss ++ tail) ++ s :: rest := by simp [hslots]
    have hsize' : v.size = (ss ++ tail).length + 1 := by
      simp only [hsize, List.length_append, List.length_singleton, Nat.add_assoc]
    have hset : (v.setSlots ((ss ++ tail) ++ .raw :: rest)).slots = (ss ++ tail) ++ .raw :: rest :=
      slots_setSlots (by simp [hslots'])
    have hpop : popBack m v = some (ended m s,
        { v.setSlots ((ss ++ tail) ++ .raw :: rest) with size := (ss ++ tail).length }) := by
      rw [popBack]
      simp only [hsize', hslots', destroy_middle hs rfl]
      rfl
    obtain ⟨m', v', hrun, h1, h2, h3, h4, h5, h6⟩ := ih
      (v := { v.setSlots ((ss ++ tail) ++ .raw :: rest) with size := (ss ++ tail).length })
      (.raw :: rest) hset (by simp) (fun s hs => hb s (by simp [hs])) (ended m s)
    refine ⟨m', v', ?_, ?_, h2, h3, ?_, ?_, fun l => ?_⟩
    · rw [List.length_append, List.length_singleton, popTimes, hpop]
      exact hrun
    · rw [h1]
      simp [List.replicate_succ']
    · rw [h4]
      exact buffers_setSlots v _
    · have hcalls := sameCalls_ended m s
      exact ⟨h5.allocations.trans hcalls.allocations, h5.cloned.trans hcalls.cloned,
        h5.buffers.trans hcalls.buffers⟩
    · have hlast := passes_ended m s (ids (owned tail) ++ l)
      refine (hlast.perm ?_ (.refl _)).trans (h6 l)
      rw [owned_append, ids, List.map_append, List.append_assoc]
      exact List.perm_append_comm_assoc _ _ _

theorem drop_spec (ss : List (Slot α)) (hslots : v.slots = ss ++ rest) (hsize : v.size = ss.length)
    (hb : ∀ s ∈ ss, s.built = true) (m : Memory) :
    ∃ m', drop m v = some m' ∧ m'.allocations = m.allocations ∧ m'.cloned = m.cloned ∧
      (∀ l, Passes m.elements m'.elements (ids (owned ss) ++ l) l) ∧
      ∀ l, Passes m.buffers m'.buffers (v.buffers ++ l) l := by
  obtain ⟨m', v', hrun, -, -, -, hbuf, hcalls, hp⟩ := popTimes_spec (v := v) [] ss rest
    hslots (by simpa using hsize) hb m
  refine ⟨deallocate m' v'.data, ?_, ?_, ?_, fun l => ?_, fun l => ?_⟩
  · rw [drop, clear, hsize, hrun]
    rfl
  · cases v'.data <;> exact hcalls.allocations
  · cases v'.data <;> exact hcalls.cloned
  · cases v'.data <;> exact hp l
  · rw [← hbuf, ← hcalls.buffers]
    cases hd : v'.data with
    | none => simpa [deallocate, buffers, hd] using passes_refl m'.buffers l
    | some b => simpa [deallocate, buffers, hd] using passes_retire m'.buffers b.id l

theorem Contains.drop (h : v.Contains es) (m : Memory) :
    ∃ m', v.drop m = some m' ∧ m'.allocations = m.allocations ∧ m'.cloned = m.cloned ∧
      (∀ l, Passes m.elements m'.elements (ids es ++ l) l) ∧
      ∀ l, Passes m.buffers m'.buffers (v.buffers ++ l) l := by
  obtain ⟨hsize, ⟨rest, hslots, -⟩, -⟩ := h
  have hb : ∀ s ∈ es.map Slot.live, s.built = true := by
    intro s hs
    obtain ⟨e, -, rfl⟩ := List.mem_map.mp hs
    rfl
  have hspec := drop_spec (es.map .live) hslots (by simpa using hsize) hb m
  rwa [owned_live] at hspec

theorem Contains.popTimes (h : v.Contains (es ++ cs)) (m : Memory) :
    ∃ m' v', v.popTimes m cs.length = some (m', v') ∧ v'.Contains es ∧
      v'.capacity = v.capacity ∧ v'.slots.length = v.slots.length ∧ v'.buffers = v.buffers ∧
      SameCalls m m' ∧ ∀ l, Passes m.elements m'.elements (ids cs ++ l) l := by
  obtain ⟨hsize, ⟨rest, hslots, hrest⟩, hroom⟩ := h
  have hb : ∀ s ∈ cs.map Slot.live, s.built = true := by
    intro s hs
    obtain ⟨e, -, rfl⟩ := List.mem_map.mp hs
    rfl
  obtain ⟨m', v', hrun, h1, h2, h3, h4, h5, h6⟩ := popTimes_spec (v := v) (es.map .live)
    (cs.map .live) rest (by simpa using hslots) (by simpa using hsize) hb m
  have hl : v'.slots.length = v.slots.length := by simp [h1, hslots]
  rw [List.length_map] at hrun h1
  rw [owned_live] at h6
  refine ⟨m', v', hrun, ⟨by simpa using h2, ⟨_, h1.trans (List.append_assoc ..), ?_⟩, ?_⟩, h3, hl,
    h4, h5, h6⟩
  · intro s hs
    rcases List.mem_append.mp hs with hs | hs
    · rw [List.eq_of_mem_replicate hs]
      rfl
    · exact hrest s hs
  · rw [hl, h3]
    exact hroom

theorem Contains.popTo (h : v.Contains es) (m : Memory) (count : Nat) :
    ∃ m' v', v.popTimes m (v.size - count) = some (m', v') ∧ v'.Contains (es.take count) ∧
      v'.capacity = v.capacity ∧ v'.slots.length = v.slots.length ∧ v'.buffers = v.buffers ∧
      SameCalls m m' ∧
      ∀ l, Passes m.elements m'.elements (ids es ++ l) (ids (es.take count) ++ l) := by
  have hall : es = es.take count ++ es.drop count := (List.take_append_drop count es).symm
  have hdrop : (es.drop count).length = v.size - count := by rw [List.length_drop, h.size]
  have hids : ids es = ids (es.take count) ++ ids (es.drop count) := by
    rw [ids, ids, ids, ← List.map_append, ← hall]
  obtain ⟨m', v', hrun, hc, hcap, hlen, hbuf, hcalls, hp⟩ := (hall ▸ h :
    v.Contains (es.take count ++ es.drop count)).popTimes m
  rw [hdrop] at hrun
  refine ⟨m', v', hrun, hc, hcap, hlen, hbuf, hcalls, fun l => ?_⟩
  refine (hp (ids (es.take count) ++ l)).perm ?_ (.refl _)
  rw [hids, List.append_assoc]
  exact List.perm_append_comm_assoc _ _ _

end Vector

end Corosig.Container
