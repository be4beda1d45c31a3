import Corosig.Container.VectorResize

namespace Corosig.Container
open Custody

namespace Vector

variable {α : Type} {t : Elements α} {m m' : Memory} {v v' copies : Vector α} {e : Element α}
  {es cs : List (Element α)} {r : Except VectorError Unit} {count n k size capacity : Nat}
  {arg : Arg α} {x : α} {values : List α} {rest : List (Slot α)}

def Fits (t : Elements α) (count : Nat) : Prop := count * t.sizeof < 2 ^ 64

instance (t : Elements α) (count : Nat) : Decidable (Fits t count) :=
  inferInstanceAs (Decidable (_ < _))

theorem Fits.mono (h : Fits t count) (hle : n ≤ count) : Fits t n :=
  Nat.lt_of_le_of_lt (Nat.mul_le_mul_right _ hle) h

theorem Fits.lt (h : Fits t count) : count < 2 ^ 64 :=
  Nat.lt_of_le_of_lt (Nat.le_mul_of_pos_right _ t.sizeof_pos) h

theorem Fits.room (h : Fits t count) : room t count = count := by
  rw [Vector.room, Nat.mod_eq_of_lt h, Nat.mul_div_cancel _ t.sizeof_pos]

structure Backed (t : Elements α) (v : Vector α) : Prop where
  length : v.slots.length = v.capacity
  fits : Fits t v.capacity

theorem backed_empty (t : Elements α) : ({} : Vector α).Backed t :=
  ⟨rfl, by simp [Fits]⟩

theorem Backed.setSlots {slots : List (Slot α)} (h : v.Backed t)
    (hl : slots.length = v.slots.length) (n : Nat) :
    Backed t { v.setSlots slots with size := n } :=
  ⟨(congrArg List.length (slots_setSlots hl)).trans (hl.trans h.length), h.fits⟩

theorem reserve_total (hc : v.Contains es) (hb : v.Backed t) (hf : Fits t count) (m : Memory) :
    ∃ m' v' r, reserve t m v count = some (m', v', r) ∧ Reserved t m v es count m' v' r ∧
      v'.Backed t := by
  rcases Nat.lt_or_ge v.capacity count with hlt | hge
  · rcases ha : t.allocates m.allocations with _ | _
    · have hrun : reserve t m v count = some (refuse m, v, .error .allocation) := by
        rw [reserve, if_neg (Nat.not_le.mpr hlt)]
        simp only [allocate, ha]
        rfl
      exact ⟨_, _, _, hrun, .refused hlt ha, hb⟩
    · have hsize := hc.size_le
      obtain ⟨m', v', hrun, hres⟩ := reserve_grown hc hlt ha (by rw [hf.room]; omega)
      refine ⟨m', v', _, hrun, hres, ?_⟩
      cases hres with
      | enough hle => exact hb
      | grown _ _ _ _ _ hcap hlen =>
        rw [hf.room] at hlen
        exact ⟨hlen.trans hcap.symm, hcap ▸ hf⟩
  · exact ⟨m, v, .ok (), if_pos hge, .enough hge, hb⟩

def nextCapacity (size capacity : Nat) : Nat :=
  if size = capacity then max 16 (size * 2) else capacity

def grown (size capacity : Nat) : Nat → Nat
  | 0 => capacity
  | n + 1 => grown (size + 1) (nextCapacity size capacity) n

theorem le_nextCapacity : capacity ≤ nextCapacity size capacity := by
  rw [nextCapacity]
  split <;> omega

theorem le_grown : capacity ≤ grown size capacity n := by
  induction n generalizing size capacity with
  | zero => exact Nat.le_refl _
  | succ n ih => exact le_nextCapacity.trans ih

theorem grown_of_le (h : size + n ≤ capacity) : grown size capacity n = capacity := by
  induction n generalizing size with
  | zero => rfl
  | succ n ih =>
    rw [grown, nextCapacity, if_neg (by omega)]
    exact ih (by omega)

theorem construct_total (hc : v.Contains es) (hlt : v.size < v.slots.length) (e : Element α) :
    ∃ slots, construct v.slots v.size e = some slots := by
  obtain ⟨hsize, ⟨rest, hslots, hrest⟩, -⟩ := hc
  rw [hslots] at hlt ⊢
  cases rest with
  | nil => simp [hsize] at hlt
  | cons s rest =>
    exact ⟨_, construct_middle (hrest s List.mem_cons_self) (by rw [hsize, List.length_map])⟩

theorem grow_total (hc : v.Contains es) (hb : v.Backed t)
    (hf : Fits t (nextCapacity v.size v.capacity)) (m : Memory) :
    ∃ m' v' r, grow t m v = some (m', v', r) ∧ v'.Contains es ∧ v'.Backed t ∧
      (r = .ok () → v'.capacity = nextCapacity v.size v.capacity ∧ v'.size < v'.capacity) := by
  have hsize := hc.size_le
  rw [grow]
  split
  · rename_i hfull
    rw [nextCapacity, if_pos hfull] at hf ⊢
    have hlt := hf.lt
    rw [Nat.mod_eq_of_lt (by omega : v.size * 2 < 2 ^ 64)]
    obtain ⟨m', v', r, hrun, hres, hb'⟩ := reserve_total hc hb hf m
    have hc' := hres.contains hc
    refine ⟨m', v', r, hrun, hc', hb', ?_⟩
    rintro rfl
    have hsize' : v'.size = v.size := hc'.size.trans hc.size.symm
    cases hres with
    | enough hle => omega
    | grown _ _ _ _ _ hcap _ => exact ⟨hcap, by omega⟩
  · rename_i hnot
    rw [nextCapacity, if_neg hnot]
    exact ⟨m, v, .ok (), rfl, hc, hb, fun _ => ⟨rfl, by omega⟩⟩

theorem pushBack_total (hc : v.Contains es) (hb : v.Backed t)
    (hf : Fits t (nextCapacity v.size v.capacity)) (m : Memory) (e : Element α) :
    ∃ m' v' r, pushBack t m v e = some (m', v', r) ∧ v'.Backed t ∧
      (r = .ok () → v'.size = v.size + 1 ∧ v'.capacity = nextCapacity v.size v.capacity) := by
  obtain ⟨m₁, v₁, r, hrun, hc₁, hb₁, hok⟩ := grow_total hc hb hf m
  rw [pushBack, hrun]
  rcases r with err | ⟨⟩
  · exact ⟨m₁, v₁, .error err, rfl, hb₁, by rintro ⟨⟩⟩
  · obtain ⟨hcap, hlt⟩ := hok rfl
    obtain ⟨slots, hcon⟩ := construct_total hc₁ (hb₁.length ▸ hlt) e
    simp only [Option.bind_eq_bind, Option.bind_some, hcon]
    exact ⟨_, _, _, rfl, hb₁.setSlots (length_of_construct hcon) _,
      fun _ => ⟨by rw [hc₁.size, hc.size], hcap⟩⟩

theorem pushTemporary_total (hc : v.Contains es) (hb : v.Backed t)
    (hf : Fits t (nextCapacity v.size v.capacity)) (m : Memory) (e : Element α) :
    ∃ m' v' r, pushTemporary t m v e = some (m', v', r) ∧ v'.Backed t ∧
      (r = .ok () → v'.size = v.size + 1 ∧ v'.capacity = nextCapacity v.size v.capacity) := by
  obtain ⟨m', v', r, hrun, hb', hok⟩ := pushBack_total hc hb hf m e
  rw [pushTemporary, hrun]
  rcases r with err | ⟨⟩
  · exact ⟨_, v', .error err, rfl, hb', by rintro ⟨⟩⟩
  · exact ⟨m', v', .ok (), rfl, hb', hok⟩

theorem pushBackCopy_total (hc : v.Contains es) (hb : v.Backed t)
    (hf : Fits t (nextCapacity v.size v.capacity)) (m : Memory) (x : α) :
    ∃ m' v' r, pushBackCopy t m v x = some (m', v', r) ∧ v'.Backed t ∧
      (r = .ok () → v'.size = v.size + 1 ∧ v'.capacity = nextCapacity v.size v.capacity) := by
  rw [pushBackCopy]
  split
  · exact ⟨_, v, .error .clone, rfl, hb, by rintro ⟨⟩⟩
  · exact pushTemporary_total hc hb hf _ _

theorem pushClones_total (hc : v.Contains es) (hb : v.Backed t) {xs : List α}
    (hf : Fits t (grown v.size v.capacity xs.length)) (m : Memory) :
    ∃ m' v' r, pushClones t m v xs = some (m', v', r) ∧ v'.Backed t := by
  induction xs generalizing m v es with
  | nil => exact ⟨m, v, .ok (), rfl, hb⟩
  | cons x xs ih =>
    obtain ⟨m₁, v₁, r, hrun, hb₁, hok⟩ := pushBackCopy_total hc hb (hf.mono le_grown) m x
    obtain ⟨added, hext, -⟩ := (pushBackCopy_spec hc hrun).extended hc
    rw [pushClones, hrun]
    rcases r with err | ⟨⟩
    · exact ⟨m₁, v₁, .error err, rfl, hb₁⟩
    · obtain ⟨hsize, hcap⟩ := hok rfl
      rw [List.length_cons, grown, ← hsize, ← hcap] at hf
      exact ih hext.contains hb₁ hf m₁

end Vector

end Corosig.Container
