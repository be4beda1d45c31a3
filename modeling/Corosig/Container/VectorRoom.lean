import Corosig.Container.VectorInPlace

namespace Corosig.Container
open Custody

-- The adapter asks for sizeof(value_type) * n bytes; the objects that fit in them are its result.
def StdAllocator.allocate {α : Type} (t : Elements α) (m : Memory) (n : Nat) :
    Memory × Option (Buffer α) :=
  let m' := { m with allocations := m.allocations + 1 }
  if t.allocates m.allocations then
    ({ m' with buffers := m.buffers.issue },
      some ⟨m.buffers.next, List.replicate (t.sizeof * n % 2 ^ 64 / t.sizeof) .raw⟩)
  else (m', none)

namespace Vector

variable {α : Type} {t : Elements α} {m : Memory} {v : Vector α} {es : List (Element α)}
  {count n : Nat}

theorem fits_iff_le_room : Fits t count ↔ count ≤ room t count := by
  constructor
  · intro h
    exact Nat.le_of_eq h.room.symm
  · intro h
    by_contra hwrap
    have hbytes : count * t.sizeof % 2 ^ 64 < t.sizeof * count := by
      rw [Nat.mul_comm t.sizeof]
      exact (Nat.mod_lt _ (Nat.two_pow_pos 64)).trans_le (Nat.not_lt.mp hwrap)
    exact Nat.not_le.mpr (Nat.div_lt_of_lt_mul hbytes) h

theorem stdAllocate_eq (t : Elements α) (m : Memory) (n : Nat) :
    StdAllocator.allocate t m n = allocate t m n := by
  rw [StdAllocator.allocate, allocate, Nat.mul_comm]

def ReservesRoom (t : Elements α) (m : Memory) (v : Vector α) (count : Nat) : Prop :=
  ∃ m' v' r, reserve t m v count = some (m', v', r) ∧ (r = .ok () → count ≤ v'.slots.length)

def AllocatesRoom (t : Elements α) (m : Memory) (n : Nat) : Prop :=
  ∀ b, (StdAllocator.allocate t m n).2 = some b → n ≤ b.slots.length

theorem allocatesRoom_iff :
    AllocatesRoom t m n ↔ t.allocates m.allocations = false ∨ Fits t n := by
  rw [AllocatesRoom, stdAllocate_eq, allocate]
  rcases ha : t.allocates m.allocations with _ | _
  · exact iff_of_true (by rintro b ⟨⟩) (.inl rfl)
  · rw [or_iff_right (by decide), fits_iff_le_room]
    constructor
    · intro h
      have hlen := h _ rfl
      rwa [List.length_replicate] at hlen
    · rintro h b ⟨⟩
      rwa [List.length_replicate]

theorem reservesRoom_iff (hc : v.Contains es) :
    ReservesRoom t m v count ↔
      if count ≤ v.capacity then count ≤ v.slots.length
      else t.allocates m.allocations = false ∨ Fits t count := by
  have hsize := hc.size_le
  rcases reserve_cases hc t m count with
    ⟨hlt, ha, hres⟩ | ⟨hgiven, ⟨hres, hlt, hr⟩ | ⟨m', v', hres, -, -, hlen⟩⟩
  · rw [if_neg (Nat.not_le.mpr hlt)]
    exact iff_of_true ⟨_, _, _, hres, by rintro ⟨⟩⟩ (.inl ha)
  · rw [if_neg (Nat.not_le.mpr hlt), fits_iff_le_room]
    refine iff_of_false ?_ ?_
    · rintro ⟨m', v', r, hrun, -⟩
      cases hres.symm.trans hrun
    · rintro (ha | hroom)
      · exact hgiven ⟨hlt, ha⟩
      · omega
  · have hroom : ReservesRoom t m v count ↔ count ≤ v'.slots.length := by
      constructor
      · rintro ⟨m₁, v₁, r, hrun, hok⟩
        cases hres.symm.trans hrun
        exact hok rfl
      · intro hle
        exact ⟨m', v', _, hres, fun _ => hle⟩
    rw [hroom, hlen]
    split
    · rfl
    · rename_i hgrow
      rw [fits_iff_le_room, or_iff_right fun ha => hgiven ⟨Nat.not_le.mp hgrow, ha⟩]

theorem room_iff (t : Elements α) (m : Memory) (count n : Nat) (hc : v.Contains es) :
    (ReservesRoom t m v count ↔
      if count ≤ v.capacity then count ≤ v.slots.length
      else t.allocates m.allocations = false ∨ count * t.sizeof < 2 ^ 64) ∧
    (AllocatesRoom t m n ↔ t.allocates m.allocations = false ∨ n * t.sizeof < 2 ^ 64) :=
  ⟨reservesRoom_iff hc, allocatesRoom_iff⟩

theorem room_iff_worn :
    (ReservesRoom grudging wornMemory worn 20 ↔
      if 20 ≤ worn.capacity then 20 ≤ worn.slots.length
      else grudging.allocates wornMemory.allocations = false ∨ 20 * grudging.sizeof < 2 ^ 64) ∧
    (AllocatesRoom grudging wornMemory 3 ↔
      grudging.allocates wornMemory.allocations = false ∨ 3 * grudging.sizeof < 2 ^ 64) :=
  room_iff grudging wornMemory 20 3 contains_worn

theorem not_room_wrapped :
    (∃ m v, reserve grudging {} {} 0x2000000000000001 = some (m, v, .ok ()) ∧
      v.capacity = 0x2000000000000001 ∧ v.slots.length = 1) ∧
    ¬ReservesRoom grudging {} {} 0x2000000000000001 ∧
    ¬AllocatesRoom grudging {} 0x2000000000000001 := by
  refine ⟨⟨_, _, by rfl, by rfl, by rfl⟩, ?_, ?_⟩
  · rintro ⟨m, v, r, hrun, hok⟩
    cases hrun
    exact absurd (hok rfl) (by decide)
  · intro h
    exact absurd (h _ rfl) (by decide)

end Vector

end Corosig.Container
