import Corosig.Container.VectorSlots

namespace Corosig.Container
open Custody

namespace Vector

variable {α : Type} {t : Elements α} {m : Memory} {v : Vector α} {a b c : List (Element α)}
  {slots pre gap : List (Slot α)} {i j : Nat}

theorem destroyRange_spec (m : Memory) (pre : List (Slot α)) (hi : pre.length = i)
    (b : List (Element α)) (post : List (Slot α)) :
    ∃ m', destroyRange m (pre ++ b.map .live ++ post) i b.length =
        some (m', pre ++ List.replicate b.length .raw ++ post) ∧
      SameCalls m m' ∧ ∀ l, Passes m.elements m'.elements (ids b ++ l) l := by
  induction b using List.reverseRecOn generalizing post with
  | nil =>
    refine ⟨m, ?_, ⟨rfl, rfl, rfl⟩, passes_refl _⟩
    rfl
  | append_singleton b e ih =>
    obtain ⟨m₁, hrun, hcalls, hp⟩ := ih (.live e :: post)
    have hlen : (pre ++ List.replicate b.length Slot.raw).length = i + b.length := by simp [hi]
    have hlast : destroy m₁ (pre ++ List.replicate b.length .raw ++ .live e :: post)
        (i + b.length) = _ := destroy_middle rfl hlen
    refine ⟨ended m₁ (.live e), ?_, ?_, fun l => ?_⟩
    · rw [List.length_append, List.length_singleton, destroyRange, List.map_append,
        List.map_singleton, List.append_assoc pre, List.append_assoc, List.singleton_append,
        ← List.append_assoc pre, hrun]
      simp only [Option.bind_eq_bind, Option.bind_some, hlast]
      simp [List.replicate_succ']
    · exact ⟨hcalls.allocations, hcalls.cloned, hcalls.buffers⟩
    · have hperm : (ids (b ++ [e]) ++ l).Perm (ids b ++ (e.id :: l)) := by simp
      exact ((hp (e.id :: l)).perm hperm (.refl _)).trans (passes_ended m₁ (.live e) l)

theorem moveWithin_middle {s : Slot α} {e : Element α} (pre gap post : List (Slot α))
    (hs : s.vacant = true) (hi : pre.length = i) (hj : i + gap.length + 1 = j) :
    moveWithin t (pre ++ s :: gap ++ .live e :: post) i j =
      some (pre ++ .live e :: gap ++ .shell :: post) := by
  have hlen : (pre ++ s :: gap).length = j := by
    simp only [List.length_append, List.length_cons]
    omega
  rw [moveWithin, if_neg (by omega), moveOut_middle hlen]
  simp only [Option.bind_eq_bind, Option.bind_some, List.append_assoc, List.cons_append]
  exact construct_middle hs hi

theorem shiftDown_spec (pre : List (Slot α)) (hi : pre.length = i) (hj : i + gap.length = j)
    (hv : ∀ s ∈ gap, s.vacant = true) (c : List (Element α)) (hne : gap ≠ [] ∨ c = [])
    (post : List (Slot α)) :
    ∃ gap', shiftDown t (pre ++ gap ++ c.map .live ++ post) i j c.length =
        some (pre ++ c.map .live ++ gap' ++ post) ∧
      gap'.length = gap.length ∧ ∀ s ∈ gap', s.vacant = true := by
  induction c using List.reverseRecOn generalizing post with
  | nil => exact ⟨gap, by simp [shiftDown], rfl, hv⟩
  | append_singleton c e ih =>
    have hgap : gap ≠ [] := hne.resolve_right (by simp)
    obtain ⟨gap₁, hrun, hlen, hv₁⟩ := ih (.inl hgap) (.live e :: post)
    cases gap₁ with
    | nil => exact absurd (List.length_eq_zero_iff.mp hlen.symm) hgap
    | cons s gap₁ =>
      rw [List.length_cons] at hlen
      have hmove := moveWithin_middle (t := t) (e := e) (pre ++ c.map Slot.live) gap₁ post
        (i := i + c.length) (j := j + c.length) (hv₁ s List.mem_cons_self) (by simp [hi]) (by omega)
      refine ⟨gap₁ ++ [.shell], ?_, by simpa using hlen, fun s' hs' => ?_⟩
      · rw [List.length_append, List.length_singleton, shiftDown, List.map_append,
          List.map_singleton, ← List.append_assoc, List.append_assoc _ [Slot.live e],
          List.singleton_append, hrun]
        simp only [Option.bind_eq_bind, Option.bind_some, hmove]
        simp
      · rcases List.mem_append.mp hs' with hs' | hs'
        · exact hv₁ s' (List.mem_cons_of_mem _ hs')
        · rw [List.mem_singleton.mp hs']
          rfl

theorem Contains.erase (hc : v.Contains (a ++ b ++ c)) (hne : b ≠ [] ∨ c = []) (m : Memory) :
    ∃ m' v', erase t m v a.length (a.length + b.length) = some (m', v') ∧ v'.Contains (a ++ c) ∧
      v'.capacity = v.capacity ∧ v'.slots.length = v.slots.length ∧ v'.buffers = v.buffers ∧
      SameCalls m m' ∧
      ∀ l, Passes m.elements m'.elements (ids (a ++ b ++ c) ++ l) (ids (a ++ c) ++ l) := by
  obtain ⟨hsize, ⟨rest, hslots, hrest⟩, hroom⟩ := hc
  obtain ⟨m', hrange, hcalls, hp⟩ := destroyRange_spec m (a.map .live)
    (i := a.length) (by simp) b (c.map .live ++ rest)
  have hraw : ∀ s ∈ List.replicate b.length (Slot.raw : Slot α), s.vacant = true := by
    intro s hs
    rw [List.eq_of_mem_replicate hs]
    rfl
  have hgap : List.replicate b.length (Slot.raw : Slot α) ≠ [] ∨ c = [] := by simpa using hne
  obtain ⟨gap, hshift, hlen, hgapv⟩ := shiftDown_spec (t := t) (a.map Slot.live) (i := a.length)
    (j := a.length + b.length) (by simp) (by simp) hraw c hgap rest
  have hall : v.slots = a.map .live ++ b.map .live ++ (c.map .live ++ rest) := by
    rw [hslots, List.map_append, List.map_append, List.append_assoc (a.map _ ++ b.map _)]
  have hcount : v.size - (a.length + b.length) = c.length := by
    rw [hsize, List.length_append, List.length_append]
    omega
  have hleft : v.size - (a.length + b.length - a.length) = a.length + c.length := by
    rw [hsize, List.length_append, List.length_append]
    omega
  have hl : (a.map Slot.live ++ c.map Slot.live ++ gap ++ rest).length = v.slots.length := by
    rw [List.length_replicate] at hlen
    simp only [hall, List.length_append, List.length_map]
    omega
  have hset := slots_setSlots hl
  refine ⟨m', { v.setSlots (a.map .live ++ c.map .live ++ gap ++ rest) with
    size := a.length + c.length }, ?_, ⟨by simp, ⟨gap ++ rest, ?_, ?_⟩, ?_⟩, rfl, ?_, ?_, hcalls,
    fun l => ?_⟩
  · rw [Vector.erase, Nat.add_sub_cancel_left, hall, hrange]
    simp only [Option.bind_eq_bind, Option.bind_some, hcount]
    rw [← List.append_assoc, hshift]
    simp only [Option.bind_some]
    rw [← hleft, Nat.add_sub_cancel_left]
    rfl
  · refine hset.trans ?_
    rw [List.map_append, List.append_assoc (a.map _ ++ c.map _)]
  · intro s hs
    exact (List.mem_append.mp hs).elim (hgapv s) (hrest s)
  · exact (congrArg List.length hset).trans_le (hl.trans_le hroom)
  · exact (congrArg List.length hset).trans hl
  · exact buffers_resized v _ _
  · have hperm : (ids (a ++ b ++ c) ++ l).Perm (ids b ++ (ids (a ++ c) ++ l)) := by
      simp only [ids, List.map_append, List.append_assoc]
      exact List.perm_append_comm_assoc _ _ _
    exact (hp _).perm hperm (.refl _)

end Vector

end Corosig.Container
