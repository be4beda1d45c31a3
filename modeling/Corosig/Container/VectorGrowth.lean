import Corosig.Container.VectorSlots

namespace Corosig.Container
open Custody

namespace Vector

variable {α : Type} {t : Elements α} {m m' : Memory} {v v' : Vector α} {e : Element α}
  {es cs : List (Element α)} {r : Except VectorError Unit} {count n : Nat} {x : α}

def room (t : Elements α) (count : Nat) : Nat := count * t.sizeof % 2 ^ 64 / t.sizeof

theorem room_le (t : Elements α) (count : Nat) : room t count ≤ count := by
  rcases Nat.eq_zero_or_pos t.sizeof with h | h
  · simp [room, h]
  · exact Nat.div_le_of_le_mul (by rw [Nat.mul_comm]; exact Nat.mod_le _ _)

structure Growth (m m' : Memory) (v v' : Vector α) : Prop where
  cloned : m'.cloned = m.cloned
  elements : m'.elements = m.elements
  buffers : ∀ l, Passes m.buffers m'.buffers (v.buffers ++ l) (v'.buffers ++ l)
  capacity : v.capacity ≤ v'.capacity

theorem growth_refl (m : Memory) (v : Vector α) : Growth m m v v :=
  ⟨rfl, rfl, fun _ => passes_refl _ _, Nat.le_refl _⟩

def refuse (m : Memory) : Memory := { m with allocations := m.allocations + 1 }

theorem growth_refuse (m : Memory) (v : Vector α) : Growth m (refuse m) v v :=
  ⟨rfl, rfl, fun _ => passes_refl _ _, Nat.le_refl _⟩

inductive Reserved (t : Elements α) (m : Memory) (v : Vector α) (es : List (Element α))
    (count : Nat) : Memory → Vector α → Except VectorError Unit → Prop where
  | enough : count ≤ v.capacity → Reserved t m v es count m v (.ok ())
  | refused : v.capacity < count → t.allocates m.allocations = false →
      Reserved t m v es count (refuse m) v (.error .allocation)
  | grown {m' : Memory} {v' : Vector α} : v.capacity < count → t.allocates m.allocations = true →
      m'.allocations = m.allocations + 1 → Growth m m' v v' → v'.Contains es →
      v'.capacity = count → v'.slots.length = room t count →
      Reserved t m v es count m' v' (.ok ())

theorem reserve_grown (hc : v.Contains es) (hlt : v.capacity < count)
    (ha : t.allocates m.allocations = true) (hr : v.size ≤ room t count) :
    ∃ m' v', reserve t m v count = some (m', v', .ok ()) ∧
      Reserved t m v es count m' v' (.ok ()) := by
  have hcap := hc.size_le
  obtain ⟨hsize, ⟨rest, hslots, hrest⟩, hroom⟩ := hc
  have hsplit : List.replicate (room t count) (.raw : Slot α) =
      List.replicate es.length .raw ++ List.replicate (room t count - es.length) .raw := by
    rw [List.replicate_append_replicate]
    congr 1
    omega
  have hmove := moveAll_spec es (List.replicate es.length (.raw : Slot α))
    (by simp) (fun s hs => by rw [List.eq_of_mem_replicate hs]; rfl) rest
    (List.replicate (room t count - es.length) .raw)
  rw [← hslots, ← hsplit, ← hsize] at hmove
  refine ⟨deallocate { refuse m with buffers := m.buffers.issue } v.data,
    ⟨some ⟨m.buffers.next, es.map .live ++ List.replicate (room t count - v.size) .raw⟩,
      v.size, count⟩, ?_, ?_⟩
  · rw [reserve, if_neg (Nat.not_le.mpr hlt)]
    simp only [allocate, ha, if_true]
    have hm : moveAll v.slots (List.replicate (count * t.sizeof % 2 ^ 64 / t.sizeof) .raw)
        v.size = _ := hmove
    rw [hm]
    rfl
  · have hlen : (es.map Slot.live ++ List.replicate (room t count - v.size)
        (.raw : Slot α)).length = room t count := by
      simp only [List.length_append, List.length_map, List.length_replicate]
      omega
    refine .grown hlt ha ?_ ⟨?_, ?_, fun l => ?_, Nat.le_of_lt hlt⟩ ⟨hsize, ⟨_, rfl, ?_⟩, ?_⟩ rfl
      hlen
    · cases v.data <;> rfl
    · cases v.data <;> rfl
    · cases v.data <;> rfl
    · have hissue := passes_issue m.buffers (v.buffers ++ l)
      cases hd : v.data with
      | none => simpa [buffers, hd, deallocate] using hissue
      | some b =>
        have hretire := passes_retire m.buffers.issue b.id (m.buffers.next :: l)
        simp only [buffers, hd] at hissue ⊢
        exact (hissue.trans (passes_of_perm (List.Perm.swap _ _ _))).trans hretire
    · intro s hs
      rw [List.eq_of_mem_replicate hs]
      rfl
    · exact (Nat.le_of_eq hlen).trans (room_le t count)

theorem reserve_spec (hc : v.Contains es) (h : reserve t m v count = some (m', v', r)) :
    Reserved t m v es count m' v' r := by
  rcases Nat.lt_or_ge v.capacity count with hlt | hge
  · rcases ha : t.allocates m.allocations with _ | _
    · rw [reserve, if_neg (Nat.not_le.mpr hlt)] at h
      simp only [allocate, ha] at h
      cases h
      exact .refused hlt ha
    · have hr : v.size ≤ room t count := by
        rw [reserve, if_neg (Nat.not_le.mpr hlt)] at h
        simp only [allocate, ha, if_true] at h
        obtain ⟨⟨src, dst⟩, hm, -⟩ := Option.bind_eq_some_iff.mp h
        have hle := (length_of_moveAll hm).1
        rwa [List.length_replicate] at hle
      obtain ⟨m₁, v₁, h₁, hres⟩ := reserve_grown hc hlt ha hr
      cases h.symm.trans h₁
      exact hres
  · rw [reserve, if_pos hge] at h
    cases h
    exact .enough hge

theorem Reserved.contains (h : Reserved t m v es count m' v' r) (hc : v.Contains es) :
    v'.Contains es := by
  cases h with
  | enough _ => exact hc
  | refused _ _ => exact hc
  | grown _ _ _ _ hc' _ _ => exact hc'

theorem Reserved.growth (h : Reserved t m v es count m' v' r) : Growth m m' v v' := by
  cases h with
  | enough _ => exact growth_refl _ _
  | refused _ _ => exact growth_refuse _ _
  | grown _ _ _ hg _ _ _ => exact hg

theorem Reserved.capacity (h : Reserved t m v es count m' v' (.ok ())) : count ≤ v'.capacity := by
  cases h with
  | enough hle => exact hle
  | grown _ _ _ _ _ hcap _ => exact Nat.le_of_eq hcap.symm

theorem Growth.setSlots (h : Growth m m' v v') (slots : List (Slot α)) (n : Nat) :
    Growth m m' v { v'.setSlots slots with size := n } :=
  ⟨h.cloned, h.elements, fun l => (buffers_resized v' slots n) ▸ h.buffers l, h.capacity⟩

inductive Pushed (t : Elements α) (m : Memory) (v : Vector α) (es : List (Element α))
    (e : Element α) : Memory → Vector α → Except VectorError Unit → Prop where
  | refused : v.size = v.capacity → t.allocates m.allocations = false →
      Pushed t m v es e (refuse m) v (.error .allocation)
  | pushed {m' : Memory} {v' : Vector α} :
      (v.size = v.capacity → t.allocates m.allocations = true) →
      (v.size < v.capacity → m' = m ∧ v'.capacity = v.capacity) → Growth m m' v v' →
      v'.Contains (es ++ [e]) → Pushed t m v es e m' v' (.ok ())

theorem Contains.construct (hc : v.Contains es) {slots : List (Slot α)}
    (h : construct v.slots v.size e = some slots) :
    ({ v.setSlots slots with size := v.size + 1 } : Vector α).Contains (es ++ [e]) ∧
      slots.length = v.slots.length := by
  have hl := length_of_construct h
  obtain ⟨hsize, ⟨rest, hslots, hrest⟩, hroom⟩ := hc
  obtain ⟨pre, s, post, hsplit, hpre, hs, rfl⟩ := construct_cases h
  have hsplit' : pre ++ s :: post = es.map .live ++ rest := hsplit.symm.trans hslots
  obtain ⟨rfl, rfl⟩ := List.append_inj hsplit' (by simp [hpre, hsize])
  have hset := slots_setSlots hl
  refine ⟨⟨by simp [hsize], ⟨post, ?_, fun s' hs' => hrest s' (by simp [hs'])⟩, ?_⟩, hl⟩
  · exact hset.trans (by simp)
  · exact (congrArg List.length hset).trans_le (hl.trans_le hroom)

theorem pushBack_spec (hc : v.Contains es) (h : pushBack t m v e = some (m', v', r)) :
    Pushed t m v es e m' v' r := by
  obtain ⟨⟨m₁, v₁, r₁⟩, hg, h⟩ := Option.bind_eq_some_iff.mp h
  have hcap := hc.size_le
  rw [grow] at hg
  split at hg
  · rename_i hfull
    have hres := reserve_spec hc hg
    rcases r₁ with err | ⟨⟩
    · cases h
      cases hres with
      | refused _ ha => exact .refused hfull ha
    · obtain ⟨slots, hcon, h⟩ := Option.bind_eq_some_iff.mp h
      cases h
      have hc₁ := hres.contains hc
      have hsize : v₁.size = v.size := hc₁.size.trans hc.size.symm
      obtain ⟨hc', -⟩ := hc₁.construct hcon
      have hlt := lt_of_construct hcon
      refine .pushed (fun _ => ?_) (fun hlt' => absurd hfull (Nat.ne_of_lt hlt'))
        (hres.growth.setSlots _ _) hc'
      cases hres with
      | enough _ =>
        have hroom := hc.room
        omega
      | grown _ ha _ _ _ _ _ => exact ha
  · rename_i hnot
    cases hg
    obtain ⟨slots, hcon, h⟩ := Option.bind_eq_some_iff.mp h
    cases h
    obtain ⟨hc', -⟩ := hc.construct hcon
    exact .pushed (fun he => absurd he hnot) (fun _ => ⟨rfl, rfl⟩)
      ((growth_refl m v).setSlots _ _) hc'

structure Extended (m m' : Memory) (v v' : Vector α) (es added : List (Element α)) : Prop where
  contains : v'.Contains (es ++ added)
  elements : ∀ l, Passes m.elements m'.elements (ids es ++ l) (ids (es ++ added) ++ l)
  buffers : ∀ l, Passes m.buffers m'.buffers (v.buffers ++ l) (v'.buffers ++ l)
  capacity : v.capacity ≤ v'.capacity

theorem extended_refl (hc : v.Contains es) (m : Memory) : Extended m m v v es [] := by
  refine ⟨by simpa using hc, fun l => ?_, fun l => passes_refl _ _, Nat.le_refl _⟩
  simpa using passes_refl m.elements (ids es ++ l)

theorem Extended.trans {m₁ : Memory} {v₁ : Vector α} (h : Extended m m₁ v v₁ es cs)
    {ds : List (Element α)} (h' : Extended m₁ m' v₁ v' (es ++ cs) ds) :
    Extended m m' v v' es (cs ++ ds) := by
  refine ⟨by simpa using h'.contains, fun l => ?_, fun l => (h.buffers l).trans (h'.buffers l),
    h.capacity.trans h'.capacity⟩
  simpa using (h.elements l).trans (h'.elements l)

theorem passes_make (m : Memory) (x : α) (l : List Nat) :
    Passes m.elements (make m x).1.elements l ((make m x).2.id :: l) :=
  passes_issue m.elements l

theorem passes_discard (m : Memory) (e : Element α) (l : List Nat) :
    Passes m.elements (discard m e).elements (e.id :: l) l :=
  passes_retire m.elements e.id l

inductive Temporary (t : Elements α) (m : Memory) (v : Vector α) (es : List (Element α))
    (e : Element α) : Memory → Vector α → Except VectorError Unit → Prop where
  | refused : v.size = v.capacity → t.allocates m.allocations = false →
      Temporary t m v es e (discard (refuse m) e) v (.error .allocation)
  | pushed {m' : Memory} {v' : Vector α} :
      (v.size = v.capacity → t.allocates m.allocations = true) →
      (v.size < v.capacity → m' = m ∧ v'.capacity = v.capacity) → Growth m m' v v' →
      v'.Contains (es ++ [e]) → Temporary t m v es e m' v' (.ok ())

theorem pushTemporary_spec (hc : v.Contains es) (h : pushTemporary t m v e = some (m', v', r)) :
    Temporary t m v es e m' v' r := by
  obtain ⟨⟨m₁, v₁, r₁⟩, hp, h⟩ := Option.bind_eq_some_iff.mp h
  have hspec := pushBack_spec hc hp
  rcases r₁ with err | ⟨⟩
  · cases h
    cases hspec with
    | refused hfull ha => exact .refused hfull ha
  · cases h
    cases hspec with
    | pushed h1 h2 h3 h4 => exact .pushed h1 h2 h3 h4

theorem Temporary.extended_ok {x : α}
    (h : Temporary t (make m x).1 v es (make m x).2 m' v' (.ok ())) :
    Extended m m' v v' es [(make m x).2] := by
  cases h with
  | pushed _ _ hg hc' =>
    refine ⟨hc', fun l => ?_, hg.buffers, hg.capacity⟩
    rw [hg.elements]
    refine (passes_make m x (ids es ++ l)).perm (.refl _) ?_
    have hp : (ids es ++ (make m x).2.id :: l).Perm ((make m x).2.id :: (ids es ++ l)) :=
      List.perm_middle
    simpa using hp.symm

theorem Temporary.extended_error {err : VectorError} (hc : v.Contains es)
    (h : Temporary t (make m x).1 v es (make m x).2 m' v' (.error err)) :
    v' = v ∧ Extended m m' v v' es [] := by
  cases h with
  | refused _ _ =>
    refine ⟨rfl, by simpa using hc, fun l => ?_, fun l => passes_refl _ _, Nat.le_refl _⟩
    have hmake := passes_make m x (ids es ++ l)
    have hdiscard := passes_discard (refuse (make m x).1) (make m x).2 (ids es ++ l)
    simpa using hmake.trans hdiscard

def attempt (m : Memory) : Memory := { m with cloned := m.cloned + 1 }

inductive Copied (t : Elements α) (m : Memory) (v : Vector α) (es : List (Element α)) (x : α) :
    Memory → Vector α → Except VectorError Unit → Prop where
  | uncloned : t.nothrowCopy = false → t.clones m.cloned x = false →
      Copied t m v es x (attempt m) v (.error .clone)
  | refused {m' : Memory} : v.size = v.capacity → Extended m m' v v es [] →
      Copied t m v es x m' v (.error .allocation)
  | copied {m' : Memory} {v' : Vector α} {e : Element α} : e.value = x →
      Extended m m' v v' es [e] →
      (v.size < v.capacity → m'.allocations = m.allocations ∧ v'.capacity = v.capacity) →
      (t.nothrowCopy = false → t.clones m.cloned x = true ∧ m'.cloned = m.cloned + 1) →
      Copied t m v es x m' v' (.ok ())

theorem Extended.attempt (h : Extended (attempt m) m' v v' es cs) : Extended m m' v v' es cs :=
  ⟨h.contains, h.elements, h.buffers, h.capacity⟩

theorem copied_of_temporary (m₁ : Memory) (hc : v.Contains es)
    (h : Temporary t (make m₁ x).1 v es (make m₁ x).2 m' v' r)
    (hm : ∀ m' v' cs, Extended m₁ m' v v' es cs → Extended m m' v v' es cs)
    (ha : m₁.allocations = m.allocations)
    (hn : t.nothrowCopy = false → t.clones m.cloned x = true ∧ m₁.cloned = m.cloned + 1) :
    Copied t m v es x m' v' r := by
  rcases r with err | ⟨⟩
  · obtain ⟨rfl, he⟩ := h.extended_error hc
    cases h with
    | refused hfull _ => exact .refused hfull (hm _ _ _ he)
  · have he := h.extended_ok
    cases h with
    | pushed _ hroom hg _ =>
      refine .copied rfl (hm _ _ _ he) (fun hlt => ?_) (fun hf => ⟨(hn hf).1, ?_⟩)
      · obtain ⟨rfl, hcap⟩ := hroom hlt
        exact ⟨ha, hcap⟩
      · exact hg.cloned.trans (hn hf).2

theorem pushBackCopy_spec (hc : v.Contains es) (h : pushBackCopy t m v x = some (m', v', r)) :
    Copied t m v es x m' v' r := by
  rw [pushBackCopy] at h
  cases hn : t.nothrowCopy with
  | true =>
    simp only [clone, hn, if_true] at h
    exact copied_of_temporary m hc (pushTemporary_spec hc h) (fun _ _ _ he => he) rfl
      (fun hf => by cases hn.symm.trans hf)
  | false =>
    rcases hx : t.clones m.cloned x with _ | _
    · simp only [clone, hn, Nat.add_sub_cancel, hx] at h
      cases h
      exact .uncloned hn hx
    · simp only [clone, hn, Nat.add_sub_cancel, hx, if_true] at h
      exact copied_of_temporary (attempt m) hc (pushTemporary_spec hc h)
        (fun _ _ _ he => he.attempt) rfl (fun _ => ⟨hx, rfl⟩)

theorem Copied.extended (hc : v.Contains es) (h : Copied t m v es x m' v' r) :
    ∃ added, Extended m m' v v' es added ∧ (r = .ok () → added.map (·.value) = [x]) := by
  cases h with
  | uncloned _ _ => exact ⟨[], (extended_refl hc (attempt m)).attempt, by rintro ⟨⟩⟩
  | refused _ he => exact ⟨[], he, by rintro ⟨⟩⟩
  | copied hx he _ _ => exact ⟨_, he, fun _ => by simp [hx]⟩

theorem pushClones_spec {xs : List α} (hc : v.Contains es)
    (h : pushClones t m v xs = some (m', v', r)) :
    ∃ added, Extended m m' v v' es added ∧ (r = .ok () → added.map (·.value) = xs) := by
  induction xs generalizing m v es with
  | nil =>
    cases h
    exact ⟨[], extended_refl hc _, fun _ => rfl⟩
  | cons x xs ih =>
    obtain ⟨⟨m₁, v₁, r₁⟩, hp, h⟩ := Option.bind_eq_some_iff.mp h
    obtain ⟨added, he, hx⟩ := (pushBackCopy_spec hc hp).extended hc
    rcases r₁ with err | ⟨⟩
    · cases h
      exact ⟨added, he, by rintro ⟨⟩⟩
    · obtain ⟨rest, he', hxs⟩ := ih he.contains h
      refine ⟨added ++ rest, he.trans he', fun hr => ?_⟩
      rw [List.map_append, hx rfl, hxs hr]
      rfl

theorem pushClones_room (hn : t.nothrowCopy = false) (hc : v.Contains es)
    (hroom : v.size + n ≤ v.capacity)
    (h : pushClones t m v (List.replicate n x) = some (m', v', r)) :
    m'.allocations = m.allocations ∧
      (r = .ok () ↔ ∀ k < n, t.clones (m.cloned + k) x = true) := by
  induction n generalizing m v es with
  | zero =>
    cases h
    exact ⟨rfl, by simp⟩
  | succ n ih =>
    rw [List.replicate_succ] at h
    obtain ⟨⟨m₁, v₁, r₁⟩, hp, h⟩ := Option.bind_eq_some_iff.mp h
    cases pushBackCopy_spec hc hp with
    | uncloned _ hx =>
      cases h
      refine ⟨rfl, iff_of_false (by rintro ⟨⟩) fun hall => ?_⟩
      cases hx.symm.trans (hall 0 (Nat.succ_pos n))
    | refused hfull _ => omega
    | copied _ he hfit hclone =>
      obtain ⟨ha, hcap⟩ := hfit (by omega)
      obtain ⟨hx, hcloned⟩ := hclone hn
      have hsize : v₁.size = v.size + 1 := by
        rw [he.contains.size, hc.size, List.length_append]
        rfl
      obtain ⟨ha', hiff⟩ := ih he.contains (by omega) h
      refine ⟨ha'.trans ha, hiff.trans ⟨fun hall k hk => ?_, fun hall k hk => ?_⟩⟩
      · cases k with
        | zero => exact hx
        | succ k =>
          have hk' := hall k (by omega)
          rwa [hcloned, Nat.add_assoc, Nat.add_comm 1] at hk'
      · have hk' := hall (k + 1) (by omega)
        rwa [hcloned, Nat.add_assoc, Nat.add_comm 1]

end Vector

end Corosig.Container
