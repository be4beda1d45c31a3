import Corosig.Container.VectorErrors

namespace Corosig.Container
open Custody

namespace Vector

variable {α : Type} {t : Elements α} {m m' : Memory} {v v' : Vector α}
  {es c values : List (Element α)} {pre gap post slots : List (Slot α)} {i k last n pos : Nat}
  {r' : Except VectorError Nat}

def shifts (bound n : Nat) : Nat → List (Nat × Nat)
  | 0 => []
  | i + 1 => if bound ≤ i + 1 then (i + 1, i + 1 - n) :: shifts bound n i else []

def touched (bound n last pos : Nat) : List Nat :=
  (shifts bound n last).flatMap (fun s => [s.1, s.2]) ++ List.range' pos n

def insertCount (v : Vector α) (n : Nat) : Nat :=
  if (v.size + n) % 2 ^ 64 < v.capacity then max 16 (v.size * 2 % 2 ^ 64)
  else (v.size + n) % 2 ^ 64

def insertRoom (t : Elements α) (v : Vector α) (n : Nat) : Nat :=
  if v.insertCount n ≤ v.capacity then v.slots.length else room t (v.insertCount n)

inductive Shifted (t : Elements α) :
    Memory × List (Slot α) → List (Nat × Nat) → Memory × List (Slot α) → Prop
  | done (q : Memory × List (Slot α)) : Shifted t q [] q
  | next {q q₁ q₂ : Memory × List (Slot α)} {i j : Nat} {rest : List (Nat × Nat)} :
      (∃ s ∈ q.2[i]?, s.vacant = true) → shift t q.1 q.2 i j = some q₁ → Shifted t q₁ rest q₂ →
      Shifted t q ((i, j) :: rest) q₂

theorem shiftUp_eq (hb : 0 < k) (m : Memory) (slots : List (Slot α)) :
    shiftUp t m slots k n last =
      (shifts k n last).foldlM (fun q s => shift t q.1 q.2 s.1 s.2) (m, slots) := by
  induction last generalizing m slots with
  | zero => simp [shiftUp, shifts, hb.ne']
  | succ i ih =>
    rw [shiftUp, shifts]
    split
    · simp only [List.foldlM_cons, ih]
    · rfl

theorem Shifted.foldlM {q q' : Memory × List (Slot α)} {l : List (Nat × Nat)}
    (h : Shifted t q l q') : l.foldlM (fun q s => shift t q.1 q.2 s.1 s.2) q = some q' := by
  induction h with
  | done q => rfl
  | next hvacant hshift hrest ih =>
    rw [List.foldlM_cons, hshift]
    exact ih

theorem shifts_idle (hlast : last < k) : shifts k n last = [] := by
  cases last with
  | zero => rfl
  | succ last => exact if_neg (Nat.not_le.mpr hlast)

theorem shifted_spec (hi : pre.length = i) (hgap : gap.length = n) (hn : 0 < n)
    (hv : ∀ s ∈ gap, s.vacant = true) (c : List (Element α)) (post : List (Slot α))
    (hlast : last + 1 = i + n + c.length) (m : Memory) :
    ∃ gap', Shifted t (m, pre ++ c.map .live ++ gap ++ post) (shifts (i + n) n last)
        (m, pre ++ gap' ++ c.map .live ++ post) ∧
      gap'.length = n ∧ ∀ s ∈ gap', s.vacant = true := by
  induction c using List.reverseRecOn generalizing gap post last with
  | nil =>
    refine ⟨gap, ?_, hgap, hv⟩
    rw [List.length_nil] at hlast
    rw [shifts_idle (by omega), List.map_nil, List.append_nil, List.append_nil]
    exact .done _
  | append_singleton c e ih =>
    rw [List.length_append, List.length_singleton] at hlast
    rcases List.eq_nil_or_concat' gap with rfl | ⟨gap, s, rfl⟩
    · simp at hgap
      omega
    rw [List.length_append, List.length_singleton] at hgap
    obtain ⟨last, rfl⟩ := Nat.exists_eq_add_of_le' (show 1 ≤ last by omega)
    have hfrom : (pre ++ c.map Slot.live).length = last + 1 - n := by
      rw [List.length_append, List.length_map, hi]
      omega
    have hto : (pre ++ c.map Slot.live ++ .shell :: gap).length = last + 1 := by
      rw [List.length_append, hfrom, List.length_cons]
      omega
    have hmove : moveWithin t (pre ++ (c ++ [e]).map .live ++ (gap ++ [s]) ++ post) (last + 1)
        (last + 1 - n) = some (pre ++ c.map .live ++ .shell :: gap ++ .live e :: post) := by
      rw [moveWithin, if_neg (by omega)]
      have hout : moveOut (pre ++ c.map .live ++ .live e :: (gap ++ s :: post)) (last + 1 - n) =
          some (e, pre ++ c.map .live ++ .shell :: (gap ++ s :: post)) := moveOut_middle hfrom
      have hin : construct (pre ++ c.map .live ++ .shell :: gap ++ s :: post) (last + 1) e =
          some (pre ++ c.map .live ++ .shell :: gap ++ .live e :: post) :=
        construct_middle (hv s (by simp)) hto
      simp only [List.map_append, List.map_singleton, List.append_assoc, List.cons_append,
        List.nil_append, Option.bind_eq_bind] at hout hin ⊢
      rw [hout]
      exact hin
    have hdestroy : destroy m (pre ++ c.map .live ++ .shell :: gap ++ .live e :: post)
        (last + 1 - n) = some (m, pre ++ c.map .live ++ .raw :: gap ++ .live e :: post) := by
      have hmid : destroy m (pre ++ c.map .live ++ .shell :: (gap ++ .live e :: post))
          (last + 1 - n) = some (m, pre ++ c.map .live ++ .raw :: (gap ++ .live e :: post)) :=
        destroy_middle rfl hfrom
      simpa [List.append_assoc] using hmid
    have hv₁ : ∀ s' ∈ .raw :: gap, s'.vacant = true :=
      List.forall_mem_cons.mpr ⟨rfl, fun s' hs' => hv s' (by simp [hs'])⟩
    have hlast₁ : last + 1 = i + n + c.length := by omega
    obtain ⟨gap', hrun, hlen, hv'⟩ := ih (by simpa using hgap) hv₁ (.live e :: post) hlast₁
    have hshift : shift t m (pre ++ (c ++ [e]).map .live ++ (gap ++ [s]) ++ post) (last + 1)
        (last + 1 - n) = some (m, pre ++ c.map .live ++ .raw :: gap ++ .live e :: post) := by
      rw [shift, hmove]
      simp only [Option.bind_eq_bind, Option.bind_some]
      rw [if_neg (by omega), hdestroy]
    have hvacant : ∃ s' ∈ (pre ++ (c ++ [e]).map .live ++ (gap ++ [s]) ++ post)[last + 1]?,
        s'.vacant = true := by
      refine ⟨s, ?_, hv s (by simp)⟩
      have hat : (pre ++ c.map Slot.live ++ .live e :: gap).length = last + 1 := by
        simpa using hto
      rw [Option.mem_def, ← hat]
      simp
    refine ⟨gap', ?_, hlen, hv'⟩
    rw [shifts, if_pos (by omega)]
    refine .next hvacant hshift ?_
    simpa using hrun

theorem shiftUp_spec (hi : pre.length = i) (hgap : gap.length = n) (hn : 0 < n)
    (hv : ∀ s ∈ gap, s.vacant = true) (c : List (Element α)) (post : List (Slot α))
    (hlast : last + 1 = i + n + c.length) (m : Memory) :
    ∃ gap', Shifted t (m, pre ++ c.map .live ++ gap ++ post) (shifts (i + n) n last)
        (m, pre ++ gap' ++ c.map .live ++ post) ∧
      shiftUp t m (pre ++ c.map .live ++ gap ++ post) (i + n) n last =
        some (m, pre ++ gap' ++ c.map .live ++ post) ∧
      gap'.length = n ∧ ∀ s ∈ gap', s.vacant = true := by
  obtain ⟨gap', hrun, hlen, hv'⟩ := shifted_spec (t := t) hi hgap hn hv c post hlast m
  exact ⟨gap', hrun, (shiftUp_eq (by omega) m _).trans hrun.foldlM, hlen, hv'⟩

theorem constructAll_spec (hi : pre.length = i) (hgap : gap.length = values.length)
    (hv : ∀ s ∈ gap, s.vacant = true) :
    constructAll (pre ++ gap ++ post) i values = some (pre ++ values.map .live ++ post) := by
  induction values generalizing pre gap i with
  | nil =>
    rw [List.length_eq_zero_iff.mp hgap]
    rfl
  | cons e values ih =>
    cases gap with
    | nil => simp at hgap
    | cons s gap =>
      obtain ⟨hs, hv⟩ := List.forall_mem_cons.mp hv
      have hfirst : construct (pre ++ s :: (gap ++ post)) i e =
          some (pre ++ .live e :: (gap ++ post)) := construct_middle hs hi
      have hpre : (pre ++ [Slot.live e]).length = i + 1 := by simp [hi]
      have hrest := ih hpre (Nat.succ_inj.mp hgap) hv
      simp only [List.append_assoc, List.cons_append, List.map_cons] at hfirst hrest ⊢
      rw [constructAll, hfirst]
      exact hrest

theorem shifts_spec (hn : 0 < n) (hlast : last + 1 = pos + n + k) :
    shifts (pos + n) n last = (List.range' pos k).reverse.map fun i => (i + n, i) := by
  induction k generalizing last with
  | zero => exact shifts_idle (by omega)
  | succ k ih =>
    obtain ⟨last, rfl⟩ := Nat.exists_eq_add_of_le' (show 1 ≤ last by omega)
    rw [shifts, if_pos (by omega), ih (by omega), List.range'_1_concat, List.reverse_append]
    have hto : last + 1 = pos + k + n := by omega
    simp [hto]

def resizeInPlace (m : Memory) (v : Vector α) (count : Nat) : Option (Memory × Vector α) :=
  if count < v.size then popTimes m v (v.size - count) else some (m, { v with size := count })

def placeRange (t : Elements α) (m : Memory) (v : Vector α) (pos : Nat)
    (values : List (Element α)) : Option (Memory × Vector α × Except VectorError Nat) :=
  match v.size with
  | 0 => none
  | last + 1 => do
      let (m, slots) ← shiftUp t m v.slots ((pos + values.length) % 2 ^ 64) values.length last
      let slots ← constructAll slots pos values
      return (m, v.setSlots slots, .ok pos)

theorem resizeUninitialized_within (hle : k ≤ v.capacity) :
    resizeUninitialized t m v k =
      (resizeInPlace m v k).map fun q => (q.1, q.2, .ok ()) := by
  rw [resizeUninitialized, resizeInPlace]
  split
  · rename_i heq
    rw [if_neg (by omega), heq]
    rfl
  split
  · cases popTimes m v (v.size - k) <;> rfl
  · rw [reserve, if_pos hle]
    rfl

theorem insert_eq (hc : v.Contains es) (m : Memory) (pos : Nat) (values : List (Element α)) :
    insert t m v pos values =
      (reserve t m v (v.insertCount values.length)).bind fun q => match q.2.2 with
        | .error err => some (q.1, q.2.1, .error err)
        | .ok () => (resizeInPlace q.1 q.2.1 ((v.size + values.length) % 2 ^ 64)).bind fun q =>
            placeRange t q.1 q.2 pos values := by
  have hsize := hc.size_le
  simp only [insert, reserveForInsert, insertCount]
  split
  · rename_i hlt
    rcases hres : reserve t m v (max 16 (v.size * 2 % 2 ^ 64)) with _ | ⟨m₁, v₁, r⟩
    · rfl
    have hspec := reserve_spec hc hres
    rcases r with err | ⟨⟩
    · rfl
    have hsame : v₁.size = v.size := (hspec.contains hc).size.trans hc.size.symm
    have hcap := hspec.growth.capacity
    simp only [Option.bind_eq_bind, Option.bind_some, hsame]
    rw [resizeUninitialized_within (by omega)]
    cases resizeInPlace m₁ v₁ ((v.size + values.length) % 2 ^ 64) <;> rfl
  · rename_i hge
    simp only [Option.bind_eq_bind, Option.bind_some, resizeUninitialized]
    generalize (v.size + values.length) % 2 ^ 64 = k at hge ⊢
    split
    · rename_i heq
      subst heq
      rw [reserve, if_pos (by omega)]
      simp only [Option.bind_some]
      rw [resizeInPlace, if_neg (by omega)]
      rfl
    · rw [if_neg (by omega)]
      rcases hres : reserve t m v k with _ | ⟨m₁, v₁, r⟩
      · rfl
      rcases r with err | ⟨⟩
      · rfl
      have hsame : v₁.size = v.size :=
        ((reserve_spec hc hres).contains hc).size.trans hc.size.symm
      simp only [Option.bind_some, resizeInPlace]
      rw [if_neg (by omega)]
      rfl

theorem shiftUp_idle (hb : 0 < k) (hlast : last < k) (m : Memory) (slots : List (Slot α)) :
    shiftUp t m slots k n last = some (m, slots) := by
  cases last with
  | zero => rw [shiftUp, if_neg (by omega)]
  | succ last => rw [shiftUp, if_neg (by omega)]

theorem placeRange_spec (hc : v.Contains es) (hpos : pos ≤ v.size) (hn : 0 < values.length)
    (hw : v.size + values.length < 2 ^ 64) (hroom : v.size + values.length ≤ v.slots.length)
    (m : Memory) :
    ∃ v', placeRange t m { v with size := v.size + values.length } pos values =
        some (m, v', .ok pos) ∧ v'.Contains (es.take pos ++ values ++ es.drop pos) ∧
      ∃ slots, shiftUp t m v.slots (pos + values.length) values.length
          (v.size + values.length - 1) = some (m, slots) ∧
        Shifted t (m, v.slots) (shifts (pos + values.length) values.length
          (v.size + values.length - 1)) (m, slots) := by
  obtain ⟨hsize, ⟨rest, hslots, hrest⟩, hcap⟩ := hc
  obtain ⟨last, hlast⟩ := Nat.exists_eq_add_of_le' (show 1 ≤ v.size + values.length by omega)
  have hlen : (es.take pos).length = pos := List.length_take_of_le (hsize ▸ hpos)
  have hleft : (es.drop pos).length = v.size - pos := by rw [List.length_drop, hsize]
  have hgap : (rest.take values.length).length = values.length := by
    rw [hslots, List.length_append, List.length_map] at hroom
    exact List.length_take_of_le (by omega)
  have hsplit : v.slots = (es.take pos).map .live ++ (es.drop pos).map .live ++
      rest.take values.length ++ rest.drop values.length := by
    rw [← List.map_append, List.take_append_drop, List.append_assoc, List.take_append_drop, hslots]
  have hv : ∀ s ∈ rest.take values.length, s.vacant = true :=
    fun s hs => hrest s (List.mem_of_mem_take hs)
  have hpre : ((es.take pos).map Slot.live).length = pos := by rw [List.length_map, hlen]
  have hlast₁ : last + 1 = pos + values.length + (es.drop pos).length := by omega
  obtain ⟨gap, hshifted, hshift, hgap', hv'⟩ := shiftUp_spec (t := t) hpre hgap hn hv (es.drop pos)
    (rest.drop values.length) hlast₁ m
  have hcon : constructAll ((es.take pos).map .live ++ gap ++
      ((es.drop pos).map .live ++ rest.drop values.length)) pos values =
        some ((es.take pos).map .live ++ values.map .live ++
          ((es.drop pos).map .live ++ rest.drop values.length)) :=
    constructAll_spec hpre hgap' hv'
  rw [← hsplit, List.append_assoc (_ ++ gap)] at hshift hshifted
  have hlist : (es.take pos).map Slot.live ++ values.map .live ++ ((es.drop pos).map .live ++
      rest.drop values.length) =
        (es.take pos ++ values ++ es.drop pos).map .live ++ rest.drop values.length := by
    simp
  rw [hlist] at hcon
  have hloop : ∃ slots, shiftUp t m v.slots (pos + values.length) values.length
      (v.size + values.length - 1) = some (m, slots) ∧ Shifted t (m, v.slots)
        (shifts (pos + values.length) values.length (v.size + values.length - 1)) (m, slots) := by
    rw [hlast]
    exact ⟨_, hshift, hshifted⟩
  have hkept : ((es.take pos ++ values ++ es.drop pos).map Slot.live ++
      rest.drop values.length).length = v.slots.length := by
    simp only [hsplit, List.length_append, List.length_map, hgap]
    omega
  refine ⟨{ v with size := v.size + values.length }.setSlots _, ?_, ⟨?_,
    ⟨_, slots_setSlots (v := { v with size := _ }) hkept,
      fun s hs => hrest s (List.mem_of_mem_drop hs)⟩, ?_⟩, hloop⟩
  · rw [placeRange]
    simp only [hlast]
    rw [Nat.mod_eq_of_lt (by omega : pos + values.length < 2 ^ 64)]
    have hrun : shiftUp t m (slots { v with size := last + 1 }) (pos + values.length) values.length
        last = _ := hshift
    rw [hrun]
    simp only [Option.bind_eq_bind, Option.bind_some, hcon]
    rfl
  · simp only [size_setSlots, List.length_append, hlen, hleft]
    omega
  · exact (congrArg List.length (slots_setSlots (v := { v with size := _ }) hkept)).trans_le
      (hkept.trans_le hcap)

theorem setSlots_self (v : Vector α) : v.setSlots v.slots = v := by
  obtain ⟨data, size, capacity⟩ := v
  cases data <;> rfl

theorem lt_of_moveWithin (h : moveWithin t slots i k = some post) : i < slots.length := by
  rw [moveWithin] at h
  split at h
  · rename_i hsame
    split at h
    · obtain ⟨⟨e, slots₁⟩, hout, -⟩ := Option.map_eq_some_iff.mp h
      exact hsame ▸ lt_of_moveOut hout
    · cases h
  · obtain ⟨⟨e, slots₁⟩, hout, hin⟩ := Option.bind_eq_some_iff.mp h
    exact (lt_of_construct hin).trans_eq (length_of_moveOut hout)

theorem le_of_constructAll (hne : 0 < values.length)
    (h : constructAll slots i values = some post) : i + values.length ≤ slots.length := by
  induction values generalizing slots i with
  | nil => simp at hne
  | cons e values ih =>
    obtain ⟨slots₁, hfirst, h⟩ := Option.bind_eq_some_iff.mp h
    have hlt := lt_of_construct hfirst
    rcases Nat.eq_zero_or_pos values.length with hz | hpos
    · rw [List.length_cons]
      omega
    · have hle := ih hpos h
      rw [length_of_construct hfirst] at hle
      rw [List.length_cons]
      omega

theorem room_of_placeRange {q : Memory × Vector α × Except VectorError Nat} (hpos : pos ≤ v.size)
    (hn : 0 < values.length) (hw : v.size + values.length < 2 ^ 64)
    (h : placeRange t m { v with size := v.size + values.length } pos values = some q) :
    v.size + values.length ≤ v.slots.length := by
  obtain ⟨last, hlast⟩ := Nat.exists_eq_add_of_le' (show 1 ≤ v.size + values.length by omega)
  rw [placeRange] at h
  simp only [hlast, Nat.mod_eq_of_lt (show pos + values.length < 2 ^ 64 by omega)] at h
  obtain ⟨⟨m₁, slots₁⟩, hshift, h⟩ := Option.bind_eq_some_iff.mp h
  obtain ⟨slots₂, hcon, -⟩ := Option.bind_eq_some_iff.mp h
  rcases Nat.eq_or_lt_of_le hpos with rfl | hlt
  · rw [shiftUp_idle (by omega) (by omega)] at hshift
    cases hshift
    exact le_of_constructAll hn hcon
  · obtain ⟨last, rfl⟩ := Nat.exists_eq_add_of_le' (show 1 ≤ last by omega)
    rw [shiftUp, if_pos (by omega)] at hshift
    obtain ⟨q₁, hbody, -⟩ := Option.bind_eq_some_iff.mp hshift
    obtain ⟨slots₃, hmove, -⟩ := Option.bind_eq_some_iff.mp hbody
    have hin : last + 1 < v.slots.length := lt_of_moveWithin hmove
    omega

theorem pos_of_shiftUp {q : Memory × List (Slot α)} (h : shiftUp t m slots k n last = some q) :
    0 < k := by
  induction last generalizing m slots with
  | zero =>
    rw [shiftUp] at h
    split at h
    · cases h
    · exact Nat.pos_of_ne_zero ‹_›
  | succ last ih =>
    rw [shiftUp] at h
    split at h
    · obtain ⟨q₁, -, hrest⟩ := Option.bind_eq_some_iff.mp h
      exact ih hrest
    · omega

theorem shift_self {e : Element α} (ht : t.trivialMove = true) (hi : slots[i]? = some (.live e))
    (m : Memory) : shift t m slots i i = some (m, slots) := by
  rw [shift, moveWithin, if_pos rfl, if_pos ht, moveOut, hi]
  simp

theorem shiftUp_self (ht : t.trivialMove = true) (hb : 0 < k)
    (hlive : ∀ i ≤ last, ∃ e, slots[i]? = some (.live e)) (m : Memory) :
    shiftUp t m slots k 0 last = some (m, slots) := by
  induction last with
  | zero => exact shiftUp_idle hb hb m slots
  | succ last ih =>
    obtain ⟨e, he⟩ := hlive (last + 1) (Nat.le_refl _)
    rw [shiftUp, Nat.sub_zero, shift_self ht he]
    split
    · exact ih fun i hi => hlive i (Nat.le_succ_of_le hi)
    · rfl

theorem Contains.live (hc : v.Contains es) (hi : i < v.size) :
    ∃ e, v.slots[i]? = some (.live e) := by
  obtain ⟨hsize, ⟨rest, hslots, -⟩, -⟩ := hc
  have hlt : i < es.length := hsize ▸ hi
  refine ⟨es[i], ?_⟩
  rw [hslots, List.getElem?_append_left (by simpa using hlt)]
  simp [hlt]

theorem placeRange_empty {q : Memory × Vector α × Except VectorError Nat} (hpos : pos ≤ v.size)
    (hw : pos < 2 ^ 64) (h : placeRange t m v pos [] = some q) :
    0 < pos ∧ (pos = v.size ∨ t.trivialMove = true) := by
  rw [placeRange] at h
  split at h
  · cases h
  · rename_i last hlast
    obtain ⟨⟨m₁, slots₁⟩, hshift, -⟩ := Option.bind_eq_some_iff.mp h
    simp only [List.length_nil, Nat.add_zero, Nat.mod_eq_of_lt hw] at hshift
    have hlt := pos_of_shiftUp hshift
    refine ⟨hlt, or_iff_not_imp_left.mpr fun hne => ?_⟩
    obtain ⟨last, rfl⟩ := Nat.exists_eq_add_of_le' (show 1 ≤ last by omega)
    rw [shiftUp, if_pos (by omega)] at hshift
    obtain ⟨q₁, hbody, -⟩ := Option.bind_eq_some_iff.mp hshift
    obtain ⟨slots₂, hmove, -⟩ := Option.bind_eq_some_iff.mp hbody
    rw [Nat.sub_zero, moveWithin, if_pos rfl] at hmove
    by_contra htrivial
    rw [if_neg htrivial] at hmove
    cases hmove

theorem placeRange_self (hc : v.Contains es) (hpos : pos ≤ v.size) (hlt : 0 < pos)
    (hw : pos < 2 ^ 64) (hends : pos = v.size ∨ t.trivialMove = true) (m : Memory) :
    placeRange t m v pos [] = some (m, v, .ok pos) := by
  obtain ⟨last, hlast⟩ := Nat.exists_eq_add_of_le' (show 1 ≤ v.size by omega)
  have hshift : shiftUp t m v.slots pos 0 last = some (m, v.slots) := by
    rcases hends with rfl | ht
    · exact shiftUp_idle hlt (by omega) m v.slots
    · exact shiftUp_self ht hlt (fun i hi => hc.live (by omega)) m
  rw [placeRange]
  simp only [hlast, List.length_nil, Nat.add_zero, Nat.mod_eq_of_lt hw]
  rw [hshift]
  simp only [Option.bind_eq_bind, Option.bind_some, constructAll, setSlots_self, Option.pure_def]

-- What insert has to do where it succeeds: the shifts of its loop, from a vector that still holds
-- the old elements, go from and to the positions of the old suffix, each once and never over a
-- live element, and it neither makes nor ends an element.
def Inserts (t : Elements α) (m : Memory) (v : Vector α) (es : List (Element α)) (pos : Nat)
    (values : List (Element α)) : Prop :=
  ∃ m' v' r, insert t m v pos values = some (m', v', r) ∧ ∀ q, r = .ok q →
    q = pos ∧ v'.Contains (es.take pos ++ values ++ es.drop pos) ∧ m'.elements = m.elements ∧
    shifts ((pos + values.length) % 2 ^ 64) values.length (v'.size - 1) =
      (List.range' pos (v.size - pos)).reverse.map (fun i => (i + values.length, i)) ∧
    (∃ (m₁ : Memory) (v₁ : Vector α) (slots : List (Slot α)), v₁.Contains es ∧
      insert t m v pos values =
        placeRange t m₁ { v₁ with size := v₁.size + values.length } pos values ∧
      shiftUp t m₁ v₁.slots ((pos + values.length) % 2 ^ 64) values.length (v'.size - 1) =
        some (m', slots) ∧
      Shifted t (m₁, v₁.slots) (shifts ((pos + values.length) % 2 ^ 64) values.length
        (v'.size - 1)) (m', slots)) ∧
    ∀ i ∈ touched ((pos + values.length) % 2 ^ 64) values.length (v'.size - 1) pos, i < v'.size

theorem reserve_cases (hc : v.Contains es) (t : Elements α) (m : Memory) (count : Nat) :
    (v.capacity < count ∧ t.allocates m.allocations = false ∧
      reserve t m v count = some (refuse m, v, .error .allocation)) ∨
    ¬(v.capacity < count ∧ t.allocates m.allocations = false) ∧
      ((reserve t m v count = none ∧ v.capacity < count ∧ room t count < v.size) ∨
      ∃ m' v', reserve t m v count = some (m', v', .ok ()) ∧ m'.elements = m.elements ∧
        v'.Contains es ∧
        v'.slots.length = if count ≤ v.capacity then v.slots.length else room t count) := by
  rcases Nat.lt_or_ge v.capacity count with hlt | hge
  · rcases ha : t.allocates m.allocations with _ | _
    · refine .inl ⟨hlt, rfl, ?_⟩
      rw [reserve, if_neg (Nat.not_le.mpr hlt)]
      simp only [allocate, ha]
      rfl
    · refine .inr ⟨by simp, ?_⟩
      rcases Nat.lt_or_ge (room t count) v.size with hr | hr
      · refine .inl ⟨?_, hlt, hr⟩
        by_contra hsome
        obtain ⟨⟨m', v', r⟩, hres⟩ := Option.ne_none_iff_exists'.mp hsome
        have hspec := reserve_spec hc hres
        cases hspec with
        | enough hle => omega
        | refused _ hf => cases ha.symm.trans hf
        | grown _ _ _ _ hc' hcap hlen =>
          have hsize := hc'.size.trans hc.size.symm
          have hle := hc'.le_slots
          omega
      · obtain ⟨m', v', hrun, hres⟩ := reserve_grown hc hlt ha hr
        refine .inr ⟨m', v', hrun, hres.growth.elements, hres.contains hc, ?_⟩
        rw [if_neg (Nat.not_le.mpr hlt)]
        cases hres with
        | enough hle => omega
        | grown _ _ _ _ _ _ hlen => exact hlen
  · refine .inr ⟨fun h => absurd h.1 (Nat.not_lt.mpr hge), .inr ⟨m, v, if_pos hge, rfl, hc, ?_⟩⟩
    rw [if_pos hge]

theorem of_placeRange (h : placeRange t m v pos values = some (m', v', r')) :
    r' = .ok pos ∧ ∃ slots, v' = v.setSlots slots := by
  rw [placeRange] at h
  split at h
  · cases h
  · obtain ⟨⟨m₁, slots₁⟩, -, h⟩ := Option.bind_eq_some_iff.mp h
    obtain ⟨slots₂, -, h⟩ := Option.bind_eq_some_iff.mp h
    cases h
    exact ⟨rfl, slots₂, rfl⟩

theorem not_inserts_wrapped (hc : v.Contains es) (hc₁ : v'.Contains es) (hpos : pos ≤ v.size)
    (hn : values.length < 2 ^ 64) (hw : ¬v.size + values.length < 2 ^ 64)
    (h : insert t m v pos values =
      (resizeInPlace m' v' ((v.size + values.length) % 2 ^ 64)).bind fun q =>
        placeRange t q.1 q.2 pos values) : ¬Inserts t m v es pos values := by
  rintro ⟨m₃, v₃, r, hrun, hok⟩
  have hsize : v'.size = v.size := hc₁.size.trans hc.size.symm
  generalize hk : (v.size + values.length) % 2 ^ 64 = k at h
  have hlt : k < v'.size := by omega
  obtain ⟨m₂, v₂, hpop, hc₂, -⟩ := hc₁.popTo m' k
  rw [resizeInPlace, if_pos hlt, hpop, hrun] at h
  obtain ⟨rfl, slots, rfl⟩ := of_placeRange h.symm
  obtain ⟨-, hc₃, -⟩ := hok pos rfl
  have hcount := hc₃.size
  have htake : (es.take k).length = k :=
    List.length_take_of_le (hc₁.size ▸ Nat.le_of_lt hlt)
  have hes := hc.size
  rw [size_setSlots, hc₂.size, htake] at hcount
  simp only [List.length_append, List.length_take, List.length_drop] at hcount
  omega

theorem inserts_range (hc : v.Contains es) (hc₁ : v'.Contains es) (hpos : pos ≤ v.size)
    (hn : 0 < values.length) (hw : v.size + values.length < 2 ^ 64)
    (helem : m'.elements = m.elements)
    (h : insert t m v pos values =
      placeRange t m' { v' with size := v.size + values.length } pos values) :
    Inserts t m v es pos values ↔ v.size + values.length ≤ v'.slots.length := by
  have hsize : v.size = v'.size := hc.size.trans hc₁.size.symm
  rw [hsize] at hpos hw h ⊢
  constructor
  · rintro ⟨m₂, v₂, r, hrun, -⟩
    exact room_of_placeRange hpos hn hw (h.symm.trans hrun)
  · intro hroom
    obtain ⟨v₂, hrun, hc₂, slots₁, hloop, hshifted⟩ :=
      placeRange_spec (t := t) hc₁ hpos hn hw hroom m'
    refine ⟨m', v₂, .ok pos, h.trans hrun, ?_⟩
    rintro q ⟨⟩
    obtain ⟨-, slots, rfl⟩ := of_placeRange hrun
    have hshifts : shifts ((pos + values.length) % 2 ^ 64) values.length
        (v'.size + values.length - 1) =
          (List.range' pos (v.size - pos)).reverse.map (fun i => (i + values.length, i)) := by
      rw [Nat.mod_eq_of_lt (by omega)]
      exact shifts_spec hn (by omega)
    rw [← Nat.mod_eq_of_lt (show pos + values.length < 2 ^ 64 by omega)] at hloop hshifted
    refine ⟨rfl, hc₂, helem, hshifts, ⟨m', v', slots₁, hc₁, h, hloop, hshifted⟩, fun i hi => ?_⟩
    rw [touched, size_setSlots, hshifts, List.mem_append, List.mem_flatMap] at hi
    show i < v'.size + values.length
    rcases hi with ⟨s, hs, hi⟩ | hi
    · obtain ⟨j, hj, rfl⟩ := List.mem_map.mp hs
      have hj := List.mem_range'_1.mp (List.mem_reverse.mp hj)
      simp only [List.mem_cons, List.not_mem_nil, or_false] at hi
      omega
    · have hi := List.mem_range'_1.mp hi
      omega

theorem inserts_empty (hc : v.Contains es) (hc₁ : v'.Contains es) (hpos : pos ≤ v.size)
    (hw : v.size < 2 ^ 64) (helem : m'.elements = m.elements)
    (h : insert t m v pos [] = placeRange t m' { v' with size := v.size } pos []) :
    Inserts t m v es pos [] ↔ pos = v.size ∧ 0 < v.size := by
  have hsize : v.size = v'.size := hc.size.trans hc₁.size.symm
  rw [hsize] at hpos hw h ⊢
  constructor
  · rintro ⟨m₂, v₂, r, hrun, hok⟩
    have hplace := h.symm.trans hrun
    obtain ⟨hlt, -⟩ := placeRange_empty (v := v') hpos (by omega) hplace
    obtain ⟨rfl, slots, rfl⟩ := of_placeRange hplace
    obtain ⟨-, hc₂, -, -, ⟨m₃, v₃, slots₃, hc₃, -, -, hshifted⟩, -⟩ := hok pos rfl
    have hsize₃ : v₃.size = v'.size := hc₃.size.trans hc₁.size.symm
    refine ⟨?_, by omega⟩
    by_contra hne
    obtain ⟨last, hlast⟩ := Nat.exists_eq_add_of_le' (show 2 ≤ v'.size by omega)
    rw [size_setSlots, List.length_nil, Nat.add_zero, Nat.mod_eq_of_lt (by omega),
      hlast] at hshifted
    rw [show last + 2 - 1 = last + 1 from rfl, shifts, if_pos (by omega)] at hshifted
    cases hshifted with
    | next hvacant hshift hrest =>
      obtain ⟨s, hs, hvac⟩ := hvacant
      obtain ⟨e, he⟩ := hc₃.live (i := last + 1) (by omega)
      cases he.symm.trans hs
      cases hvac
  · rintro ⟨hend, hlt⟩
    have hrun := placeRange_self (t := t) hc₁ hpos (hend ▸ hlt) (by omega) (.inl hend) m'
    refine ⟨m', v', .ok pos, h.trans hrun, ?_⟩
    rintro q ⟨⟩
    have hes : es.take pos ++ [] ++ es.drop pos = es := by simp
    have hbound : (pos + ([] : List (Element α)).length) % 2 ^ 64 = pos := Nat.mod_eq_of_lt (by
      rw [List.length_nil]
      omega)
    rw [hes, hbound, touched, shifts_idle (by omega), hsize, hend, Nat.sub_self]
    have hidle : shiftUp t m' v'.slots v'.size 0 (v'.size - 1) = some (m', v'.slots) :=
      shiftUp_idle hlt (by omega) m' v'.slots
    refine ⟨rfl, hc₁, helem, rfl, ⟨m', v', v'.slots, hc₁, hend ▸ h, hidle, .done _⟩, ?_⟩
    rintro i ⟨⟩

theorem inserts_iff (hc : v.Contains es) (hpos : pos ≤ v.size) (hn : values.length < 2 ^ 64) :
    Inserts t m v es pos values ↔
      v.capacity < v.insertCount values.length ∧ t.allocates m.allocations = false ∨
      v.size + values.length < 2 ^ 64 ∧ (0 < values.length ∨ pos = v.size ∧ 0 < v.size) ∧
        v.size + values.length ≤ insertRoom t v values.length := by
  have heq := insert_eq (t := t) hc m pos values
  rcases reserve_cases hc t m (v.insertCount values.length) with
    ⟨hlt, ha, hres⟩ | ⟨hgiven, ⟨hres, hlt, hr⟩ | ⟨m₁, v₁, hres, helem, hc₁, hlen⟩⟩
  · refine iff_of_true ⟨_, _, _, heq.trans (by rw [hres]; rfl), ?_⟩ (.inl ⟨hlt, ha⟩)
    rintro q ⟨⟩
  · rw [hres] at heq
    refine iff_of_false ?_ ?_
    · rintro ⟨m', v', r, hrun, -⟩
      cases heq.symm.trans hrun
    · rintro (h | ⟨-, -, hle⟩)
      · exact hgiven h
      · rw [insertRoom, if_neg (Nat.not_le.mpr hlt)] at hle
        omega
  · have hsize : v₁.size = v.size := hc₁.size.trans hc.size.symm
    have hlen : v₁.slots.length = insertRoom t v values.length := hlen
    rw [hres] at heq
    by_cases hw : v.size + values.length < 2 ^ 64
    · rw [Nat.mod_eq_of_lt hw] at heq
      simp only [Option.bind_some, resizeInPlace] at heq
      rw [if_neg (by omega), Option.bind_some] at heq
      rw [or_iff_right hgiven, and_iff_right hw, ← hlen]
      rcases List.eq_nil_or_concat' values with rfl | ⟨ys, y, rfl⟩
      · have hroom : v.size + ([] : List (Element α)).length ≤ v₁.slots.length :=
          hsize ▸ hc₁.le_slots
        rw [inserts_empty hc hc₁ hpos (by omega) helem heq, and_iff_left hroom]
        simp
      · have hpos' : 0 < (ys ++ [y]).length := by simp
        rw [inserts_range hc hc₁ hpos hpos' hw helem heq, and_iff_right (.inl hpos')]
    · refine iff_of_false (not_inserts_wrapped hc hc₁ hpos hn hw heq) ?_
      rintro (h | ⟨h, -⟩)
      · exact hgiven h
      · exact hw h

theorem inserts_iff_front :
    Inserts grudging wornMemory worn [⟨0, 7⟩] 0 [⟨1, 9⟩] ↔
      worn.capacity < worn.insertCount 1 ∧ grudging.allocates wornMemory.allocations = false ∨
      worn.size + 1 < 2 ^ 64 ∧ (0 < 1 ∨ 0 = worn.size ∧ 0 < worn.size) ∧
        worn.size + 1 ≤ insertRoom grudging worn 1 :=
  inserts_iff contains_worn (Nat.zero_le _) (show 1 < 2 ^ 64 by decide)

def single : Vector Nat := { data := some ⟨0, [.live ⟨0, 7⟩]⟩, size := 1, capacity := 1 }

theorem contains_single : single.Contains [⟨0, 7⟩] :=
  ⟨rfl, ⟨[], rfl, by rintro _ ⟨⟩⟩, Nat.le_refl 1⟩

theorem not_inserts_emptyRange :
    (do
      let (m, v, _) ← reserve grudging {} {} 1
      pushBackCopy grudging m v 7) = some (wornMemory, single, .ok ()) ∧
    single.Contains [⟨0, 7⟩] ∧ insert grudging wornMemory single 0 [] = none ∧
    insert grudging {} ({} : Vector Nat) 0 [] = none ∧
    ¬Inserts grudging wornMemory single [⟨0, 7⟩] 0 [] ∧ ¬Inserts grudging {} {} [] 0 [] := by
  have hsingle : insert grudging wornMemory single 0 [] = none := by rfl
  have hempty : insert grudging {} ({} : Vector Nat) 0 [] = none := by rfl
  refine ⟨by rfl, contains_single, hsingle, hempty, ?_, ?_⟩
  · rintro ⟨m', v', r, hrun, -⟩
    cases hsingle.symm.trans hrun
  · rintro ⟨m', v', r, hrun, -⟩
    cases hempty.symm.trans hrun

end Vector

end Corosig.Container
