import Corosig.Container.VectorInsert
import Corosig.Container.VectorResized

namespace Corosig.Container
open Custody

namespace Vector

variable {α : Type} {t : Elements α} {m m' : Memory} {v v' : Vector α} {e : Element α}
  {es values : List (Element α)} {r : Except VectorError Unit} {count n pos : Nat} {arg : Arg α}
  {x : α}

inductive Growing (α : Type) where
  | pushBack (e : Element α)
  | pushBackCopy (value : α)
  | insert (pos : Nat) (values : List (Element α))
  | resize (count : UInt64) (arg : Arg α)
  | resizeUninitialized (count : UInt64)

def done (q : Memory × Vector α × Except VectorError Nat) :
    Memory × Vector α × Except VectorError Unit :=
  (q.1, q.2.1, q.2.2.map fun _ => ())

def Growing.perform (t : Elements α) (m : Memory) (v : Vector α) :
    Growing α → Option (Memory × Vector α × Except VectorError Unit)
  | .pushBack e => v.pushBack t m e
  | .pushBackCopy value => v.pushBackCopy t m value
  | .insert pos values => (v.insert t m pos values).map done
  | .resize count arg => v.resize t m count.toNat arg
  | .resizeUninitialized count => v.resizeUninitialized t m count.toNat

def Growing.resulting (v : Vector α) : Growing α → Nat
  | .pushBack _ => v.size + 1
  | .pushBackCopy _ => v.size + 1
  | .insert _ values => v.size + values.length
  | .resize count _ => count.toNat
  | .resizeUninitialized count => count.toNat

def Growing.Called (v : Vector α) : Growing α → Prop
  | .insert pos _ => pos ≤ v.size
  | .resize _ arg => ∃ x, arg.read v = some x
  | _ => True

def InPlace (m : Memory) (v : Vector α)
    (call : Option (Memory × Vector α × Except VectorError Unit)) : Prop :=
  ∃ m' v', call = some (m', v', .ok ()) ∧ m'.allocations = m.allocations ∧
    v'.buffers = v.buffers ∧ v'.capacity = v.capacity

-- reserve is asked for no more than the capacity, and the slots that are used are there. An empty
-- range is not put in front, and before the end only where elements may be moved onto themselves.
def Growing.Settled (t : Elements α) (v : Vector α) : Growing α → Prop
  | .pushBack _ => v.size < v.slots.length
  | .pushBackCopy _ => v.size < v.slots.length
  | .insert pos values =>
      (v.size + values.length < v.capacity → max 16 (v.size * 2 % 2 ^ 64) ≤ v.capacity) ∧
      (0 < values.length ∨ 0 < pos ∧ (pos = v.size ∨ t.trivialMove = true)) ∧
      v.size + values.length ≤ v.slots.length
  | .resize count _ =>
      count.toNat ≤ v.size ∨
      (v.size + count.toNat) % 2 ^ 64 ≤ v.capacity ∧ count.toNat ≤ v.slots.length
  | .resizeUninitialized _ => True

theorem room_of_pushBack (hlt : v.size < v.capacity)
    (h : pushBack t m v e = some (m', v', r)) : v.size < v.slots.length := by
  rw [pushBack, grow, if_neg (Nat.ne_of_lt hlt)] at h
  simp only [Option.bind_eq_bind, Option.bind_some] at h
  obtain ⟨slots, hcon, -⟩ := Option.bind_eq_some_iff.mp h
  exact lt_of_construct hcon

theorem inPlace_pushBack (hc : v.Contains es) (hlt : v.size < v.capacity) :
    InPlace m v (pushBack t m v e) ↔ v.size < v.slots.length := by
  constructor
  · rintro ⟨m', v', hrun, -⟩
    exact room_of_pushBack hlt hrun
  · intro hroom
    obtain ⟨v', hrun, -, -, -, hcap, hbuf⟩ := pushBack_room (t := t) hc hroom m e
    exact ⟨m, v', hrun, rfl, hbuf, hcap⟩

theorem inPlace_pushTemporary (hc : v.Contains es) (hlt : v.size < v.capacity) :
    InPlace m v (pushTemporary t m v e) ↔ v.size < v.slots.length := by
  rw [← inPlace_pushBack (t := t) (m := m) (e := e) hc hlt, pushTemporary]
  rcases pushBack t m v e with _ | ⟨m', v', err | ⟨⟩⟩
  · rfl
  · refine iff_of_false ?_ ?_
    · rintro ⟨m₁, v₁, hrun, -⟩
      cases hrun
    · rintro ⟨m₁, v₁, hrun, -⟩
      cases hrun
  · rfl

theorem room_of_pushValues (hc : v.Contains es) (hroom : v.size + n ≤ v.capacity)
    (h : pushValues t m v arg n = some (m', v', r)) : v.size + n ≤ v.slots.length := by
  induction n generalizing m v es with
  | zero => exact hc.le_slots
  | succ n ih =>
    obtain ⟨x, -, h⟩ := Option.bind_eq_some_iff.mp h
    obtain ⟨⟨m₁, v₁, r₁⟩, hpush, h⟩ := Option.bind_eq_some_iff.mp h
    obtain ⟨q, hback, -⟩ := Option.bind_eq_some_iff.mp hpush
    have hlt := room_of_pushBack (by omega) hback
    obtain ⟨v₂, hrun, hc₂, hlen, hsize, hcap, -⟩ :=
      pushBack_room (t := t) hc hlt (make m x).1 (make m x).2
    rw [pushTemporary, hrun] at hpush
    cases hpush
    have hle := ih hc₂ (by omega) h
    omega

theorem not_inPlace_reserved {call : Option (Memory × Vector α × Except VectorError Unit)}
    (body : Memory → Vector α → Option (Memory × Vector α × Except VectorError Unit))
    (hc : v.Contains es) (hlt : v.capacity < count)
    (hcall : call = (reserve t m v count).bind fun q => match q.2.2 with
      | .error err => some (q.1, q.2.1, .error err)
      | .ok () => body q.1 q.2.1)
    (hkept : ∀ {m₁ v₁ m' v'}, Reserved t m v es count m₁ v₁ (.ok ()) →
      body m₁ v₁ = some (m', v', .ok ()) → v₁.capacity ≤ v'.capacity) :
    ¬InPlace m v call := by
  rintro ⟨m', v', hrun, -, -, hcap⟩
  rw [hcall] at hrun
  obtain ⟨⟨m₁, v₁, err | ⟨⟩⟩, hres, hbody⟩ := Option.bind_eq_some_iff.mp hrun
  · cases hbody
  · have hspec := reserve_spec hc hres
    have hle := hspec.capacity
    have hsame := hkept hspec hbody
    omega

theorem inPlace_resizeCopying (hc : v.Contains es) (hread : arg.read v = some x)
    (hlt : v.size < count) (hle : count ≤ v.capacity) :
    InPlace m v (resizeCopying t m v count arg) ↔
      (v.size + count) % 2 ^ 64 ≤ v.capacity ∧ count ≤ v.slots.length := by
  rcases Nat.lt_or_ge v.capacity ((v.size + count) % 2 ^ 64) with hgrow | hfit
  · refine iff_of_false ?_ fun h => absurd h.1 (Nat.not_le.mpr hgrow)
    have hcall : resizeCopying t m v count arg =
        (reserve t m v ((v.size + count) % 2 ^ 64)).bind fun q => match q.2.2 with
          | .error err => some (q.1, q.2.1, .error err)
          | .ok () => pushValues t q.1 q.2.1 arg (count - q.2.1.size) := rfl
    refine not_inPlace_reserved (fun m₁ v₁ => pushValues t m₁ v₁ arg (count - v₁.size)) hc hgrow
      hcall fun hspec hrun => ?_
    obtain ⟨added, hext, -⟩ := pushValues_spec (hspec.contains hc) hrun
    exact hext.capacity
  · have hrun : resizeCopying t m v count arg = pushValues t m v arg (count - v.size) := by
      rw [resizeCopying, reserve, if_pos hfit]
      rfl
    have hsum : v.size + (count - v.size) = count := by omega
    rw [hrun, and_iff_right hfit]
    constructor
    · rintro ⟨m', v', hpush, -⟩
      have hroom := room_of_pushValues hc (by omega) hpush
      rwa [hsum] at hroom
    · intro hroom
      obtain ⟨m', v', hpush, halloc, -, hcap, hbuf⟩ := pushValues_room (t := t)
        (n := count - v.size) hc (by omega) (into_of_read hread) (names_of_read hc hread) m
      exact ⟨m', v', hpush, halloc, hbuf, hcap⟩

theorem inPlace_resize (hc : v.Contains es) (hn : t.nothrowCopy = true)
    (hread : arg.read v = some x) (hle : count ≤ v.capacity) :
    InPlace m v (resize t m v count arg) ↔
      count ≤ v.size ∨ (v.size + count) % 2 ^ 64 ≤ v.capacity ∧ count ≤ v.slots.length := by
  rw [resize]
  split
  · rename_i heq
    exact iff_of_true ⟨m, v, rfl, rfl, rfl, rfl⟩ (.inl (Nat.le_of_eq heq))
  split
  · rename_i hgt
    obtain ⟨m', v', hrun, -, hcap, -, hbuf, hcalls, -⟩ := hc.popTo m count
    rw [hrun]
    exact iff_of_true ⟨m', v', rfl, hcalls.allocations, hbuf, hcap⟩ (.inl (Nat.le_of_lt hgt))
  · have hlt : v.size < count := by omega
    rw [or_iff_right (Nat.not_le.mpr hlt)]
    exact inPlace_resizeCopying hc hread hlt hle

theorem inPlace_resizeUninitialized (hc : v.Contains es) (hle : count ≤ v.capacity) :
    InPlace m v (resizeUninitialized t m v count) := by
  rw [resizeUninitialized_within hle, resizeInPlace]
  split
  · obtain ⟨m', v', hrun, -, hcap, -, hbuf, hcalls, -⟩ := hc.popTo m count
    rw [hrun]
    exact ⟨m', v', rfl, hcalls.allocations, hbuf, hcap⟩
  · exact ⟨m, { v with size := count }, rfl, rfl, rfl, rfl⟩

theorem inPlace_placed {r : Except VectorError Nat}
    (h : placeRange t m { v with size := n } pos values = some (m, v', r)) :
    InPlace m v ((placeRange t m { v with size := n } pos values).map done) := by
  obtain ⟨rfl, slots, rfl⟩ := of_placeRange h
  exact ⟨m, _, congrArg (Option.map done) h, rfl, buffers_setSlots _ slots, rfl⟩

theorem inPlace_placeRange (hc : v.Contains es) (hpos : pos ≤ v.size)
    (hw : v.size + values.length < 2 ^ 64) :
    InPlace m v ((placeRange t m { v with size := v.size + values.length } pos values).map done) ↔
      (0 < values.length ∨ 0 < pos ∧ (pos = v.size ∨ t.trivialMove = true)) ∧
        v.size + values.length ≤ v.slots.length := by
  rcases List.eq_nil_or_concat' values with rfl | ⟨ys, y, rfl⟩
  · have hle : v.size + ([] : List (Element α)).length ≤ v.slots.length := hc.le_slots
    have hnot : ¬0 < ([] : List (Element α)).length := Nat.lt_irrefl 0
    rw [or_iff_right hnot, and_iff_left hle]
    constructor
    · rintro ⟨m', v', hrun, -⟩
      obtain ⟨q, hplace, -⟩ := Option.map_eq_some_iff.mp hrun
      exact placeRange_empty (v := v) hpos (hpos.trans_lt hw) hplace
    · rintro ⟨hlt, hends⟩
      exact inPlace_placed (placeRange_self hc hpos hlt (hpos.trans_lt hw) hends m)
  · have hpos' : 0 < (ys ++ [y]).length := by simp
    rw [and_iff_right (.inl hpos')]
    constructor
    · rintro ⟨m', v', hrun, -⟩
      obtain ⟨q, hplace, -⟩ := Option.map_eq_some_iff.mp hrun
      exact room_of_placeRange hpos hpos' hw hplace
    · intro hroom
      obtain ⟨v', hrun, -⟩ := placeRange_spec (t := t) hc hpos hpos' hw hroom m
      exact inPlace_placed hrun

theorem inPlace_insert (hc : v.Contains es) (hcap : v.capacity < 2 ^ 64) (hpos : pos ≤ v.size)
    (hle : v.size + values.length ≤ v.capacity) :
    InPlace m v ((v.insert t m pos values).map done) ↔
      (v.size + values.length < v.capacity → max 16 (v.size * 2 % 2 ^ 64) ≤ v.capacity) ∧
      (0 < values.length ∨ 0 < pos ∧ (pos = v.size ∨ t.trivialMove = true)) ∧
      v.size + values.length ≤ v.slots.length := by
  have hw : v.size + values.length < 2 ^ 64 := hle.trans_lt hcap
  have hcount : v.insertCount values.length ≤ v.capacity ↔
      (v.size + values.length < v.capacity → max 16 (v.size * 2 % 2 ^ 64) ≤ v.capacity) := by
    rw [insertCount, Nat.mod_eq_of_lt hw]
    split
    · rename_i hlt
      exact ⟨fun h _ => h, fun h => h hlt⟩
    · rename_i hge
      exact iff_of_true hle fun hlt => absurd hlt hge
  have heq := insert_eq (t := t) hc m pos values
  rw [Nat.mod_eq_of_lt hw] at heq
  rw [← hcount, ← inPlace_placeRange (t := t) (m := m) hc hpos hw]
  rcases Nat.lt_or_ge v.capacity (v.insertCount values.length) with hgrow | hfit
  · refine iff_of_false ?_ fun h => absurd h.1 (Nat.not_le.mpr hgrow)
    have hcall : (v.insert t m pos values).map done =
        (reserve t m v (v.insertCount values.length)).bind fun q => match q.2.2 with
          | .error err => some (q.1, q.2.1, .error err)
          | .ok () => ((resizeInPlace q.1 q.2.1 (v.size + values.length)).bind fun q =>
              placeRange t q.1 q.2 pos values).map done := by
      rw [heq]
      rcases reserve t m v (v.insertCount values.length) with _ | ⟨m₁, v₁, err | ⟨⟩⟩ <;> rfl
    refine not_inPlace_reserved (fun m₁ v₁ => ((resizeInPlace m₁ v₁ _).bind _).map done) hc hgrow
      hcall fun {m₁ v₁ m' v'} hspec hrun => ?_
    have hsize : v₁.size = v.size := (hspec.contains hc).size.trans hc.size.symm
    have hlt : ¬v.size + values.length < v₁.size := by omega
    simp only [resizeInPlace, if_neg hlt, Option.bind_some] at hrun
    obtain ⟨⟨m₂, v₂, r₂⟩, hplace, hr⟩ := Option.map_eq_some_iff.mp hrun
    obtain ⟨rfl, slots, rfl⟩ := of_placeRange hplace
    cases hr
    exact Nat.le_refl v₁.capacity
  · have hlt : ¬v.size + values.length < v.size := by omega
    rw [reserve, if_pos hfit, Option.bind_some, resizeInPlace, if_neg hlt, Option.bind_some] at heq
    rw [and_iff_right hfit, heq]

theorem inPlace_iff (call : Growing α) (hw : v.WellFormed) (hn : t.nothrowCopy = true)
    (hcall : call.Called v) (hle : call.resulting v ≤ v.capacity) :
    InPlace m v (call.perform t m v) ↔ call.Settled t v := by
  obtain ⟨⟨es, hc⟩, hcap⟩ := hw
  cases call with
  | pushBack e => exact inPlace_pushBack hc hle
  | pushBackCopy x =>
    have hrun : pushBackCopy t m v x = pushTemporary t (make m x).1 v (make m x).2 := by
      rw [pushBackCopy, clone, if_pos hn]
    exact (congrArg (InPlace m v) hrun).to_iff.trans
      (inPlace_pushTemporary (m := (make m x).1) hc hle)
  | insert pos values => exact inPlace_insert hc hcap hcall hle
  | resize count arg =>
    obtain ⟨x, hread⟩ := hcall
    exact inPlace_resize hc hn hread hle
  | resizeUninitialized count => exact iff_of_true (inPlace_resizeUninitialized hc hle) trivial

theorem inPlace_iff_worn :
    InPlace wornMemory worn (Growing.perform grudging wornMemory worn (.pushBackCopy 5)) ↔
      Growing.Settled grudging worn (.pushBackCopy 5) :=
  inPlace_iff (.pushBackCopy 5) wellFormed_worn rfl trivial (Nat.le_refl 2)

example :
    Growing.perform { grudging with trivialMove := true } wornMemory
      { data := some ⟨0, [.live ⟨0, 1⟩, .live ⟨1, 2⟩]⟩, size := 2, capacity := 2 }
      (.insert 1 []) =
    some (wornMemory,
      { data := some ⟨0, [.live ⟨0, 1⟩, .live ⟨1, 2⟩]⟩, size := 2, capacity := 2 }, .ok ()) := by
  decide

def spacious : Vector Nat :=
  { data := some ⟨0, [.live ⟨0, 7⟩, .raw, .raw]⟩, size := 1, capacity := 3 }

theorem wellFormed_spacious : spacious.WellFormed :=
  ⟨⟨[⟨0, 7⟩], rfl, ⟨[.raw, .raw], rfl, by decide⟩, Nat.le_refl 3⟩, by decide⟩

theorem not_inPlace_spacious :
    (do
      let (m, v, _) ← reserve grudging {} {} 3
      pushBackCopy grudging m v 7) = some (wornMemory, spacious, .ok ()) ∧
    spacious.WellFormed ∧
    (∃ m v, Growing.perform grudging wornMemory spacious (.resize 3 (.value 5)) =
      some (m, v, .error .allocation)) ∧
    (∃ m v, Growing.perform grudging wornMemory spacious (.insert 1 [⟨1, 9⟩]) =
      some (m, v, .error .allocation)) ∧
    ¬InPlace wornMemory spacious
      (Growing.perform grudging wornMemory spacious (.resize 3 (.value 5))) ∧
    ¬InPlace wornMemory spacious
      (Growing.perform grudging wornMemory spacious (.insert 1 [⟨1, 9⟩])) := by
  have hresize : Growing.perform grudging wornMemory spacious (.resize 3 (.value 5)) =
      some (refuse wornMemory, spacious, .error .allocation) := by rfl
  have hinsert : Growing.perform grudging wornMemory spacious (.insert 1 [⟨1, 9⟩]) =
      some (refuse wornMemory, spacious, .error .allocation) := by rfl
  refine ⟨by rfl, wellFormed_spacious, ⟨_, _, hresize⟩, ⟨_, _, hinsert⟩, ?_, ?_⟩
  · rintro ⟨m, v, hrun, -⟩
    cases hresize.symm.trans hrun
  · rintro ⟨m, v, hrun, -⟩
    cases hinsert.symm.trans hrun

end Vector

end Corosig.Container
