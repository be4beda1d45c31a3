import Corosig.Container.VectorCalls

namespace Corosig.Container
open Custody

namespace Vector

variable {α : Type} {t : Elements α} {m m' : Memory} {v v' copies : Vector α}
  {es cs : List (Element α)} {count n : Nat} {arg : Arg α} {x : α}

theorem Arg.Names.unique {y : α} (hx : arg.Names es x) (hy : arg.Names es y) : x = y := by
  cases arg with
  | value z => exact hx.symm.trans hy
  | slot buffer j => exact Option.some.inj (hx.symm.trans hy)

def Arg.Into (v : Vector α) : Arg α → Prop
  | .value _ => True
  | .slot buffer _ => v.buffers = [buffer]

def Arg.isValue : Arg α → Bool
  | .value _ => true
  | .slot _ _ => false

theorem into_of_isValue (h : arg.isValue = true) : arg.Into v := by
  cases arg with
  | value y => trivial
  | slot buffer j => cases h

theorem into_of_read (h : arg.read v = some x) : arg.Into v := by
  cases arg with
  | value y => trivial
  | slot buffer j =>
    rw [Arg.read] at h
    split at h
    · cases h
    · rename_i b hb
      split at h
      · split at h
        · rename_i hid
          simp [Arg.Into, buffers, hb, hid]
        · cases h
      · cases h

theorem read_of_names (hc : v.Contains es) (hi : arg.Into v) (hx : arg.Names es x) :
    arg.read v = some x := by
  cases arg with
  | value y => exact congrArg some hx
  | slot buffer j =>
    obtain ⟨e, he, rfl⟩ := Option.map_eq_some_iff.mp hx
    obtain ⟨-, ⟨rest, hslots, -⟩, -⟩ := hc
    have hj : v.slots[j]? = some (.live e) := by
      obtain ⟨hlt, -⟩ := List.getElem?_eq_some_iff.mp he
      rw [hslots, List.getElem?_append_left (by simpa using hlt), List.getElem?_map, he]
      rfl
    cases hd : v.data with
    | none => simp [Arg.Into, buffers, hd] at hi
    | some b =>
      have hid : b.id = buffer := by simpa [Arg.Into, buffers, hd] using hi
      have hb : b.slots[j]? = some (.live e) := by simpa [slots, hd] using hj
      simp [Arg.read, hd, hb, hid]

theorem Arg.Names.append (h : arg.Names es x) (cs : List (Element α)) :
    arg.Names (es ++ cs) x := by
  cases arg with
  | value y => exact h
  | slot buffer j =>
    obtain ⟨e, he, hx⟩ := Option.map_eq_some_iff.mp h
    obtain ⟨hlt, -⟩ := List.getElem?_eq_some_iff.mp he
    exact Option.map_eq_some_iff.mpr ⟨e, by rw [List.getElem?_append_left hlt, he], hx⟩

theorem pushBack_room (hc : v.Contains es) (hlt : v.size < v.slots.length) (m : Memory)
    (e : Element α) :
    ∃ v', pushBack t m v e = some (m, v', .ok ()) ∧ v'.Contains (es ++ [e]) ∧
      v'.slots.length = v.slots.length ∧ v'.size = v.size + 1 ∧ v'.capacity = v.capacity ∧
      v'.buffers = v.buffers := by
  obtain ⟨slots, hcon⟩ := construct_total hc hlt e
  obtain ⟨hc', hlen⟩ := hc.construct hcon
  refine ⟨{ v.setSlots slots with size := v.size + 1 }, ?_, hc',
    (congrArg List.length (slots_setSlots hlen)).trans hlen, rfl, rfl, buffers_resized v _ _⟩
  rw [pushBack, grow, if_neg (Nat.ne_of_lt (hlt.trans_le hc.room))]
  simp only [Option.bind_eq_bind, Option.bind_some, hcon]
  rfl

theorem Arg.Into.of_buffers (h : arg.Into v) (hb : v'.buffers = v.buffers) : arg.Into v' := by
  cases arg with
  | value y => trivial
  | slot buffer j => exact hb.trans h

theorem pushValues_room (hc : v.Contains es) (hroom : v.size + n ≤ v.slots.length)
    (hi : arg.Into v) (hx : arg.Names es x) (m : Memory) :
    ∃ m' v', pushValues t m v arg n = some (m', v', .ok ()) ∧ m'.allocations = m.allocations ∧
      v'.slots.length = v.slots.length ∧ v'.capacity = v.capacity ∧ v'.buffers = v.buffers := by
  induction n generalizing m v es with
  | zero => exact ⟨m, v, rfl, rfl, rfl, rfl, rfl⟩
  | succ n ih =>
    obtain ⟨v₁, hrun, hc₁, hlen, hsize, hcap, hbuf⟩ :=
      pushBack_room (t := t) hc (by omega) (make m x).1 (make m x).2
    obtain ⟨m', v', hrun', halloc, hlen', hcap', hbuf'⟩ :=
      ih hc₁ (by omega) (hi.of_buffers hbuf) (hx.append _) (make m x).1
    refine ⟨m', v', ?_, halloc, hlen'.trans hlen, hcap'.trans hcap, hbuf'.trans hbuf⟩
    rw [pushValues, read_of_names hc hi hx]
    simp only [Option.bind_eq_bind, Option.bind_some, pushTemporary, hrun]
    exact hrun'

theorem pushBack_within (hc : v.Contains es) (hb : v.Backed t) (hlt : v.size < v.capacity)
    (m : Memory) (e : Element α) :
    ∃ v', pushBack t m v e = some (m, v', .ok ()) ∧ v'.Contains (es ++ [e]) ∧ v'.Backed t ∧
      v'.size = v.size + 1 ∧ v'.capacity = v.capacity := by
  obtain ⟨v', hrun, hc', hlen, hsize, hcap, -⟩ :=
    pushBack_room (t := t) hc (hb.length ▸ hlt) m e
  exact ⟨v', hrun, hc', ⟨hlen.trans (hb.length.trans hcap.symm), hcap ▸ hb.fits⟩, hsize, hcap⟩

theorem pushValues_total (hc : v.Contains es) (hb : v.Backed t) (hroom : v.size + n ≤ v.capacity)
    (hi : arg.Into v) (hx : arg.Names es x) (m : Memory) :
    ∃ m' v', pushValues t m v arg n = some (m', v', .ok ()) ∧ v'.Backed t := by
  obtain ⟨m', v', hrun, -, hlen, hcap, -⟩ :=
    pushValues_room (t := t) hc (hroom.trans_eq hb.length.symm) hi hx m
  exact ⟨m', v', hrun, hlen.trans (hb.length.trans hcap.symm), hcap ▸ hb.fits⟩

theorem pushMoves_total {k : Nat} {rest : List (Slot α)} (hc : v.Contains es) (hb : v.Backed t)
    (hcopies : copies.slots = List.replicate k .shell ++ cs.map .live ++ rest)
    (hroom : v.size + cs.length ≤ v.capacity) (m : Memory) :
    ∃ m' v' copies', pushMoves t m v copies k cs.length = some (m', v', copies', .ok ()) ∧
      v'.Backed t := by
  induction cs generalizing m v copies es k with
  | nil => exact ⟨m, v, copies, rfl, hb⟩
  | cons e cs ih =>
    rw [List.length_cons] at hroom
    have hmid : copies.slots = List.replicate k .shell ++ .live e :: (cs.map .live ++ rest) := by
      simpa using hcopies
    have hout : moveOut copies.slots k = some (e,
        List.replicate k .shell ++ .shell :: (cs.map .live ++ rest)) := by
      rw [hmid]
      exact moveOut_middle (by simp)
    have hslots : (copies.setSlots (List.replicate k .shell ++
          .shell :: (cs.map .live ++ rest))).slots =
        List.replicate (k + 1) .shell ++ cs.map .live ++ rest :=
      (slots_setSlots (length_of_moveOut hout)).trans (by simp [List.replicate_succ'])
    obtain ⟨v₁, hrun, hc₁, hb₁, hsize, hcap⟩ := pushBack_within hc hb (by omega) m e
    obtain ⟨m', v', copies', hrun', hb'⟩ := ih hc₁ hb₁ hslots (by omega) m
    refine ⟨m', v', copies', ?_, hb'⟩
    rw [List.length_cons, pushMoves, hout]
    simp only [Option.bind_eq_bind, Option.bind_some, hrun]
    exact hrun'

theorem map_of_names {added : List (Element α)} (hlen : added.length = n)
    (hnames : ∀ e ∈ added, arg.Names es e.value) (hx : arg.Names es x) :
    added.map (·.value) = List.replicate n x := by
  refine List.eq_replicate_iff.mpr ⟨by rw [List.length_map, hlen], fun y hy => ?_⟩
  obtain ⟨e, he, rfl⟩ := List.mem_map.mp hy
  exact (hnames e he).unique hx

theorem resizeCopying_total (hc : v.Contains es) (hb : v.Backed t) (hlt : v.size < count)
    (hf : Fits t (v.size + count)) (hread : arg.read v = some x)
    (hkept : v.size + count ≤ v.capacity ∨ arg.isValue = true) (m : Memory) :
    ∃ m' v' r, resizeCopying t m v count arg = some (m', v', r) ∧ v'.Backed t := by
  obtain ⟨m₁, v₁, r, hrun, hres, hb₁⟩ := reserve_total hc hb hf m
  have hc₁ := hres.contains hc
  rw [resizeCopying, Nat.mod_eq_of_lt hf.lt, hrun]
  rcases r with err | ⟨⟩
  · exact ⟨m₁, v₁, .error err, rfl, hb₁⟩
  have hi : arg.Into v₁ := by
    cases hres with
    | enough _ => exact into_of_read hread
    | grown hgrow _ _ _ _ _ _ =>
      exact into_of_isValue (hkept.resolve_left (Nat.not_le.mpr hgrow))
  have hsize : v₁.size = v.size := hc₁.size.trans hc.size.symm
  have hcap := hres.capacity
  obtain ⟨m', v', hpush, hb'⟩ := pushValues_total (n := count - v₁.size) hc₁ hb₁ (by omega) hi
    (names_of_read hc hread) m₁
  exact ⟨m', v', .ok (), hpush, hb'⟩

theorem resizeCloning_total (hc : v.Contains es) (hb : v.Backed t) (hlt : v.size < count)
    (hf : Fits t (v.size + count)) (hread : arg.read v = some x) (m : Memory) :
    ∃ m' v' r, resizeCloning t m v count arg = some (m', v', r) ∧ v'.Backed t := by
  obtain ⟨m₁, copies, r, hrun₁, hres₁, hb₁⟩ := reserve_total contains_empty (backed_empty t)
    (hf.mono (Nat.le_add_left count v.size)) m
  have hc₁ := hres₁.contains contains_empty
  rw [resizeCloning, hrun₁]
  rcases r with err | ⟨⟩
  · obtain ⟨m₂, hdrop, -⟩ := hc₁.drop m₁
    simp only [Option.bind_eq_bind, Option.bind_some, hdrop]
    exact ⟨m₂, v, .error err, rfl, hb⟩
  have hcap₁ := hres₁.capacity
  have hroom : copies.size + (List.replicate (count - v.size) x).length ≤ copies.capacity := by
    rw [hc₁.size, List.length_replicate, List.length_nil]
    omega
  obtain ⟨m₂, copies₂, r, hrun₂, hb₂⟩ := pushClones_total hc₁ hb₁
    ((grown_of_le hroom).symm ▸ hb₁.fits) m₁
  obtain ⟨cs, hcs, hvalues⟩ := pushClones_spec hc₁ hrun₂
  simp only [Option.bind_eq_bind, Option.bind_some, hread, hrun₂]
  rcases r with err | ⟨⟩
  · obtain ⟨m₃, hdrop, -⟩ := hcs.contains.drop m₂
    simp only [hdrop]
    exact ⟨m₃, v, .error err, rfl, hb⟩
  obtain ⟨m₃, v₃, r, hrun₃, hres₃, hb₃⟩ := reserve_total hc hb hf m₂
  have hc₃ := hres₃.contains hc
  simp only [Nat.mod_eq_of_lt hf.lt, hrun₃, Option.bind_some]
  rcases r with err | ⟨⟩
  · obtain ⟨m₄, hdrop, -⟩ := hcs.contains.drop m₃
    simp only [hdrop]
    exact ⟨m₄, v₃, .error err, rfl, hb₃⟩
  have hlen : cs.length = count - v.size := by
    rw [← List.length_map (f := (·.value)), hvalues rfl, List.length_replicate]
  have hsize₃ : v₃.size = v.size := hc₃.size.trans hc.size.symm
  have hcap₃ := hres₃.capacity
  obtain ⟨hsize₂, ⟨rest, hslots₂, -⟩, -⟩ := hcs.contains
  have hmoved : copies₂.slots = List.replicate 0 .shell ++ cs.map .live ++ rest := hslots₂
  obtain ⟨m₄, v₄, copies₄, hrun₄, hb₄⟩ := pushMoves_total hc₃ hb₃ hmoved (by omega) m₃
  obtain ⟨a, b, hab, -, -, hslots₄, hsize₄, -, hok, -⟩ := pushMoves_spec hc₃ hmoved hrun₄
  have hnil : b = [] := hok rfl
  have hbuilt : ∀ s ∈ List.replicate (0 + a.length) (Slot.shell : Slot α), s.built = true := by
    intro s hs
    rw [List.eq_of_mem_replicate hs]
    rfl
  rw [hnil, List.map_nil, List.append_nil] at hslots₄
  rw [hnil, List.append_nil] at hab
  have hcount : copies₂.size = cs.length := hsize₂
  obtain ⟨m₅, hdrop, -⟩ := drop_spec _ hslots₄ (by simp [hsize₄, hcount, hab]) hbuilt m₄
  rw [hcount, hrun₄]
  simp only [Option.bind_some, hdrop]
  exact ⟨m₅, v₄, .ok (), rfl, hb₄⟩

theorem grown_performs {r : Except VectorError Unit} {added : List (Element α)}
    {call : Option (Memory × Vector α × Except VectorError Unit)} (hrun : call = some (m', v', r))
    (he : Extended m m' v v' es added) (hb : v'.Backed t)
    (hlen : r = .ok () → added.length = n) (hnames : ∀ e ∈ added, arg.Names es e.value)
    (herr : ∀ err, r = .error err → added = []) (hx : arg.Names es x) :
    Performs t m v es call (es.map (·.value) ++ List.replicate n x) := by
  rcases r with err | ⟨⟩
  · rw [herr err rfl] at he
    exact ⟨m', v', _, es, hrun, he.turns_same hb, rfl⟩
  · refine ⟨m', v', _, _, hrun, he.turns hb, ?_⟩
    rw [List.map_append, map_of_names (hlen rfl) hnames hx]
    rfl

def resized (xs : List α) (count : Nat) (x : α) : List α :=
  if count ≤ xs.length then xs.take count else xs ++ List.replicate (count - xs.length) x

theorem resize_performs (hc : v.Contains es) (hb : v.Backed t) (hread : arg.read v = some x)
    (hf : v.size < count → Fits t (v.size + count))
    (hkept : v.size < count → t.nothrowCopy = true →
      v.size + count ≤ v.capacity ∨ arg.isValue = true) (m : Memory) :
    Performs t m v es (resize t m v count arg) (resized (es.map (·.value)) count x) := by
  have hlen : (es.map (·.value)).length = v.size := by rw [List.length_map, hc.size]
  have hx := names_of_read hc hread
  rw [resize, resized, hlen]
  split
  · rename_i heq
    rw [if_pos (Nat.le_of_eq heq), heq, ← hlen, List.take_length]
    exact ⟨m, v, .ok (), es, rfl, turns_refl hc hb m, rfl⟩
  split
  · rename_i hgt
    rw [if_pos (Nat.le_of_lt hgt)]
    have hpop := popTimes_performs hc hb (Nat.sub_le v.size count) m
    have hleft : v.size - (v.size - count) = count := by omega
    rw [hleft] at hpop
    cases hrun : popTimes m v (v.size - count) <;> simpa [hrun] using hpop
  have hlt : v.size < count := by omega
  rw [if_neg (Nat.not_le.mpr hlt)]
  have hfits := hf hlt
  split
  · rename_i hn
    obtain ⟨m', v', r, hrun, hb'⟩ := resizeCopying_total hc hb hlt hfits hread (hkept hlt hn) m
    obtain ⟨added, he, hlen, hnames, herr⟩ := resizeCopying_spec hc hrun
    exact grown_performs hrun he hb' hlen hnames
      (fun err h => (herr err h hlt).1 hfits.lt) hx
  · rename_i hn
    obtain ⟨m', v', r, hrun, hb'⟩ := resizeCloning_total hc hb hlt hfits hread m
    obtain ⟨added, he, hlen, hnames, herr⟩ :=
      resizeCloning_spec (Bool.eq_false_iff.mpr hn) hc hlt hrun
    exact grown_performs hrun he hb' hlen hnames (fun err h => (herr err h).1 hfits.lt) hx

end Vector

end Corosig.Container
