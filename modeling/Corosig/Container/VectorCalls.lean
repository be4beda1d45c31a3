import Corosig.Container.VectorBacked
import Corosig.Container.VectorErase
import Corosig.Container.VectorErrors

namespace Corosig.Container
open Custody

namespace Vector

variable {α : Type} {t : Elements α} {m m' : Memory} {v v' copies : Vector α} {e : Element α}
  {es es' cs : List (Element α)} {r : Except VectorError Unit} {count n : Nat}
  {arg : Arg α} {x : α} {values xs : List α} {err : VectorError}

structure Turns (t : Elements α) (m m' : Memory) (v v' : Vector α) (es es' : List (Element α)) :
    Prop where
  contains : v'.Contains es'
  backed : v'.Backed t
  elements : ∀ l, Passes m.elements m'.elements (ids es ++ l) (ids es' ++ l)
  buffers : ∀ l, Passes m.buffers m'.buffers (v.buffers ++ l) (v'.buffers ++ l)

def outcome {β : Type} (r : Except VectorError Unit) (changed same : β) : β :=
  match r with
  | .ok () => changed
  | .error _ => same

def Performs (t : Elements α) (m : Memory) (v : Vector α) (es : List (Element α))
    (call : Option (Memory × Vector α × Except VectorError Unit)) (xs : List α) : Prop :=
  ∃ m' v' r es', call = some (m', v', r) ∧ Turns t m m' v v' es es' ∧
    es'.map (·.value) = outcome r xs (es.map (·.value))

theorem Extended.turns (h : Extended m m' v v' es cs) (hb : v'.Backed t) :
    Turns t m m' v v' es (es ++ cs) :=
  ⟨h.contains, hb, h.elements, h.buffers⟩

theorem Extended.turns_same (h : Extended m m' v v' es []) (hb : v'.Backed t) :
    Turns t m m' v v' es es := by
  simpa using h.turns hb

theorem turns_refl (hc : v.Contains es) (hb : v.Backed t) (m : Memory) : Turns t m m v v es es :=
  (extended_refl hc m).turns_same hb

theorem reserve_performs (hc : v.Contains es) (hb : v.Backed t) (hf : Fits t count) (m : Memory) :
    Performs t m v es (reserve t m v count) (es.map (·.value)) := by
  obtain ⟨m', v', r, hrun, hres, hb'⟩ := reserve_total hc hb hf m
  refine ⟨m', v', r, es, hrun, ?_, by cases r <;> rfl⟩
  exact (hres.growth.extended (hres.contains hc)).turns_same hb'

theorem pushTemporary_performs (hc : v.Contains es) (hb : v.Backed t)
    (hf : Fits t (nextCapacity v.size v.capacity)) (m : Memory) (x : α) :
    Performs t m v es (pushTemporary t (make m x).1 v (make m x).2) (es.map (·.value) ++ [x]) := by
  obtain ⟨m', v', r, hrun, hb', -⟩ := pushTemporary_total hc hb hf (make m x).1 (make m x).2
  have hspec := pushTemporary_spec hc hrun
  rcases r with err | ⟨⟩
  · obtain ⟨-, hext⟩ := hspec.extended_error hc
    exact ⟨m', v', _, es, hrun, hext.turns_same hb', rfl⟩
  · exact ⟨m', v', _, _, hrun, hspec.extended_ok.turns hb', by simp [make, outcome]⟩

theorem pushBackCopy_performs (hc : v.Contains es) (hb : v.Backed t)
    (hf : Fits t (nextCapacity v.size v.capacity)) (m : Memory) (x : α) :
    Performs t m v es (pushBackCopy t m v x) (es.map (·.value) ++ [x]) := by
  obtain ⟨m', v', r, hrun, hb', -⟩ := pushBackCopy_total hc hb hf m x
  cases pushBackCopy_spec hc hrun with
  | uncloned _ _ =>
    exact ⟨_, v, _, es, hrun, (extended_refl hc (attempt m)).attempt.turns_same hb', rfl⟩
  | refused _ hext => exact ⟨m', v, _, es, hrun, hext.turns_same hb', rfl⟩
  | copied hx hext _ _ =>
    exact ⟨m', v', _, _, hrun, hext.turns hb', by simp [hx, outcome]⟩

theorem popTimes_performs (hc : v.Contains es) (hb : v.Backed t) (hle : n ≤ v.size) (m : Memory) :
    Performs t m v es ((popTimes m v n).map fun (m, v) => (m, v, .ok ()))
      ((es.map (·.value)).take (v.size - n)) := by
  obtain ⟨m', v', hrun, hc', hcap, hslots, hbuf, hcalls, hp⟩ := hc.popTo m (v.size - n)
  rw [Nat.sub_sub_self hle] at hrun
  refine ⟨m', v', .ok (), es.take (v.size - n), by rw [hrun]; rfl,
    ⟨hc', ?_, hp, fun l => ?_⟩, List.map_take⟩
  · exact ⟨hslots.trans (hb.length.trans hcap.symm), hcap ▸ hb.fits⟩
  · rw [hbuf, hcalls.buffers]
    exact passes_refl _ _

theorem popTimes_one (m : Memory) (v : Vector α) : popTimes m v 1 = popBack m v := by
  rw [popTimes]
  cases popBack m v <;> rfl

theorem popBack_performs (hc : v.Contains es) (hb : v.Backed t) (hne : es ≠ []) (m : Memory) :
    Performs t m v es ((popBack m v).map fun (m, v) => (m, v, .ok ()))
      (es.map (·.value)).dropLast := by
  have hpos : 0 < v.size := by rw [hc.size]; exact List.length_pos_iff.mpr hne
  have hlast : (es.map (·.value)).dropLast = (es.map (·.value)).take (v.size - 1) := by
    rw [List.dropLast_eq_take, List.length_map, hc.size]
  rw [hlast, ← popTimes_one]
  exact popTimes_performs hc hb hpos m

theorem clear_performs (hc : v.Contains es) (hb : v.Backed t) (m : Memory) :
    Performs t m v es ((clear m v).map fun (m, v) => (m, v, .ok ())) [] := by
  have hpop := popTimes_performs hc hb (Nat.le_refl v.size) m
  rwa [Nat.sub_self, List.take_zero] at hpop

theorem erase_performs {first last : Nat} (hc : v.Contains es) (hb : v.Backed t)
    (hle : first ≤ last) (hlast : last ≤ v.size) (hne : first < last ∨ last = v.size)
    (m : Memory) :
    Performs t m v es ((erase t m v first last).map fun (m, v) => (m, v, .ok ()))
      ((es.map (·.value)).take first ++ (es.map (·.value)).drop last) := by
  have hsize := hc.size
  have hsplit : es = es.take first ++ (es.drop first).take (last - first) ++ es.drop last := by
    have hdrop : (es.drop first).drop (last - first) = es.drop last := by
      rw [List.drop_drop]
      congr 1
      omega
    rw [List.append_assoc, ← hdrop, List.take_append_drop, List.take_append_drop]
  have hfirst : (es.take first).length = first := List.length_take_of_le (by omega)
  have hmid : first + ((es.drop first).take (last - first)).length = last := by
    rw [List.length_take, List.length_drop]
    omega
  have hgap : (es.drop first).take (last - first) ≠ [] ∨ es.drop last = [] := by
    rcases hne with hlt | rfl
    · refine .inl fun h => ?_
      rw [h, List.length_nil] at hmid
      omega
    · exact .inr (List.drop_eq_nil_of_le (by omega))
  rw [hsplit] at hc
  obtain ⟨m', v', hrun, hc', hcap, hslots, hbuf, hcalls, hp⟩ := hc.erase (t := t) hgap m
  rw [hfirst, hmid] at hrun
  rw [← hsplit] at hp
  refine ⟨m', v', .ok (), _, by rw [hrun]; rfl, ⟨hc', ?_, hp, fun l => ?_⟩, ?_⟩
  · exact ⟨hslots.trans (hb.length.trans hcap.symm), hcap ▸ hb.fits⟩
  · rw [hbuf, hcalls.buffers]
    exact passes_refl _ _
  · rw [List.map_append, List.map_take, List.map_drop]
    rfl

def cloneCapacity (sized : Bool) (n : Nat) : Nat := if sized then n else grown 0 0 n

theorem reserveCopies_total {sized : Bool} (hf : Fits t (cloneCapacity sized values.length))
    (m : Memory) :
    ∃ m' v' r, reserveCopies t m sized values = some (m', v', r) ∧ v'.Contains [] ∧
      v'.Backed t ∧ (r = .ok () → Fits t (grown v'.size v'.capacity values.length)) := by
  rw [cloneCapacity] at hf
  rw [reserveCopies]
  split
  · rename_i hsized
    rw [if_pos hsized] at hf
    obtain ⟨m', v', r, hrun, hres, hb⟩ := reserve_total contains_empty (backed_empty t) hf m
    have hc := hres.contains contains_empty
    refine ⟨m', v', r, hrun, hc, hb, ?_⟩
    rintro rfl
    have hcap := hres.capacity
    have hsize : v'.size = 0 := hc.size
    rw [grown_of_le (by omega)]
    exact hb.fits
  · rename_i hsized
    rw [if_neg hsized] at hf
    exact ⟨m, {}, .ok (), rfl, contains_empty, backed_empty t, fun _ => hf⟩

theorem cloneAll_total {sized : Bool} (hf : Fits t (cloneCapacity sized values.length))
    (m : Memory) :
    ∃ m' r, cloneAll t m sized values = some (m', r) ∧
      ∀ copies, r = .ok copies → copies.Backed t := by
  obtain ⟨m₁, v₁, r₁, hrun₁, hc₁, hb₁, hok⟩ := reserveCopies_total hf m
  rw [cloneAll, hrun₁]
  rcases r₁ with err | ⟨⟩
  · obtain ⟨m₂, hdrop, -⟩ := hc₁.drop m₁
    simp only [Option.bind_eq_bind, Option.bind_some, hdrop]
    exact ⟨m₂, .error err, rfl, by rintro _ ⟨⟩⟩
  obtain ⟨m₂, v₂, r₂, hrun₂, hb₂⟩ := pushClones_total hc₁ hb₁ (hok rfl) m₁
  obtain ⟨cs, hext, -⟩ := pushClones_spec hc₁ hrun₂
  simp only [Option.bind_eq_bind, Option.bind_some, hrun₂]
  rcases r₂ with err | ⟨⟩
  · obtain ⟨m₃, hdrop, -⟩ := hext.contains.drop m₂
    simp only [hdrop]
    exact ⟨m₃, .error err, rfl, by rintro _ ⟨⟩⟩
  · exact ⟨m₂, .ok v₂, rfl, by rintro _ ⟨⟩; exact hb₂⟩

theorem assign_performs {sized : Bool} (hc : v.Contains es) (hb : v.Backed t)
    (hf : Fits t (cloneCapacity sized values.length)) (m : Memory) :
    Performs t m v es (assign t m v sized values) values := by
  obtain ⟨m₁, r₁, hrun₁, hbacked⟩ := cloneAll_total hf m
  have hrun : ∃ m' v' r, assign t m v sized values = some (m', v', r) ∧ v'.Backed t := by
    rw [assign, hrun₁]
    rcases r₁ with err | copies
    · exact ⟨m₁, v, .error err, rfl, hb⟩
    · obtain ⟨m₂, hdrop, -⟩ := hc.drop m₁
      simp only [Option.bind_eq_bind, Option.bind_some, moveAssign, hdrop]
      exact ⟨m₂, copies, .ok (), rfl, hbacked _ rfl⟩
  obtain ⟨m', v', r, hrun, hb'⟩ := hrun
  rcases assign_spec hc hrun with ⟨rfl, cs, hc', hvalues, hp, hbuf⟩ | ⟨err, rfl, rfl, hext⟩
  · exact ⟨m', v', _, cs, hrun, ⟨hc', hb', hp, hbuf⟩, hvalues⟩
  · exact ⟨m', v', _, es, hrun, hext.turns_same hb', rfl⟩

theorem read_eq (hc : v.Contains es) : v.read = some (es.map (·.value)) := by
  rw [read, hc.take]
  clear hc
  induction es with
  | nil => rfl
  | cons e es ih => rw [List.map_cons, List.mapM_cons, ih]; rfl

theorem shrinkToFit_moved (m₁ : Memory) {newVec : Vector α} (hc : v.Contains es)
    (hn : newVec.slots.length = es.length) (hv : ∀ s ∈ newVec.slots, s.vacant = true) :
    ∃ src m', moveAll v.slots newVec.slots v.size = some (src, es.map .live) ∧
      drop m₁ (v.setSlots src) = some m' ∧
      (∀ l, Passes m₁.elements m'.elements l l) ∧
      ∀ l, Passes m₁.buffers m'.buffers (v.buffers ++ l) l := by
  obtain ⟨hsize, ⟨rest, hslots, -⟩, -⟩ := hc
  have hmove := moveAll_spec es newVec.slots hn hv rest []
  rw [List.append_nil, List.append_nil, ← hslots, ← hsize] at hmove
  have hl : (List.replicate v.size Slot.shell ++ rest).length = v.slots.length := by
    simp [hslots, hsize]
  have hb : ∀ s ∈ List.replicate v.size (Slot.shell : Slot α), s.built = true := by
    intro s hs
    rw [List.eq_of_mem_replicate hs]
    rfl
  obtain ⟨m', hdrop, -, -, hp, hbuf⟩ := drop_spec
    (v := v.setSlots (List.replicate v.size .shell ++ rest)) (List.replicate v.size .shell)
    (slots_setSlots hl) (by simp) hb m₁
  rw [owned_shells] at hp
  rw [buffers_setSlots] at hbuf
  exact ⟨_, m', hmove, hdrop, hp, hbuf⟩

theorem resizeUninitialized_empty (hf : Fits t n) (m : Memory) :
    ∃ m' v' r, resizeUninitialized t m {} n = some (m', v', r) ∧
      (r = .ok () → v'.slots.length = n ∧ v'.size = n ∧ v'.capacity = n ∧
        (∀ s ∈ v'.slots, s.vacant = true) ∧ Growth m m' {} v') := by
  rw [resizeUninitialized]
  split
  · rename_i hn
    subst hn
    exact ⟨m, {}, .ok (), rfl, fun _ => ⟨rfl, rfl, rfl, by rintro _ ⟨⟩, growth_refl _ _⟩⟩
  rename_i hn
  have hpos : 0 < n := Nat.pos_of_ne_zero hn
  rw [if_neg (Nat.not_lt_zero _)]
  obtain ⟨m₁, v₁, r, hrun, hres, hb⟩ := reserve_total contains_empty (backed_empty t) hf m
  rw [hrun]
  rcases r with err | ⟨⟩
  · exact ⟨m₁, v₁, .error err, rfl, by rintro ⟨⟩⟩
  · refine ⟨m₁, { v₁ with size := n }, .ok (), rfl, fun _ => ?_⟩
    cases hres with
    | enough hle => exact absurd hle (Nat.not_le.mpr hpos)
    | grown _ _ _ hg hc hcap _ =>
      obtain ⟨-, ⟨rest, hslots, hrest⟩, -⟩ := hc
      have hall : v₁.slots = rest := by simpa using hslots
      exact ⟨hb.length.trans hcap, rfl, hcap, hall ▸ hrest, hg.cloned, hg.elements, hg.buffers,
        hg.capacity⟩

theorem shrinkToFit_performs (hc : v.Contains es) (hb : v.Backed t) (m : Memory) :
    Performs t m v es (shrinkToFit t m v) (es.map (·.value)) := by
  obtain ⟨m₁, newVec, r, hrun₁, hok⟩ := resizeUninitialized_empty (hb.fits.mono hc.size_le) m
  rcases r with err | ⟨⟩
  · obtain ⟨hc₁, -⟩ := resizeUninitialized_error contains_empty hrun₁
    obtain ⟨m₂, hdrop, -⟩ := hc₁.drop m₁
    have hrun : shrinkToFit t m v = some (m₂, v, .error err) := by
      rw [shrinkToFit, hrun₁]
      simp only [Option.bind_eq_bind, Option.bind_some, hdrop]
      rfl
    obtain ⟨-, hext⟩ := shrinkToFit_error hc hrun
    exact ⟨m₂, v, _, es, hrun, hext.turns_same hb, rfl⟩
  obtain ⟨hlen, hsize, hcap, hv, hg⟩ := hok rfl
  obtain ⟨src, m₂, hmove, hdrop, hp, hbuf⟩ := shrinkToFit_moved m₁ hc
    (hlen.trans hc.size) hv
  have hl : (es.map Slot.live).length = newVec.slots.length := by
    rw [List.length_map, hlen, hc.size]
  have hset := slots_setSlots hl
  have hrun : shrinkToFit t m v = some (m₂, newVec.setSlots (es.map .live), .ok ()) := by
    rw [shrinkToFit, hrun₁]
    simp only [Option.bind_eq_bind, Option.bind_some, hmove, moveAssign, hdrop]
    rfl
  refine ⟨m₂, _, _, es, hrun, ⟨⟨hsize.trans hc.size, ⟨[], ?_, by rintro _ ⟨⟩⟩, ?_⟩, ⟨?_, ?_⟩,
    fun l => ?_, fun l => ?_⟩, rfl⟩
  · rw [hset, List.append_nil]
  · rw [hset, hl, hlen]
    exact Nat.le_of_eq hcap.symm
  · rw [hset, hl, hlen]
    exact hcap.symm
  · exact (hb.fits.mono hc.size_le).mono (Nat.le_of_eq hcap)
  · have hsame := hp (ids es ++ l)
    rwa [hg.elements] at hsame
  · have hmade := hg.buffers (v.buffers ++ l)
    have hdropped := hbuf ((newVec.setSlots (es.map .live)).buffers ++ l)
    rw [buffers_setSlots] at hdropped ⊢
    exact (hmade.perm (.refl _) (List.perm_append_comm_assoc _ _ _)).trans hdropped

end Vector

end Corosig.Container
