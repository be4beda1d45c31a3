import Corosig.Container.VectorResized
import Corosig.Library.OperationRuns
import Corosig.Library.Positions

namespace Corosig.Container
open Custody OperationRuns Positions

structure Cell (α : Type) where
  vector : Vector α := {}
  list : List α := []
  deriving DecidableEq

structure Vectors (α : Type) where
  memory : Memory := {}
  cells : List (Cell α) := []
  deriving DecidableEq

namespace Vectors
open Corosig.Container.Vector

inductive Op (α : Type) where
  | make
  | destroy (i : Nat)
  | moveAssign (i j : Nat)
  | pushBack (i : Nat) (value : α)
  | pushBackCopy (i : Nat) (arg : Arg α)
  | popBack (i : Nat)
  | erase (i first last : Nat)
  | reserve (i : Nat) (count : UInt64)
  | resize (i : Nat) (count : UInt64) (arg : Arg α)
  | shrinkToFit (i : Nat)
  | clear (i : Nat)
  | assign (i : Nat) (sized : Bool) (values : List α)
  | clone (i : Nat)

variable {α : Type} (t : Elements α)

def onCell (w : Vectors α) (i : Nat)
    (call : Memory → Vector α → Option (Memory × Vector α × Except VectorError Unit))
    (model : List α → List α) : Option (Vectors α) :=
  match w.cells[i]? with
  | none => some w
  | some c => do
      let (m, v, r) ← call w.memory c.vector
      return { memory := m, cells := w.cells.set i ⟨v, outcome r (model c.list) c.list⟩ }

def denotes (xs : List α) : Arg α → Option α
  | .value x => some x
  | .slot _ j => xs[j]?

def infallible (r : Option (Memory × Vector α)) :
    Option (Memory × Vector α × Except VectorError Unit) :=
  r.map fun (m, v) => (m, v, .ok ())

-- Calls on a vector that does not exist are none.
def step (w : Vectors α) : Op α → Option (Vectors α)
  | .make => some { w with cells := w.cells ++ [{}] }
  | .destroy i =>
      match w.cells[i]? with
      | none => some w
      | some c => do return { memory := ← drop w.memory c.vector, cells := w.cells.eraseIdx i }
  | .moveAssign i j =>
      match w.cells[i]?, w.cells[j]? with
      | some c, some rhs =>
          if i = j then some w
          else do
            let (m, v) ← moveAssign w.memory c.vector rhs.vector
            return { memory := m, cells := (w.cells.set i ⟨v, rhs.list⟩).set j {} }
      | _, _ => some w
  | .pushBack i x =>
      w.onCell i (fun m v => pushTemporary t (Vector.make m x).1 v (Vector.make m x).2) (· ++ [x])
  | .pushBackCopy i arg =>
      w.onCell i (fun m v => (arg.read v).bind fun x => pushBackCopy t m v x)
        fun xs => xs ++ (denotes xs arg).toList
  | .popBack i => w.onCell i (fun m v => infallible (popBack m v)) List.dropLast
  | .erase i first last =>
      w.onCell i (fun m v => infallible (erase t m v first last))
        fun xs => xs.take first ++ xs.drop last
  | .reserve i count => w.onCell i (fun m v => reserve t m v count.toNat) id
  | .resize i count arg =>
      w.onCell i (fun m v => resize t m v count.toNat arg)
        fun xs => ((denotes xs arg).map (resized xs count.toNat)).getD xs
  | .shrinkToFit i => w.onCell i (fun m v => shrinkToFit t m v) id
  | .clear i => w.onCell i (fun m v => infallible (clear m v)) fun _ => []
  | .assign i sized values => w.onCell i (fun m v => assign t m v sized values) fun _ => values
  | .clone i =>
      match w.cells[i]? with
      | none => some w
      | some c => do
          let (m, r) ← cloneVector t w.memory c.vector
          match r with
          | .error _ => return { w with memory := m }
          | .ok copies => return { memory := m, cells := w.cells ++ [⟨copies, c.list⟩] }

def held (cells : List (Cell α)) : List Nat :=
  cells.flatMap fun c => ids (owned c.vector.elements)

def heldBuffers (cells : List (Cell α)) : List Nat := cells.flatMap fun c => c.vector.buffers

structure Refines (w : Vectors α) : Prop where
  contents : ∀ c ∈ w.cells, c.vector.read = some c.list
  capacity : ∀ c ∈ w.cells, c.vector.size ≤ c.vector.capacity
  spare : ∀ c ∈ w.cells, ∀ s ∈ c.vector.slots.drop c.vector.size, s.vacant = true
  elements : (held w.cells ++ w.memory.elements.ended).Perm (List.range w.memory.elements.next)
  buffers : (heldBuffers w.cells ++ w.memory.buffers.ended).Perm (List.range w.memory.buffers.next)

def Valid (w : Vectors α) : Op α → Prop
  | .popBack i => ∀ c ∈ w.cells[i]?, c.vector.size ≠ 0
  | .erase i first last => ∀ c ∈ w.cells[i]?, first ≤ last ∧ last ≤ c.vector.size
  | .pushBackCopy i arg => ∀ c ∈ w.cells[i]?, (arg.read c.vector).isSome = true
  | .resize i _ arg => ∀ c ∈ w.cells[i]?, (arg.read c.vector).isSome = true
  | _ => True

def Keeps (w : Vectors α) : Op α → Prop
  | .pushBack i _ =>
      ∀ c ∈ w.cells[i]?, Fits t (nextCapacity c.vector.size c.vector.capacity)
  | .pushBackCopy i _ =>
      ∀ c ∈ w.cells[i]?, Fits t (nextCapacity c.vector.size c.vector.capacity)
  | .erase i first last => ∀ c ∈ w.cells[i]?, first < last ∨ last = c.vector.size
  | .reserve _ count => Fits t count.toNat
  | .resize i count arg =>
      ∀ c ∈ w.cells[i]?, c.vector.size < count.toNat →
        Fits t (c.vector.size + count.toNat) ∧
        (t.nothrowCopy = true →
          c.vector.size + count.toNat ≤ c.vector.capacity ∨ arg.isValue = true)
  | .assign _ sized values => Fits t (cloneCapacity sized values.length)
  | _ => True

instance (w : Vectors α) : (op : Op α) → Decidable (w.Valid op)
  | .popBack i => inferInstanceAs (Decidable (∀ c ∈ w.cells[i]?, c.vector.size ≠ 0))
  | .erase i first last =>
      inferInstanceAs (Decidable (∀ c ∈ w.cells[i]?, first ≤ last ∧ last ≤ c.vector.size))
  | .pushBackCopy i arg | .resize i _ arg =>
      inferInstanceAs (Decidable (∀ c ∈ w.cells[i]?, (arg.read c.vector).isSome = true))
  | .make | .destroy _ | .moveAssign _ _ | .pushBack _ _ | .reserve _ _ | .shrinkToFit _
  | .clear _ | .assign _ _ _ | .clone _ => isTrue trivial

instance (w : Vectors α) : (op : Op α) → Decidable (w.Keeps t op)
  | .pushBack i _ | .pushBackCopy i _ =>
      inferInstanceAs (Decidable (∀ c ∈ w.cells[i]?,
        Fits t (nextCapacity c.vector.size c.vector.capacity)))
  | .erase i first last =>
      inferInstanceAs (Decidable (∀ c ∈ w.cells[i]?, first < last ∨ last = c.vector.size))
  | .reserve _ count => inferInstanceAs (Decidable (Fits t count.toNat))
  | .resize i count arg =>
      inferInstanceAs (Decidable (∀ c ∈ w.cells[i]?, c.vector.size < count.toNat →
        Fits t (c.vector.size + count.toNat) ∧
        (t.nothrowCopy = true →
          c.vector.size + count.toNat ≤ c.vector.capacity ∨ arg.isValue = true)))
  | .assign _ sized values =>
      inferInstanceAs (Decidable (Fits t (cloneCapacity sized values.length)))
  | .make | .destroy _ | .moveAssign _ _ | .popBack _ | .shrinkToFit _ | .clear _
  | .clone _ => isTrue trivial

variable {t} {w w' : Vectors α} {c : Cell α} {es es' : List (Element α)} {i j : Nat} {x : α}

structure Inv (t : Elements α) (w : Vectors α) : Prop where
  cells : ∀ c ∈ w.cells, c.vector.Backed t ∧
    ∃ es, c.vector.Contains es ∧ es.map (·.value) = c.list
  elements : Passes {} w.memory.elements [] (held w.cells)
  buffers : Passes {} w.memory.buffers [] (heldBuffers w.cells)

theorem inv_init (t : Elements α) : Inv t {} :=
  ⟨by rintro _ ⟨⟩, passes_refl _ _, passes_refl _ _⟩

theorem Inv.refines (hi : Inv t w) : w.Refines where
  contents := by
    intro c hc
    obtain ⟨-, es, hes, hlist⟩ := hi.cells c hc
    rw [read_eq hes, hlist]
  capacity := by
    intro c hc
    obtain ⟨-, es, hes, -⟩ := hi.cells c hc
    exact hes.size_le
  spare := by
    intro c hc s hs
    obtain ⟨-, es, ⟨hsize, ⟨rest, hslots, hrest⟩, -⟩, -⟩ := hi.cells c hc
    rw [hslots, hsize, List.drop_left' (by simp)] at hs
    exact hrest s hs
  elements := hi.elements.partition
  buffers := hi.buffers.partition

theorem owned_elements {v : Vector α} (hc : v.Contains es) : owned v.elements = es := by
  rw [elements, hc.take, owned_live]

theorem held_perm {cells : List (Cell α)} (h : cells[i]? = some c) :
    (held cells).Perm (ids (owned c.vector.elements) ++ held (cells.eraseIdx i)) :=
  ((perm_eraseIdx h).flatMap_right _).symm

theorem heldBuffers_perm {cells : List (Cell α)} (h : cells[i]? = some c) :
    (heldBuffers cells).Perm (c.vector.buffers ++ heldBuffers (cells.eraseIdx i)) :=
  ((perm_eraseIdx h).flatMap_right _).symm

theorem getElem?_placed {cells : List (Cell α)} (h : cells[i]? = some c) (c' : Cell α) :
    (cells.set i c')[i]? = some c' := by
  obtain ⟨hlt, -⟩ := List.getElem?_eq_some_iff.mp h
  simp [hlt]

theorem Inv.contains (hi : Inv t w) (h : w.cells[i]? = some c) :
    c.vector.Backed t ∧ ∃ es, c.vector.Contains es ∧ es.map (·.value) = c.list :=
  hi.cells c (List.mem_of_getElem? h)

theorem Inv.placed (hi : Inv t w) (h : w.cells[i]? = some c) (hes : c.vector.Contains es)
    {m' : Memory} {v' : Vector α} (hturn : Turns t w.memory m' c.vector v' es es')
    {xs : List α} (hxs : es'.map (·.value) = xs) :
    Inv t { memory := m', cells := w.cells.set i ⟨v', xs⟩ } := by
  have hput := getElem?_placed h ⟨v', xs⟩
  refine ⟨fun c' hc' => ?_, hi.elements.trans ?_, hi.buffers.trans ?_⟩
  · rcases List.mem_or_eq_of_mem_set hc' with hc' | rfl
    · exact hi.cells c' hc'
    · exact ⟨hturn.backed, es', hturn.contains, hxs⟩
  · have hbefore := held_perm h
    have hafter := held_perm hput
    rw [owned_elements hes] at hbefore
    rw [owned_elements hturn.contains, List.eraseIdx_set_eq] at hafter
    exact (hturn.elements _).perm hbefore hafter.symm
  · have hafter := heldBuffers_perm hput
    rw [List.eraseIdx_set_eq] at hafter
    exact (hturn.buffers _).perm (heldBuffers_perm h) hafter.symm

theorem inv_onCell
    {call : Memory → Vector α → Option (Memory × Vector α × Except VectorError Unit)}
    {model : List α → List α} (hi : Inv t w)
    (hcall : ∀ c es, w.cells[i]? = some c → c.vector.Contains es → c.vector.Backed t →
      es.map (·.value) = c.list →
      Performs t w.memory c.vector es (call w.memory c.vector) (model c.list)) :
    ∃ w', w.onCell i call model = some w' ∧ Inv t w' := by
  rw [onCell]
  split
  · exact ⟨w, rfl, hi⟩
  · rename_i c h
    obtain ⟨hb, es, hes, hlist⟩ := hi.contains h
    obtain ⟨m', v', r, es', hrun, hturn, hxs⟩ := hcall c es h hes hb hlist
    rw [hrun]
    rw [hlist] at hxs
    exact ⟨_, rfl, hi.placed h hes hturn hxs⟩

theorem denotes_of_read {v : Vector α} {arg : Arg α} (hes : v.Contains es)
    (h : arg.read v = some x) : denotes (es.map (·.value)) arg = some x := by
  have hname := names_of_read hes h
  cases arg with
  | value y => exact congrArg some hname
  | slot buffer j => exact List.getElem?_map.trans hname

theorem inv_destroy (hi : Inv t w) (i : Nat) :
    ∃ w', w.step t (.destroy i) = some w' ∧ Inv t w' := by
  rw [step]
  split
  · exact ⟨w, rfl, hi⟩
  · rename_i c h
    obtain ⟨-, es, hes, -⟩ := hi.contains h
    obtain ⟨m', hdrop, -, -, hp, hbuf⟩ := hes.drop w.memory
    have hbefore := held_perm h
    rw [owned_elements hes] at hbefore
    rw [hdrop]
    refine ⟨_, rfl, fun c' hc' => hi.cells c' (List.mem_of_mem_eraseIdx hc'), ?_, ?_⟩
    · exact hi.elements.trans ((hp _).perm hbefore (.refl _))
    · exact hi.buffers.trans ((hbuf _).perm (heldBuffers_perm h) (.refl _))

theorem inv_clone (hi : Inv t w) (i : Nat) : ∃ w', w.step t (.clone i) = some w' ∧ Inv t w' := by
  rw [step]
  split
  · exact ⟨w, rfl, hi⟩
  · rename_i c h
    obtain ⟨hb, es, hes, hlist⟩ := hi.contains h
    have hfits : Fits t (cloneCapacity true (es.map (·.value)).length) := by
      rw [cloneCapacity, if_pos rfl, List.length_map, ← hes.size]
      exact hb.fits.mono hes.size_le
    obtain ⟨m', r, hrun, hbacked⟩ := cloneAll_total hfits w.memory
    rw [cloneVector, read_eq hes]
    simp only [Option.bind_eq_bind, Option.bind_some, hrun]
    rcases cloneAll_spec hrun with ⟨copies, cs, rfl, hmade, hvalues⟩ | ⟨err, rfl, hext⟩
    · refine ⟨_, rfl, fun c' hc' => ?_, hi.elements.trans ?_, hi.buffers.trans ?_⟩
      · rcases List.mem_append.mp hc' with hc' | hc'
        · exact hi.cells c' hc'
        · cases List.mem_singleton.mp hc'
          exact ⟨hbacked _ rfl, cs, hmade.contains, hvalues.trans hlist⟩
      · refine (hmade.elements (held w.cells)).perm (.refl _) ?_
        rw [held, held, List.flatMap_append, List.flatMap_singleton,
          owned_elements hmade.contains]
        exact List.perm_append_comm
      · refine (hmade.buffers (heldBuffers w.cells)).perm (.refl _) ?_
        rw [heldBuffers, heldBuffers, List.flatMap_append, List.flatMap_singleton]
        exact List.perm_append_comm
    · have hself := hext {} [] contains_empty
      exact ⟨_, rfl, hi.cells, hi.elements.trans (by simpa using hself.elements (held w.cells)),
        hi.buffers.trans (hself.buffers (heldBuffers w.cells))⟩

theorem inv_moveAssign (hi : Inv t w) (i j : Nat) :
    ∃ w', w.step t (.moveAssign i j) = some w' ∧ Inv t w' := by
  rw [step]
  split
  · rename_i c rhs h hj
    split
    · exact ⟨w, rfl, hi⟩
    · rename_i hne
      obtain ⟨-, es, hes, -⟩ := hi.contains h
      obtain ⟨m', hdrop, -, -, hp, hbuf⟩ := hes.drop w.memory
      have hmove := perm_move h hj hne {}
      have hheld : (held w.cells).Perm (ids es ++ held ((w.cells.set i rhs).set j {})) := by
        have hperm := hmove.flatMap_right fun c => ids (owned c.vector.elements)
        rw [List.flatMap_cons, owned_elements hes] at hperm
        exact hperm.symm
      have hheldBuffers : (heldBuffers w.cells).Perm
          (c.vector.buffers ++ heldBuffers ((w.cells.set i rhs).set j {})) :=
        (hmove.flatMap_right fun c : Cell α => c.vector.buffers).symm
      simp only [moveAssign, hdrop]
      refine ⟨_, rfl, fun c' hc' => ?_, hi.elements.trans ((hp _).perm hheld (.refl _)),
        hi.buffers.trans ((hbuf _).perm hheldBuffers (.refl _))⟩
      rcases List.mem_or_eq_of_mem_set hc' with hc' | rfl
      · rcases List.mem_or_eq_of_mem_set hc' with hc' | rfl
        · exact hi.cells c' hc'
        · exact (hi.contains hj)
      · exact ⟨backed_empty t, [], contains_empty, rfl⟩
  · exact ⟨w, rfl, hi⟩

theorem inv_pushBackCopy {arg : Arg α} (hi : Inv t w) (hv : w.Valid (.pushBackCopy i arg))
    (hk : w.Keeps t (.pushBackCopy i arg)) :
    ∃ w', w.step t (.pushBackCopy i arg) = some w' ∧ Inv t w' := by
  rw [step]
  refine inv_onCell hi fun c es h hes hb hlist => ?_
  obtain ⟨x, hx⟩ := Option.isSome_iff_exists.mp (hv c h)
  rw [hx, ← hlist, denotes_of_read hes hx]
  exact pushBackCopy_performs hes hb (hk c h) w.memory x

theorem inv_resize {count : UInt64} {arg : Arg α} (hi : Inv t w)
    (hv : w.Valid (.resize i count arg)) (hk : w.Keeps t (.resize i count arg)) :
    ∃ w', w.step t (.resize i count arg) = some w' ∧ Inv t w' := by
  rw [step]
  refine inv_onCell hi fun c es h hes hb hlist => ?_
  obtain ⟨x, hx⟩ := Option.isSome_iff_exists.mp (hv c h)
  rw [← hlist, denotes_of_read hes hx]
  exact resize_performs hes hb hx (fun hlt => (hk c h hlt).1) (fun hlt => (hk c h hlt).2) w.memory

theorem inv_step {op : Op α} (hi : Inv t w) (hv : w.Valid op) (hk : w.Keeps t op) :
    ∃ w', w.step t op = some w' ∧ Inv t w' := by
  cases op with
  | make =>
    refine ⟨_, rfl, fun c hc => ?_, ?_, ?_⟩
    · rcases List.mem_append.mp hc with hc | hc
      · exact hi.cells c hc
      · cases List.mem_singleton.mp hc
        exact ⟨backed_empty t, [], contains_empty, rfl⟩
    · have hheld : held (w.cells ++ [({} : Cell α)]) = held w.cells := by
        rw [held, List.flatMap_append]
        exact List.append_nil _
      exact hheld ▸ hi.elements
    · have hheld : heldBuffers (w.cells ++ [({} : Cell α)]) = heldBuffers w.cells := by
        rw [heldBuffers, List.flatMap_append]
        exact List.append_nil _
      exact hheld ▸ hi.buffers
  | destroy i => exact inv_destroy hi i
  | moveAssign i j => exact inv_moveAssign hi i j
  | pushBack i x =>
    rw [step]
    refine inv_onCell hi fun c es h hes hb hlist => ?_
    rw [← hlist]
    exact pushTemporary_performs hes hb (hk c h) w.memory x
  | pushBackCopy i arg => exact inv_pushBackCopy hi hv hk
  | popBack i =>
    rw [step]
    refine inv_onCell hi fun c es h hes hb hlist => ?_
    rw [← hlist]
    refine popBack_performs hes hb (fun hnil => hv c h ?_) w.memory
    rw [hes.size, hnil, List.length_nil]
  | erase i first last =>
    rw [step]
    refine inv_onCell hi fun c es h hes hb hlist => ?_
    rw [← hlist]
    obtain ⟨hle, hlast⟩ := hv c h
    exact erase_performs hes hb hle hlast (hk c h) w.memory
  | reserve i count =>
    rw [step]
    refine inv_onCell hi fun c es h hes hb hlist => ?_
    rw [← hlist]
    exact reserve_performs hes hb hk w.memory
  | resize i count arg => exact inv_resize hi hv hk
  | shrinkToFit i =>
    rw [step]
    refine inv_onCell hi fun c es h hes hb hlist => ?_
    rw [← hlist]
    exact shrinkToFit_performs hes hb w.memory
  | clear i =>
    rw [step]
    exact inv_onCell hi fun c es h hes hb _ => clear_performs hes hb w.memory
  | assign i sized values =>
    rw [step]
    exact inv_onCell hi fun c es h hes hb _ => assign_performs hes hb hk w.memory
  | clone i => exact inv_clone hi i

theorem refines_of_keeps (t : Elements α) (ops : List (Op α))
    (h : Along (step t) (fun w op => w.Valid op ∧ w.Keeps t op) ({} : Vectors α) ops) :
    Steadily (step t) Refines ({} : Vectors α) ops :=
  steadily_of_along (J := Inv t) (fun _ => Inv.refines)
    (fun _ _ hi hp => inv_step hi hp.1 hp.2) (inv_init t) ops h

def generous : Elements Nat where
  sizeof := 4
  nothrowCopy := true
  allocates _ := true
  clones _ _ := true

theorem refines_of_keeps_cloned :
    Steadily (step generous) Refines ({} : Vectors Nat)
      [.make, .pushBack 0 7, .pushBackCopy 0 (.slot 0 0), .erase 0 0 1, .clone 0] :=
  refines_of_keeps generous _ (by decide)

theorem not_refines_of_erased :
    Along (step generous) Valid ({} : Vectors Nat)
      [.make, .pushBack 0 7, .pushBack 0 9, .erase 0 0 0] ∧
    ¬Steadily (step generous) Refines ({} : Vectors Nat)
      [.make, .pushBack 0 7, .pushBack 0 9, .erase 0 0 0] := by
  refine ⟨by decide, fun h => ?_⟩
  obtain ⟨w, hw, -⟩ := h.last
  cases hw

end Vectors

end Corosig.Container
