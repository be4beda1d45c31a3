import Corosig.Build
import Corosig.Library.OperationRuns
import Mathlib.Logic.Function.Basic

namespace Corosig
open Function OperationRuns

structure Frame (ρ : Type) where
  future : Nat
  returned : Option ρ := none
  destroyed : Nat := 0
  deallocated : Nat := 0

structure Fut (ρ : Type) where
  handle : Option Nat := none
  result : Option ρ := none

-- m_handle.destroy() and the deallocation of the frame's address.
def Frame.release {ρ : Type} (frame : Frame ρ) : Frame ρ :=
  { frame with destroyed := frame.destroyed + 1, deallocated := frame.deallocated + 1 }

-- Fut objects by address, coroutine frames by the order of their creation. The address of a
-- destroyed object is empty until something is constructed there.
structure Futs (ρ : Type) where
  futs : Nat → Option (Fut ρ) := fun _ => none
  frames : Nat → Option (Frame ρ) := fun _ => none
  created : Nat := 0
  allocated : Nat := 0

namespace Futs

variable {ρ : Type}

-- Reading or writing a frame that was destroyed is undefined.
def promise (w : Futs ρ) (handle : Nat) : Option (Frame ρ) :=
  (w.frames handle).filter (·.destroyed = 0)

def drop (w : Futs ρ) (fut : Fut ρ) : Option (Futs ρ) :=
  match fut.handle with
  | none => some w
  | some handle => do
      let promise ← w.promise handle
      return { w with frames := update w.frames handle (some promise.release) }

-- The move constructor at address i: rhs at address j keeps its result and loses the handle.
def carry (futs : Nat → Option (Fut ρ)) (i j : Nat) (rhs : Fut ρ) : Nat → Option (Fut ρ) :=
  update (update futs j (some { rhs with handle := none })) i (some rhs)

def moveTo (w : Futs ρ) (i j : Nat) (rhs : Fut ρ) : Option (Futs ρ) :=
  match rhs.handle with
  | none => some { w with futs := carry w.futs i j rhs }
  | some handle => do
      let promise ← w.promise handle
      return { w with
        futs := carry w.futs i j rhs
        frames := update w.frames handle (some { promise with future := i }) }

def returnValue (build : Build) (w : Futs ρ) (handle : Nat) (promise : Frame ρ) (value : ρ) :
    Option (Futs ρ) := do
  let fut ← w.futs promise.future
  ensure build fut.result.isNone
  return { w with
    futs := update w.futs promise.future (some { fut with result := some value })
    frames := update w.frames handle (some { promise with returned := some value }) }

-- create is a coroutine whose frame could be allocated; without a frame it is makeReady.
inductive Op (ρ : Type) where
  | create
  | makeReady (result : ρ)
  | moveConstruct (j : Nat)
  | moveAssign (i j : Nat)
  | drop (i : Nat)
  | destroy (i : Nat)
  | complete (handle : Nat) (value : ρ)

def step (build : Build) (w : Futs ρ) : Op ρ → Option (Futs ρ)
  | .create => some { w with
      futs := update w.futs w.created (some { handle := some w.allocated })
      frames := update w.frames w.allocated (some { future := w.created })
      created := w.created + 1
      allocated := w.allocated + 1 }
  | .makeReady result => some { w with
      futs := update w.futs w.created (some { result := some result })
      created := w.created + 1 }
  | .moveConstruct j =>
      match w.futs j with
      | none => some w
      | some rhs => { w with created := w.created + 1 }.moveTo w.created j rhs
  | .moveAssign i j =>
      match w.futs i, w.futs j with
      | some fut, some rhs => if i = j then some w else (w.drop fut).bind (moveTo · i j rhs)
      | _, _ => some w
  | .drop i =>
      match w.futs i with
      | none => some w
      | some fut => w.drop fut
  | .destroy i =>
      match w.futs i with
      | none => some w
      | some fut => (w.drop fut).map fun w => { w with futs := update w.futs i none }
  | .complete handle value =>
      match w.promise handle with
      | none => some w
      | some promise =>
          if promise.returned.isSome then some w else w.returnValue build handle promise value

structure Alive (futs : Nat → Option (Fut ρ)) (handle : Nat) (frame : Frame ρ) : Prop where
  destroyed : frame.destroyed = 0
  deallocated : frame.deallocated = 0
  owned : ∃ fut, futs frame.future = some fut ∧ fut.handle = some handle ∧
    fut.result = frame.returned
  only : ∀ i fut, futs i = some fut → fut.handle = some handle → i = frame.future

structure Gone (frame : Frame ρ) : Prop where
  destroyed : frame.destroyed = 1
  deallocated : frame.deallocated = 1

def Owned (w : Futs ρ) : Prop :=
  ∀ handle frame, w.frames handle = some frame → Alive w.futs handle frame ∨ Gone frame

def Usable (w : Futs ρ) (i : Nat) : Prop :=
  ∀ fut ∈ w.futs i, ∀ handle ∈ fut.handle, ∀ frame ∈ w.frames handle, frame.destroyed = 0

def Keeps (w : Futs ρ) : Op ρ → Prop
  | .moveConstruct j => w.Usable j
  | .moveAssign i j => i = j ∨ w.futs i = none ∨ w.futs j = none ∨ w.Usable i ∧ w.Usable j
  | .drop i => w.Usable i
  | .destroy i => w.Usable i
  | _ => True

structure Inv (w : Futs ρ) : Prop where
  owned : w.Owned
  known : ∀ i fut handle, w.futs i = some fut → fut.handle = some handle →
    ∃ frame, w.frames handle = some frame
  fresh : ∀ i, w.created ≤ i → w.futs i = none
  unallocated : ∀ handle, w.allocated ≤ handle → w.frames handle = none

variable {build : Build} {w w' : Futs ρ} {fut rhs : Fut ρ} {frame : Frame ρ} {op : Op ρ}
  {futs : Nat → Option (Fut ρ)} {handle i j : Nat}

theorem inv_init : ({} : Futs ρ).Inv where
  owned := by rintro _ _ ⟨⟩
  known := by rintro _ _ _ ⟨⟩
  fresh _ _ := rfl
  unallocated _ _ := rfl

theorem promise_eq (hf : w.frames handle = some frame) (h0 : frame.destroyed = 0) :
    w.promise handle = some frame := by
  simp [promise, hf, h0]

theorem promise_spec (h : w.promise handle = some frame) :
    w.frames handle = some frame ∧ frame.destroyed = 0 := by
  simpa [promise, Option.filter_eq_some_iff] using h

theorem Inv.alive (hi : w.Inv) (h : w.promise handle = some frame) :
    Alive w.futs handle frame := by
  obtain ⟨hf, h0⟩ := promise_spec h
  rcases hi.owned handle frame hf with ha | hg
  · exact ha
  · cases h0.symm.trans hg.destroyed

theorem Alive.update (ha : Alive futs handle frame) {x : Option (Fut ρ)}
    (hold : ∀ fut, futs i = some fut → fut.handle ≠ some handle)
    (hnew : ∀ fut, x = some fut → fut.handle ≠ some handle) :
    Alive (update futs i x) handle frame := by
  obtain ⟨fut, hfut, hh, hr⟩ := ha.owned
  have hne : frame.future ≠ i := by
    rintro rfl
    exact hold fut hfut hh
  refine ⟨ha.destroyed, ha.deallocated, ⟨fut, ?_, hh, hr⟩, fun k fut' hk hh' => ?_⟩
  · rw [update_of_ne hne, hfut]
  · rcases eq_or_ne k i with rfl | hki
    · rw [update_self] at hk
      exact absurd hh' (hnew fut' hk)
    · rw [update_of_ne hki] at hk
      exact ha.only k fut' hk hh'

theorem Inv.frame_of_usable (hi : w.Inv) (hfut : w.futs i = some fut) (hu : w.Usable i)
    (hh : fut.handle = some handle) : ∃ frame, w.promise handle = some frame := by
  obtain ⟨frame, hf⟩ := hi.known i fut handle hfut hh
  exact ⟨frame, promise_eq hf (hu fut hfut handle hh frame hf)⟩

structure Dropped (w : Futs ρ) (fut : Fut ρ) (w' : Futs ρ) : Prop where
  inv : w'.Inv
  futs : w'.futs = w.futs
  created : w'.created = w.created
  gone : ∀ handle frame, fut.handle = some handle → w'.frames handle = some frame → Gone frame
  frames : ∀ handle, fut.handle ≠ some handle → w'.frames handle = w.frames handle

theorem inv_drop (hi : w.Inv) (hfut : w.futs i = some fut) (hu : w.Usable i) :
    ∃ w', w.drop fut = some w' ∧ Dropped w fut w' := by
  rcases hh : fut.handle with _ | handle
  · exact ⟨w, by simp [drop, hh], hi, rfl, rfl, by simp [hh], fun _ _ => rfl⟩
  · obtain ⟨frame, hp⟩ := hi.frame_of_usable hfut hu hh
    have ha := hi.alive hp
    have hgone : Gone frame.release :=
      ⟨by simp [Frame.release, ha.destroyed], by simp [Frame.release, ha.deallocated]⟩
    refine ⟨{ w with frames := Function.update w.frames handle (some frame.release) },
      by simp [drop, hh, hp], ⟨?_, ?_, hi.fresh, ?_⟩, rfl, rfl, ?_, ?_⟩
    · intro h f hf
      dsimp only at hf ⊢
      rcases eq_or_ne h handle with rfl | hne
      · rw [update_self] at hf
        cases hf
        exact .inr hgone
      · rw [update_of_ne hne] at hf
        exact hi.owned h f hf
    · intro k fut' h hk hh'
      rcases eq_or_ne h handle with rfl | hne
      · exact ⟨_, update_self ..⟩
      · obtain ⟨f, hf⟩ := hi.known k fut' h hk hh'
        exact ⟨f, (update_of_ne hne ..).trans hf⟩
    · intro h hle
      dsimp only at hle ⊢
      have hne : h ≠ handle := by
        rintro rfl
        cases (hi.unallocated h hle).symm.trans (promise_spec hp).1
      rw [update_of_ne hne]
      exact hi.unallocated h hle
    · intro h f hh' hf
      cases hh.symm.trans hh'
      dsimp only at hf
      rw [update_self] at hf
      cases hf
      exact hgone
    · intro h hne
      refine update_of_ne ?_ ..
      rintro rfl
      exact hne hh

theorem carry_cases (hne : i ≠ j) {k : Nat} (hk : carry futs i j rhs k = some fut) :
    (k = i ∧ fut = rhs) ∨ (k = j ∧ fut.handle = none) ∨ (k ≠ i ∧ k ≠ j ∧ futs k = some fut) := by
  rw [carry] at hk
  rcases eq_or_ne k i with rfl | hki
  · rw [update_self] at hk
    cases hk
    exact .inl ⟨rfl, rfl⟩
  rw [update_of_ne hki] at hk
  rcases eq_or_ne k j with rfl | hkj
  · rw [update_self] at hk
    cases hk
    exact .inr (.inl ⟨rfl, rfl⟩)
  · rw [update_of_ne hkj] at hk
    exact .inr (.inr ⟨hki, hkj, hk⟩)

theorem Alive.unmoved (ha : Alive futs handle frame) (hrhs : futs j = some rhs) (hne : i ≠ j)
    (hold : ∀ fut, futs i = some fut → fut.handle ≠ some handle)
    (hh : rhs.handle ≠ some handle) : Alive (carry futs i j rhs) handle frame := by
  have hj : Alive (Function.update futs j (some { rhs with handle := none })) handle frame := by
    refine ha.update (fun fut hfut => ?_) (fun fut hfut => ?_)
    · cases hrhs.symm.trans hfut
      exact hh
    · cases hfut
      rintro ⟨⟩
  refine hj.update (fun fut hfut => ?_) (fun fut hfut => ?_)
  · rw [update_of_ne hne] at hfut
    exact hold fut hfut
  · cases hfut
    exact hh

theorem Alive.moved (ha : Alive futs handle frame) (hrhs : futs j = some rhs) (hne : i ≠ j)
    (hh : rhs.handle = some handle) :
    Alive (carry futs i j rhs) handle { frame with future := i } := by
  have hj : j = frame.future := ha.only j rhs hrhs hh
  obtain ⟨fut, hfut, -, hr⟩ := ha.owned
  cases hrhs.symm.trans ((congrArg futs hj).trans hfut)
  refine ⟨ha.destroyed, ha.deallocated, ⟨rhs, update_self .., hh, hr⟩, fun k fut hk hk' => ?_⟩
  rcases carry_cases hne hk with ⟨rfl, -⟩ | ⟨-, hnone⟩ | ⟨-, hkj, hk⟩
  · rfl
  · cases hnone.symm.trans hk'
  · exact absurd ((ha.only k fut hk hk').trans hj.symm) hkj

theorem inv_moveTo (hi : w.Inv) (hrhs : w.futs j = some rhs) (hu : w.Usable j) (hne : i ≠ j)
    (hlt : i < w.created) (hold : ∀ fut handle frame, w.futs i = some fut →
      fut.handle = some handle → w.frames handle = some frame → Gone frame) :
    ∃ w', w.moveTo i j rhs = some w' ∧ w'.Inv := by
  have hnot {h : Nat} {f : Frame ρ} (hf : w.frames h = some f) (ha : Alive w.futs h f)
      (fut : Fut ρ) (hfut : w.futs i = some fut) : fut.handle ≠ some h := by
    intro hh
    cases ha.destroyed.symm.trans (hold fut h f hfut hh hf).destroyed
  have hfresh (k : Nat) (hk : w.created ≤ k) : carry w.futs i j rhs k = none := by
    have hkj : k ≠ j := by
      rintro rfl
      cases (hi.fresh k hk).symm.trans hrhs
    rw [carry, update_of_ne (by omega), update_of_ne hkj, hi.fresh k hk]
  have hknown (k : Nat) (fut : Fut ρ) (h : Nat) (hk : carry w.futs i j rhs k = some fut)
      (hh : fut.handle = some h) : ∃ frame, w.frames h = some frame := by
    rcases carry_cases hne hk with ⟨-, rfl⟩ | ⟨-, hnone⟩ | ⟨-, -, hk⟩
    · exact hi.known j fut h hrhs hh
    · cases hnone.symm.trans hh
    · exact hi.known k fut h hk hh
  rcases hh : rhs.handle with _ | handle
  · refine ⟨{ w with futs := carry w.futs i j rhs }, by simp [moveTo, hh], fun h f hf => ?_,
      hknown, hfresh, hi.unallocated⟩
    rcases hi.owned h f hf with ha | hg
    · exact .inl (ha.unmoved hrhs hne (hnot hf ha) (by simp [hh]))
    · exact .inr hg
  · obtain ⟨frame, hp⟩ := hi.frame_of_usable hrhs hu hh
    have ha := hi.alive hp
    refine ⟨{ w with
      futs := carry w.futs i j rhs
      frames := update w.frames handle (some { frame with future := i }) },
      by simp [moveTo, hh, hp], fun h f hf => ?_, fun k fut h hk hh' => ?_, hfresh,
      fun h hle => ?_⟩
    · dsimp only at hf ⊢
      rcases eq_or_ne h handle with rfl | hneq
      · rw [update_self] at hf
        cases hf
        exact .inl (ha.moved hrhs hne hh)
      · rw [update_of_ne hneq] at hf
        rcases hi.owned h f hf with ha' | hg
        · refine .inl (ha'.unmoved hrhs hne (hnot hf ha') ?_)
          rw [hh]
          exact fun he => hneq (Option.some.inj he).symm
        · exact .inr hg
    · rcases eq_or_ne h handle with rfl | hneq
      · exact ⟨_, update_self ..⟩
      · obtain ⟨f, hf⟩ := hknown k fut h hk hh'
        exact ⟨f, (update_of_ne hneq ..).trans hf⟩
    · have hneq : h ≠ handle := by
        rintro rfl
        cases (hi.unallocated h hle).symm.trans (promise_spec hp).1
      exact (update_of_ne hneq ..).trans (hi.unallocated h hle)

theorem inv_create (hi : w.Inv) :
    ∃ w', w.step build .create = some w' ∧ w'.Inv := by
  have hc := hi.fresh w.created (Nat.le_refl _)
  have hu := hi.unallocated w.allocated (Nat.le_refl _)
  refine ⟨_, rfl, fun h f hf => ?_, fun k fut h hk hh => ?_, fun k hk => ?_, fun h hle => ?_⟩
  · dsimp only at hf ⊢
    rcases eq_or_ne h w.allocated with rfl | hne
    · rw [update_self] at hf
      cases hf
      refine .inl ⟨rfl, rfl, ⟨_, update_self .., rfl, rfl⟩, fun k fut hk hh => ?_⟩
      rcases eq_or_ne k w.created with rfl | hkc
      · rfl
      · rw [update_of_ne hkc] at hk
        obtain ⟨f, hf⟩ := hi.known k fut _ hk hh
        cases hu.symm.trans hf
    · rw [update_of_ne hne] at hf
      rcases hi.owned h f hf with ha | hg
      · refine .inl (ha.update (fun fut hfut => ?_) (fun fut hfut => ?_))
        · cases hc.symm.trans hfut
        · cases hfut
          exact fun he => hne (Option.some.inj he).symm
      · exact .inr hg
  · dsimp only at hk ⊢
    rcases eq_or_ne h w.allocated with rfl | hne
    · exact ⟨_, update_self ..⟩
    · rw [update_of_ne hne]
      rcases eq_or_ne k w.created with rfl | hkc
      · rw [update_self] at hk
        cases hk
        exact absurd (Option.some.inj hh).symm hne
      · rw [update_of_ne hkc] at hk
        exact hi.known k fut h hk hh
  · dsimp only at hk ⊢
    rw [update_of_ne (by omega)]
    exact hi.fresh k (by omega)
  · dsimp only at hle ⊢
    rw [update_of_ne (by omega)]
    exact hi.unallocated h (by omega)

theorem inv_place (hi : w.Inv) {x : Option (Fut ρ)} {n : Nat}
    (hn : i < n) (hle : w.created ≤ n)
    (hx : ∀ fut, x = some fut → fut.handle = none)
    (hold : ∀ fut handle frame, w.futs i = some fut →
      fut.handle = some handle → w.frames handle = some frame → Gone frame) :
    Inv { w with futs := update w.futs i x, created := n } := by
  refine ⟨fun h f hf => ?_, fun k fut h hk hh => ?_, fun k hk => ?_, hi.unallocated⟩
  · rcases hi.owned h f hf with ha | hg
    · refine .inl (ha.update (fun fut hfut hh => ?_) (fun fut hfut hh => ?_))
      · cases ha.destroyed.symm.trans (hold fut h f hfut hh hf).destroyed
      · cases (hx fut hfut).symm.trans hh
    · exact .inr hg
  · dsimp only at hk
    rcases eq_or_ne k i with rfl | hki
    · rw [update_self] at hk
      cases (hx fut hk).symm.trans hh
    · rw [update_of_ne hki] at hk
      exact hi.known k fut h hk hh
  · dsimp only at hk ⊢
    rw [update_of_ne (by omega)]
    exact hi.fresh k (by omega)

theorem inv_returnValue (hi : w.Inv) (hp : w.promise handle = some frame)
    (hr : frame.returned = none) (value : ρ) :
    ∃ w', w.returnValue build handle frame value = some w' ∧ w'.Inv := by
  have ha := hi.alive hp
  obtain ⟨fut, hfut, hh, hres⟩ := ha.owned
  have hnone : fut.result = none := hres.trans hr
  refine ⟨{ w with
    futs := update w.futs frame.future (some { fut with result := some value })
    frames := update w.frames handle (some { frame with returned := some value }) }, ?_,
    fun h f hf => ?_, fun k fut' h hk hh' => ?_, fun k hk => ?_, fun h hle => ?_⟩
  · rw [returnValue, hfut]
    simp [hnone]
  · dsimp only at hf ⊢
    rcases eq_or_ne h handle with rfl | hne
    · rw [update_self] at hf
      cases hf
      refine .inl ⟨ha.destroyed, ha.deallocated, ⟨_, update_self .., hh, rfl⟩,
        fun k fut' hk hk' => ?_⟩
      rcases eq_or_ne k frame.future with rfl | hkf
      · rfl
      · rw [update_of_ne hkf] at hk
        exact ha.only k fut' hk hk'
    · rw [update_of_ne hne] at hf
      have hneq : fut.handle ≠ some h := by
        rw [hh]
        exact fun he => hne (Option.some.inj he).symm
      rcases hi.owned h f hf with ha' | hg
      · refine .inl (ha'.update (fun fut' hfut' => ?_) (fun fut' hfut' => ?_))
        · cases hfut.symm.trans hfut'
          exact hneq
        · cases hfut'
          exact hneq
      · exact .inr hg
  · dsimp only at hk ⊢
    have hf : ∃ f, w.frames h = some f := by
      rcases eq_or_ne k frame.future with rfl | hkf
      · rw [update_self] at hk
        cases hk
        exact hi.known _ fut h hfut hh'
      · rw [update_of_ne hkf] at hk
        exact hi.known k fut' h hk hh'
    rcases eq_or_ne h handle with rfl | hne
    · exact ⟨_, update_self ..⟩
    · obtain ⟨f, hf⟩ := hf
      exact ⟨f, by rw [update_of_ne hne, hf]⟩
  · have hne : k ≠ frame.future := by
      rintro rfl
      cases (hi.fresh _ hk).symm.trans hfut
    exact (update_of_ne hne ..).trans (hi.fresh k hk)
  · have hne : h ≠ handle := by
      rintro rfl
      cases (hi.unallocated h hle).symm.trans (promise_spec hp).1
    exact (update_of_ne hne ..).trans (hi.unallocated h hle)

theorem Inv.lt_created (hi : w.Inv) (hfut : w.futs i = some fut) : i < w.created := by
  by_contra hn
  cases (hi.fresh i (Nat.le_of_not_lt hn)).symm.trans hfut

theorem Dropped.usable (hd : Dropped w fut w') (hi : w.Inv) (hfut : w.futs i = some fut)
    (hrhs : w.futs j = some rhs) (hne : i ≠ j) (hui : w.Usable i) (huj : w.Usable j) :
    w'.Usable j := by
  intro rhs' hrhs' h hh f hf
  rw [hd.futs] at hrhs'
  cases hrhs.symm.trans hrhs'
  have hneq : fut.handle ≠ some h := by
    intro hh'
    obtain ⟨f', hp⟩ := hi.frame_of_usable hfut hui hh'
    have ha := hi.alive hp
    exact hne ((ha.only i fut hfut hh').trans (ha.only j rhs hrhs hh).symm)
  exact huj rhs hrhs h hh f (hd.frames h hneq ▸ hf)

theorem inv_moveAssign (hi : w.Inv) (hfut : w.futs i = some fut) (hrhs : w.futs j = some rhs)
    (hne : i ≠ j) (hui : w.Usable i) (huj : w.Usable j) :
    ∃ w', (w.drop fut).bind (moveTo · i j rhs) = some w' ∧ w'.Inv := by
  obtain ⟨w₁, hw₁, hd⟩ := inv_drop hi hfut hui
  have hu₁ := hd.usable hi hfut hrhs hne hui huj
  obtain ⟨w₂, hw₂, hi₂⟩ := inv_moveTo hd.inv (hd.futs ▸ hrhs) hu₁ hne
    (hd.created ▸ hi.lt_created hfut) (fun fut' h f hfut' hh hf => by
      rw [hd.futs] at hfut'
      cases hfut.symm.trans hfut'
      exact hd.gone h f hh hf)
  exact ⟨w₂, by rw [hw₁]; exact hw₂, hi₂⟩

theorem inv_step (hi : w.Inv) (hk : w.Keeps op) :
    ∃ w', w.step build op = some w' ∧ w'.Inv := by
  have hempty (fut : Fut ρ) (handle : Nat) (frame : Frame ρ) (hfut : w.futs w.created = some fut)
      (_ : fut.handle = some handle) (_ : w.frames handle = some frame) : Gone frame := by
    cases (hi.fresh _ (Nat.le_refl _)).symm.trans hfut
  cases op with
  | create => exact inv_create hi
  | makeReady result =>
    exact ⟨_, rfl, inv_place hi (Nat.lt_succ_self _) (Nat.le_succ _) (by rintro _ ⟨⟩; rfl) hempty⟩
  | moveConstruct j =>
    rw [step]
    split
    · exact ⟨w, rfl, hi⟩
    · rename_i rhs hrhs
      have hi' : Inv { w with created := w.created + 1 } :=
        ⟨hi.owned, hi.known, fun k hk => hi.fresh k (by dsimp only at hk; omega), hi.unallocated⟩
      exact inv_moveTo hi' hrhs hk (Nat.ne_of_gt (hi.lt_created hrhs)) (Nat.lt_succ_self _) hempty
  | moveAssign i j =>
    rw [step]
    split
    · rename_i fut rhs hfut hrhs
      split
      · exact ⟨w, rfl, hi⟩
      · rename_i hne
        obtain ⟨hui, huj⟩ : w.Usable i ∧ w.Usable j := by
          rcases hk with h | h | h | h
          · exact (hne h).elim
          · cases h.symm.trans hfut
          · cases h.symm.trans hrhs
          · exact h
        exact inv_moveAssign hi hfut hrhs hne hui huj
    · exact ⟨w, rfl, hi⟩
  | drop i =>
    rw [step]
    split
    · exact ⟨w, rfl, hi⟩
    · rename_i fut hfut
      obtain ⟨w', hw', hd⟩ := inv_drop hi hfut hk
      exact ⟨w', hw', hd.inv⟩
  | destroy i =>
    rw [step]
    split
    · exact ⟨w, rfl, hi⟩
    · rename_i fut hfut
      obtain ⟨w', hw', hd⟩ := inv_drop hi hfut hk
      refine ⟨_, by rw [hw']; rfl, ?_⟩
      refine inv_place hd.inv (hd.created ▸ hi.lt_created hfut) (Nat.le_refl _) (by rintro _ ⟨⟩) ?_
      intro fut' handle frame hfut' hh hf
      rw [hd.futs] at hfut'
      cases hfut.symm.trans hfut'
      exact hd.gone handle frame hh hf
  | complete handle value =>
    rw [step]
    split
    · exact ⟨w, rfl, hi⟩
    · rename_i frame hp
      rcases hr : frame.returned with _ | r
      · exact inv_returnValue hi hp hr value
      · exact ⟨w, rfl, hi⟩

theorem usable_of_promise (hfut : w.futs i = some fut)
    (h : ∀ handle, fut.handle = some handle → ∃ frame, w.promise handle = some frame) :
    w.Usable i := by
  intro fut' hfut' handle hh frame hf
  cases hfut.symm.trans hfut'
  obtain ⟨f, hp⟩ := h handle hh
  obtain ⟨hf', h0⟩ := promise_spec hp
  cases hf'.symm.trans hf
  exact h0

theorem usable_of_drop (hfut : w.futs i = some fut) (h : w.drop fut = some w') : w.Usable i := by
  refine usable_of_promise hfut fun handle hh => ?_
  simp only [drop, hh] at h
  obtain ⟨frame, hp, -⟩ := Option.bind_eq_some_iff.mp h
  exact ⟨frame, hp⟩

theorem usable_of_moveTo (hrhs : w.futs j = some rhs) (h : w.moveTo i j rhs = some w') :
    w.Usable j := by
  refine usable_of_promise hrhs fun handle hh => ?_
  simp only [moveTo, hh] at h
  obtain ⟨frame, hp, -⟩ := Option.bind_eq_some_iff.mp h
  exact ⟨frame, hp⟩

theorem usable_none (h : w.futs i = none) : w.Usable i := by
  intro fut hfut
  cases h.symm.trans hfut

theorem keeps_of_step (hi : w.Inv) (hs : w.step build op = some w') : w.Keeps op := by
  cases op with
  | moveConstruct j =>
    rw [step] at hs
    split at hs
    · rename_i h
      exact usable_none h
    · rename_i rhs hrhs
      exact usable_of_moveTo (w := { w with created := w.created + 1 }) hrhs hs
  | moveAssign i j =>
    rcases hfut : w.futs i with _ | fut
    · exact .inr (.inl hfut)
    rcases hrhs : w.futs j with _ | rhs
    · exact .inr (.inr (.inl hrhs))
    rcases eq_or_ne i j with rfl | hne
    · exact .inl rfl
    simp only [step, hfut, hrhs, if_neg hne] at hs
    obtain ⟨w₁, h₁, h₂⟩ := Option.bind_eq_some_iff.mp hs
    have hui := usable_of_drop hfut h₁
    obtain ⟨w₂, h₂', hd⟩ := inv_drop hi hfut hui
    cases h₁.symm.trans h₂'
    have huj := usable_of_moveTo (hd.futs ▸ hrhs) h₂
    refine .inr (.inr (.inr ⟨hui, usable_of_promise hrhs fun handle hh => ?_⟩))
    obtain ⟨frame, hf⟩ := hi.known j rhs handle hrhs hh
    refine ⟨frame, promise_eq hf ?_⟩
    rcases eq_or_ne fut.handle (some handle) with hh' | hh'
    · exact hui fut hfut handle hh' frame hf
    · exact huj rhs (hd.futs ▸ hrhs) handle hh frame ((hd.frames handle hh').trans hf)
  | drop i =>
    rw [step] at hs
    split at hs
    · rename_i h
      exact usable_none h
    · rename_i fut hfut
      exact usable_of_drop hfut hs
  | destroy i =>
    rw [step] at hs
    split at hs
    · rename_i h
      exact usable_none h
    · rename_i fut hfut
      obtain ⟨w₁, h₁, -⟩ := Option.map_eq_some_iff.mp hs
      exact usable_of_drop hfut h₁
  | _ => trivial

theorem owned_iff (build : Build) (ops : List (Op ρ)) :
    Steadily (step build) Owned ({} : Futs ρ) ops ↔ Along (step build) Keeps ({} : Futs ρ) ops :=
  steadily_iff (J := Inv) (R := fun _ _ => True) (fun _ => Inv.owned)
    (fun _ _ hi _ hk => inv_step hi hk) (fun _ _ _ hi _ hs _ => keeps_of_step hi hs) inv_init ops
    (along_of_forall (fun _ _ => trivial) _ ops)

theorem not_owned_of_dropped :
    ¬Steadily (step .release) Owned ({} : Futs Nat) [.create, .drop 0, .destroy 0] := by
  intro h
  obtain ⟨w, hw, -⟩ := h.last
  cases hw

end Futs

end Corosig
