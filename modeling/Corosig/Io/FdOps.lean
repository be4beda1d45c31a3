import Corosig.Library.Loop
import Mathlib.Data.List.Range

namespace Corosig
open Loop

structure Slice where
  offset : Nat
  size : Nat
  deriving DecidableEq, Repr

def Slice.positions (b : Slice) : List Nat := List.range' b.offset b.size

def Slice.first (b : Slice) (count : Nat) : Slice := ⟨b.offset, count⟩

inductive CallResult (size : Nat) where
  | accepted (n : Nat) (pos : 0 < n) (le : n ≤ size)
  | failed (errno : Nat)

abbrev Kernel := Nat → (size : Nat) → CallResult size

structure Writing where
  written : Nat := 0
  calls : Nat := 0
  sent : List Nat := []
  deriving DecidableEq, Repr

structure Written where
  result : Except Nat Nat
  sent : List Nat
  failed : Bool

def tryWriteSome (kernel : Kernel) (call : Nat) (buf : Slice) : CallResult buf.size :=
  kernel call buf.size

def writeStep (kernel : Kernel) (buf : Slice) (s : Writing) : Next Writing Written :=
  if s.written < buf.size then
    match tryWriteSome kernel s.calls buf with
    | .accepted n _ _ => .more ⟨s.written + n, s.calls + 1, s.sent ++ (buf.first n).positions⟩
    | .failed errno =>
        if s.written = 0 then .done ⟨.error errno, s.sent, true⟩
        else .done ⟨.ok s.written, s.sent, true⟩
  else
    .done ⟨.ok s.written, s.sent, false⟩

def Faithful (buf : Slice) (w : Written) : Prop :=
  match w.result with
  | .ok n => n ≤ buf.size ∧ w.sent = (buf.first n).positions ∧ (w.failed = false → n = buf.size)
  | .error _ => w.sent = []

def CallResult.Failed {size : Nat} : CallResult size → Prop
  | .accepted _ _ _ => False
  | .failed _ => True

def CallResult.Whole {size : Nat} : CallResult size → Prop
  | .accepted n _ _ => n = size
  | .failed _ => False

def SingleWrite (kernel : Kernel) (buf : Slice) : Prop :=
  buf.size = 0 ∨ (kernel 0 buf.size).Whole ∨ (kernel 0 buf.size).Failed ∨
    (kernel 1 buf.size).Failed

variable {kernel : Kernel} {buf : Slice} {s : Writing} {w : Written} {n : Nat}

theorem writeStep_accepted {pos : 0 < n} {le : n ≤ buf.size} (hs : s.written < buf.size)
    (hk : kernel s.calls buf.size = .accepted n pos le) : writeStep kernel buf s =
      .more ⟨s.written + n, s.calls + 1, s.sent ++ (buf.first n).positions⟩ := by
  rw [writeStep, if_pos hs, tryWriteSome, hk]

theorem writeStep_failed {errno : Nat} (hs : s.written < buf.size)
    (hk : kernel s.calls buf.size = .failed errno) : writeStep kernel buf s =
      if s.written = 0 then .done ⟨.error errno, s.sent, true⟩
      else .done ⟨.ok s.written, s.sent, true⟩ := by
  rw [writeStep, if_pos hs, tryWriteSome, hk]

theorem writeStep_end (kernel : Kernel) (hs : ¬ s.written < buf.size) :
    writeStep kernel buf s = .done ⟨.ok s.written, s.sent, false⟩ :=
  if_neg hs

theorem writeStep_more {t : Writing} (h : writeStep kernel buf s = .more t) :
    s.written < buf.size ∧ ∃ n, 0 < n ∧ t.written = s.written + n ∧
      t.sent = s.sent ++ (buf.first n).positions := by
  by_cases hs : s.written < buf.size
  · cases hk : kernel s.calls buf.size with
    | accepted n pos le =>
      rw [writeStep_accepted hs hk] at h
      cases h
      exact ⟨hs, n, pos, rfl, rfl⟩
    | failed errno =>
      rw [writeStep_failed hs hk] at h
      split at h <;> cases h
  · rw [writeStep_end kernel hs] at h
    cases h

theorem writeStep_done (h : writeStep kernel buf s = .done w) : w.sent = s.sent := by
  by_cases hs : s.written < buf.size
  · cases hk : kernel s.calls buf.size with
    | accepted n pos le =>
      rw [writeStep_accepted hs hk] at h
      cases h
    | failed errno =>
      rw [writeStep_failed hs hk] at h
      split at h <;> cases h <;> rfl
  · rw [writeStep_end kernel hs] at h
    cases h
    rfl

theorem write_halts : Halts (writeStep kernel buf) s := by
  refine halts_of_measure (I := fun _ => True) (fun s => buf.size - s.written)
    (fun s t _ h => ⟨trivial, ?_⟩) trivial
  obtain ⟨hs, n, hn, hw, -⟩ := writeStep_more h
  omega

theorem Faithful.nodup (h : Faithful buf w) : w.sent.Nodup := by
  unfold Faithful at h
  split at h
  · rw [h.2.1]
    exact List.nodup_range'
  · rw [h]
    exact List.nodup_nil

theorem nodup_of_yields (hy : Yields (writeStep kernel buf) s w) (hw : w.sent.Nodup) :
    s.sent.Nodup := by
  by_contra hs
  refine yields_post (I := fun s => ¬ s.sent.Nodup) (Q := fun w => ¬ w.sent.Nodup) ?_ ?_ hs hy hw
  · intro s t hs h hn
    obtain ⟨-, n, -, -, ht⟩ := writeStep_more h
    exact hs (List.nodup_append.mp (ht ▸ hn)).1
  · intro s w hs h hn
    exact hs (writeStep_done h ▸ hn)

theorem twice_sent {m : Nat} (hn : 0 < n) (hm : 0 < m) :
    ¬ ((buf.first n).positions ++ (buf.first m).positions).Nodup := by
  intro h
  have hmem : ∀ k, 0 < k → buf.offset ∈ (buf.first k).positions := fun k hk =>
    List.mem_range'_1.mpr ⟨Nat.le_refl _, Nat.lt_add_of_pos_right hk⟩
  exact (List.nodup_append.mp h).2.2 _ (hmem n hn) _ (hmem m hm) rfl

theorem write_first {pos : 0 < n} {le : n ≤ buf.size}
    (hk : kernel 0 buf.size = .accepted n pos le) :
    writeStep kernel buf {} = .more ⟨n, 1, (buf.first n).positions⟩ := by
  rw [writeStep_accepted (Nat.lt_of_lt_of_le pos le) hk]
  simp

theorem write_of_single (h : SingleWrite kernel buf) :
    ∃ w, Yields (writeStep kernel buf) {} w ∧ Faithful buf w := by
  by_cases hpos : 0 < buf.size
  · cases hk : kernel 0 buf.size with
    | failed errno =>
      have hd := writeStep_failed (s := {}) hpos hk
      exact ⟨_, (yields_done hd).mpr rfl, rfl⟩
    | accepted n pos le =>
      rcases Nat.eq_or_lt_of_le le with heq | hlt
      · have hd := writeStep_end kernel (s := ⟨n, 1, (buf.first n).positions⟩)
          (Nat.not_lt.mpr (Nat.le_of_eq heq.symm))
        exact ⟨_, (yields_more (write_first hk)).mpr ((yields_done hd).mpr rfl), le, rfl,
          fun _ => heq⟩
      · cases hk' : kernel 1 buf.size with
        | failed errno =>
          have hd := writeStep_failed (s := ⟨n, 1, (buf.first n).positions⟩) hlt hk'
          rw [if_neg pos.ne'] at hd
          exact ⟨_, (yields_more (write_first hk)).mpr ((yields_done hd).mpr rfl), le, rfl,
            fun hf => Bool.noConfusion hf⟩
        | accepted m pos' le' =>
          rw [SingleWrite, hk, hk'] at h
          rcases h with h | h | h | h
          · omega
          · exact absurd h (Nat.ne_of_lt hlt)
          · exact h.elim
          · exact h.elim
  · have hd := writeStep_end kernel (s := {}) hpos
    exact ⟨_, (yields_done hd).mpr rfl, Nat.zero_le _, rfl,
      fun _ => show 0 = buf.size by omega⟩

theorem single_of_write (hy : Yields (writeStep kernel buf) {} w) (hf : Faithful buf w) :
    SingleWrite kernel buf := by
  by_contra h
  simp only [SingleWrite, not_or] at h
  obtain ⟨hpos, hwhole, hfail, hfail'⟩ := h
  cases hk : kernel 0 buf.size with
  | failed errno => simp [hk, CallResult.Failed] at hfail
  | accepted n pos le =>
    have hlt : n < buf.size := by
      simp only [hk, CallResult.Whole] at hwhole
      omega
    cases hk' : kernel 1 buf.size with
    | failed errno => simp [hk', CallResult.Failed] at hfail'
    | accepted m pos' le' =>
      have hm := writeStep_accepted (s := ⟨n, 1, (buf.first n).positions⟩) hlt hk'
      rw [yields_more (write_first hk), yields_more hm] at hy
      exact twice_sent pos pos' (nodup_of_yields hy hf.nodup)

theorem write_faithful_iff :
    (∃ w, Yields (writeStep kernel buf) {} w ∧ Faithful buf w) ↔ SingleWrite kernel buf :=
  ⟨fun ⟨_, hy, hf⟩ => single_of_write hy hf, write_of_single⟩

theorem write_not_faithful : ¬ ∀ (kernel : Kernel) (buf : Slice),
    ∃ w, Yields (writeStep kernel buf) {} w ∧ Faithful buf w := by
  intro hall
  obtain ⟨w, hy, hf⟩ := hall (fun _ size =>
    if h : 0 < size then .accepted 1 (by decide) h else .failed 11) ⟨0, 2⟩
  obtain rfl := yields_unique hy ⟨3, rfl⟩
  exact absurd hf.nodup (by decide)

end Corosig
