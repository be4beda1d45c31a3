import Corosig.Reactor.Sleepers
import Mathlib.Data.Rat.Floor

namespace Corosig.Reactor
open StableQueue

def nanosPerMilli : Int := 1000000

def InInt64 (x : Int) : Prop := -2 ^ 63 ≤ x ∧ x < 2 ^ 63

instance (x : Int) : Decidable (InInt64 x) := inferInstanceAs (Decidable (_ ∧ _))

-- The conversion to int keeps the low 32 bits.
def toInt (x : Int) : Int := (x + 2 ^ 31) % 2 ^ 32 - 2 ^ 31

def maxInt : Int := 2 ^ 31 - 1

-- std::chrono::ceil casts first, then compares in nanoseconds; adding one to maxInt is undefined.
def ceilToMillis (nanos : Int) : Option Int :=
  let millis := toInt (nanos.tdiv nanosPerMilli)
  if millis * nanosPerMilli < nanos then
    if millis = maxInt then none else some (millis + 1)
  else some millis

variable {ν κ ρ : Type}

def pollTimeout (ready : List ρ) (sleeping : SleepList ν κ) (now : Int) : Option Int :=
  match ready with
  | _ :: _ => some 0
  | [] =>
      match sleeping.entries with
      | [] => some 100
      | first :: _ =>
          if InInt64 (first.value.awakeTime - now) then
            (ceilToMillis (first.value.awakeTime - now)).map fun timeout => min (max 0 timeout) 100
          else none

structure Earliest (sleeping : SleepList ν κ) (deadline : Int) : Prop where
  present : ∃ e ∈ sleeping.entries, e.value.awakeTime = deadline
  first : ∀ e ∈ sleeping.entries, deadline ≤ e.value.awakeTime

structure Exact (left timeout : Int) : Prop where
  value : timeout = min 100 (max 0 ⌈(left : ℚ) / 1000000⌉)
  zero : timeout = 0 → left ≤ 0
  low : timeout ≠ 0 → 1 ≤ timeout
  high : timeout ≠ 0 → timeout ≤ 100
  close : timeout ≠ 0 → timeout * nanosPerMilli < left + nanosPerMilli

def Narrows (left : Int) : Prop :=
  -(2 ^ 31 + 1) * nanosPerMilli < left ∧ left ≤ maxInt * nanosPerMilli ∨
  maxInt * nanosPerMilli < left ∧ 99 ≤ left.tdiv nanosPerMilli % 2 ^ 32 ∧
    left.tdiv nanosPerMilli % 2 ^ 32 < maxInt ∨
  left ≤ -(2 ^ 31 + 1) * nanosPerMilli ∧
    (left.tdiv nanosPerMilli % 2 ^ 32 = 0 ∨ 2 ^ 31 ≤ left.tdiv nanosPerMilli % 2 ^ 32)

variable {sleeping : SleepList ν κ} {now deadline left timeout : Int}

theorem tdiv_nanosPerMilli (left : Int) :
    0 ≤ left ∧ left.tdiv nanosPerMilli = left / 1000000 ∨
      left < 0 ∧ left.tdiv nanosPerMilli = -(-left / 1000000) := by
  rcases le_or_gt 0 left with hpos | hneg
  · exact .inl ⟨hpos, Int.tdiv_eq_ediv_of_nonneg hpos⟩
  · refine .inr ⟨hneg, ?_⟩
    have hflip : (-left).tdiv nanosPerMilli = -left / 1000000 :=
      Int.tdiv_eq_ediv_of_nonneg (Int.neg_nonneg_of_nonpos hneg.le)
    rw [← hflip, Int.neg_tdiv, Int.neg_neg]

theorem ceil_millis (left : Int) : ⌈(left : ℚ) / 1000000⌉ = -(-left / 1000000) := by
  exact_mod_cast Rat.ceil_intCast_div_natCast left 1000000

theorem exact_iff : Exact left timeout ↔ timeout = min 100 (max 0 (-(-left / 1000000))) := by
  rw [← ceil_millis]
  refine ⟨Exact.value, fun h => ?_⟩
  have hvalue := h
  rw [ceil_millis] at hvalue
  have hclose : timeout ≠ 0 → timeout * 1000000 < left + 1000000 := by omega
  exact ⟨h, by omega, by omega, by omega, hclose⟩

theorem ceilToMillis_inside (hlow : -(2 ^ 31 + 1) * nanosPerMilli < left)
    (hhigh : left ≤ maxInt * nanosPerMilli) : ceilToMillis left = some (-(-left / 1000000)) := by
  have hquot := tdiv_nanosPerMilli left
  unfold nanosPerMilli maxInt at *
  have hmillis : toInt (left.tdiv 1000000) = left.tdiv 1000000 := by
    unfold toInt
    omega
  rw [ceilToMillis, nanosPerMilli, hmillis, maxInt]
  split
  · rw [if_neg (by omega)]
    congr 1
    omega
  · congr 1
    omega

theorem toInt_bounds (x : Int) : -2 ^ 31 ≤ toInt x ∧ toInt x ≤ maxInt := by
  unfold toInt maxInt
  omega

theorem ceilToMillis_above (h : maxInt * nanosPerMilli < left) :
    ceilToMillis left = if toInt (left.tdiv nanosPerMilli) = maxInt then none
      else some (toInt (left.tdiv nanosPerMilli) + 1) := by
  have hbounds := toInt_bounds (left.tdiv nanosPerMilli)
  refine if_pos ?_
  unfold nanosPerMilli maxInt at *
  omega

theorem ceilToMillis_below (h : left ≤ -(2 ^ 31 + 1) * nanosPerMilli) :
    ceilToMillis left = some (toInt (left.tdiv nanosPerMilli)) := by
  have hbounds := toInt_bounds (left.tdiv nanosPerMilli)
  refine if_neg ?_
  unfold nanosPerMilli maxInt at *
  omega

theorem ceilToMillis_exact_iff (left : Int) :
    (∃ timeout ∈ ceilToMillis left, Exact left (min (max 0 timeout) 100)) ↔ Narrows left := by
  simp only [exact_iff]
  by_cases hlow : left ≤ -(2 ^ 31 + 1) * nanosPerMilli
  · simp only [ceilToMillis_below hlow, Option.mem_some_iff, exists_eq_left']
    unfold Narrows toInt maxInt nanosPerMilli at *
    constructor <;> intro h <;> omega
  · by_cases hhigh : maxInt * nanosPerMilli < left
    · have hsum : (∃ timeout ∈ ceilToMillis left,
          min (max 0 timeout) 100 = min 100 (max 0 (-(-left / 1000000)))) ↔
          99 ≤ toInt (left.tdiv nanosPerMilli) ∧ toInt (left.tdiv nanosPerMilli) < maxInt := by
        have hbounds := toInt_bounds (left.tdiv nanosPerMilli)
        have hfar : 100 ≤ -(-left / 1000000) := by
          unfold maxInt nanosPerMilli at hhigh
          omega
        rw [ceilToMillis_above hhigh]
        split
        · rename_i hmax
          simp [hmax]
        · simp only [Option.mem_some_iff, exists_eq_left']
          omega
      rw [hsum]
      unfold Narrows toInt maxInt nanosPerMilli at *
      constructor <;> intro h <;> omega
    · rw [ceilToMillis_inside (not_le.mp hlow) (not_lt.mp hhigh)]
      exact iff_of_true ⟨_, rfl, by omega⟩ (.inl ⟨not_le.mp hlow, not_lt.mp hhigh⟩)

theorem pollTimeout_earliest (hd : Earliest sleeping deadline)
    (hfits : InInt64 (deadline - now)) : pollTimeout ([] : List ρ) sleeping now =
      (ceilToMillis (deadline - now)).map fun timeout => min (max 0 timeout) 100 := by
  obtain ⟨⟨e, he, hdeadline⟩, hfirst⟩ := hd
  rw [pollTimeout]
  have hordered := sleeping.ordered
  cases hentries : sleeping.entries with
  | nil => simp [hentries] at he
  | cons first rest =>
    rw [hentries] at he hfirst hordered
    have hsame : first.value.awakeTime = deadline := by
      refine le_antisymm ?_ (hfirst first List.mem_cons_self)
      rcases List.mem_cons.mp he with rfl | he
      · exact hdeadline.le
      · rcases (List.pairwise_cons.mp hordered).1 e he with hlt | ⟨heq, -⟩
        · exact hdeadline ▸ hlt.le
        · exact hdeadline ▸ heq.le
    simp only [hsame, if_pos hfits]

theorem pollTimeout_exact_iff (sleeping : SleepList ν κ) (now deadline : Int)
    (hd : Earliest sleeping deadline) (hfits : InInt64 (deadline - now)) :
    (∃ timeout, pollTimeout ([] : List ρ) sleeping now = some timeout ∧
      Exact (deadline - now) timeout) ↔ Narrows (deadline - now) := by
  rw [pollTimeout_earliest hd hfits, ← ceilToMillis_exact_iff]
  simp only [Option.map_eq_some_iff, Option.mem_def]
  constructor
  · rintro ⟨_, ⟨timeout, htimeout, rfl⟩, hexact⟩
    exact ⟨timeout, htimeout, hexact⟩
  · rintro ⟨timeout, htimeout, hexact⟩
    exact ⟨_, ⟨timeout, htimeout, rfl⟩, hexact⟩

def oneSleeper (awakeTime : Int) : SleepList Nat Nat := Queue.empty.insert ⟨0, 0, awakeTime⟩

theorem oneSleeper_earliest (awakeTime : Int) : Earliest (oneSleeper awakeTime) awakeTime :=
  ⟨⟨_, List.mem_singleton_self _, rfl⟩, fun _ he => by rw [List.mem_singleton.mp he]⟩

theorem pollTimeout_exact_near :
    (∃ timeout, pollTimeout ([] : List Nat) (oneSleeper 1500001) 0 = some timeout ∧
      Exact (1500001 - 0) timeout) ↔ Narrows (1500001 - 0) :=
  pollTimeout_exact_iff (oneSleeper 1500001) 0 1500001 (oneSleeper_earliest _) (by decide)

theorem pollTimeout_busy : pollTimeout ([] : List Nat) (oneSleeper 2592000000000000) 0 = some 0 ∧
    ¬∀ (sleeping : SleepList Nat Nat) (now deadline : Int), Earliest sleeping deadline →
      InInt64 (deadline - now) → ∃ timeout,
        pollTimeout ([] : List Nat) sleeping now = some timeout ∧
          Exact (deadline - now) timeout := by
  have hzero : pollTimeout ([] : List Nat) (oneSleeper 2592000000000000) 0 = some 0 := by decide
  refine ⟨hzero, fun hall => ?_⟩
  obtain ⟨timeout, htimeout, hexact⟩ :=
    hall _ 0 _ (oneSleeper_earliest 2592000000000000) (by decide)
  rw [hzero] at htimeout
  cases htimeout
  exact absurd (hexact.zero rfl) (by decide)

end Corosig.Reactor
