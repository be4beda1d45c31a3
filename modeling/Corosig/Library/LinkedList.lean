import Mathlib.Data.List.Basic
import Mathlib.Data.List.Nodup
import Mathlib.Logic.Function.Basic

namespace LinkedList
open Function

variable {ι : Type} {next prev next' prev' : ι → ι} {nil before after x y : ι}
  {xs ys : List ι}

def Linked (next prev : ι → ι) : ι → List ι → ι → Prop
  | _, [], _ => True
  | before, x :: xs, after =>
      prev x = before ∧ next x = xs.headD after ∧ Linked next prev x xs after

theorem headD_append (xs ys : List ι) (a : ι) : (xs ++ ys).headD a = xs.headD (ys.headD a) := by
  cases xs <;> rfl

theorem linked_append :
    Linked next prev before (xs ++ ys) after ↔
      Linked next prev before xs (ys.headD after) ∧
        Linked next prev (xs.getLastD before) ys after := by
  induction xs generalizing before with
  | nil => simp [Linked]
  | cons x xs ih =>
    simp only [List.cons_append, Linked, ih, headD_append, List.getLastD_cons, and_assoc]

theorem Linked.congr (hn : ∀ x ∈ xs, next' x = next x) (hp : ∀ x ∈ xs, prev' x = prev x)
    (h : Linked next prev before xs after) : Linked next' prev' before xs after := by
  induction xs generalizing before with
  | nil => trivial
  | cons x xs ih =>
    obtain ⟨h1, h2, h3⟩ := h
    refine ⟨(hp x (by simp)).trans h1, (hn x (by simp)).trans h2, ?_⟩
    exact ih (fun y hy => hn y (by simp [hy])) (fun y hy => hp y (by simp [hy])) h3

theorem Linked.next_mem (h : Linked next prev before (xs ++ x :: ys) after) :
    next x = ys.headD after :=
  (linked_append.mp h).2.2.1

theorem Linked.prev_mem (h : Linked next prev before (xs ++ x :: ys) after) :
    prev x = xs.getLastD before :=
  (linked_append.mp h).2.1

structure Threaded (next prev : ι → ι) (nil first last : ι) (xs : List ι) : Prop where
  linked : Linked next prev nil xs nil
  first_eq : first = xs.headD nil
  last_eq : last = xs.getLastD nil
  nodup : xs.Nodup
  proper : nil ∉ xs

theorem Threaded.eq_nil (h : Threaded next prev nil before after xs) (hf : before = nil) :
    xs = [] := by
  cases xs with
  | nil => rfl
  | cons x xs => exact absurd (by rw [← hf, h.first_eq]; simp) h.proper

theorem Threaded.first_mem (h : Threaded next prev nil before after xs) (hf : before ≠ nil) :
    before ∈ xs ∧ prev before = nil := by
  cases xs with
  | nil => exact absurd h.first_eq hf
  | cons x xs =>
    obtain rfl : before = x := h.first_eq
    exact ⟨by simp, h.linked.1⟩

theorem Threaded.last_mem (h : Threaded next prev nil before after xs) (hl : after ≠ nil) :
    after ∈ xs ∧ next after = nil := by
  rcases List.eq_nil_or_concat' xs with rfl | ⟨xs, x, rfl⟩
  · exact absurd h.last_eq hl
  · have he := h.last_eq
    rw [List.getLastD_concat] at he
    exact ⟨by simp [he], he ▸ h.linked.next_mem⟩

theorem Threaded.last_ne (h : Threaded next prev nil before after xs) (hf : before ≠ nil) :
    after ≠ nil := by
  rintro rfl
  rcases List.eq_nil_or_concat' xs with rfl | ⟨xs, x, rfl⟩
  · exact hf h.first_eq
  · have he := h.last_eq
    rw [List.getLastD_concat] at he
    exact h.proper (by simp [he])

theorem threaded_singleton (hn : next y = nil) (hp : prev y = nil) (hy : y ≠ nil) :
    Threaded next prev nil y y [y] :=
  ⟨⟨hp, hn, trivial⟩, rfl, rfl, by simp, by simpa using hy.symm⟩

theorem Threaded.next_mem (h : Threaded next prev nil before after (xs ++ x :: ys))
    (hn : next x ≠ nil) : next x ∈ ys ∧ prev (next x) = x := by
  have he := h.linked.next_mem
  cases ys with
  | nil => exact absurd he hn
  | cons y ys =>
    have hl := h.linked
    rw [List.append_cons] at hl
    have hp := hl.prev_mem
    rw [List.getLastD_concat] at hp
    simp only [List.headD_cons] at he
    rw [he]
    exact ⟨by simp, hp⟩

theorem Threaded.prev_mem (h : Threaded next prev nil before after (xs ++ x :: ys))
    (hp : prev x ≠ nil) : prev x ∈ xs ∧ next (prev x) = x := by
  have he := h.linked.prev_mem
  rcases List.eq_nil_or_concat' xs with rfl | ⟨xs, y, rfl⟩
  · exact absurd he hp
  · have hl := h.linked
    rw [List.append_assoc, List.singleton_append] at hl
    rw [List.getLastD_concat] at he
    rw [he]
    exact ⟨by simp, hl.next_mem⟩

variable [DecidableEq ι]

theorem Linked.push_front (h : Linked next prev nil (x :: xs) nil) (hnd : (x :: xs).Nodup)
    (hy : y ∉ x :: xs) (hp : prev y = nil) :
    Linked (update next y x) (update prev x y) nil (y :: x :: xs) nil := by
  have hyx : y ≠ x := fun e => hy (by simp [e])
  obtain ⟨hx, hn, hl⟩ := h
  refine ⟨by simp [hyx, hp], by simp, by simp, ?_, ?_⟩
  · simp [hyx.symm, hn]
  · refine hl.congr (fun z hz => ?_) (fun z hz => ?_)
    · exact update_of_ne (fun e => hy (by simp [← e, hz])) _ _
    · exact update_of_ne (by rintro rfl; exact (List.nodup_cons.mp hnd).1 hz) _ _

theorem Linked.push_back (h : Linked next prev nil (xs ++ [x]) nil) (hnd : (xs ++ [x]).Nodup)
    (hy : y ∉ xs ++ [x]) (hn : next y = nil) :
    Linked (update next x y) (update prev y x) nil (xs ++ [x] ++ [y]) nil := by
  have hyx : y ≠ x := fun e => hy (by simp [e])
  obtain ⟨h1, hx, -, -⟩ := linked_append.mp h
  have hxs : ∀ z ∈ xs, z ≠ x := by
    intro z hz e
    exact (List.nodup_append.mp hnd).2.2 z hz x (by simp) e
  refine linked_append.mpr ⟨linked_append.mpr ⟨?_, ?_⟩, ?_⟩
  · refine h1.congr (fun z hz => update_of_ne (hxs z hz) _ _) (fun z hz => update_of_ne ?_ _ _)
    exact fun e => hy (by simp [← e, hz])
  · exact ⟨by simp [hyx.symm, hx], by simp, trivial⟩
  · exact ⟨by simp, by simp [hyx, hn], trivial⟩

def unlinkNext (next prev : ι → ι) (nil x : ι) : ι → ι :=
  update (if prev x = nil then next else update next (prev x) (next x)) x nil

def unlinkPrev (next prev : ι → ι) (nil x : ι) : ι → ι :=
  update (if next x = nil then prev else update prev (next x) (prev x)) x nil

theorem unlinkNext_of_ne (hx : y ≠ x) (hp : prev x ≠ nil → y ≠ prev x) :
    unlinkNext next prev nil x y = next y := by
  unfold unlinkNext
  split <;> simp_all

theorem unlinkPrev_of_ne (hx : y ≠ x) (hn : next x ≠ nil → y ≠ next x) :
    unlinkPrev next prev nil x y = prev y := by
  unfold unlinkPrev
  split <;> simp_all

theorem Linked.unlink_left (h : Linked next prev nil (xs ++ x :: ys) nil)
    (hnd : (xs ++ x :: ys).Nodup) (hnil : nil ∉ xs ++ x :: ys) :
    Linked (unlinkNext next prev nil x) (unlinkPrev next prev nil x) nil xs (ys.headD nil) := by
  have hx : ∀ z ∈ xs, z ≠ x := fun z hz e => (List.nodup_append.mp hnd).2.2 z hz x (by simp) e
  have hys : ∀ z ∈ xs, z ≠ ys.headD nil := by
    intro z hz e
    cases ys with
    | nil => exact hnil (by simp only [List.headD_nil] at e; simp [← e, hz])
    | cons q ys => exact (List.nodup_append.mp hnd).2.2 z hz q (by simp) e
  have hprev := h.prev_mem
  have hnext := h.next_mem
  obtain ⟨hl, -⟩ := linked_append.mp h
  rcases List.eq_nil_or_concat' xs with rfl | ⟨xs, p, rfl⟩
  · trivial
  · obtain ⟨h1, hp, -, -⟩ := linked_append.mp hl
    have hpn : p ≠ nil := fun e => hnil (by simp [e])
    have hpx := hx p (by simp)
    simp only [List.getLastD_concat] at hprev
    have hne : ∀ z ∈ xs, z ≠ p := fun z hz e =>
      (List.nodup_append.mp (List.nodup_append.mp hnd).1).2.2 z hz p (by simp) e
    refine linked_append.mpr ⟨h1.congr (fun z hz => ?_) (fun z hz => ?_), ?_, ?_, trivial⟩
    · exact unlinkNext_of_ne (hx z (by simp [hz])) (fun _ => hprev ▸ hne z hz)
    · exact unlinkPrev_of_ne (hx z (by simp [hz])) (fun _ => hnext ▸ hys z (by simp [hz]))
    · rw [unlinkPrev_of_ne hpx (fun _ => hnext ▸ hys p (by simp)), hp]
    · simp [unlinkNext, hprev, hpn, hpx, hnext]

theorem Linked.unlink_right (h : Linked next prev nil (xs ++ x :: ys) nil)
    (hnd : (xs ++ x :: ys).Nodup) (hnil : nil ∉ xs ++ x :: ys) :
    Linked (unlinkNext next prev nil x) (unlinkPrev next prev nil x) (xs.getLastD nil) ys nil := by
  have hx : ∀ z ∈ ys, z ≠ x := by
    rintro z hz rfl
    exact (List.nodup_cons.mp (List.nodup_append.mp hnd).2.1).1 hz
  have hxs : ∀ z ∈ ys, z ≠ xs.getLastD nil := by
    intro z hz e
    rcases List.eq_nil_or_concat' xs with rfl | ⟨xs, p, rfl⟩
    · exact hnil (by simp only [List.getLastD_nil] at e; simp [← e, hz])
    · simp only [List.getLastD_concat] at e
      exact (List.nodup_append.mp hnd).2.2 p (by simp) z (by simp [hz]) e.symm
  have hprev := h.prev_mem
  have hnext := h.next_mem
  obtain ⟨-, -, -, hl⟩ := linked_append.mp h
  cases ys with
  | nil => trivial
  | cons q ys =>
    obtain ⟨-, hq, hr⟩ := hl
    have hqn : q ≠ nil := fun e => hnil (by simp [e])
    have hqx := hx q (by simp)
    simp only [List.headD_cons] at hnext
    have hne : ∀ z ∈ ys, z ≠ q := fun z hz e =>
      (List.nodup_cons.mp (List.nodup_cons.mp (List.nodup_append.mp hnd).2.1).2).1 (e ▸ hz)
    refine ⟨?_, ?_, hr.congr (fun z hz => ?_) (fun z hz => ?_)⟩
    · simp [unlinkPrev, hnext, hqn, hqx, hprev]
    · rw [unlinkNext_of_ne hqx (fun _ => hprev ▸ hxs q (by simp)), hq]
    · exact unlinkNext_of_ne (hx z (by simp [hz])) (fun _ => hprev ▸ hxs z (by simp [hz]))
    · exact unlinkPrev_of_ne (hx z (by simp [hz])) (fun _ => hnext ▸ hne z hz)

theorem Linked.unlink (h : Linked next prev nil (xs ++ x :: ys) nil)
    (hnd : (xs ++ x :: ys).Nodup) (hnil : nil ∉ xs ++ x :: ys) :
    Linked (unlinkNext next prev nil x) (unlinkPrev next prev nil x) nil (xs ++ ys) nil :=
  linked_append.mpr ⟨h.unlink_left hnd hnil, h.unlink_right hnd hnil⟩

theorem Threaded.push_front (h : Threaded next prev nil before after xs) (hf : before ≠ nil)
    (hy : y ∉ xs) (hyn : y ≠ nil) (hp : prev y = nil) :
    Threaded (update next y before) (update prev before y) nil y after (y :: xs) := by
  cases xs with
  | nil => exact absurd h.first_eq hf
  | cons x xs =>
    obtain rfl : before = x := h.first_eq
    exact ⟨h.linked.push_front h.nodup hy hp, rfl, h.last_eq, List.nodup_cons.mpr ⟨hy, h.nodup⟩,
      by simpa [hyn.symm] using h.proper⟩

theorem Threaded.push_back (h : Threaded next prev nil before after xs) (hf : before ≠ nil)
    (hy : y ∉ xs) (hyn : y ≠ nil) (hn : next y = nil) :
    Threaded (update next after y) (update prev y after) nil before y (xs ++ [y]) := by
  rcases List.eq_nil_or_concat' xs with rfl | ⟨xs, x, rfl⟩
  · exact absurd h.first_eq hf
  · have he := h.last_eq
    rw [List.getLastD_concat] at he
    subst he
    refine ⟨h.linked.push_back h.nodup hy hn, ?_, by rw [List.getLastD_concat], ?_, ?_⟩
    · rw [h.first_eq]
      cases xs <;> rfl
    · exact h.nodup.append (by simp) (by simpa [eq_comm] using hy)
    · have hp := h.proper
      simp only [List.mem_append, not_or] at hp ⊢
      exact ⟨hp, by simpa using hyn.symm⟩

theorem Threaded.unlink (h : Threaded next prev nil before after (xs ++ x :: ys)) :
    Threaded (unlinkNext next prev nil x) (unlinkPrev next prev nil x) nil
      (if before = x then next x else before) (if after = x then prev x else after)
      (xs ++ ys) := by
  have hsub : (xs ++ ys).Sublist (xs ++ x :: ys) :=
    (List.sublist_cons_self x ys).append_left xs
  refine ⟨h.linked.unlink h.nodup h.proper, ?_, ?_, h.nodup.sublist hsub,
    fun hm => h.proper (hsub.subset hm)⟩
  · rw [h.linked.next_mem, h.first_eq]
    cases xs with
    | nil => simp
    | cons z xs =>
      have hz : z ≠ x := (List.nodup_append.mp h.nodup).2.2 z (by simp) x (by simp)
      simp [hz]
  · rw [h.linked.prev_mem, h.last_eq]
    rcases List.eq_nil_or_concat' ys with rfl | ⟨ys, z, rfl⟩
    · simp only [List.append_nil, List.getLastD_concat, if_true]
    · have hz : z ≠ x := by
        rintro rfl
        exact (List.nodup_cons.mp (List.nodup_append.mp h.nodup).2.1).1 (by simp)
      simp only [← List.cons_append, ← List.append_assoc, List.getLastD_concat, if_neg hz]

end LinkedList
