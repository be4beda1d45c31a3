import Mathlib.Data.List.Basic
import Mathlib.Data.List.Nodup
import Mathlib.Order.Lattice
import Mathlib.Tactic.Common

namespace SortedKeys

variable {α κ : Type} [LinearOrder κ] {key : α → κ} {xs ys : List α} {x e : α} {k : κ}

structure Search (κ : Type) [LinearOrder κ] where
  lowerBound : List κ → κ → Nat
  le_length : ∀ keys k, lowerBound keys k ≤ keys.length
  spec : ∀ keys k, keys.Pairwise (· < ·) →
    lowerBound keys k = (keys.takeWhile (· < k)).length

def linear : Search κ where
  lowerBound keys k := (keys.takeWhile (· < k)).length
  le_length _ _ := (List.takeWhile_prefix _).length_le
  spec _ _ _ := rfl

def Increasing (key : α → κ) (xs : List α) : Prop := (xs.map key).Pairwise (· < ·)

def lowerBound (search : Search κ) (key : α → κ) (xs : List α) (k : κ) : Nat :=
  search.lowerBound (xs.map key) k

def find (search : Search κ) (key : α → κ) (xs : List α) (k : κ) : Option α :=
  xs[lowerBound search key xs k]?.filter fun e => ¬ k < key e

variable {search : Search κ}

theorem increasing_nil : Increasing key ([] : List α) := List.Pairwise.nil

theorem increasing_append :
    Increasing key (xs ++ ys) ↔
      Increasing key xs ∧ Increasing key ys ∧ ∀ x ∈ xs, ∀ y ∈ ys, key x < key y := by
  simp [Increasing, List.pairwise_append]

theorem increasing_cons :
    Increasing key (x :: xs) ↔ (∀ y ∈ xs, key x < key y) ∧ Increasing key xs := by
  simp [Increasing]

theorem Increasing.of_sublist (h : Increasing key ys) (hs : (xs.map key).Sublist (ys.map key)) :
    Increasing key xs :=
  List.Pairwise.sublist hs h

theorem Increasing.inj (h : Increasing key xs) (hx : x ∈ xs) (he : e ∈ xs) (hk : key x = key e) :
    x = e :=
  List.inj_on_of_nodup_map (h.imp ne_of_lt) hx he hk

theorem lowerBound_eq (search : Search κ) (h : Increasing key xs) (k : κ) :
    lowerBound search key xs k = (xs.takeWhile fun e => key e < k).length := by
  rw [lowerBound, search.spec _ _ h, List.takeWhile_map, List.length_map]
  rfl

theorem lowerBound_split (search : Search κ) (h : Increasing key xs) (k : κ) :
    ∃ ls us, xs = ls ++ us ∧ lowerBound search key xs k = ls.length ∧
      (∀ e ∈ ls, key e < k) ∧ ∀ e ∈ us, ¬ key e < k := by
  refine ⟨xs.takeWhile fun e => key e < k, xs.dropWhile fun e => key e < k,
    List.takeWhile_append_dropWhile.symm, lowerBound_eq search h k, ?_, ?_⟩
  · intro e he
    simpa using List.all_eq_true.mp List.all_takeWhile e he
  · intro e he
    have hi : Increasing key (xs.dropWhile fun e => key e < k) :=
      h.of_sublist ((List.dropWhile_sublist _).map key)
    cases hd : xs.dropWhile fun e => key e < k with
    | nil => simp [hd] at he
    | cons d ds =>
      rw [hd] at he hi
      have hk : ¬ key d < k := by
        have := List.head_dropWhile_not (fun e => decide (key e < k)) (l := xs) (by simp [hd])
        simpa [hd] using this
      rcases List.mem_cons.mp he with rfl | he
      · exact hk
      · exact fun hlt => hk (((increasing_cons.mp hi).1 e he).trans hlt)

theorem insertIdx_length_append : (xs ++ ys).insertIdx xs.length x = xs ++ x :: ys := by
  induction xs with
  | nil => simp
  | cons y xs ih => simp [ih]

theorem mem_insertIdx_lowerBound :
    e ∈ xs.insertIdx (lowerBound search key xs k) x ↔ e = x ∨ e ∈ xs :=
  List.mem_insertIdx ((search.le_length (xs.map key) k).trans_eq (List.length_map key))

theorem increasing_insertIdx_iff (search : Search κ) (h : Increasing key xs) (hx : k ≤ key x) :
    Increasing key (xs.insertIdx (lowerBound search key xs k) x) ↔
      ∀ e ∈ xs, key e < k ∨ key x < key e := by
  obtain ⟨ls, us, rfl, hpos, hls, hus⟩ := lowerBound_split search h k
  rw [hpos, insertIdx_length_append, increasing_append, increasing_cons]
  obtain ⟨hl, hu, hlu⟩ := increasing_append.mp h
  constructor
  · rintro ⟨-, ⟨hxu, -⟩, -⟩ e he
    rcases List.mem_append.mp he with he | he
    · exact .inl (hls e he)
    · exact .inr (hxu e he)
  · intro hap
    refine ⟨hl, ⟨?_, hu⟩, ?_⟩
    · intro e he
      exact (hap e (List.mem_append_right _ he)).resolve_left (hus e he)
    · intro l hlm e he
      rcases List.mem_cons.mp he with rfl | he
      · exact (hls l hlm).trans_le hx
      · exact hlu l hlm e he

theorem getElem_lowerBound (h : Increasing key xs) (he : e ∈ xs) :
    xs[lowerBound search key xs (key e)]? = some e := by
  obtain ⟨ls, us, rfl, hpos, hls, hus⟩ := lowerBound_split search h (key e)
  rw [hpos, List.getElem?_append_right (Nat.le_refl _), Nat.sub_self]
  have heu : e ∈ us := (List.mem_append.mp he).resolve_left fun hl => lt_irrefl _ (hls e hl)
  cases us with
  | nil => cases heu
  | cons u us =>
    rcases List.mem_cons.mp heu with rfl | heu
    · rfl
    · have hlt := (increasing_cons.mp (increasing_append.mp h).2.1).1 e heu
      exact absurd hlt (hus u (List.mem_cons_self ..))

theorem find_eq_some_iff (h : Increasing key xs) :
    find search key xs k = some e ↔ e ∈ xs ∧ key e = k := by
  constructor
  · intro hf
    obtain ⟨ls, us, rfl, hpos, hls, hus⟩ := lowerBound_split search h k
    rw [find, hpos, List.getElem?_append_right (Nat.le_refl _), Nat.sub_self,
      Option.filter_eq_some_iff] at hf
    obtain ⟨he, hk⟩ := hf
    have heu : e ∈ us := List.mem_of_getElem? he
    refine ⟨List.mem_append_right _ heu, le_antisymm ?_ (not_lt.mp (hus e heu))⟩
    simpa using hk
  · rintro ⟨he, rfl⟩
    rw [find, getElem_lowerBound h he]
    simp

end SortedKeys
