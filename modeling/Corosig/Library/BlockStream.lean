import Mathlib.Algebra.GroupWithZero.Nat
import Mathlib.Logic.Function.Iterate

namespace BlockStream

-- refill moves on to the next block, block is the one that is being read.
structure Source (σ β : Type) (size : Nat) where
  refill : σ → σ
  block : σ → Vector β size

structure Reader (σ : Type) (size : Nat) where
  source : σ
  pos : Nat
  pos_le : pos ≤ size

namespace Source

variable {σ β : Type} {size : Nat} (S : Source σ β size) (s : σ)

def contents (n : Nat) : List β :=
  (List.range n).flatMap fun i => (S.block (S.refill^[i] s)).toList

theorem contents_succ (n : Nat) :
    S.contents s (n + 1) = S.contents s n ++ (S.block (S.refill^[n] s)).toList := by
  rw [contents, List.range_succ, List.flatMap_append, List.flatMap_singleton]
  rfl

theorem length_contents (n : Nat) : (S.contents s n).length = size * n := by
  induction n with
  | zero => rfl
  | succ n ih => rw [contents_succ, List.length_append, ih, Vector.length_toList, Nat.mul_succ]

theorem getElem?_contents [NeZero size] {n k : Nat} (h : k < size * n) :
    (S.contents s n)[k]? = some ((S.block (S.refill^[k / size] s)).get
      ⟨k % size, Nat.mod_lt _ (Nat.pos_of_neZero size)⟩) := by
  induction n with
  | zero => cases h
  | succ n ih =>
    rw [contents_succ]
    by_cases hk : k < size * n
    · rw [List.getElem?_append_left (by rwa [length_contents]), ih hk]
    · obtain ⟨i, rfl⟩ := Nat.exists_eq_add_of_le (Nat.le_of_not_lt hk)
      have hi : i < size := by rw [Nat.mul_succ] at h; omega
      have hdiv : (size * n + i) / size = n := by
        rw [Nat.mul_add_div (Nat.pos_of_neZero size), Nat.div_eq_of_lt hi, Nat.add_zero]
      have hmod : (size * n + i) % size = i := by
        rw [Nat.mul_add_mod, Nat.mod_eq_of_lt hi]
      rw [List.getElem?_append_right (by rw [length_contents]; omega), length_contents,
        Nat.add_sub_cancel_left]
      simp only [hdiv, hmod]
      exact List.getElem?_eq_getElem (by rwa [Vector.length_toList])

end Source

namespace Reader

variable {σ β : Type} {size : Nat} [NeZero size] (S : Source σ β size) {r : Reader σ size}

def ready (r : Reader σ size) : Reader σ size :=
  if r.pos = size then ⟨S.refill r.source, 0, Nat.zero_le _⟩ else r

theorem ready_lt (r : Reader σ size) : (r.ready S).pos < size := by
  unfold ready
  split
  case isTrue => exact Nat.pos_of_neZero size
  case isFalse hne => exact Nat.lt_of_le_of_ne r.pos_le hne

def next (r : Reader σ size) : β × Reader σ size :=
  ((S.block (r.ready S).source).get ⟨(r.ready S).pos, r.ready_lt S⟩,
    ⟨(r.ready S).source, (r.ready S).pos + 1, r.ready_lt S⟩)

def read : Nat → Reader σ size → List β × Reader σ size
  | 0, r => ([], r)
  | n + 1, r =>
      let rest := read n (r.next S).2
      ((r.next S).1 :: rest.1, rest.2)

def readEach : List Nat → Reader σ size → List β × Reader σ size
  | [], r => ([], r)
  | n :: sizes, r =>
      let rest := readEach sizes (r.read S n).2
      ((r.read S n).1 ++ rest.1, rest.2)

def upcoming (r : Reader σ size) (k : Nat) : β :=
  (S.block (S.refill^[(r.pos + k) / size] r.source)).get
    ⟨(r.pos + k) % size, Nat.mod_lt _ (Nat.pos_of_neZero size)⟩

variable {S}

omit [NeZero size] in
theorem ready_eq (h : r.pos < size) : r.ready S = r := if_neg (Nat.ne_of_lt h)

omit [NeZero size] in
theorem ready_full (h : r.pos = size) : r.ready S = ⟨S.refill r.source, 0, Nat.zero_le _⟩ :=
  if_pos h

theorem upcoming_congr {r' : Reader σ size} {k k' i : Nat}
    (hsource : r'.source = S.refill^[i] r.source) (hpos : r'.pos + k' + size * i = r.pos + k) :
    r'.upcoming S k' = r.upcoming S k := by
  have hdiv : (r.pos + k) / size = (r'.pos + k') / size + i := by
    rw [← hpos, Nat.add_mul_div_left _ _ (Nat.pos_of_neZero size)]
  have hmod : (r.pos + k) % size = (r'.pos + k') % size := by
    rw [← hpos, Nat.add_mul_mod_self_left]
  simp only [upcoming, hdiv, hmod, hsource, Function.iterate_add_apply]

theorem upcoming_ready (k : Nat) : (r.ready S).upcoming S k = r.upcoming S k := by
  rcases Nat.lt_or_eq_of_le r.pos_le with hlt | hfull
  · rw [ready_eq hlt]
  · refine upcoming_congr (i := 1) ?_ ?_
    · rw [ready_full hfull]; rfl
    · rw [ready_full hfull, hfull, Nat.zero_add, Nat.mul_one, Nat.add_comm]

theorem upcoming_next (k : Nat) : (r.next S).2.upcoming S k = r.upcoming S (k + 1) := by
  rw [← upcoming_ready (k + 1)]
  exact upcoming_congr (i := 0) rfl (by simp only [next]; omega)

theorem next_upcoming : (r.next S).1 = r.upcoming S 0 := by
  rw [← upcoming_ready 0, upcoming, next]
  have hlt := r.ready_lt S
  simp only [Nat.add_zero, Nat.div_eq_of_lt hlt, Nat.mod_eq_of_lt hlt, Function.iterate_zero_apply]

theorem read_fst (n : Nat) (r : Reader σ size) :
    (r.read S n).1 = (List.range n).map (r.upcoming S) := by
  induction n generalizing r with
  | zero => rfl
  | succ n ih =>
    rw [read, List.range_succ_eq_map, List.map_cons, List.map_map, ih, next_upcoming]
    exact congrArg _ (List.map_congr_left fun k _ => upcoming_next k)

theorem read_eq_contents {n m : Nat} (h : r.pos + n ≤ size * m) :
    (r.read S n).1 = ((S.contents r.source m).drop r.pos).take n := by
  refine List.ext_getElem? fun k => ?_
  rw [read_fst, List.getElem?_map, List.getElem?_take, List.getElem?_drop]
  split
  case isTrue hk =>
    rw [S.getElem?_contents r.source (by omega), List.getElem?_range hk]
    rfl
  case isFalse hk =>
    rw [List.getElem?_eq_none (by rw [List.length_range]; omega)]
    rfl

theorem read_add (m n : Nat) (r : Reader σ size) :
    r.read S (m + n) = ((r.read S m).1 ++ ((r.read S m).2.read S n).1,
      ((r.read S m).2.read S n).2) := by
  induction m generalizing r with
  | zero => rw [Nat.zero_add]; rfl
  | succ m ih =>
    rw [Nat.add_right_comm, read, ih]
    rfl

theorem readEach_eq (sizes : List Nat) (r : Reader σ size) :
    r.readEach S sizes = r.read S sizes.sum := by
  induction sizes generalizing r with
  | nil => rfl
  | cons n sizes ih => rw [readEach, ih, List.sum_cons, read_add]

theorem read_ready {n : Nat} (hn : 0 < n) : (r.ready S).read S n = r.read S n := by
  obtain ⟨n, rfl⟩ := Nat.exists_eq_succ_of_ne_zero (Nat.ne_of_gt hn)
  simp only [read, next, ready_eq (r.ready_lt S)]

theorem read_within {n : Nat} (h : r.pos + n ≤ size) :
    r.read S n = (((S.block r.source).toList.drop r.pos).take n, ⟨r.source, r.pos + n, h⟩) := by
  induction n generalizing r with
  | zero => rfl
  | succ n ih =>
    have hlt : r.pos < size := by omega
    have hnext : r.next S = ((S.block r.source).get ⟨r.pos, hlt⟩, ⟨r.source, r.pos + 1, hlt⟩) := by
      simp only [next, ready_eq hlt]
    have hentry : r.pos < (S.block r.source).toList.length := by
      rw [Vector.length_toList]; exact hlt
    rw [read, hnext, ih (by simp only; omega), List.drop_eq_getElem_cons hentry,
      List.take_succ_cons, Vector.getElem_toList]
    simp only [Nat.add_right_comm]
    rfl

end Reader

end BlockStream
