import Mathlib.Data.List.Basic

namespace Delimited

variable {α : Type} {d : α} {run xs ys : List α} {texts : List (List α)}

theorem infix_of_cut (h : run <:+: xs ++ d :: ys) (hd : d ∉ run) :
    run <:+: xs ∨ run <:+: ys := by
  rcases List.infix_append_iff.mp h with hxs | hys | ⟨front, back, rfl, hfront, hback⟩
  · exact .inl hxs
  · rcases List.infix_cons_iff.mp hys with hpre | hys
    · rcases List.prefix_cons_iff.mp hpre with rfl | ⟨rest, rfl, -⟩
      · exact .inl (List.nil_infix)
      · exact absurd List.mem_cons_self hd
    · exact .inr hys
  · rcases List.prefix_cons_iff.mp hback with rfl | ⟨rest, rfl, -⟩
    · rw [List.append_nil]
      exact .inl hfront.isInfix
    · exact absurd (List.mem_append_right front List.mem_cons_self) hd

theorem infix_of_intercalate (h : run <:+: [d].intercalate texts) (hd : d ∉ run) :
    run = [] ∨ ∃ text ∈ texts, run <:+: text := by
  induction texts with
  | nil => exact .inl (List.infix_nil.mp h)
  | cons text texts ih =>
    cases texts with
    | nil =>
      rw [List.intercalate_singleton] at h
      exact .inr ⟨text, List.mem_singleton_self text, h⟩
    | cons second texts =>
      rw [List.intercalate_cons_cons, List.append_assoc] at h
      rcases infix_of_cut h hd with hfirst | hrest
      · exact .inr ⟨text, List.mem_cons_self, hfirst⟩
      · refine (ih hrest).imp_right ?_
        rintro ⟨text', hmem, hin⟩
        exact ⟨text', List.mem_cons_of_mem text hmem, hin⟩

theorem mem_intercalate {c : α} (h : c ∈ [d].intercalate texts) :
    c = d ∨ ∃ text ∈ texts, c ∈ text := by
  by_cases hd : c = d
  · exact .inl hd
  · have hrun : [c] <:+: [d].intercalate texts := by
      obtain ⟨front, back, heq⟩ := List.append_of_mem h
      exact ⟨front, back, by rw [heq, List.append_assoc]; rfl⟩
    rcases infix_of_intercalate hrun (by simpa using Ne.symm hd) with hnil | ⟨text, hmem, hin⟩
    · cases hnil
    · exact .inr ⟨text, hmem, hin.subset List.mem_cons_self⟩

variable {p : α → Bool}

def Stops (p : α → Bool) (ys : List α) : Prop := ∀ c ∈ ys.head?, ¬p c

theorem stops_nil (p : α → Bool) : Stops p [] := by
  rintro c ⟨⟩

theorem stops_cons {c : α} (h : ¬p c) (ys : List α) : Stops p (c :: ys) := by
  rintro c' hc
  rwa [← Option.some.inj hc]

theorem Stops.takeWhile (h : Stops p ys) : ys.takeWhile p = [] := by
  cases ys with
  | nil => rfl
  | cons c ys => exact List.takeWhile_cons_of_neg (h c rfl)

theorem Stops.dropWhile (h : Stops p ys) : ys.dropWhile p = ys := by
  cases ys with
  | nil => rfl
  | cons c ys => exact List.dropWhile_cons_of_neg (h c rfl)

theorem stops_dropWhile (p : α → Bool) (xs : List α) : Stops p (xs.dropWhile p) := by
  intro c hc
  obtain ⟨rest, hrest⟩ := List.head?_eq_some_iff.mp hc
  have hhead := List.head_dropWhile_not p (l := xs) (by rw [hrest]; exact List.cons_ne_nil _ _)
  simp only [hrest, List.head_cons] at hhead
  rw [hhead]
  exact Bool.false_ne_true

theorem takeWhile_append (h : Stops p ys) : (xs ++ ys).takeWhile p = xs.takeWhile p := by
  rw [List.takeWhile_append, h.takeWhile, List.append_nil]
  split
  · rename_i hall
    exact ((List.takeWhile_prefix p).eq_of_length hall).symm
  · rfl

theorem dropWhile_append (h : Stops p ys) : (xs ++ ys).dropWhile p = xs.dropWhile p ++ ys := by
  rw [List.dropWhile_append, h.dropWhile]
  split
  · rename_i hempty
    rw [List.isEmpty_iff.mp hempty, List.nil_append]
  · rfl

theorem dropWhile_take (p : α → Bool) (xs : List α) (k : Nat) :
    (xs.take k).dropWhile p = (xs.dropWhile p).take (k - (xs.takeWhile p).length) := by
  induction xs generalizing k with
  | nil => rw [List.take_nil, List.dropWhile_nil, List.take_nil]
  | cons c xs ih =>
    cases k with
    | zero => rw [List.take_zero, List.dropWhile_nil, Nat.zero_sub, List.take_zero]
    | succ k =>
      rw [List.take_succ_cons]
      by_cases hc : p c
      · rw [List.dropWhile_cons_of_pos hc, List.dropWhile_cons_of_pos hc,
          List.takeWhile_cons_of_pos hc, ih, List.length_cons, Nat.add_sub_add_right]
      · rw [List.dropWhile_cons_of_neg hc, List.dropWhile_cons_of_neg hc,
          List.takeWhile_cons_of_neg hc, List.length_nil, Nat.sub_zero, List.take_succ_cons]

theorem length_takeWhile_not (p : α → Bool) (xs : List α) :
    (xs.takeWhile fun c => !p c).length = xs.findIdx p := by
  rw [List.takeWhile_eq_take_findIdx_not, List.length_take]
  simp only [Bool.not_not]
  exact Nat.min_eq_left List.findIdx_le_length

theorem drop_length_takeWhile (p : α → Bool) (xs : List α) :
    xs.drop (xs.takeWhile p).length = xs.dropWhile p := by
  have hsplit := List.takeWhile_append_dropWhile (p := p) (l := xs)
  have hdrop : (xs.takeWhile p ++ xs.dropWhile p).drop (xs.takeWhile p).length =
      xs.dropWhile p := List.drop_left
  rwa [hsplit] at hdrop

end Delimited
