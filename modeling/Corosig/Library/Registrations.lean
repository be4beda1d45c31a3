import Mathlib.Data.List.Nodup
import Mathlib.Data.List.Perm.Basic
import Mathlib.Tactic.Common

namespace Registrations

-- c starts to wait for w, is resumed for a cause, or ceases to wait without being resumed.
inductive Event (κ ω χ : Type) where
  | linked (c : κ) (w : ω)
  | resumed (c : κ) (cause : χ)
  | unlinked (c : κ)
  deriving DecidableEq, Repr

variable {κ ω χ : Type}

def Event.who : Event κ ω χ → κ
  | .linked c _ | .resumed c _ | .unlinked c => c

def Ended (c : κ) (log : List (Event κ ω χ)) : Prop :=
  (∃ cause, .resumed c cause ∈ log) ∨ .unlinked c ∈ log

theorem Ended.append_left {c : κ} {log : List (Event κ ω χ)} (h : Ended c log)
    (log' : List (Event κ ω χ)) : Ended c (log ++ log') :=
  h.imp (fun ⟨cause, h⟩ => ⟨cause, List.mem_append_left _ h⟩) (List.mem_append_left _)

theorem Ended.append_right {c : κ} {log' : List (Event κ ω χ)} (h : Ended c log')
    (log : List (Event κ ω χ)) : Ended c (log ++ log') :=
  h.imp (fun ⟨cause, h⟩ => ⟨cause, List.mem_append_right _ h⟩) (List.mem_append_right _)

inductive Moves (allows : ω → χ → Bool) :
    List (κ × ω) → List (κ × ω) → List (Event κ ω χ) → Prop where
  | quiet {waits waits' : List (κ × ω)} (h : waits.Perm waits') : Moves allows waits waits' []
  | link {waits waits' : List (κ × ω)} {c : κ} {w : ω} (hc : c ∉ waits.map Prod.fst)
      (h : waits'.Perm ((c, w) :: waits)) : Moves allows waits waits' [.linked c w]
  | resume {waits waits' : List (κ × ω)} {c : κ} {w : ω} {cause : χ} (ha : allows w cause)
      (h : waits.Perm ((c, w) :: waits')) : Moves allows waits waits' [.resumed c cause]
  | unlink {waits waits' : List (κ × ω)} {c : κ} {w : ω} (h : waits.Perm ((c, w) :: waits')) :
      Moves allows waits waits' [.unlinked c]

variable {allows : ω → χ → Bool} {waits waits' : List (κ × ω)} {c : κ} {w : ω}
  {log events : List (Event κ ω χ)}

theorem Moves.kept_or_ended (hm : Moves allows waits waits' events) (h : (c, w) ∈ waits) :
    (c, w) ∈ waits' ∨ Ended c events := by
  cases hm with
  | quiet hperm => exact .inl (hperm.mem_iff.mp h)
  | link _ hperm => exact .inl (hperm.mem_iff.mpr (List.mem_cons_of_mem _ h))
  | resume _ hperm =>
    rcases List.mem_cons.mp (hperm.mem_iff.mp h) with heq | h
    · cases heq
      exact .inr (.inl ⟨_, List.mem_singleton_self _⟩)
    · exact .inl h
  | unlink hperm =>
    rcases List.mem_cons.mp (hperm.mem_iff.mp h) with heq | h
    · cases heq
      exact .inr (.inr (List.mem_singleton_self _))
    · exact .inl h

variable [DecidableEq κ]

-- What c waits for, read off the events; none where they do not fit together.
def track (allows : ω → χ → Bool) (c : κ) (o : Option ω) (e : Event κ ω χ) : Option (Option ω) :=
  if e.who ≠ c then some o
  else
    match o, e with
    | none, .linked _ w => some (some w)
    | some w, .resumed _ cause => if allows w cause then some none else none
    | some _, .unlinked _ => some none
    | _, _ => none

structure Consistent (allows : ω → χ → Bool) (waits : List (κ × ω)) (log : List (Event κ ω χ)) :
    Prop where
  nodup : (waits.map Prod.fst).Nodup
  tracked : ∀ c, ∃ o, log.foldlM (track allows c) none = some o ∧ ∀ w, (c, w) ∈ waits ↔ o = some w

theorem consistent_nil : Consistent allows ([] : List (κ × ω)) [] :=
  ⟨List.nodup_nil, fun _ => ⟨none, rfl, fun w =>
    iff_of_false List.not_mem_nil (Option.some_ne_none w).symm⟩⟩

theorem perm_cons_filter (h : (waits.map Prod.fst).Nodup) (hw : (c, w) ∈ waits) :
    waits.Perm ((c, w) :: waits.filter (·.1 ≠ c)) := by
  induction waits with
  | nil => cases hw
  | cons e waits ih =>
    obtain ⟨hnot, hnodup⟩ := List.nodup_cons.mp h
    rcases List.mem_cons.mp hw with rfl | hw
    · have hrest : waits.filter (·.1 ≠ c) = waits := by
        refine List.filter_eq_self.mpr fun e he => decide_eq_true ?_
        rintro rfl
        exact hnot (List.mem_map.mpr ⟨e, he, rfl⟩)
      rw [List.filter_cons_of_neg (by simp), hrest]
    · have hne : e.1 ≠ c := by
        rintro rfl
        exact hnot (List.mem_map.mpr ⟨_, hw, rfl⟩)
      have hrest : (e :: waits).filter (·.1 ≠ c) = e :: waits.filter (·.1 ≠ c) :=
        List.filter_cons_of_pos (decide_eq_true hne)
      rw [hrest]
      exact ((ih hnodup hw).cons e).trans (.swap _ _ _)

theorem track_other {o : Option ω} {e : Event κ ω χ} (h : e.who ≠ c) :
    track allows c o e = some o := if_pos h

theorem foldlM_append_one {o : Option ω} {e : Event κ ω χ}
    (h : log.foldlM (track allows c) none = some o) :
    (log ++ [e]).foldlM (track allows c) none = track allows c o e := by
  rw [List.foldlM_append, h]
  cases he : track allows c o e <;> simp [he]

theorem Consistent.perm (h : Consistent allows waits log) (hperm : waits.Perm waits') :
    Consistent allows waits' log := by
  refine ⟨(hperm.map Prod.fst).nodup_iff.mp h.nodup, fun c => ?_⟩
  obtain ⟨o, ho, hmem⟩ := h.tracked c
  exact ⟨o, ho, fun w => hperm.mem_iff.symm.trans (hmem w)⟩

theorem Consistent.link (h : Consistent allows waits log) (hc : c ∉ waits.map Prod.fst) :
    Consistent allows ((c, w) :: waits) (log ++ [.linked c w]) := by
  refine ⟨List.nodup_cons.mpr ⟨hc, h.nodup⟩, fun d => ?_⟩
  obtain ⟨o, ho, hmem⟩ := h.tracked d
  rcases eq_or_ne c d with rfl | hne
  · have hnone : o = none := by
      refine Option.eq_none_iff_forall_not_mem.mpr fun w' hw' => hc ?_
      exact List.mem_map_of_mem ((hmem w').mpr hw')
    subst hnone
    refine ⟨some w, (foldlM_append_one ho).trans (if_neg (not_not.mpr rfl)), fun w' => ?_⟩
    simp only [List.mem_cons, Prod.mk.injEq, true_and, hmem w', reduceCtorEq, or_false,
      Option.some.injEq, eq_comm]
  · refine ⟨o, (foldlM_append_one ho).trans (track_other hne), fun w' => ?_⟩
    rw [← hmem w', List.mem_cons, Prod.mk.injEq]
    exact or_iff_right fun heq => hne heq.1.symm

theorem Consistent.leave {e : Event κ ω χ} (h : Consistent allows ((c, w) :: waits) log)
    (hwho : e.who = c) (he : track allows c (some w) e = some none) :
    Consistent allows waits (log ++ [e]) := by
  obtain ⟨hnot, hnodup⟩ := List.nodup_cons.mp h.nodup
  refine ⟨hnodup, fun d => ?_⟩
  obtain ⟨o, ho, hmem⟩ := h.tracked d
  rcases eq_or_ne c d with rfl | hne
  · obtain rfl : o = some w := (hmem w).mp (List.mem_cons_self ..)
    refine ⟨none, (foldlM_append_one ho).trans he, fun w' => ?_⟩
    refine iff_of_false (fun hw' => ?_) (Option.some_ne_none w').symm
    exact hnot (List.mem_map.mpr ⟨_, hw', rfl⟩)
  · refine ⟨o, (foldlM_append_one ho).trans (track_other (hwho.trans_ne hne)), fun w' => ?_⟩
    rw [← hmem w', List.mem_cons, Prod.mk.injEq]
    exact (or_iff_right fun heq => hne heq.1.symm).symm

theorem Consistent.moves (h : Consistent allows waits log)
    (hm : Moves allows waits waits' events) : Consistent allows waits' (log ++ events) := by
  cases hm with
  | quiet hperm => simpa using h.perm hperm
  | link hc hperm => exact (h.link hc).perm hperm.symm
  | resume ha hperm =>
    exact (h.perm hperm).leave rfl ((if_neg (not_not.mpr rfl)).trans (if_pos ha))
  | unlink hperm => exact (h.perm hperm).leave rfl (if_neg (not_not.mpr rfl))

end Registrations
