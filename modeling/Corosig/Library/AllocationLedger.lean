import Mathlib.Data.List.Nodup
import Mathlib.Data.List.Perm.Basic
import Mathlib.Tactic.Common

namespace AllocationLedger

variable {α : Type} [DecidableEq α]

inductive Entry (α : Type) where
  | allocate (block : α)
  | deallocate (block : α)
  deriving DecidableEq, Repr

def balance : List α → List (Entry α) → Option (List α)
  | live, [] => some live
  | live, .allocate block :: entries =>
      if block ∈ live then none else balance (block :: live) entries
  | live, .deallocate block :: entries =>
      if block ∈ live then balance (live.erase block) entries else none

theorem balance_append (live : List α) (entries entries' : List (Entry α)) :
    balance live (entries ++ entries') = (balance live entries).bind (balance · entries') := by
  induction entries generalizing live with
  | nil => rfl
  | cons e entries ih =>
    cases e with
    | allocate block =>
      rw [List.cons_append, balance, balance]
      split
      · rfl
      · exact ih _
    | deallocate block =>
      rw [List.cons_append, balance, balance]
      split
      · exact ih _
      · rfl

def Balances (live : List α) (entries : List (Entry α)) (rest : List α) : Prop :=
  ∃ live', balance live entries = some live' ∧ live'.Perm rest

variable {live live' rest rest' blocks : List α} {entries entries' : List (Entry α)}

theorem balances_nil (h : live.Perm rest) : Balances live [] rest := ⟨live, rfl, h⟩

theorem balance_perm (h : live.Perm live') : Balances live entries rest → Balances live' entries rest := by
  induction entries generalizing live live' with
  | nil =>
    rintro ⟨r, hr, hp⟩
    cases hr
    exact ⟨live', rfl, h.symm.trans hp⟩
  | cons e entries ih =>
    rintro ⟨r, hr, hp⟩
    cases e with
    | allocate block =>
      rw [balance] at hr
      split at hr
      · cases hr
      · rename_i hmem
        obtain ⟨r', hr', hp'⟩ := ih (h.cons block) ⟨r, hr, hp⟩
        refine ⟨r', ?_, hp'⟩
        rw [balance, if_neg (mt h.mem_iff.mpr hmem), hr']
    | deallocate block =>
      rw [balance] at hr
      split at hr
      · rename_i hmem
        obtain ⟨r', hr', hp'⟩ := ih (h.erase block) ⟨r, hr, hp⟩
        refine ⟨r', ?_, hp'⟩
        rw [balance, if_pos (h.mem_iff.mp hmem), hr']
      · cases hr

theorem Balances.append (h : Balances live entries rest) (h' : Balances rest entries' rest') :
    Balances live (entries ++ entries') rest' := by
  induction entries generalizing live with
  | nil =>
    obtain ⟨r, hr, hp⟩ := h
    cases hr
    exact balance_perm hp.symm h'
  | cons e entries ih =>
    obtain ⟨r, hr, hp⟩ := h
    cases e with
    | allocate block =>
      rw [balance] at hr
      split at hr
      · cases hr
      · rename_i hmem
        obtain ⟨r', hr', hp'⟩ := ih ⟨r, hr, hp⟩
        exact ⟨r', by rw [List.cons_append, balance, if_neg hmem, hr'], hp'⟩
    | deallocate block =>
      rw [balance] at hr
      split at hr
      · rename_i hmem
        obtain ⟨r', hr', hp'⟩ := ih ⟨r, hr, hp⟩
        exact ⟨r', by rw [List.cons_append, balance, if_pos hmem, hr'], hp'⟩
      · cases hr

theorem Balances.perm (h : Balances live entries rest) (hp : rest.Perm rest') :
    Balances live entries rest' := by
  obtain ⟨r, hr, hr'⟩ := h
  exact ⟨r, hr, hr'.trans hp⟩

theorem Balances.eq_nil (h : Balances live entries []) : balance live entries = some [] := by
  obtain ⟨r, hr, hp⟩ := h
  rw [hr, hp.eq_nil]

theorem balances_allocate (h : blocks.Nodup) (hnew : ∀ block ∈ blocks, block ∉ live) :
    Balances live (blocks.map .allocate) (blocks ++ live) := by
  induction blocks generalizing live with
  | nil => exact balances_nil (.refl _)
  | cons block blocks ih =>
    obtain ⟨hfirst, hrest⟩ := List.nodup_cons.mp h
    have hfresh : ∀ b ∈ blocks, b ∉ block :: live := by
      intro b hb hmem
      rcases List.mem_cons.mp hmem with rfl | hmem
      · exact hfirst hb
      · exact hnew b (List.mem_cons_of_mem _ hb) hmem
    obtain ⟨r, hr, hp⟩ := ih hrest hfresh
    refine ⟨r, ?_, hp.trans List.perm_middle⟩
    rw [List.map_cons, balance, if_neg (hnew block (List.mem_cons_self ..)), hr]

theorem balances_deallocate (h : live.Perm (blocks ++ rest)) :
    Balances live (blocks.map .deallocate) rest := by
  induction blocks generalizing live with
  | nil => exact balances_nil h
  | cons block blocks ih =>
    have hmem : block ∈ live := h.mem_iff.mpr (List.mem_cons_self ..)
    have hperm : (live.erase block).Perm (blocks ++ rest) := by
      have := h.erase block
      rwa [List.cons_append, List.erase_cons_head] at this
    obtain ⟨r, hr, hp⟩ := ih hperm
    exact ⟨r, by rw [List.map_cons, balance, if_pos hmem, hr], hp⟩

theorem balances_transient (h : blocks.Nodup) (hnew : ∀ block ∈ blocks, block ∉ live) :
    Balances live (blocks.map .allocate ++ blocks.map .deallocate) live :=
  (balances_allocate h hnew).append (balances_deallocate (.refl _))

end AllocationLedger
