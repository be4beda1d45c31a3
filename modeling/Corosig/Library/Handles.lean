import Mathlib.Data.List.Nodup
import Mathlib.Data.List.Perm.Basic
import Mathlib.Tactic.Common

namespace Handles

-- Numbers that are handed out, given back and handed out again; stray counts those given back
-- while nobody had them.
structure Table (η : Type) where
  live : List η := []
  stray : Nat := 0
  deriving DecidableEq, Repr

variable {η : Type}

def Table.acquire (k : Table η) (h : η) : Table η := { k with live := h :: k.live }

structure Accounts (k : Table η) (l : List η) : Prop where
  live : l.Perm k.live
  nodup : k.live.Nodup
  stray : k.stray = 0

def Moves (k k' : Table η) (l l' : List η) : Prop :=
  ∀ r, Accounts k (l ++ r) → Accounts k' (l' ++ r)

variable {k k' k'' : Table η} {l l' l'' r a b : List η} {h : η}

theorem moves_refl (k : Table η) (l : List η) : Moves k k l l := fun _ => id

theorem Moves.trans (hm : Moves k k' l l') (hm' : Moves k' k'' l' l'') : Moves k k'' l l'' :=
  fun r hr => hm' r (hm r hr)

theorem moves_acquire (hn : h ∉ k.live) : Moves k (k.acquire h) [] [h] :=
  fun _ hr => ⟨hr.live.cons h, List.nodup_cons.mpr ⟨hn, hr.nodup⟩, hr.stray⟩

theorem Accounts.perm (ha : Accounts k l) (hp : l.Perm l') : Accounts k l' :=
  ⟨hp.symm.trans ha.live, ha.nodup, ha.stray⟩

theorem Moves.accounts (hm : Moves k k' a b) (ha : Accounts k l) (hp : l.Perm (a ++ r))
    (hp' : (b ++ r).Perm l') : Accounts k' l' :=
  (hm r (ha.perm hp)).perm hp'

theorem Moves.frame (hm : Moves k k' l l') (r : List η) : Moves k k' (l ++ r) (l' ++ r) := by
  intro s hs
  rw [List.append_assoc] at hs ⊢
  exact hm (r ++ s) hs

theorem Accounts.length (ha : Accounts k l) : l.length = k.live.length := ha.live.length_eq

variable [DecidableEq η]

def Table.release (k : Table η) (h : η) : Table η :=
  if h ∈ k.live then { k with live := k.live.erase h } else { k with stray := k.stray + 1 }

instance (k : Table η) (l : List η) : Decidable (Accounts k l) :=
  decidable_of_iff (l.Perm k.live ∧ k.live.Nodup ∧ k.stray = 0)
    ⟨fun ⟨h, h', h''⟩ => ⟨h, h', h''⟩, fun ⟨h, h', h''⟩ => ⟨h, h', h''⟩⟩

theorem moves_release (k : Table η) (h : η) : Moves k (k.release h) [h] [] := by
  intro r hr
  have hmem : h ∈ k.live := hr.live.subset List.mem_cons_self
  have herase := hr.live.erase h
  rw [Table.release, if_pos hmem]
  exact ⟨by simpa using herase, hr.nodup.erase h, hr.stray⟩

end Handles
