import Mathlib.Data.List.Sort
import Mathlib.Order.Lattice

namespace StableQueue

structure Entry (α : Type) where
  value : α
  stamp : Nat
  deriving DecidableEq, Repr

variable {α κ : Type} [LinearOrder κ] {key : α → κ}

-- The order of keys, and among equal keys the order of insertion.
def Before (key : α → κ) (a b : Entry α) : Prop :=
  key a.value < key b.value ∨ key a.value = key b.value ∧ a.stamp < b.stamp

theorem Before.trans {a b c : Entry α} (h : Before key a b) (h' : Before key b c) :
    Before key a c := by
  rcases h with h | ⟨hk, hs⟩
  · rcases h' with h' | ⟨hk', -⟩
    · exact .inl (h.trans h')
    · exact .inl (h.trans_eq hk')
  · rcases h' with h' | ⟨hk', hs'⟩
    · exact .inl (hk.trans_lt h')
    · exact .inr ⟨hk.trans hk', hs.trans hs'⟩

def place (key : α → κ) (e : Entry α) (entries : List (Entry α)) : List (Entry α) :=
  entries.orderedInsert (fun a b => key a.value < key b.value) e

theorem pairwise_place {e : Entry α} {entries : List (Entry α)}
    (h : entries.Pairwise (Before key)) (hnew : ∀ x ∈ entries, x.stamp < e.stamp) :
    (place key e entries).Pairwise (Before key) := by
  induction entries with
  | nil => exact List.pairwise_singleton _ _
  | cons x entries ih =>
    obtain ⟨hx, hrest⟩ := List.pairwise_cons.mp h
    obtain ⟨hstamp, hstamps⟩ := List.forall_mem_cons.mp hnew
    rw [place, List.orderedInsert_cons]
    split
    · rename_i hlt
      have hbefore : Before key e x := .inl hlt
      exact List.pairwise_cons.mpr ⟨List.forall_mem_cons.mpr
        ⟨hbefore, fun y hy => hbefore.trans (hx y hy)⟩, h⟩
    · rename_i hle
      refine List.pairwise_cons.mpr ⟨fun y hy => ?_, ih hrest hstamps⟩
      rcases (List.mem_orderedInsert _).mp hy with rfl | hy
      · exact (not_lt.mp hle).lt_or_eq.imp_right fun hk => ⟨hk, hstamp⟩
      · exact hx y hy

structure Queue (key : α → κ) where
  entries : List (Entry α)
  next : Nat
  ordered : entries.Pairwise (Before key)
  stamped : ∀ e ∈ entries, e.stamp < next
  distinct : (entries.map Entry.stamp).Nodup

def Queue.empty : Queue key := ⟨[], 0, .nil, by simp, .nil⟩

def Queue.insert (q : Queue key) (value : α) : Queue key where
  entries := place key ⟨value, q.next⟩ q.entries
  next := q.next + 1
  ordered := pairwise_place q.ordered q.stamped
  stamped := by
    intro e he
    rcases (List.mem_orderedInsert _).mp he with rfl | he
    · exact Nat.lt_succ_self _
    · exact Nat.lt_succ_of_lt (q.stamped e he)
  distinct := by
    have hperm := (List.perm_orderedInsert (fun a b => key a.value < key b.value)
      (⟨value, q.next⟩ : Entry α) q.entries).map Entry.stamp
    refine hperm.nodup_iff.mpr (List.nodup_cons.mpr ⟨fun hmem => ?_, q.distinct⟩)
    obtain ⟨e, he, hstamp⟩ := List.mem_map.mp hmem
    exact absurd (q.stamped e he) (hstamp ▸ Nat.lt_irrefl _)

def Queue.keep (q : Queue key) (entries : List (Entry α)) (h : entries.Sublist q.entries) :
    Queue key where
  entries := entries
  next := q.next
  ordered := q.ordered.sublist h
  stamped := fun e he => q.stamped e (h.subset he)
  distinct := q.distinct.sublist (h.map Entry.stamp)

def Queue.remove (q : Queue key) (p : α → Bool) : Queue key :=
  q.keep (q.entries.filter fun e => !p e.value) List.filter_sublist

def Queue.pop (q : Queue key) : Queue key := q.keep q.entries.tail (List.tail_sublist _)

inductive Event (α : Type) where
  | inserted (e : Entry α)
  | removed (e : Entry α)
  | popped (e : Entry α)
  deriving DecidableEq, Repr

def Event.insertion? : Event α → Option (Entry α)
  | .inserted e => some e
  | _ => none

def Event.removal? : Event α → Option (Entry α)
  | .removed e => some e
  | _ => none

def Event.pop? : Event α → Option (Entry α)
  | .popped e => some e
  | _ => none

def insertions (log : List (Event α)) : List (Entry α) := log.filterMap Event.insertion?

def removals (log : List (Event α)) : List (Entry α) := log.filterMap Event.removal?

def pops (log : List (Event α)) : List (Entry α) := log.filterMap Event.pop?

inductive History (start : Queue key) : List (Event α) → Queue key → Prop
  | start : History start [] start
  | insert {log q} (value : α) : History start log q →
      History start (log ++ [.inserted ⟨value, q.next⟩]) (q.insert value)
  | remove {log q} (p : α → Bool) : History start log q →
      History start (log ++ (q.entries.filter fun e => p e.value).map .removed) (q.remove p)
  | pop {log q} (e : Entry α) (rest : List (Entry α)) : History start log q →
      q.entries = e :: rest → History start (log ++ [.popped e]) q.pop

variable {start q : Queue key} {log : List (Event α)}

@[simp] theorem insertions_append (log log' : List (Event α)) :
    insertions (log ++ log') = insertions log ++ insertions log' := List.filterMap_append

@[simp] theorem removals_append (log log' : List (Event α)) :
    removals (log ++ log') = removals log ++ removals log' := List.filterMap_append

@[simp] theorem pops_append (log log' : List (Event α)) :
    pops (log ++ log') = pops log ++ pops log' := List.filterMap_append

@[simp] theorem insertions_inserted (e : Entry α) : insertions [.inserted e] = [e] := rfl

@[simp] theorem removals_inserted (e : Entry α) : removals [.inserted e] = [] := rfl

@[simp] theorem pops_inserted (e : Entry α) : pops [.inserted e] = [] := rfl

@[simp] theorem insertions_popped (e : Entry α) : insertions [.popped e] = [] := rfl

@[simp] theorem removals_popped (e : Entry α) : removals [.popped e] = [] := rfl

@[simp] theorem pops_popped (e : Entry α) : pops [.popped e] = [e] := rfl

@[simp] theorem insertions_removed (entries : List (Entry α)) :
    insertions (entries.map .removed) = [] := by
  simp [insertions, List.filterMap_map, Function.comp_def, Event.insertion?]

@[simp] theorem pops_removed (entries : List (Entry α)) : pops (entries.map .removed) = [] := by
  simp [pops, List.filterMap_map, Function.comp_def, Event.pop?]

@[simp] theorem removals_removed (entries : List (Entry α)) :
    removals (entries.map .removed) = entries := by
  simp [removals, List.filterMap_map, Function.comp_def, Event.removal?]

theorem Queue.insert_perm (q : Queue key) (value : α) :
    (q.insert value).entries.Perm (⟨value, q.next⟩ :: q.entries) :=
  List.perm_orderedInsert _ _ _

theorem History.perm (h : History start log q) :
    (start.entries ++ insertions log).Perm (pops log ++ removals log ++ q.entries) := by
  induction h with
  | start => simp [insertions, pops, removals]
  | @insert log q value h ih =>
    rw [insertions_append, pops_append, removals_append, insertions_inserted, pops_inserted,
      removals_inserted, List.append_nil, List.append_nil, ← List.append_assoc]
    have hmove := (List.perm_append_singleton ⟨value, q.next⟩ q.entries).trans
      (q.insert_perm value).symm
    refine (ih.append_right _).trans ?_
    rw [List.append_assoc]
    exact hmove.append_left _
  | @remove log q p h ih =>
    have hsplit := (List.filter_append_perm (fun e => p e.value) q.entries).symm
    rw [insertions_append, pops_append, removals_append, insertions_removed, pops_removed,
      removals_removed, List.append_nil, List.append_nil, ← List.append_assoc (pops log),
      List.append_assoc (pops log ++ removals log)]
    exact ih.trans (hsplit.append_left _)
  | @pop log q e rest h hq ih =>
    rw [insertions_append, pops_append, removals_append, insertions_popped, pops_popped,
      removals_popped, List.append_nil, List.append_nil, List.append_assoc, List.append_assoc]
    refine (hq ▸ ih).trans ?_
    rw [List.append_assoc]
    have hrest : q.pop.entries = rest := congrArg List.tail hq
    rw [hrest]
    exact List.perm_middle.append_left _

theorem History.stamped (h : History start log q) :
    (∀ e ∈ start.entries ++ insertions log, e.stamp < q.next) ∧
      ((start.entries ++ insertions log).map Entry.stamp).Nodup := by
  induction h with
  | start =>
    rw [insertions, List.filterMap_nil, List.append_nil]
    exact ⟨start.stamped, start.distinct⟩
  | @insert log q value h ih =>
    rw [insertions_append, insertions_inserted, ← List.append_assoc]
    constructor
    · intro e he
      rcases List.mem_append.mp he with he | he
      · exact Nat.lt_succ_of_lt (ih.1 e he)
      · rw [List.mem_singleton.mp he]
        exact Nat.lt_succ_self _
    · rw [List.map_append, List.nodup_append]
      refine ⟨ih.2, List.nodup_singleton _, ?_⟩
      rintro stamp hstamp new hnew rfl
      obtain ⟨e, he, rfl⟩ := List.mem_map.mp hstamp
      exact absurd (ih.1 e he) (by simp [List.mem_singleton.mp hnew])
  | remove p h ih =>
    rw [insertions_append, insertions_removed, List.append_nil]
    exact ih
  | @pop log q e rest h hq ih =>
    rw [insertions_append, insertions_popped, List.append_nil]
    exact ih

theorem History.pops_nodup (h : History start log q) : ((pops log).map Entry.stamp).Nodup := by
  have hall := (h.perm.map Entry.stamp).nodup_iff.mp h.stamped.2
  rw [List.append_assoc, List.map_append] at hall
  exact (List.nodup_append.mp hall).1

theorem History.mem_of_popped (h : History start log q) {e : Entry α} (he : e ∈ pops log) :
    e ∈ start.entries ++ insertions log :=
  h.perm.mem_iff.mpr (List.mem_append_left _ (List.mem_append_left _ he))

theorem split_append {m : Entry α} {new l₁ l₂ : List (Event α)} (hnew : .popped m ∉ new)
    (h : log ++ new = l₁ ++ .popped m :: l₂) :
    ∃ l₂', l₂ = l₂' ++ new ∧ log = l₁ ++ .popped m :: l₂' := by
  rcases List.append_eq_append_iff.mp h with ⟨middle, -, hsplit⟩ | ⟨middle, rfl, hsplit⟩
  · exact absurd (hsplit ▸ List.mem_append_right _ List.mem_cons_self) hnew
  · cases middle with
    | nil =>
      rw [List.nil_append] at hsplit
      exact absurd (hsplit ▸ List.mem_cons_self) hnew
    | cons event middle =>
      cases hsplit
      exact ⟨middle, rfl, rfl⟩

theorem split_popped {e m : Entry α} {l₁ l₂ : List (Event α)}
    (h : log ++ [.popped e] = l₁ ++ .popped m :: l₂) :
    l₂ = [] ∧ log = l₁ ∧ e = m ∨ ∃ l₂', l₂ = l₂' ++ [.popped e] ∧ log = l₁ ++ .popped m :: l₂' := by
  rcases List.eq_nil_or_concat' l₂ with rfl | ⟨l₂, last, rfl⟩
  · obtain ⟨rfl, hlast⟩ := List.append_inj' h rfl
    cases hlast
    exact .inl ⟨rfl, rfl, rfl⟩
  · rw [← List.cons_append, ← List.append_assoc] at h
    obtain ⟨rfl, hlast⟩ := List.append_inj' h rfl
    cases hlast
    exact .inr ⟨l₂, rfl, rfl⟩

theorem History.before (h : History start log q) {m : Entry α} {l₁ l₂ : List (Event α)}
    (hlog : log = l₁ ++ .popped m :: l₂)
    (hlate : ∀ e ∈ insertions l₂, key m.value ≤ key e.value) :
    ∀ x ∈ q.entries, Before key m x := by
  induction h generalizing l₂ with
  | start => simp at hlog
  | @insert log q value h ih =>
    obtain ⟨l₂, rfl, rfl⟩ := split_append (by simp) hlog
    rw [insertions_append] at hlate
    have hm : m.stamp < q.next := h.stamped.1 m (h.mem_of_popped (by simp [pops, Event.pop?]))
    have hkey : key m.value ≤ key value := hlate ⟨value, q.next⟩ (List.mem_append_right _ (by
      simp [insertions, Event.insertion?]))
    intro x hx
    rcases List.mem_cons.mp ((q.insert_perm value).mem_iff.mp hx) with rfl | hx
    · exact hkey.lt_or_eq.imp_right fun heq => ⟨heq, hm⟩
    · exact ih rfl (fun e he => hlate e (List.mem_append_left _ he)) x hx
  | @remove log q p h ih =>
    obtain ⟨l₂, rfl, rfl⟩ := split_append (by simp) hlog
    rw [insertions_append, insertions_removed, List.append_nil] at hlate
    exact fun x hx => ih rfl hlate x (List.mem_of_mem_filter hx)
  | @pop log q e rest h hq ih =>
    have hrest : q.pop.entries = rest := congrArg List.tail hq
    rw [hrest]
    obtain ⟨rfl, rfl, rfl⟩ | ⟨l₂, rfl, rfl⟩ := split_popped hlog
    · exact (List.pairwise_cons.mp (hq ▸ q.ordered)).1
    · rw [insertions_append] at hlate
      rw [hq] at ih
      have hwait := ih rfl fun e he => hlate e (List.mem_append_left _ he)
      exact fun x hx => hwait x (List.mem_cons_of_mem e hx)

theorem History.at_pop (h : History start log q) {n : Entry α} {front back : List (Event α)}
    (hlog : log = front ++ .popped n :: back) :
    ∃ q' : Queue key, History start front q' ∧ n ∈ q'.entries := by
  induction h generalizing back with
  | start => simp at hlog
  | insert value h ih =>
    obtain ⟨back, rfl, rfl⟩ := split_append (by simp) hlog
    exact ih rfl
  | remove p h ih =>
    obtain ⟨back, rfl, rfl⟩ := split_append (by simp) hlog
    exact ih rfl
  | @pop log q e rest h hq ih =>
    obtain ⟨rfl, rfl, rfl⟩ | ⟨back, rfl, rfl⟩ := split_popped hlog
    · exact ⟨q, h, hq ▸ List.mem_cons_self⟩
    · exact ih rfl

theorem History.popped_before (h : History start log q) {m n : Entry α}
    {l₁ l₂ l₃ : List (Event α)} (hlog : log = l₁ ++ .popped m :: l₂ ++ .popped n :: l₃)
    (hlate : ∀ e ∈ insertions l₂, key m.value ≤ key e.value) : Before key m n := by
  obtain ⟨q', h', hn⟩ := h.at_pop hlog
  exact h'.before rfl hlate n hn

end StableQueue
