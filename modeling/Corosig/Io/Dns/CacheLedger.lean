import Corosig.Io.Dns.CacheContents
import Corosig.Library.AllocationLedger

namespace Corosig.Dns
open AllocationLedger SortedKeys

variable {V4 V6 IP : Type}

def madeIds (alloc : Nat → Bool) (id : Nat) : Nat → List Nat
  | 0 => []
  | count + 1 => if alloc id then id :: madeIds alloc (id + 1) count else []

namespace MemoryCache

def lacks (search : Search Text) (c : MemoryCache V4 V6) (asciiName : Text) : Prop :=
  c.names[lowerBound search (·.name) c.names asciiName]?.filter (·.name = asciiName) = none

instance (search : Search Text) (c : MemoryCache V4 V6) (asciiName : Text) :
    Decidable (c.lacks search asciiName) :=
  decidable_of_iff
    ((c.names[lowerBound search (·.name) c.names asciiName]?.filter
      (·.name = asciiName)).isNone = true) Option.isNone_iff_eq_none

-- new_name_store, sorted_addrs and the blocks made so far are released by their destructors, the
-- latest first, when the push fails on the way; sorted_addrs is released in any case.
def pushEntries (search : Search Text) (order : AddrSort) (alloc : Nat → Bool) (now : Int)
    (c : MemoryCache V4 V6) (asciiName : Text) (addrs : List (ResolvedAddress IP)) :
    List (Entry Nat) :=
  let newNameStore := if c.lacks search asciiName then [c.allocations] else []
  let sortedAddrs := if addrs ≠ [] then [c.allocations + 1] else []
  let count := (groups (order.sort (addrs.filter (now < ·.expiresAt)))).length
  let made := madeIds alloc (c.allocations + 2) count
  if c.lacks search asciiName ∧ ¬ alloc c.allocations then []
  else if addrs ≠ [] ∧ ¬ alloc (c.allocations + 1) then
    newNameStore.map .allocate ++ newNameStore.map .deallocate
  else
    newNameStore.map .allocate ++ (sortedAddrs.map .allocate ++ (made.map .allocate ++
      if made.length = count then sortedAddrs.map .deallocate
      else made.map .deallocate ++ (sortedAddrs.map .deallocate ++ newNameStore.map .deallocate)))

def expireEntries (now : Int) :
    List (AddrStorage V4 V6) → List (NameStorage V4 V6) → List (Entry Nat)
  | [], _ => []
  | addr :: addrs, names =>
      if addr.expiresAt ≤ now then
        let emptied := names.filter fun e => (e.unlink addr).isNone
        .deallocate addr.id :: (emptied.map fun e => .deallocate e.id) ++
          expireEntries now addrs (names.filterMap (·.unlink addr))
      else []

def callEntries (search : Search Text) (order : AddrSort) (c : MemoryCache V4 V6) :
    CacheCall V4 V6 → List (Entry Nat)
  | .push alloc now asciiName (.v4 addrs) => c.pushEntries search order alloc now asciiName addrs
  | .push alloc now asciiName (.v6 addrs) => c.pushEntries search order alloc now asciiName addrs
  | .prune now => expireEntries now c.addrsByExpireTime c.names
  | .pull .. => []

def attempt (search : Search Text) (order : AddrSort) (c : MemoryCache V4 V6)
    (k : CacheCall V4 V6) : MemoryCache V4 V6 :=
  (c.apply search order k).getD c

def afterCalls (search : Search Text) (order : AddrSort) (c : MemoryCache V4 V6)
    (history : List (CacheCall V4 V6)) : MemoryCache V4 V6 :=
  history.foldl (attempt search order) c

def entriesOf (search : Search Text) (order : AddrSort) :
    MemoryCache V4 V6 → List (CacheCall V4 V6) → List (Entry Nat)
  | _, [] => []
  | c, k :: history =>
      c.callEntries search order k ++ entriesOf search order (c.attempt search order k) history

def held (c : MemoryCache V4 V6) : List Nat :=
  c.names.map (·.id) ++ c.addrsByExpireTime.map (·.id)

variable {search : Search Text} {order : AddrSort} {fam : Family V4 V6 IP} {alloc : Nat → Bool}
  {parent : Nat} {now : Int} {asciiName : Text} {c c' : MemoryCache V4 V6}
  {addrs : List (ResolvedAddress IP)}

theorem nameStore_none : c.nameStore search alloc asciiName = none ↔
    c.lacks search asciiName ∧ ¬ alloc c.allocations := by
  unfold nameStore lacks
  simp only
  split
  · rename_i e he
    simp [he]
  · rename_i hnone
    rw [hnone]
    split <;> simp [*]

theorem nameStore_held (h : c.nameStore search alloc asciiName = some (parent, c')) :
    (c'.names.map (·.id)).Perm
      ((if c.lacks search asciiName then [c.allocations] else []) ++ c.names.map (·.id)) ∧
      c'.addrsByExpireTime = c.addrsByExpireTime ∧ c'.allocations = c.allocations := by
  unfold nameStore at h
  simp only at h
  split at h
  · rename_i e he
    cases h
    have hfound : ¬ c.lacks search asciiName := by
      intro hl
      rw [lacks, he] at hl
      cases hl
    rw [if_neg hfound]
    exact ⟨.refl _, rfl, rfl⟩
  · rename_i hnone
    split at h
    · cases h
      have hpos := (search.le_length (c.names.map (·.name)) asciiName).trans_eq
        (List.length_map _)
      have hlacks : c.lacks search asciiName := hnone
      rw [if_pos hlacks]
      exact ⟨(List.perm_insertIdx _ _ hpos).map _, rfl, rfl⟩
    · cases h

end MemoryCache

theorem madeIds_of_made {fam : Family V4 V6 IP} {alloc : Nat → Bool} {parent id : Nat}
    {gs : List (Int × List IP)} {nodes : List (AddrStorage V4 V6)}
    (h : makeAddrs fam alloc parent id gs = some nodes) :
    madeIds alloc id gs.length = nodes.map (·.id) := by
  induction gs generalizing id nodes with
  | nil =>
    cases h
    rfl
  | cons g gs ih =>
    rw [makeAddrs] at h
    split at h
    · rename_i hroom
      obtain ⟨rest, hrest, rfl⟩ := Option.map_eq_some_iff.mp h
      rw [List.length_cons, madeIds, if_pos hroom, ih hrest]
      rfl
    · cases h

theorem madeIds_of_failed {fam : Family V4 V6 IP} {alloc : Nat → Bool} {parent id : Nat}
    {gs : List (Int × List IP)} (h : makeAddrs fam alloc parent id gs = none) :
    (madeIds alloc id gs.length).length < gs.length := by
  induction gs generalizing id with
  | nil => cases h
  | cons g gs ih =>
    rw [makeAddrs] at h
    rw [List.length_cons, madeIds]
    split at h
    · rename_i hroom
      rw [if_pos hroom, List.length_cons]
      exact Nat.succ_lt_succ (ih (Option.map_eq_none_iff.mp h))
    · rename_i hfull
      rw [if_neg hfull]
      exact Nat.succ_pos _

theorem madeIds_range (alloc : Nat → Bool) (id count : Nat) :
    madeIds alloc id count <+: List.range' id count := by
  induction count generalizing id with
  | zero => exact List.prefix_rfl
  | succ count ih =>
    rw [madeIds, List.range'_succ]
    split
    · exact List.cons_prefix_cons.mpr ⟨rfl, ih _⟩
    · exact List.nil_prefix

namespace MemoryCache

variable {search : Search Text} {order : AddrSort} {fam : Family V4 V6 IP} {alloc : Nat → Bool}
  {parent : Nat} {now : Int} {asciiName : Text} {c c' : MemoryCache V4 V6}
  {addrs : List (ResolvedAddress IP)}

theorem WellLinked.held_lt (h : WellLinked c) : ∀ x ∈ c.held, x < c.allocations := by
  intro x hx
  rcases List.mem_append.mp hx with hx | hx
  · obtain ⟨e, he, rfl⟩ := List.mem_map.mp hx
    exact h.nameFresh e he
  · obtain ⟨a, ha, rfl⟩ := List.mem_map.mp hx
    exact h.addrFresh a ha

theorem push_eq (hname : c.nameStore search alloc asciiName = some (parent, c'))
    (hroom : ¬ (addrs ≠ [] ∧ ¬ alloc (c.allocations + 1))) :
    c.push search order fam alloc now asciiName addrs =
      (makeAddrs fam alloc parent (c.allocations + 2)
        (groups (order.sort (addrs.filter (now < ·.expiresAt))))).map (c'.link parent) := by
  obtain ⟨-, -, halloc⟩ := nameStore_held hname
  simp only [push, hname, Option.bind_eq_bind, Option.bind_some, halloc, if_neg hroom,
    Option.map_eq_bind]
  rfl

theorem push_none_of_name (h : c.nameStore search alloc asciiName = none) :
    c.push search order fam alloc now asciiName addrs = none := by
  simp only [push, h, Option.bind_eq_bind, Option.bind_none]

theorem push_none_of_buffer (hname : c.nameStore search alloc asciiName = some (parent, c'))
    (hfull : addrs ≠ [] ∧ ¬ alloc (c.allocations + 1)) :
    c.push search order fam alloc now asciiName addrs = none := by
  obtain ⟨-, -, halloc⟩ := nameStore_held hname
  simp only [push, hname, Option.bind_eq_bind, Option.bind_some, halloc, if_pos hfull]

theorem held_link (nodes : List (AddrStorage V4 V6)) {names : List Nat}
    (h : (c'.names.map (·.id)).Perm (names ++ c.names.map (·.id)))
    (haddrs : c'.addrsByExpireTime = c.addrsByExpireTime) :
    (c'.link parent nodes).held.Perm (nodes.map (·.id) ++ (names ++ c.held)) := by
  have hnames : (c'.link parent nodes).names.map (·.id) = c'.names.map (·.id) := by
    rw [link, List.map_map]
    exact List.map_congr_left fun e _ => (e.pushFront_spec parent nodes).1
  have hblocks := (foldl_insertByExpireTime_perm nodes c.addrsByExpireTime).map (·.id)
  rw [List.map_append] at hblocks
  unfold held
  rw [hnames, link, haddrs]
  refine (h.append hblocks).trans ?_
  rw [List.append_assoc names]
  refine (List.Perm.append_left names ?_).trans (List.perm_append_comm_assoc _ _ _)
  exact List.perm_append_comm_assoc _ _ _

theorem ite_sublist {p : Prop} [Decidable p] (x : Nat) : (if p then [x] else []).Sublist [x] := by
  split
  · exact .refl _
  · exact List.nil_sublist _

theorem mem_singleton_of_sublist {xs : List Nat} {x y : Nat} (h : xs.Sublist [x]) (hy : y ∈ xs) :
    y = x :=
  List.mem_singleton.mp (h.mem hy)

theorem balances_scratch {live names buffer made rest : List Nat} {entries : List (Entry Nat)}
    {next count : Nat} (hlive : ∀ x ∈ live, x < next) (hnames : names.Sublist [next])
    (hbuffer : buffer.Sublist [next + 1]) (hmade : made <+: List.range' (next + 2) count)
    (h : Balances (made ++ (buffer ++ (names ++ live))) entries rest) :
    Balances live (names.map .allocate ++ (buffer.map .allocate ++ (made.map .allocate ++ entries)))
      rest := by
  have hnamed : ∀ x ∈ names ++ live, x < next + 1 := by
    intro x hx
    rcases List.mem_append.mp hx with hx | hx
    · exact (mem_singleton_of_sublist hnames hx).trans_lt (Nat.lt_succ_self _)
    · exact (hlive x hx).trans (Nat.lt_succ_self _)
  have hbuffered : ∀ x ∈ buffer ++ (names ++ live), x < next + 2 := by
    intro x hx
    rcases List.mem_append.mp hx with hx | hx
    · exact (mem_singleton_of_sublist hbuffer hx).trans_lt (Nat.lt_succ_self _)
    · exact (hnamed x hx).trans (Nat.lt_succ_self _)
  refine (balances_allocate (hnames.nodup (List.nodup_singleton _)) ?_).append
    ((balances_allocate (hbuffer.nodup (List.nodup_singleton _)) ?_).append
      ((balances_allocate (hmade.sublist.nodup List.nodup_range') ?_).append h))
  · exact fun x hx hmem => (hlive x hmem).ne (mem_singleton_of_sublist hnames hx)
  · exact fun x hx hmem => (hnamed x hmem).ne (mem_singleton_of_sublist hbuffer hx)
  · intro x hx hmem
    have := (List.mem_range'_1.mp (hmade.sublist.mem hx)).1
    exact absurd (hbuffered x hmem) (not_lt.mpr this)

theorem push_balances (h : WellLinked c) :
    Balances c.held (c.pushEntries search order alloc now asciiName addrs)
      ((c.push search order fam alloc now asciiName addrs).getD c).held := by
  rw [pushEntries]
  split
  · rename_i hfull
    rw [push_none_of_name (nameStore_none.mpr hfull)]
    exact balances_nil (.refl _)
  · rename_i hnamed
    obtain ⟨⟨parent, named⟩, hname⟩ := Option.ne_none_iff_exists'.mp (mt nameStore_none.mp hnamed)
    obtain ⟨hids, haddrs, -⟩ := nameStore_held hname
    split
    · rename_i hfull
      rw [push_none_of_buffer hname hfull]
      refine balances_transient ((ite_sublist _).nodup (List.nodup_singleton _)) ?_
      exact fun x hx hmem => (h.held_lt x hmem).ne (mem_singleton_of_sublist (ite_sublist _) hx)
    · rename_i hroom
      refine balances_scratch h.held_lt (ite_sublist _) (ite_sublist _) (madeIds_range ..) ?_
      rw [push_eq hname hroom]
      cases hmade : makeAddrs fam alloc parent (c.allocations + 2)
          (groups (order.sort (addrs.filter (now < ·.expiresAt)))) with
      | some nodes =>
        rw [madeIds_of_made hmade, if_pos ((List.length_map _).trans (makeAddrs_spec hmade).1)]
        refine balances_deallocate ((List.perm_append_comm_assoc _ _ _).trans ?_)
        exact (held_link nodes hids haddrs).symm.append_left _
      | none =>
        rw [if_neg (madeIds_of_failed hmade).ne]
        exact (balances_deallocate (.refl _)).append
          ((balances_deallocate (.refl _)).append (balances_deallocate (.refl _)))

theorem unlink_perm (a : AddrStorage V4 V6) (names : List (NameStorage V4 V6)) :
    (names.map (·.id)).Perm
      ((names.filter fun e => (e.unlink a).isNone).map (·.id) ++
        (names.filterMap (·.unlink a)).map (·.id)) := by
  induction names with
  | nil => exact .refl _
  | cons e names ih =>
    cases hu : e.unlink a with
    | none =>
      rw [List.filterMap_cons_none hu, List.filter_cons_of_pos (by rw [hu]; rfl)]
      exact ih.cons e.id
    | some e' =>
      rw [List.filterMap_cons_some hu, List.filter_cons_of_neg (by rw [hu]; simp), List.map_cons,
        List.map_cons, (NameStorage.unlink_keys hu).1]
      exact (ih.cons e.id).trans List.perm_middle.symm

theorem expire_balances (now : Int) (blocks : List (AddrStorage V4 V6))
    (names : List (NameStorage V4 V6)) :
    Balances (names.map (·.id) ++ blocks.map (·.id)) (expireEntries now blocks names)
      ((expire now blocks names).2.map (·.id) ++ (expire now blocks names).1.map (·.id)) := by
  induction blocks generalizing names with
  | nil => exact balances_nil (.refl _)
  | cons a blocks ih =>
    rw [expireEntries, expire]
    split
    · have hfreed : (names.map (·.id) ++ (a :: blocks).map (·.id)).Perm
          (a.id :: (names.filter fun e => (e.unlink a).isNone).map (·.id) ++
            ((names.filterMap (·.unlink a)).map (·.id) ++ blocks.map (·.id))) := by
        rw [List.map_cons, List.cons_append, ← List.append_assoc]
        exact List.perm_middle.trans (((unlink_perm a names).append_right _).cons a.id)
      have hhead := balances_deallocate hfreed
      rw [List.map_cons (f := Entry.deallocate), List.map_map] at hhead
      exact hhead.append (ih _)
    · exact balances_nil (.refl _)

theorem attempt_of_apply {k : CacheCall V4 V6} (h : c.apply search order k = some c') :
    c.attempt search order k = c' := by
  rw [attempt, h]
  rfl

theorem attempt_cases (search : Search Text) (order : AddrSort) (c : MemoryCache V4 V6)
    (k : CacheCall V4 V6) :
    c.attempt search order k = c ∨ c.apply search order k = some (c.attempt search order k) := by
  cases hk : c.apply search order k with
  | none => exact .inl (by rw [attempt, hk]; rfl)
  | some d => exact .inr (congrArg some (attempt_of_apply hk).symm)

theorem WellLinked.attempt (h : WellLinked c) (k : CacheCall V4 V6) :
    WellLinked (c.attempt search order k) := by
  rcases attempt_cases search order c k with hsame | hdone
  · exact hsame.symm ▸ h
  · exact h.apply hdone

theorem callEntries_balances (h : WellLinked c) (k : CacheCall V4 V6) :
    Balances c.held (c.callEntries search order k) (c.attempt search order k).held := by
  cases k with
  | push alloc now asciiName addrs =>
    cases addrs with
    | v4 addrs => exact push_balances h
    | v6 addrs => exact push_balances h
  | prune now => exact expire_balances now c.addrsByExpireTime c.names
  | pull => exact balances_nil (.refl _)

theorem WellLinked.afterCalls (h : WellLinked c) (history : List (CacheCall V4 V6)) :
    WellLinked (c.afterCalls search order history) :=
  List.foldlRecOn history _ h fun _ hw k _ => hw.attempt k

theorem entriesOf_balances (search : Search Text) (order : AddrSort) (h : WellLinked c)
    (history : List (CacheCall V4 V6)) :
    Balances c.held (entriesOf search order c history)
      (c.afterCalls search order history).held := by
  induction history generalizing c with
  | nil => exact balances_nil (.refl _)
  | cons k history ih => exact (callEntries_balances h k).append (ih (h.attempt k))

end MemoryCache

end Corosig.Dns
