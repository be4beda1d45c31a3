import Corosig.Io.Dns.CacheLinks

namespace Corosig.Dns
open SortedKeys

variable {V4 V6 IP : Type}

inductive AllocationError where
  | mk
  deriving DecidableEq, Repr

-- Calls to the allocator are known by their numbers: which of them find memory, and how much of it
-- a call for so many bytes takes.
structure AnAllocator where
  alloc : Nat → Bool
  takes : Nat → Nat → Nat

structure StorageSizes where
  nameHeader : Nat
  addrHeader : Nat
  resolvedAddress : Nat
  address : Nat
  deriving DecidableEq, Repr

structure Taken where
  id : Nat
  amount : Nat
  deriving DecidableEq, Repr

-- The cache while push_impl is at work: its two containers, the multiset of the blocks made so far,
-- and the memory that the allocator has given out.
structure PushState (V4 V6 : Type) where
  names : List (NameStorage V4 V6)
  addrsByExpireTime : List (AddrStorage V4 V6)
  buf : List (AddrStorage V4 V6) := []
  live : List Taken
  deriving DecidableEq, Repr

def NameStorage.dropAddr (id : Nat) (e : NameStorage V4 V6) : NameStorage V4 V6 :=
  { e with ips := e.ips.filter (·.id ≠ id) }

namespace PushState

def inUse (s : PushState V4 V6) : Nat := (s.live.map Taken.amount).sum

def cache (s : PushState V4 V6) (allocations : Nat) : MemoryCache V4 V6 where
  names := s.names
  addrsByExpireTime := s.addrsByExpireTime
  allocations := allocations

def allocate (a : AnAllocator) (id size : Nat) (s : PushState V4 V6) : Option (PushState V4 V6) :=
  if a.alloc id then some { s with live := ⟨id, a.takes id size⟩ :: s.live } else none

def deallocate (id : Nat) (s : PushState V4 V6) : Option (PushState V4 V6) :=
  if id ∈ s.live.map Taken.id then some { s with live := s.live.filter (·.id ≠ id) } else none

-- The hook of a block takes it off the list it is on.
def destroyAddr (addr : AddrStorage V4 V6) (s : PushState V4 V6) : Option (PushState V4 V6) :=
  let s : PushState V4 V6 := { s with names := s.names.map (·.dropAddr addr.id) }
  s.deallocate addr.id

def clearAndDispose : List (AddrStorage V4 V6) → PushState V4 V6 → Option (PushState V4 V6)
  | [], s => some { s with buf := [] }
  | addr :: buf, s => do
      let s ← s.destroyAddr addr
      clearAndDispose buf s

def destroySortedAddrs : Option Nat → PushState V4 V6 → Option (PushState V4 V6)
  | none, s => some s
  | some id, s => s.deallocate id

def destroyNameStore : Option Nat → PushState V4 V6 → Option (PushState V4 V6)
  | none, s => some s
  | some id, s =>
      let s : PushState V4 V6 := { s with names := s.names.filter (·.id ≠ id) }
      s.deallocate id

def makeAddr (parent : Nat) (addr : AddrStorage V4 V6) (s : PushState V4 V6) : PushState V4 V6 :=
  { s with
    names := s.names.map (·.pushFront parent [addr])
    buf := insertByExpireTime s.buf addr }

def insertBefore (nameIt id : Nat) (asciiName : Text) (s : PushState V4 V6) : PushState V4 V6 :=
  let newNameStore := { id := id, name := lowercase asciiName }
  { s with names := s.names.insertIdx nameIt newNameStore }

def moveBuf (s : PushState V4 V6) : PushState V4 V6 :=
  { s with
    addrsByExpireTime := s.buf.foldl insertByExpireTime s.addrsByExpireTime
    buf := [] }

-- A failed push leaves through the destructors of its locals, the latest first.
def failure (newNameStore sortedAddrs : Option Nat) (s : PushState V4 V6) :
    Option (Except AllocationError Unit × PushState V4 V6) := do
  let s ← clearAndDispose s.buf s
  let s ← s.destroySortedAddrs sortedAddrs
  let s ← s.destroyNameStore newNameStore
  return (.error .mk, s)

section PushImpl

variable (a : AnAllocator) (sizes : StorageSizes) (fam : Family V4 V6 IP)

def makeAddrs (parent : Nat) : Nat → List (Int × List IP) → PushState V4 V6 →
    Except (PushState V4 V6) (PushState V4 V6)
  | _, [], s => .ok s
  | id, (expiresAt, ips) :: rest, s =>
      match s.allocate a id (sizes.addrHeader + ips.length * sizes.address) with
      | none => .error s
      | some s => makeAddrs parent (id + 1) rest (s.makeAddr parent
          { id := id, parent := parent, expiresAt := expiresAt, ips := fam.store ips })

def pushSorted (parent id : Nat) (newNameStore sortedAddrs : Option Nat)
    (gs : List (Int × List IP)) (s : PushState V4 V6) :
    Option (Except AllocationError Unit × PushState V4 V6) :=
  match makeAddrs a sizes fam parent id gs s with
  | .error s => s.failure newNameStore sortedAddrs
  | .ok s => do
      let s ← s.moveBuf.destroySortedAddrs sortedAddrs
      return (.ok (), s)

def pushAddrs (order : AddrSort) (now : Int) (parent next : Nat) (newNameStore : Option Nat)
    (addrs : List (ResolvedAddress IP)) (s : PushState V4 V6) :
    Option (Except AllocationError Unit × PushState V4 V6) :=
  let gs := groups (order.sort (addrs.filter (now < ·.expiresAt)))
  if addrs = [] then s.pushSorted a sizes fam parent (next + 2) newNameStore none gs
  else
    match s.allocate a (next + 1) (addrs.length * sizes.resolvedAddress) with
    | none => s.failure newNameStore none
    | some s => s.pushSorted a sizes fam parent (next + 2) newNameStore (some (next + 1)) gs

-- The numbers from next on are those of the calls that this push can make.
def pushImpl (search : Search Text) (order : AddrSort) (now : Int) (next : Nat) (asciiName : Text)
    (addrs : List (ResolvedAddress IP)) (s : PushState V4 V6) :
    Option (Except AllocationError Unit × PushState V4 V6) :=
  let nameIt := lowerBound search (·.name) s.names asciiName
  match s.names[nameIt]?.filter (·.name = asciiName) with
  | some e => s.pushAddrs a sizes fam order now e.id next none addrs
  | none =>
      match s.allocate a next (sizes.nameHeader + asciiName.length) with
      | none => some (.error .mk, s)
      | some s => (s.insertBefore nameIt next asciiName).pushAddrs a sizes fam order now next next
          (some next) addrs

end PushImpl

variable {a : AnAllocator} {sizes : StorageSizes} {fam : Family V4 V6 IP} {order : AddrSort}
  {search : Search Text} {now : Int} {parent id next : Nat} {asciiName : Text}
  {s : PushState V4 V6} {nodes : List (AddrStorage V4 V6)}

def taken (a : AnAllocator) (sizes : StorageSizes) (fam : Family V4 V6 IP)
    (addr : AddrStorage V4 V6) : Taken :=
  ⟨addr.id, a.takes addr.id (sizes.addrHeader + (fam.ipSource addr.ips).length * sizes.address)⟩

def adding (a : AnAllocator) (sizes : StorageSizes) (fam : Family V4 V6 IP) (parent : Nat)
    (nodes : List (AddrStorage V4 V6)) (s : PushState V4 V6) : PushState V4 V6 :=
  { s with
    names := s.names.map (·.pushFront parent nodes)
    buf := s.buf ++ nodes
    live := (nodes.map (taken a sizes fam)).reverse ++ s.live }

def linking (parent : Nat) (nodes : List (AddrStorage V4 V6)) (live : List Taken)
    (s : PushState V4 V6) : PushState V4 V6 where
  names := s.names.map (·.pushFront parent nodes)
  addrsByExpireTime := nodes.foldl insertByExpireTime s.addrsByExpireTime
  live := live

theorem pushFront_nil (parent : Nat) (e : NameStorage V4 V6) : e.pushFront parent [] = e := by
  rw [NameStorage.pushFront]
  split
  · rfl
  · rfl

theorem pushFront_cons (parent : Nat) (addr : AddrStorage V4 V6) (e : NameStorage V4 V6) :
    (e.pushFront parent [addr]).pushFront parent nodes = e.pushFront parent (addr :: nodes) := by
  by_cases he : e.id = parent
  · simp [NameStorage.pushFront, he]
  · simp [NameStorage.pushFront, he]

theorem adding_nil (s : PushState V4 V6) : s.adding a sizes fam parent [] = s := by
  simp [adding, pushFront_nil]

theorem insertByExpireTime_last {buf : List (AddrStorage V4 V6)} {addr : AddrStorage V4 V6}
    (h : ∀ b ∈ buf, b.expiresAt < addr.expiresAt) :
    insertByExpireTime buf addr = buf ++ [addr] := by
  induction buf with
  | nil => rfl
  | cons b buf ih =>
    obtain ⟨hb, hbuf⟩ := List.forall_mem_cons.mp h
    rw [insertByExpireTime, List.orderedInsert_cons, if_neg (not_lt.mpr hb.le)]
    exact congrArg (b :: ·) (ih hbuf)

theorem adding_cons {addr : AddrStorage V4 V6} (h : ∀ b ∈ s.buf, b.expiresAt < addr.expiresAt) :
    ({ s with live := taken a sizes fam addr :: s.live }.makeAddr parent addr).adding
      a sizes fam parent nodes = s.adding a sizes fam parent (addr :: nodes) := by
  simp only [adding, makeAddr, insertByExpireTime_last h, List.map_map, List.append_assoc,
    List.singleton_append, List.map_cons, List.reverse_cons]
  congr 2
  funext e
  exact pushFront_cons parent addr e

theorem groupsFrom_ascending {expiresAt : Int} {ips : List IP} {addrs : List (ResolvedAddress IP)}
    (h : (expiresAt :: addrs.map (·.expiresAt)).Pairwise (· ≤ ·)) :
    (groupsFrom expiresAt ips addrs).Pairwise (·.1 < ·.1) ∧
      ∀ g ∈ groupsFrom expiresAt ips addrs, expiresAt ≤ g.1 := by
  induction addrs generalizing expiresAt ips with
  | nil => simp [groupsFrom]
  | cons addr addrs ih =>
    rw [List.map_cons] at h
    obtain ⟨hle, hrest⟩ := List.pairwise_cons.mp h
    rw [groupsFrom]
    split
    · rename_i hlt
      obtain ⟨hpairs, hfirst⟩ := @ih addr.expiresAt [addr.address] hrest
      refine ⟨List.pairwise_cons.mpr ⟨fun g hg => hlt.trans_le (hfirst g hg), hpairs⟩, ?_⟩
      intro g hg
      rcases List.mem_cons.mp hg with rfl | hg
      · exact le_rfl
      · exact hlt.le.trans (hfirst g hg)
    · refine ih (List.pairwise_cons.mpr ⟨?_, (List.pairwise_cons.mp hrest).2⟩)
      exact fun t ht => hle t (List.mem_cons_of_mem _ ht)

theorem groups_ascending {addrs : List (ResolvedAddress IP)}
    (h : addrs.Pairwise fun lhs rhs => lhs.expiresAt ≤ rhs.expiresAt) :
    (groups addrs).Pairwise (·.1 < ·.1) := by
  cases addrs with
  | nil => exact .nil
  | cons addr addrs =>
    refine (groupsFrom_ascending ?_).1
    rw [← List.map_cons (f := ResolvedAddress.expiresAt)]
    exact List.pairwise_map.mpr h

theorem makeAddrs_cases {gs : List (Int × List IP)} (hgs : gs.Pairwise (·.1 < ·.1))
    (hbuf : ∀ b ∈ s.buf, ∀ g ∈ gs, b.expiresAt < g.1) :
    (∃ nodes, Dns.makeAddrs fam a.alloc parent id gs = some nodes ∧
      makeAddrs a sizes fam parent id gs s = .ok (s.adding a sizes fam parent nodes)) ∨
    Dns.makeAddrs fam a.alloc parent id gs = none ∧
      ∃ nodes, nodes.map (·.id) = List.range' id nodes.length ∧
        makeAddrs a sizes fam parent id gs s = .error (s.adding a sizes fam parent nodes) := by
  induction gs generalizing id s with
  | nil => exact .inl ⟨[], rfl, congrArg Except.ok (adding_nil s).symm⟩
  | cons g gs ih =>
    obtain ⟨expiresAt, ips⟩ := g
    obtain ⟨hfirst, hrest⟩ := List.pairwise_cons.mp hgs
    rw [Dns.makeAddrs, makeAddrs, allocate]
    by_cases hroom : a.alloc id
    · let addr : AddrStorage V4 V6 :=
        { id := id, parent := parent, expiresAt := expiresAt, ips := fam.store ips }
      have hlast : ∀ b ∈ s.buf, b.expiresAt < addr.expiresAt :=
        fun b hb => hbuf b hb _ List.mem_cons_self
      have htaken : taken a sizes fam addr =
          ⟨id, a.takes id (sizes.addrHeader + ips.length * sizes.address)⟩ := by
        rw [taken, fam.ipSource_store]
      let t := { s with live := taken a sizes fam addr :: s.live }.makeAddr parent addr
      have hbuf' : ∀ b ∈ t.buf, ∀ g ∈ gs, b.expiresAt < g.1 := by
        intro b hb g hg
        rw [show t.buf = s.buf ++ [addr] from insertByExpireTime_last hlast] at hb
        rcases List.mem_append.mp hb with hb | hb
        · exact hbuf b hb g (List.mem_cons_of_mem _ hg)
        · rw [List.mem_singleton.mp hb]
          exact hfirst g hg
      rw [if_pos hroom, if_pos hroom, ← htaken]
      obtain ⟨nodes, hnodes, hrun⟩ | ⟨hnone, nodes, hids, hrun⟩ := @ih (id + 1) t hrest hbuf'
      · refine .inl ⟨addr :: nodes, by rw [hnodes]; rfl, ?_⟩
        rw [← adding_cons hlast]
        exact hrun
      · refine .inr ⟨by rw [hnone]; rfl, addr :: nodes, ?_, ?_⟩
        · rw [List.map_cons, hids]
          rfl
        · rw [← adding_cons hlast]
          exact hrun
    · rw [if_neg hroom, if_neg hroom]
      exact .inr ⟨rfl, [], rfl, congrArg Except.error (adding_nil s).symm⟩

end PushState

end Corosig.Dns
