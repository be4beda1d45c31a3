import Corosig.Io.Dns.Ascii
import Corosig.Library.SortedKeys
import Mathlib.Data.List.Lex
import Mathlib.Data.List.Sort

namespace Corosig.Dns
open SortedKeys

structure ResolvedAddress (IP : Type) where
  address : IP
  expiresAt : Int
  deriving DecidableEq, Repr

structure AddrSort where
  sort : {IP : Type} → List (ResolvedAddress IP) → List (ResolvedAddress IP)
  perm : ∀ {IP : Type} (addrs : List (ResolvedAddress IP)), (sort addrs).Perm addrs
  sorted : ∀ {IP : Type} (addrs : List (ResolvedAddress IP)),
    (sort addrs).Pairwise fun lhs rhs => lhs.expiresAt ≤ rhs.expiresAt

structure Family (V4 V6 IP : Type) where
  store : List IP → List V4 × List V6
  ipSource : List V4 × List V6 → List IP
  ipSource_store : ∀ ips, ipSource (store ips) = ips

structure AddrStorage (V4 V6 : Type) where
  id : Nat
  parent : Nat
  expiresAt : Int
  ips : List V4 × List V6
  deriving DecidableEq, Repr

structure NameStorage (V4 V6 : Type) where
  id : Nat
  name : Text
  ips : List (AddrStorage V4 V6) := []
  deriving DecidableEq, Repr

structure MemoryCache (V4 V6 : Type) where
  names : List (NameStorage V4 V6) := []
  addrsByExpireTime : List (AddrStorage V4 V6) := []
  allocations : Nat := 0
  deriving DecidableEq, Repr

variable {V4 V6 IP : Type}

def ipv4 : Family V4 V6 V4 where
  store ips := (ips, [])
  ipSource := Prod.fst
  ipSource_store _ := rfl

def ipv6 : Family V4 V6 V6 where
  store ips := ([], ips)
  ipSource := Prod.snd
  ipSource_store _ := rfl

def byExpireTime : AddrSort where
  sort addrs := addrs.insertionSort fun lhs rhs => lhs.expiresAt ≤ rhs.expiresAt
  perm addrs := List.perm_insertionSort _ addrs
  sorted {IP} addrs :=
    haveI : Std.Total fun lhs rhs : ResolvedAddress IP => lhs.expiresAt ≤ rhs.expiresAt :=
      ⟨fun _ _ => Int.le_total _ _⟩
    haveI : IsTrans (ResolvedAddress IP) fun lhs rhs => lhs.expiresAt ≤ rhs.expiresAt :=
      ⟨fun _ _ _ => Int.le_trans⟩
    List.pairwise_insertionSort _ addrs

def groupsFrom (expiresAt : Int) (ips : List IP) :
    List (ResolvedAddress IP) → List (Int × List IP)
  | [] => [(expiresAt, ips)]
  | addr :: addrs =>
      if expiresAt < addr.expiresAt then
        (expiresAt, ips) :: groupsFrom addr.expiresAt [addr.address] addrs
      else groupsFrom expiresAt (ips ++ [addr.address]) addrs

def groups : List (ResolvedAddress IP) → List (Int × List IP)
  | [] => []
  | addr :: addrs => groupsFrom addr.expiresAt [addr.address] addrs

def makeAddrs (fam : Family V4 V6 IP) (alloc : Nat → Bool) (parent : Nat) :
    Nat → List (Int × List IP) → Option (List (AddrStorage V4 V6))
  | _, [] => some []
  | id, (expiresAt, ips) :: rest =>
      if alloc id then
        (makeAddrs fam alloc parent (id + 1) rest).map
          ({ id := id, parent := parent, expiresAt := expiresAt, ips := fam.store ips } :: ·)
      else none

def insertByExpireTime (addrs : List (AddrStorage V4 V6)) (addr : AddrStorage V4 V6) :
    List (AddrStorage V4 V6) :=
  addrs.orderedInsert (fun lhs rhs => lhs.expiresAt < rhs.expiresAt) addr

def NameStorage.pushFront (e : NameStorage V4 V6) (parent : Nat)
    (addrs : List (AddrStorage V4 V6)) : NameStorage V4 V6 :=
  if e.id = parent then { e with ips := addrs.reverse ++ e.ips } else e

def NameStorage.unlink (addr : AddrStorage V4 V6) (e : NameStorage V4 V6) :
    Option (NameStorage V4 V6) :=
  if e.id = addr.parent then
    let ips := e.ips.filter (·.id ≠ addr.id)
    if ips.isEmpty then none else some { e with ips := ips }
  else some e

namespace MemoryCache

def insertBefore (c : MemoryCache V4 V6) (nameIt : Nat) (asciiName : Text) : MemoryCache V4 V6 :=
  let newNameStore := { id := c.allocations, name := lowercase asciiName }
  { c with names := c.names.insertIdx nameIt newNameStore }

def nameStore (search : Search Text) (alloc : Nat → Bool) (c : MemoryCache V4 V6)
    (asciiName : Text) : Option (Nat × MemoryCache V4 V6) :=
  let nameIt := lowerBound search (·.name) c.names asciiName
  match c.names[nameIt]?.filter (·.name = asciiName) with
  | some e => some (e.id, c)
  | none =>
      if alloc c.allocations then some (c.allocations, c.insertBefore nameIt asciiName) else none

def link (c : MemoryCache V4 V6) (parent : Nat) (addrs : List (AddrStorage V4 V6)) :
    MemoryCache V4 V6 where
  names := c.names.map (·.pushFront parent addrs)
  addrsByExpireTime := addrs.foldl insertByExpireTime c.addrsByExpireTime
  allocations := c.allocations + 2 + addrs.length

def push (search : Search Text) (order : AddrSort) (fam : Family V4 V6 IP) (alloc : Nat → Bool)
    (now : Int) (c : MemoryCache V4 V6) (asciiName : Text) (addrs : List (ResolvedAddress IP)) :
    Option (MemoryCache V4 V6) := do
  let (parent, c) ← c.nameStore search alloc asciiName
  if addrs ≠ [] ∧ ¬ alloc (c.allocations + 1) then
    none
  else
    let sortedAddrs := order.sort (addrs.filter (now < ·.expiresAt))
    let addrs ← makeAddrs fam alloc parent (c.allocations + 2) (groups sortedAddrs)
    return c.link parent addrs

def expire (now : Int) : List (AddrStorage V4 V6) → List (NameStorage V4 V6) →
    List (AddrStorage V4 V6) × List (NameStorage V4 V6)
  | [], names => ([], names)
  | addr :: addrs, names =>
      if addr.expiresAt ≤ now then expire now addrs (names.filterMap (·.unlink addr))
      else (addr :: addrs, names)

def prune (now : Int) (c : MemoryCache V4 V6) : MemoryCache V4 V6 where
  names := (expire now c.addrsByExpireTime c.names).2
  addrsByExpireTime := (expire now c.addrsByExpireTime c.names).1
  allocations := c.allocations

def lookup (search : Search Text) (c : MemoryCache V4 V6) (asciiName : Text) :
    Option (NameStorage V4 V6) :=
  if fqdnMaxOctetLen < asciiName.length then none
  else find search (·.name) c.names (lowercase asciiName)

def pullFrom (fam : Family V4 V6 IP) (now : Int) :
    Nat → List (AddrStorage V4 V6) → List (ResolvedAddress IP)
  | _, [] => []
  | out, addr :: addrs =>
      if out = 0 then []
      else if addr.expiresAt ≤ now then pullFrom fam now out addrs
      else
        let ips := (fam.ipSource addr.ips).take out
        ips.map (⟨·, addr.expiresAt⟩) ++ pullFrom fam now (out - ips.length) addrs

def pull (search : Search Text) (fam : Family V4 V6 IP) (now : Int) (c : MemoryCache V4 V6)
    (asciiName : Text) (out : Nat) : List (ResolvedAddress IP) :=
  match c.lookup search asciiName with
  | some e => pullFrom fam now out e.ips
  | none => []

end MemoryCache

end Corosig.Dns
