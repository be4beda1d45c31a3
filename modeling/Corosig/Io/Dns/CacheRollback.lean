import Corosig.Io.Dns.CacheLedger
import Corosig.Io.Dns.CachePush

namespace Corosig.Dns
open SortedKeys

variable {V4 V6 IP : Type}

namespace PushState

variable {a : AnAllocator} {sizes : StorageSizes} {fam : Family V4 V6 IP} {order : AddrSort}
  {search : Search Text} {now : Int} {parent id next : Nat} {asciiName : Text} {ids : List Nat}
  {s : PushState V4 V6} {nodes : List (AddrStorage V4 V6)}

def dropAddrs (ids : List Nat) (e : NameStorage V4 V6) : NameStorage V4 V6 :=
  { e with ips := e.ips.filter (·.id ∉ ids) }

theorem dropAddrs_dropAddr (e : NameStorage V4 V6) :
    dropAddrs ids (e.dropAddr id) = dropAddrs (id :: ids) e := by
  simp only [dropAddrs, NameStorage.dropAddr, List.filter_filter]
  congr 1
  refine List.filter_congr fun b _ => ?_
  rw [Bool.and_comm]
  simp

theorem dropAddrs_nil (e : NameStorage V4 V6) : dropAddrs [] e = e := by
  simp [dropAddrs]

theorem deallocate_eq (h : id ∈ s.live.map Taken.id) :
    s.deallocate id = some { s with live := s.live.filter (·.id ≠ id) } := if_pos h

theorem clearAndDispose_eq {buf : List (AddrStorage V4 V6)} (hnodup : (buf.map (·.id)).Nodup)
    (hlive : ∀ b ∈ buf, b.id ∈ s.live.map Taken.id) :
    clearAndDispose buf s = some { s with
      names := s.names.map (dropAddrs (buf.map (·.id)))
      buf := []
      live := s.live.filter (·.id ∉ buf.map (·.id)) } := by
  induction buf generalizing s with
  | nil =>
    have hnames : dropAddrs [] = @id (NameStorage V4 V6) := funext dropAddrs_nil
    simp [clearAndDispose, hnames]
  | cons b buf ih =>
    rw [List.map_cons] at hnodup
    obtain ⟨hb, hrest⟩ := List.nodup_cons.mp hnodup
    obtain ⟨hfirst, hlive⟩ := List.forall_mem_cons.mp hlive
    let t : PushState V4 V6 := { s with
      names := s.names.map (·.dropAddr b.id)
      live := s.live.filter (·.id ≠ b.id) }
    have hdestroyed : s.destroyAddr b = some t := deallocate_eq hfirst
    have hkept : ∀ b' ∈ buf, b'.id ∈ t.live.map Taken.id := by
      intro b' hb'
      obtain ⟨m, hm, hid⟩ := List.mem_map.mp (hlive b' hb')
      refine List.mem_map.mpr ⟨m, List.mem_filter.mpr ⟨hm, decide_eq_true ?_⟩, hid⟩
      rw [hid]
      exact ne_of_mem_of_not_mem (List.mem_map_of_mem hb') hb
    have hnames : t.names.map (dropAddrs (buf.map (·.id))) =
        s.names.map (dropAddrs (b.id :: buf.map (·.id))) := by
      rw [List.map_map]
      exact List.map_congr_left fun e _ => dropAddrs_dropAddr e
    have hblocks : t.live.filter (·.id ∉ buf.map (·.id)) =
        s.live.filter (·.id ∉ b.id :: buf.map (·.id)) := by
      rw [List.filter_filter]
      refine List.filter_congr fun m _ => ?_
      rw [Bool.and_comm]
      simp
    rw [clearAndDispose, hdestroyed]
    refine (ih hrest hkept).trans ?_
    rw [hnames, hblocks]
    rfl

structure Below (n : Nat) (s : PushState V4 V6) : Prop where
  names : ∀ e ∈ s.names, e.id < n
  ips : ∀ e ∈ s.names, ∀ b ∈ e.ips, b.id < n
  live : ∀ m ∈ s.live, m.id < n

theorem dropAddrs_pushFront {e : NameStorage V4 V6} (h : ∀ b ∈ e.ips, b.id ∉ nodes.map (·.id)) :
    dropAddrs (nodes.map (·.id)) (e.pushFront parent nodes) = e := by
  have hold : e.ips.filter (·.id ∉ nodes.map (·.id)) = e.ips :=
    List.filter_eq_self.mpr fun b hb => decide_eq_true (h b hb)
  have hnew : nodes.reverse.filter (·.id ∉ nodes.map (·.id)) = [] :=
    List.filter_eq_nil_iff.mpr fun b hb => by
      simpa using List.mem_map_of_mem (f := (·.id)) (List.mem_reverse.mp hb)
  rw [NameStorage.pushFront]
  split
  · rw [dropAddrs, List.filter_append, hnew, hold, List.nil_append]
  · rw [dropAddrs, hold]

theorem clearAndDispose_adding (hids : nodes.map (·.id) = List.range' id nodes.length)
    (hbuf : s.buf = []) (h : s.Below id) :
    clearAndDispose (s.adding a sizes fam parent nodes).buf (s.adding a sizes fam parent nodes) =
      some s := by
  have hunused : ∀ {i}, i < id → i ∉ nodes.map (·.id) := by
    intro i hi hmem
    rw [hids] at hmem
    exact absurd (List.mem_range'_1.mp hmem).1 (not_le.mpr hi)
  have hnodup : (nodes.map (·.id)).Nodup := hids ▸ List.nodup_range'
  have hnodes : (s.adding a sizes fam parent nodes).buf = nodes := by
    rw [adding, hbuf]
    rfl
  have htaken : (nodes.map (taken a sizes fam)).reverse.map Taken.id =
      (nodes.map (·.id)).reverse := by
    rw [List.map_reverse, List.map_map]
    rfl
  have hlive : ∀ b ∈ nodes, b.id ∈ (s.adding a sizes fam parent nodes).live.map Taken.id := by
    intro b hb
    rw [adding, List.map_append, htaken]
    exact List.mem_append_left _ (List.mem_reverse.mpr (List.mem_map_of_mem hb))
  have hnames : (s.names.map (·.pushFront parent nodes)).map (dropAddrs (nodes.map (·.id))) =
      s.names := by
    rw [List.map_map]
    refine (List.map_congr_left fun e he => ?_).trans (List.map_id _)
    exact dropAddrs_pushFront fun b hb => hunused (h.ips e he b hb)
  have hkept : s.live.filter (·.id ∉ nodes.map (·.id)) = s.live :=
    List.filter_eq_self.mpr fun m hm => decide_eq_true (hunused (h.live m hm))
  have hfreed : (nodes.map (taken a sizes fam)).reverse.filter (·.id ∉ nodes.map (·.id)) = [] := by
    refine List.filter_eq_nil_iff.mpr fun m hm => ?_
    have hid := List.mem_map_of_mem (f := Taken.id) hm
    rw [htaken, List.mem_reverse] at hid
    simpa using hid
  rw [hnodes, clearAndDispose_eq hnodup hlive]
  simp only [adding, hnames, List.filter_append, hfreed, hkept, List.nil_append, ← hbuf]

def Releases (newNameStore sortedAddrs : Option Nat) (t s : PushState V4 V6) : Prop :=
  (t.destroySortedAddrs sortedAddrs).bind (·.destroyNameStore newNameStore) = some s

variable {newNameStore sortedAddrs : Option Nat} {t : PushState V4 V6}

theorem failure_adding (hids : nodes.map (·.id) = List.range' id nodes.length) (hbuf : t.buf = [])
    (hbelow : t.Below id) (h : Releases newNameStore sortedAddrs t s) :
    (t.adding a sizes fam parent nodes).failure newNameStore sortedAddrs =
      some (.error .mk, s) := by
  obtain ⟨u, hsorted, hname⟩ := Option.bind_eq_some_iff.mp h
  rw [failure, clearAndDispose_adding hids hbuf hbelow]
  simp only [Option.bind_eq_bind, Option.bind_some, hsorted, hname]
  rfl

theorem live_adding (hids : nodes.map (·.id) = List.range' id nodes.length) (h : t.Below id) :
    ∀ x ∈ (t.adding a sizes fam parent nodes).live, x.id < id + nodes.length := by
  intro x hx
  rcases List.mem_append.mp hx with hx | hx
  · obtain ⟨b, hb, rfl⟩ := List.mem_map.mp (List.mem_reverse.mp hx)
    have hid : b.id ∈ nodes.map (·.id) := List.mem_map_of_mem hb
    rw [hids] at hid
    exact (List.mem_range'_1.mp hid).2
  · exact (h.live x hx).trans_le (Nat.le_add_right id _)

theorem moveBuf_adding (hids : nodes.map (·.id) = List.range' id nodes.length) (hbuf : t.buf = [])
    (hbelow : t.Below id) (h : Releases newNameStore sortedAddrs t s) :
    ∃ live, (∀ x ∈ live, x.id < id + nodes.length) ∧
      (t.adding a sizes fam parent nodes).moveBuf.destroySortedAddrs sortedAddrs =
        some (t.linking parent nodes live) := by
  obtain ⟨u, hsorted, -⟩ := Option.bind_eq_some_iff.mp h
  let made := t.adding a sizes fam parent nodes
  have hbound : ∀ x ∈ made.live, x.id < id + nodes.length := live_adding hids hbelow
  have hnodes : made.buf = nodes := by
    rw [show made.buf = t.buf ++ nodes from rfl, hbuf]
    rfl
  cases sortedAddrs with
  | none =>
    refine ⟨made.live, hbound, ?_⟩
    rw [moveBuf, hnodes]
    rfl
  | some sorted =>
    have hmem : sorted ∈ t.live.map Taken.id := by
      by_contra hmem
      rw [destroySortedAddrs, deallocate, if_neg hmem] at hsorted
      cases hsorted
    have hlive : sorted ∈ made.moveBuf.live.map Taken.id := by
      rw [show made.moveBuf.live = made.live from rfl, show made.live = _ ++ t.live from rfl,
        List.map_append]
      exact List.mem_append_right _ hmem
    refine ⟨made.live.filter (·.id ≠ sorted), fun x hx => hbound x (List.mem_filter.mp hx).1, ?_⟩
    refine (deallocate_eq hlive).trans ?_
    rw [moveBuf, hnodes]
    rfl

theorem pushSorted_cases {gs : List (Int × List IP)} (hgs : gs.Pairwise (·.1 < ·.1))
    (hbuf : t.buf = []) (hbelow : t.Below id) (h : Releases newNameStore sortedAddrs t s) :
    (∃ nodes live, Dns.makeAddrs fam a.alloc parent id gs = some nodes ∧
      (∀ x ∈ live, x.id < id + nodes.length) ∧
      t.pushSorted a sizes fam parent id newNameStore sortedAddrs gs =
        some (.ok (), t.linking parent nodes live)) ∨
    Dns.makeAddrs fam a.alloc parent id gs = none ∧
      t.pushSorted a sizes fam parent id newNameStore sortedAddrs gs = some (.error .mk, s) := by
  have hempty : ∀ b ∈ t.buf, ∀ g ∈ gs, b.expiresAt < g.1 := by
    rw [hbuf]
    rintro b ⟨⟩
  rw [pushSorted]
  obtain ⟨nodes, hnodes, hrun⟩ | ⟨hnone, nodes, hids, hrun⟩ := makeAddrs_cases hgs hempty
  · obtain ⟨live, hbound, hmoved⟩ : ∃ live, _ ∧
        (t.adding a sizes fam parent nodes).moveBuf.destroySortedAddrs sortedAddrs = _ :=
      moveBuf_adding (makeAddrs_spec hnodes).2.1 hbuf hbelow h
    refine .inl ⟨nodes, live, hnodes, hbound, ?_⟩
    rw [hrun]
    simp only [hmoved, Option.bind_eq_bind, Option.bind_some]
    rfl
  · refine .inr ⟨hnone, ?_⟩
    rw [hrun]
    exact failure_adding hids hbuf hbelow h

theorem Below.mono {n m : Nat} (h : s.Below n) (hle : n ≤ m) : s.Below m where
  names e he := (h.names e he).trans_le hle
  ips e he b hb := (h.ips e he b hb).trans_le hle
  live x hx := (h.live x hx).trans_le hle

theorem Below.allocated (h : s.Below id) (amount : Nat) :
    Below (id + 1) { s with live := ⟨id, amount⟩ :: s.live } where
  names e he := (h.names e he).trans (Nat.lt_succ_self id)
  ips e he b hb := (h.ips e he b hb).trans (Nat.lt_succ_self id)
  live x hx := by
    rcases List.mem_cons.mp hx with rfl | hx
    · exact Nat.lt_succ_self id
    · exact (h.live x hx).trans (Nat.lt_succ_self id)

theorem Below.inserted {nameIt : Nat} (h : s.Below (id + 1)) :
    (s.insertBefore nameIt id asciiName).Below (id + 1) where
  names e he := by
    rcases List.eq_or_mem_of_mem_insertIdx he with rfl | he
    · exact Nat.lt_succ_self id
    · exact h.names e he
  ips e he b hb := by
    rcases List.eq_or_mem_of_mem_insertIdx he with rfl | he
    · cases hb
    · exact h.ips e he b hb
  live := h.live

theorem deallocate_taken (h : ∀ x ∈ s.live, x.id < id) (amount : Nat) :
    deallocate id { s with live := ⟨id, amount⟩ :: s.live } = some s := by
  have hfreed : (⟨id, amount⟩ :: s.live).filter (·.id ≠ id) = s.live := by
    rw [List.filter_cons_of_neg (by simp)]
    exact List.filter_eq_self.mpr fun x hx => decide_eq_true (h x hx).ne
  rw [deallocate_eq List.mem_cons_self]
  simp only [hfreed]

theorem filter_insertIdx {names : List (NameStorage V4 V6)} {e : NameStorage V4 V6}
    (h : ∀ d ∈ names, d.id ≠ e.id) (i : Nat) :
    (names.insertIdx i e).filter (·.id ≠ e.id) = names := by
  induction i generalizing names with
  | zero =>
    rw [List.insertIdx_zero, List.filter_cons_of_neg (by simp)]
    exact List.filter_eq_self.mpr fun d hd => decide_eq_true (h d hd)
  | succ i ih =>
    cases names with
    | nil => rfl
    | cons d names =>
      obtain ⟨hd, hnames⟩ := List.forall_mem_cons.mp h
      rw [List.insertIdx_succ_cons, List.filter_cons_of_pos (by simpa using hd), ih hnames]

theorem destroyNameStore_inserted {nameIt : Nat} (h : s.Below id) (amount : Nat) :
    destroyNameStore (some id)
      (insertBefore nameIt id asciiName { s with live := ⟨id, amount⟩ :: s.live }) = some s := by
  have hnames := filter_insertIdx (e := { id := id, name := lowercase asciiName })
    (fun d hd => (h.names d hd).ne) nameIt
  rw [destroyNameStore, insertBefore]
  simp only [hnames]
  exact deallocate_taken h.live amount

section Push

variable {c c' : MemoryCache V4 V6} {addrs : List (ResolvedAddress IP)} {live : List Taken}

def store (c : MemoryCache V4 V6) (live : List Taken) : PushState V4 V6 where
  names := c.names
  addrsByExpireTime := c.addrsByExpireTime
  live := live

def Ends (push : Option (MemoryCache V4 V6)) (s : PushState V4 V6)
    (ended : Option (Except AllocationError Unit × PushState V4 V6)) : Prop :=
  (∃ c' live, push = some c' ∧ (∀ x ∈ live, x.id < c'.allocations) ∧
    ended = some (.ok (), store c' live)) ∨
  push = none ∧ ended = some (.error .mk, s)

theorem pushSorted_ends (hname : c.nameStore search a.alloc asciiName = some (parent, c'))
    (hroom : ¬ (addrs ≠ [] ∧ ¬ a.alloc (c.allocations + 1)))
    (hbelow : (store c' live).Below (c.allocations + 2))
    (h : Releases newNameStore sortedAddrs (store c' live) s) :
    Ends (c.push search order fam a.alloc now asciiName addrs) s
      ((store c' live).pushSorted a sizes fam parent (c.allocations + 2) newNameStore sortedAddrs
        (groups (order.sort (addrs.filter (now < ·.expiresAt))))) := by
  obtain ⟨-, -, halloc⟩ := MemoryCache.nameStore_held hname
  rw [MemoryCache.push_eq hname hroom]
  obtain ⟨nodes, taken, hnodes, hbound, hdone⟩ | ⟨hnone, hfailed⟩ :=
    pushSorted_cases (groups_ascending (order.sorted _)) rfl hbelow h
  · refine .inl ⟨c'.link parent nodes, taken, by rw [hnodes]; rfl, ?_, hdone⟩
    rw [MemoryCache.link, halloc]
    exact hbound
  · exact .inr ⟨by rw [hnone]; rfl, hfailed⟩

theorem failure_unmade (hbuf : t.buf = [])
    (h : t.destroyNameStore newNameStore = some s) :
    t.failure newNameStore none = some (.error .mk, s) := by
  rw [failure, hbuf, clearAndDispose]
  simp only [Option.bind_eq_bind, Option.bind_some, destroySortedAddrs, ← hbuf, h]
  rfl

theorem pushAddrs_ends (hname : c.nameStore search a.alloc asciiName = some (parent, c'))
    (hbelow : (store c' live).Below (c.allocations + 1))
    (h : (store c' live).destroyNameStore newNameStore = some s) :
    Ends (c.push search order fam a.alloc now asciiName addrs) s
      ((store c' live).pushAddrs a sizes fam order now parent c.allocations newNameStore addrs) := by
  have hnext := hbelow.mono (Nat.le_succ _)
  rw [pushAddrs]
  by_cases hnil : addrs = []
  · rw [if_pos hnil]
    exact pushSorted_ends hname (fun hfull => hfull.1 hnil) hnext h
  · rw [if_neg hnil, allocate]
    by_cases hroom : a.alloc (c.allocations + 1)
    · rw [if_pos hroom]
      let amount := a.takes (c.allocations + 1) (addrs.length * sizes.resolvedAddress)
      have hfreed : Releases newNameStore (some (c.allocations + 1))
          (store c' (⟨c.allocations + 1, amount⟩ :: live)) s := by
        rw [Releases, destroySortedAddrs, ← h]
        exact congrArg (Option.bind · _) (deallocate_taken hbelow.live amount)
      exact pushSorted_ends hname (fun hfull => hfull.2 hroom) (hbelow.allocated amount) hfreed
    · rw [if_neg hroom]
      exact .inr ⟨MemoryCache.push_none_of_buffer hname ⟨hnil, hroom⟩, failure_unmade rfl h⟩

theorem pushImpl_ends (hbelow : (store c live).Below c.allocations) :
    Ends (c.push search order fam a.alloc now asciiName addrs) (store c live)
      ((store c live).pushImpl a sizes fam search order now c.allocations asciiName addrs) := by
  let nameIt := lowerBound search (·.name) c.names asciiName
  rw [pushImpl]
  cases hfound : c.names[nameIt]?.filter (·.name = asciiName) with
  | some e =>
    have hname : c.nameStore search a.alloc asciiName = some (e.id, c) := by
      rw [MemoryCache.nameStore, hfound]
    rw [show (store c live).names = c.names from rfl, hfound]
    exact pushAddrs_ends hname (hbelow.mono (Nat.le_succ _)) rfl
  | none =>
    rw [show (store c live).names = c.names from rfl, hfound, allocate]
    by_cases hroom : a.alloc c.allocations
    · have hname : c.nameStore search a.alloc asciiName =
          some (c.allocations, c.insertBefore nameIt asciiName) := by
        rw [MemoryCache.nameStore, hfound, if_pos hroom]
      let amount := a.takes c.allocations (sizes.nameHeader + asciiName.length)
      rw [if_pos hroom]
      have hfreed : (store (c.insertBefore nameIt asciiName)
          (⟨c.allocations, amount⟩ :: live)).destroyNameStore (some c.allocations) =
            some (store c live) := destroyNameStore_inserted hbelow amount
      exact pushAddrs_ends hname (hbelow.allocated amount).inserted hfreed
    · rw [if_neg hroom]
      exact .inr ⟨MemoryCache.push_none_of_name (MemoryCache.nameStore_none.mpr ⟨hfound, hroom⟩),
        rfl⟩

end Push

end PushState

structure CacheStore (V4 V6 : Type) where
  cache : MemoryCache V4 V6
  live : List Taken
  linked : cache.WellLinked
  fresh : ∀ x ∈ live, x.id < cache.allocations

namespace CacheStore

def start (m : CacheStore V4 V6) : PushState V4 V6 := PushState.store m.cache m.live

theorem below (m : CacheStore V4 V6) : m.start.Below m.cache.allocations where
  names := m.linked.nameFresh
  ips _ he b hb := m.linked.addrFresh b (m.linked.consistent.mem he hb).1
  live := m.fresh

section Push

variable (a : AnAllocator) (sizes : StorageSizes) (fam : Family V4 V6 IP) (search : Search Text)
  (order : AddrSort) (now : Int) (m : CacheStore V4 V6) (asciiName : Text)
  (addrs : List (ResolvedAddress IP))

theorem push_cases :
    (∃ m' : CacheStore V4 V6,
      m.cache.push search order fam a.alloc now asciiName addrs = some m'.cache ∧
      m.start.pushImpl a sizes fam search order now m.cache.allocations asciiName addrs =
        some (.ok (), m'.start)) ∨
    m.cache.push search order fam a.alloc now asciiName addrs = none ∧
      m.start.pushImpl a sizes fam search order now m.cache.allocations asciiName addrs =
        some (.error .mk, m.start) := by
  obtain ⟨c', live, hpush, hfresh, hdone⟩ | hfailed := PushState.pushImpl_ends m.below
  · exact .inl ⟨⟨c', live, m.linked.push hpush, hfresh⟩, hpush, hdone⟩
  · exact .inr hfailed

theorem push_rolls_back : ∃ r s,
    m.start.pushImpl a sizes fam search order now m.cache.allocations asciiName addrs =
      some (r, s) ∧
    (r ≠ .ok () →
      s.names = m.cache.names ∧ s.addrsByExpireTime = m.cache.addrsByExpireTime ∧ s.buf = [] ∧
      s.inUse = m.start.inUse ∧
      ∀ (IP : Type) (fam : Family V4 V6 IP) (now : Int) (asciiName : Text)
        (out : List (ResolvedAddress IP)) (allocations : Nat),
        (s.cache allocations).pullImpl search fam now asciiName out =
          m.cache.pullImpl search fam now asciiName out) := by
  obtain ⟨m', -, hdone⟩ | ⟨-, hfailed⟩ := push_cases a sizes fam search order now m asciiName addrs
  · exact ⟨_, _, hdone, fun hne => absurd rfl hne⟩
  · exact ⟨_, _, hfailed, fun _ => ⟨rfl, rfl, rfl, rfl, fun _ _ _ _ _ _ => rfl⟩⟩

example :
    let a : AnAllocator := { alloc := (· ≠ 6), takes := fun _ size => size }
    let addr : AddrStorage Nat Nat := { id := 2, parent := 0, expiresAt := 50, ips := ([1], []) }
    let s : PushState Nat Nat :=
      { names := [{ id := 0, name := [97], ips := [addr] }]
        addrsByExpireTime := [addr]
        live := [⟨2, 20⟩, ⟨0, 9⟩] }
    s.pushImpl a ⟨8, 8, 8, 4⟩ ipv4 linear byExpireTime 10 3 [98] [⟨7, 60⟩, ⟨8, 70⟩] =
      some (.error .mk, s) := by decide

end Push

end CacheStore

end Corosig.Dns
