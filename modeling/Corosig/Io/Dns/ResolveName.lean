import Corosig.Io.Dns.CacheNames

namespace Corosig.Dns
open SortedKeys

inductive RData (V4 V6 : Type) where
  | ipv4 (addr : V4)
  | ipv6 (addr : V6)
  | other
  deriving DecidableEq, Repr

structure ResourceRecord (V4 V6 : Type) where
  rdata : RData V4 V6
  ttl : Int
  deriving DecidableEq, Repr

structure Question (V4 V6 IP : Type) where
  family : Family V4 V6 IP
  accepts : RData V4 V6 → Option IP

structure Answer (V4 V6 : Type) where
  validated : Bool
  answers : List (Option (ResourceRecord V4 V6))
  trailing : Bool
  deriving DecidableEq, Repr

structure Exchange (V4 V6 : Type) where
  prunedAt : Int
  pulledAt : Int
  meanwhile : MemoryCache V4 V6 → MemoryCache V4 V6
  sendTime : Int
  answer : Option (Answer V4 V6)
  pushedAt : Int

structure Resolution (V4 V6 IP : Type) where
  cache : MemoryCache V4 V6
  out : List (ResolvedAddress IP)
  result : Option Nat
  deriving DecidableEq, Repr

variable {V4 V6 IP : Type}

def questionA : Question V4 V6 V4 where
  family := ipv4
  accepts
    | .ipv4 addr => some addr
    | _ => none

def questionAaaa : Question V4 V6 V6 where
  family := ipv6
  accepts
    | .ipv6 addr => some addr
    | _ => none

def fillAnswers (q : Question V4 V6 IP) (sendTime : Int) :
    List (Option (ResourceRecord V4 V6)) → Nat → List (ResolvedAddress IP) →
      List (ResolvedAddress IP) × Option Nat
  | [], n, out => (out, some n)
  | none :: _, _, out => (out, none)
  | some rr :: rest, n, out =>
      if n = out.length then fillAnswers q sendTime rest n out
      else
        match q.accepts rr.rdata with
        | some addr => fillAnswers q sendTime rest (n + 1) (out.set n ⟨addr, sendTime + rr.ttl⟩)
        | none => fillAnswers q sendTime rest n out

def processServerAnswer (q : Question V4 V6 IP) (sendTime : Int) (answer : Answer V4 V6)
    (out : List (ResolvedAddress IP)) : List (ResolvedAddress IP) × Option Nat :=
  if answer.validated then
    let (out, filled) := fillAnswers q sendTime answer.answers 0 out
    (out, if answer.trailing then filled else none)
  else (out, none)

def resolveNameImpl (search : Search Text) (order : AddrSort) (q : Question V4 V6 IP)
    (alloc : Nat → Bool) (x : Exchange V4 V6) (cache : MemoryCache V4 V6) (asciiName : Text)
    (out : List (ResolvedAddress IP)) : Resolution V4 V6 IP :=
  let cache := cache.prune x.prunedAt
  let pulled := cache.pull search q.family x.pulledAt asciiName out.length
  if pulled.length ≠ 0 then
    ⟨cache, pulled ++ out.drop pulled.length, some pulled.length⟩
  else
    let cache := x.meanwhile cache
    match x.answer with
    | none => ⟨cache, out, none⟩
    | some answer =>
        match processServerAnswer q x.sendTime answer out with
        | (out, none) => ⟨cache, out, none⟩
        | (out, some n) =>
            let pushed := cache.push search order q.family alloc x.pushedAt asciiName out
            ⟨pushed.getD cache, out, some n⟩

def ungroup (g : Int × List IP) : List (ResolvedAddress IP) := g.2.map (⟨·, g.1⟩)

theorem groupsFrom_flatten {expiresAt : Int} {ips : List IP} {addrs : List (ResolvedAddress IP)}
    (h : (expiresAt :: addrs.map (·.expiresAt)).Pairwise (· ≤ ·)) :
    (groupsFrom expiresAt ips addrs).flatMap ungroup = ungroup (expiresAt, ips) ++ addrs := by
  induction addrs generalizing expiresAt ips with
  | nil => simp [groupsFrom]
  | cons addr addrs ih =>
    rw [List.map_cons] at h
    obtain ⟨hle, hrest⟩ := List.pairwise_cons.mp h
    unfold groupsFrom
    split
    · rw [List.flatMap_cons, ih hrest]
      rfl
    · have heq : expiresAt = addr.expiresAt :=
        le_antisymm (hle _ (List.mem_cons_self ..)) (not_lt.mp ‹_›)
      rw [ih (heq ▸ hrest), heq]
      simp [ungroup]

theorem groups_flatten {addrs : List (ResolvedAddress IP)}
    (h : addrs.Pairwise fun lhs rhs => lhs.expiresAt ≤ rhs.expiresAt) :
    (groups addrs).flatMap ungroup = addrs := by
  cases addrs with
  | nil => rfl
  | cons addr addrs =>
    rw [groups, groupsFrom_flatten]
    · rfl
    · rw [← List.map_cons]
      exact List.pairwise_map.mpr h

namespace MemoryCache

def cached (fam : Family V4 V6 IP) (c : MemoryCache V4 V6) : List (Nat × ResolvedAddress IP) :=
  c.addrsByExpireTime.flatMap fun a => (fam.ipSource a.ips).map (a.parent, ⟨·, a.expiresAt⟩)

def Caches (fam : Family V4 V6 IP) (c c' : MemoryCache V4 V6) (asciiName : Text)
    (addrs : List (ResolvedAddress IP)) : Prop :=
  ∃ e ∈ c'.names, (e.name = asciiName ∨ e.name = lowercase asciiName) ∧
    (c'.cached fam).Perm (addrs.map (e.id, ·) ++ c.cached fam)

variable {search : Search Text} {order : AddrSort} {fam : Family V4 V6 IP} {alloc : Nat → Bool}
  {now : Int} {asciiName : Text} {parent : Nat} {c c' : MemoryCache V4 V6}

theorem cached_makeAddrs {id : Nat} {gs : List (Int × List IP)} {addrs : List (AddrStorage V4 V6)}
    (h : makeAddrs fam alloc parent id gs = some addrs) :
    (addrs.flatMap fun a => (fam.ipSource a.ips).map (a.parent, ⟨·, a.expiresAt⟩)) =
      (gs.flatMap ungroup).map (parent, ·) := by
  induction gs generalizing id addrs with
  | nil =>
    cases h
    rfl
  | cons g gs ih =>
    unfold makeAddrs at h
    split at h
    · obtain ⟨rest, hrest, rfl⟩ := Option.map_eq_some_iff.mp h
      simp [ih hrest, fam.ipSource_store, ungroup]
    · cases h

theorem nameStore_link (h : c.nameStore search alloc asciiName = some (parent, c'))
    (nodes : List (AddrStorage V4 V6)) : c'.addrsByExpireTime = c.addrsByExpireTime ∧
      ∃ e ∈ (c'.link parent nodes).names, e.id = parent ∧
        (e.name = asciiName ∨ e.name = lowercase asciiName) := by
  rcases nameStore_cases h with ⟨e, he, hname, rfl, rfl⟩ | ⟨-, rfl, rfl⟩
  · obtain ⟨hid, hname', -⟩ := e.pushFront_spec e.id nodes
    exact ⟨rfl, _, List.mem_map_of_mem he, hid, .inl (hname'.trans hname)⟩
  · let new : NameStorage V4 V6 := { id := c.allocations, name := lowercase asciiName }
    have hmem : new ∈ (c.insertBefore
        (lowerBound search (·.name) c.names asciiName) asciiName).names :=
      mem_insertIdx_lowerBound.mpr (.inl rfl)
    obtain ⟨hid, hname, -⟩ := new.pushFront_spec c.allocations nodes
    exact ⟨rfl, _, List.mem_map_of_mem hmem, hid, .inr hname⟩

theorem push_caches {addrs : List (ResolvedAddress IP)}
    (h : c.push search order fam alloc now asciiName addrs = some c') :
    c.Caches fam c' asciiName (addrs.filter (now < ·.expiresAt)) := by
  obtain ⟨parent, named, nodes, hname, hnodes, rfl⟩ := push_cases h
  obtain ⟨haddrs, e, he, rfl, hspelled⟩ := nameStore_link hname nodes
  refine ⟨e, he, hspelled, ?_⟩
  have hperm := foldl_insertByExpireTime_perm nodes named.addrsByExpireTime
  refine (hperm.flatMap_right _).trans ?_
  rw [List.flatMap_append, cached_makeAddrs hnodes, groups_flatten (order.sorted _), haddrs]
  exact ((order.perm _).map _).append_right _

theorem makeAddrs_unbounded (fam : Family V4 V6 IP) (parent id : Nat) (gs : List (Int × List IP)) :
    ∃ addrs, makeAddrs fam (fun _ => true) parent id gs = some addrs := by
  induction gs generalizing id with
  | nil => exact ⟨_, rfl⟩
  | cons g gs ih =>
    obtain ⟨rest, hrest⟩ := ih (id + 1)
    exact ⟨_, by rw [makeAddrs, if_pos rfl, hrest, Option.map_some]⟩

theorem push_unbounded (search : Search Text) (order : AddrSort) (fam : Family V4 V6 IP)
    (now : Int) (c : MemoryCache V4 V6) (asciiName : Text) (addrs : List (ResolvedAddress IP)) :
    ∃ c', c.push search order fam (fun _ => true) now asciiName addrs = some c' := by
  obtain ⟨⟨parent, named⟩, hname⟩ :
      ∃ r, c.nameStore search (fun _ => true) asciiName = some r := by
    unfold nameStore
    simp only [if_true]
    split
    · exact ⟨_, rfl⟩
    · exact ⟨_, rfl⟩
  obtain ⟨nodes, hnodes⟩ := makeAddrs_unbounded fam parent (named.allocations + 2)
    (groups (order.sort (addrs.filter (now < ·.expiresAt))))
  exact ⟨named.link parent nodes, by simp [push, hname, hnodes]⟩

theorem push_ne_self {addrs : List (ResolvedAddress IP)} (c : MemoryCache V4 V6) :
    c.push search order fam alloc now asciiName addrs ≠ some c := by
  intro h
  obtain ⟨parent, named, nodes, hname, -, he⟩ := push_cases h
  have halloc : c.allocations = named.allocations + 2 + nodes.length :=
    congrArg MemoryCache.allocations he
  rcases nameStore_cases hname with ⟨-, -, -, -, rfl⟩ | ⟨-, -, rfl⟩
  · omega
  · simp only [insertBefore] at halloc
    omega

theorem push_congr {addrs addrs' : List (ResolvedAddress IP)} (hlen : addrs.length = addrs'.length)
    (h : addrs.filter (now < ·.expiresAt) = addrs'.filter (now < ·.expiresAt)) :
    c.push search order fam alloc now asciiName addrs =
      c.push search order fam alloc now asciiName addrs' := by
  have hnil : addrs ≠ [] ↔ addrs' ≠ [] := by
    rw [← List.length_pos_iff, ← List.length_pos_iff, hlen]
  simp only [push, hnil, h]

end MemoryCache

def accepted (q : Question V4 V6 IP) (sendTime : Int)
    (answers : List (Option (ResourceRecord V4 V6))) : List (ResolvedAddress IP) :=
  answers.filterMap fun r => r.bind fun rr => (q.accepts rr.rdata).map (⟨·, sendTime + rr.ttl⟩)

def Answer.extracted (q : Question V4 V6 IP) (sendTime : Int) (capacity : Nat)
    (answer : Answer V4 V6) : Option (List (ResolvedAddress IP)) :=
  if answer.validated ∧ answer.answers.all Option.isSome ∧ answer.trailing then
    some ((accepted q sendTime answer.answers).take capacity)
  else none

theorem accepted_cons (q : Question V4 V6 IP) (t : Int) (rr : ResourceRecord V4 V6)
    (rest : List (Option (ResourceRecord V4 V6))) :
    accepted q t (some rr :: rest) = match q.accepts rr.rdata with
      | some addr => ⟨addr, t + rr.ttl⟩ :: accepted q t rest
      | none => accepted q t rest := by
  cases h : q.accepts rr.rdata <;> simp [accepted, h]

theorem fillAnswers_failed {q : Question V4 V6 IP} {t : Int}
    {answers : List (Option (ResourceRecord V4 V6))} (h : ¬ answers.all Option.isSome)
    (n : Nat) (out : List (ResolvedAddress IP)) : (fillAnswers q t answers n out).2 = none := by
  induction answers generalizing n out with
  | nil => simp at h
  | cons r rest ih =>
    cases r with
    | none => rfl
    | some rr =>
      have hrest : ¬ rest.all Option.isSome := by simpa using h
      unfold fillAnswers
      split
      · exact ih hrest _ _
      · split
        · exact ih hrest _ _
        · exact ih hrest _ _

theorem take_succ_set {xs : List IP} {n : Nat} (h : n < xs.length) (x : IP) :
    (xs.set n x).take (n + 1) = xs.take n ++ [x] := by
  rw [List.set_eq_take_append_cons_drop, if_pos h]
  simp [List.take_append, List.take_take, h.le]

theorem fillAnswers_spec {q : Question V4 V6 IP} {t : Int}
    {answers : List (Option (ResourceRecord V4 V6))} (h : answers.all Option.isSome)
    {n : Nat} {out : List (ResolvedAddress IP)} (hn : n ≤ out.length) :
    fillAnswers q t answers n out =
      let new := (accepted q t answers).take (out.length - n)
      (out.take n ++ new ++ out.drop (n + new.length), some (n + new.length)) := by
  induction answers generalizing n out with
  | nil => simp [fillAnswers, accepted]
  | cons r rest ih =>
    obtain ⟨hr, hrest⟩ : r.isSome ∧ rest.all Option.isSome := by simpa using h
    obtain ⟨rr, rfl⟩ := Option.isSome_iff_exists.mp hr
    unfold fillAnswers
    rw [accepted_cons]
    split
    · rename_i hfull
      rw [ih hrest hn, hfull]
      simp
    · rename_i hroom
      split
      · rename_i addr haddr
        rw [ih hrest (by simp; omega)]
        obtain ⟨k, hk⟩ : ∃ k, out.length - n = k + 1 := ⟨out.length - n - 1, by omega⟩
        have hk' : out.length - (n + 1) = k := by omega
        have htake : (out.set n ⟨addr, t + rr.ttl⟩).take (n + 1) =
            out.take n ++ [⟨addr, t + rr.ttl⟩] := take_succ_set (by omega) _
        have hdrop (m : Nat) : (out.set n ⟨addr, t + rr.ttl⟩).drop (n + (m + 1)) =
            out.drop (n + (m + 1)) := List.drop_set_of_lt (by omega)
        simp only [List.length_set, hk, hk', List.take_succ_cons, List.length_cons, htake, hdrop,
          List.append_assoc, List.cons_append, List.nil_append, Nat.add_right_comm n 1,
          Nat.add_assoc n _ 1]
      · exact ih hrest hn

namespace Exchange

variable (search : Search Text) (order : AddrSort) (q : Question V4 V6 IP) (x : Exchange V4 V6)
  (cache : MemoryCache V4 V6) (asciiName : Text)

def hit (capacity : Nat) : Bool :=
  ((cache.prune x.prunedAt).pull search q.family x.pulledAt asciiName capacity).length ≠ 0

def resolved (capacity : Nat) : Option (List (ResolvedAddress IP)) :=
  if x.hit search q cache asciiName capacity then none
  else x.answer.bind (Answer.extracted q x.sendTime capacity)

def before (capacity : Nat) : MemoryCache V4 V6 :=
  if x.hit search q cache asciiName capacity then cache.prune x.prunedAt
  else x.meanwhile (cache.prune x.prunedAt)

def Confined (out : List (ResolvedAddress IP)) : Prop :=
  ∀ alloc,
    let before := x.before search q cache asciiName out.length
    let after := (resolveNameImpl search order q alloc x cache asciiName out).cache
    after = before ∨ ∃ addrs, x.resolved search q cache asciiName out.length = some addrs ∧
      before.Caches q.family after asciiName (addrs.filter (x.pushedAt < ·.expiresAt))

def Spent (out : List (ResolvedAddress IP)) : Prop :=
  ∀ addrs, x.resolved search q cache asciiName out.length = some addrs →
    ∀ addr ∈ out.drop addrs.length, addr.expiresAt ≤ x.pushedAt

open MemoryCache

variable {search order q x cache asciiName} {now : Int} {alloc : Nat → Bool}
  {out out' addrs : List (ResolvedAddress IP)}

theorem processServerAnswer_spec (q : Question V4 V6 IP) (t : Int) (answer : Answer V4 V6)
    (out : List (ResolvedAddress IP)) :
    match answer.extracted q t out.length with
    | none => (processServerAnswer q t answer out).2 = none
    | some addrs => processServerAnswer q t answer out =
        (addrs ++ out.drop addrs.length, some addrs.length) := by
  unfold Answer.extracted processServerAnswer
  by_cases hv : answer.validated
  · by_cases hs : answer.answers.all Option.isSome
    · by_cases ht : answer.trailing
      · simp [hv, hs, ht, fillAnswers_spec hs (Nat.zero_le out.length)]
      · simp [hv, ht]
    · have hf := fillAnswers_failed hs 0 out (q := q) (t := t)
      simp [hv, hs, hf]
  · simp [hv]

theorem resolveNameImpl_cache :
    (resolveNameImpl search order q alloc x cache asciiName out).cache =
      let before := x.before search q cache asciiName out.length
      match x.resolved search q cache asciiName out.length with
      | none => before
      | some addrs => (before.push search order q.family alloc x.pushedAt asciiName
          (addrs ++ out.drop addrs.length)).getD before := by
  unfold resolveNameImpl resolved before hit
  by_cases hh : ((cache.prune x.prunedAt).pull search q.family x.pulledAt asciiName
      out.length).length ≠ 0
  · simp [hh]
  · simp only [hh, if_false, decide_false, Bool.false_eq_true]
    cases x.answer with
    | none => rfl
    | some answer =>
      have hspec := processServerAnswer_spec q x.sendTime answer out
      simp only [Option.bind_some]
      cases he : answer.extracted q x.sendTime out.length with
      | none =>
        rw [he] at hspec
        rcases hp : processServerAnswer q x.sendTime answer out with ⟨out', n⟩
        obtain rfl : n = none := by simpa [hp] using hspec
        rfl
      | some addrs =>
        rw [he] at hspec
        simp only [hspec]

theorem filter_spent (h : ∀ addr ∈ out.drop addrs.length, addr.expiresAt ≤ now) :
    (addrs ++ out.drop addrs.length).filter (now < ·.expiresAt) =
      addrs.filter (now < ·.expiresAt) := by
  have hnil : (out.drop addrs.length).filter (now < ·.expiresAt) = [] := by
    simpa [List.filter_eq_nil_iff] using h
  rw [List.filter_append, hnil, List.append_nil]

theorem confined_of_spent (h : x.Spent search q cache asciiName out) :
    x.Confined search order q cache asciiName out := by
  intro alloc
  simp only [resolveNameImpl_cache]
  cases hr : x.resolved search q cache asciiName out.length with
  | none => exact .inl rfl
  | some addrs =>
    simp only
    cases hp : (x.before search q cache asciiName out.length).push search order q.family alloc
        x.pushedAt asciiName (addrs ++ out.drop addrs.length) with
    | none => exact .inl rfl
    | some c =>
      refine .inr ⟨addrs, rfl, ?_⟩
      rw [← filter_spent (h addrs hr)]
      exact push_caches hp

theorem spent_of_confined (h : x.Confined search order q cache asciiName out) :
    x.Spent search q cache asciiName out := by
  intro addrs hr
  have hconf := h fun _ => true
  simp only [resolveNameImpl_cache, hr] at hconf
  obtain ⟨c, hp⟩ := push_unbounded search order q.family x.pushedAt
    (x.before search q cache asciiName out.length) asciiName (addrs ++ out.drop addrs.length)
  simp only [hp, Option.getD_some] at hconf
  rcases hconf with rfl | ⟨addrs', he, e, -, -, hperm⟩
  · exact absurd hp (push_ne_self _)
  · obtain rfl := Option.some.inj he
    obtain ⟨e', -, -, hperm'⟩ := push_caches hp
    have hlen := (hperm.symm.trans hperm').length_eq
    simp only [List.length_append, List.length_map, List.filter_append] at hlen
    have hnil : (out.drop addrs.length).filter (x.pushedAt < ·.expiresAt) = [] :=
      List.eq_nil_of_length_eq_zero (by omega)
    intro addr haddr
    simpa using List.filter_eq_nil_iff.mp hnil addr haddr

theorem cache_eq_of_spent (hlen : out.length = out'.length)
    (h : x.Spent search q cache asciiName out) (h' : x.Spent search q cache asciiName out') :
    (resolveNameImpl search order q alloc x cache asciiName out).cache =
      (resolveNameImpl search order q alloc x cache asciiName out').cache := by
  simp only [resolveNameImpl_cache, hlen]
  cases hr : x.resolved search q cache asciiName out'.length with
  | none => rfl
  | some addrs =>
    simp only
    rw [push_congr]
    · simp [hlen]
    · rw [filter_spent (h addrs (hlen ▸ hr)), filter_spent (h' addrs hr)]

theorem confined_iff_spent (search : Search Text) (order : AddrSort) (q : Question V4 V6 IP)
    (x : Exchange V4 V6) (cache : MemoryCache V4 V6) (asciiName : Text)
    (out : List (ResolvedAddress IP)) :
    (x.Confined search order q cache asciiName out ↔ x.Spent search q cache asciiName out) ∧
      ∀ out', out'.length = out.length → x.Spent search q cache asciiName out' →
        ((∀ alloc, (resolveNameImpl search order q alloc x cache asciiName out).cache =
            (resolveNameImpl search order q alloc x cache asciiName out').cache) ↔
          x.Spent search q cache asciiName out) := by
  refine ⟨⟨spent_of_confined, confined_of_spent⟩, fun out' hlen hs' => ?_⟩
  refine ⟨fun heq => ?_, fun hs => ?_⟩
  · have hconf' : x.Confined search order q cache asciiName out' := confined_of_spent hs'
    have hconf : x.Confined search order q cache asciiName out := by
      intro alloc
      have h := hconf' alloc
      rwa [← heq alloc, hlen] at h
    exact spent_of_confined hconf
  · exact fun alloc => cache_eq_of_spent hlen.symm hs hs'

def staleExchange : Exchange Nat Nat where
  prunedAt := 0
  pulledAt := 0
  meanwhile := id
  sendTime := 0
  answer := some ⟨true, [some ⟨.ipv4 7, 10⟩], true⟩
  pushedAt := 0

theorem cache_depends_on_out : ¬ ∀ out out' : List (ResolvedAddress Nat),
    out.length = out'.length → ∀ asciiName,
      (resolveNameImpl linear byExpireTime questionA (fun _ => true) staleExchange {} asciiName
        out).cache =
      (resolveNameImpl linear byExpireTime questionA (fun _ => true) staleExchange {} asciiName
        out').cache := by
  intro h
  have hne := h [⟨0, 0⟩, ⟨99, 50⟩] [⟨0, 0⟩, ⟨0, 0⟩] rfl [97]
  revert hne
  decide +kernel

end Exchange

end Corosig.Dns
