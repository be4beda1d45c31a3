import Corosig.Io.Dns.CacheLinks

namespace Corosig.Dns
open SortedKeys

variable {V4 V6 IP : Type}

abbrev Block (V4 V6 : Type) := Int × List V4 × List V6

def AddrStorage.block (a : AddrStorage V4 V6) : Block V4 V6 := (a.expiresAt, a.ips)

namespace MemoryCache

variable {search : Search Text} {order : AddrSort} {fam : Family V4 V6 IP} {alloc : Nat → Bool}
  {parent : Nat} {now : Int} {asciiName : Text} {nodes : List (AddrStorage V4 V6)}
  {e : NameStorage V4 V6} {c c' : MemoryCache V4 V6}

def newBlocks (order : AddrSort) (fam : Family V4 V6 IP) (now : Int)
    (addrs : List (ResolvedAddress IP)) : List (Block V4 V6) :=
  ((groups (order.sort (addrs.filter (now < ·.expiresAt)))).map fun g => (g.1, fam.store g.2)).reverse

def contents (c : MemoryCache V4 V6) (asciiName : Text) : List (Block V4 V6) :=
  (blocksOf c.names asciiName).map AddrStorage.block

theorem makeAddrs_blocks {id : Nat} {gs : List (Int × List IP)}
    (h : makeAddrs fam alloc parent id gs = some nodes) :
    nodes.map AddrStorage.block = gs.map fun g => (g.1, fam.store g.2) := by
  induction gs generalizing id nodes with
  | nil =>
    cases h
    rfl
  | cons g gs ih =>
    unfold makeAddrs at h
    split at h
    · obtain ⟨rest, hrest, rfl⟩ := Option.map_eq_some_iff.mp h
      rw [List.map_cons, List.map_cons, ih hrest]
      rfl
    · cases h

theorem Ordered.blocksOf_link (h : Ordered c) (nodes : List (AddrStorage V4 V6))
    (hids : (c.names.map (·.id)).Nodup) (he : e ∈ c.names) (s : Text) :
    blocksOf (c.link e.id nodes).names s =
      if s = e.name then nodes.reverse ++ blocksOf c.names s else blocksOf c.names s := by
  have hlinked : Ordered (c.link e.id nodes) := (ordered_congr (names_link nodes)).mpr h
  have hpushed : ∀ d ∈ c.names, blocksOf (c.link e.id nodes).names d.name =
      if d.id = e.id then nodes.reverse ++ d.ips else d.ips := by
    intro d hd
    obtain ⟨-, hname, -⟩ := d.pushFront_spec e.id nodes
    have hd' : d.pushFront e.id nodes ∈ (c.link e.id nodes).names := List.mem_map_of_mem hd
    rw [← hname, blocksOf_eq hlinked.increasing hd', NameStorage.pushFront]
    split <;> rfl
  obtain ⟨d, hd, rfl⟩ | hnone := em (∃ d ∈ c.names, d.name = s)
  · rw [hpushed d hd, blocksOf_eq h.increasing hd]
    have hiff : d.id = e.id ↔ d.name = e.name := by
      constructor
      · intro hid
        rw [List.inj_on_of_nodup_map hids hd he hid]
      · intro hname
        rw [h.increasing.inj hd he hname]
    simp only [hiff]
  · have habsent : ∀ d ∈ c.names, d.name ≠ s := fun d hd hname => hnone ⟨d, hd, hname⟩
    have hnil : blocksOf (c.link e.id nodes).names s = [] := by
      refine blocksOf_eq_nil fun d' hd' => ?_
      obtain ⟨d, hd, rfl⟩ := List.mem_map.mp hd'
      rw [(d.pushFront_spec e.id nodes).2.1]
      exact habsent d hd
    rw [hnil, if_neg (habsent e he).symm, blocksOf_eq_nil habsent]

theorem contents_push (ho : Ordered c) (hw : WellLinked c) (hlow : lowercase asciiName = asciiName)
    {addrs : List (ResolvedAddress IP)}
    (hp : c.push search order fam alloc now asciiName addrs = some c') (s : Text) :
    c'.contents s = if s = asciiName then newBlocks order fam now addrs ++ c.contents s
      else c.contents s := by
  obtain ⟨parent, named, nodes, hname, hnodes, rfl⟩ := push_cases hp
  obtain ⟨-, -, -, e, he, rfl, hlower⟩ := nameStore_spec ho hname
  obtain ⟨hconsistent, -, -, -, -, hsame⟩ := hw.nameStore hname
  have hordered : Ordered named := (ho.nameStore_iff hname).mpr (.inl hlow)
  have hblocks : nodes.reverse.map AddrStorage.block = newBlocks order fam now addrs := by
    rw [List.map_reverse, makeAddrs_blocks hnodes]
    rfl
  rw [contents, hordered.blocksOf_link nodes hconsistent.nameIds he, hlower, hlow, hsame]
  split
  · rw [List.map_append, hblocks]
    rfl
  · rfl

theorem contents_prune (hw : WellLinked c) (now : Int) (s : Text) :
    (c.prune now).contents s = (c.contents s).filter (now < ·.1) := by
  rw [contents, prune, hw.consistent.blocksOf_expire hw.sorted, contents, List.filter_map]
  rfl

end MemoryCache

inductive IpFamily where
  | v4
  | v6
  deriving DecidableEq, Repr

abbrev IpFamily.Addr (V4 V6 : Type) : IpFamily → Type
  | v4 => V4
  | v6 => V6

def IpFamily.family : (f : IpFamily) → Family V4 V6 (f.Addr V4 V6)
  | v4 => ipv4
  | v6 => ipv6

inductive Addresses (V4 V6 : Type) where
  | v4 (addrs : List (ResolvedAddress V4))
  | v6 (addrs : List (ResolvedAddress V6))
  deriving DecidableEq, Repr

def Addresses.own : (f : IpFamily) → Addresses V4 V6 → List (ResolvedAddress (f.Addr V4 V6))
  | .v4, .v4 addrs => addrs
  | .v4, .v6 _ => []
  | .v6, .v4 _ => []
  | .v6, .v6 addrs => addrs

inductive CacheCall (V4 V6 : Type) where
  | push (alloc : Nat → Bool) (now : Int) (asciiName : Text) (addrs : Addresses V4 V6)
  | prune (now : Int)
  | pull (now : Int) (asciiName : Text) (out : Nat)

namespace CacheCall

def calledAt : CacheCall V4 V6 → Int
  | push _ now _ _ => now
  | prune now => now
  | pull now _ _ => now

def Plain : CacheCall V4 V6 → Prop
  | push _ _ asciiName _ => lowercase asciiName = asciiName ∧ asciiName.length ≤ fqdnMaxOctetLen
  | _ => True

def pushedFor (f : IpFamily) (asciiName : Text) :
    CacheCall V4 V6 → List (ResolvedAddress (f.Addr V4 V6))
  | push _ _ name addrs => if name = asciiName then addrs.own f else []
  | _ => []

end CacheCall

namespace MemoryCache

def pushAddresses (search : Search Text) (order : AddrSort) (alloc : Nat → Bool) (now : Int)
    (c : MemoryCache V4 V6) (asciiName : Text) : Addresses V4 V6 → Option (MemoryCache V4 V6)
  | .v4 addrs => c.push search order ipv4 alloc now asciiName addrs
  | .v6 addrs => c.push search order ipv6 alloc now asciiName addrs

def apply (search : Search Text) (order : AddrSort) (c : MemoryCache V4 V6) :
    CacheCall V4 V6 → Option (MemoryCache V4 V6)
  | .push alloc now asciiName addrs => c.pushAddresses search order alloc now asciiName addrs
  | .prune now => some (c.prune now)
  | .pull .. => some c

def replay (search : Search Text) (order : AddrSort) :
    MemoryCache V4 V6 → List (CacheCall V4 V6) → Option (MemoryCache V4 V6)
  | c, [] => some c
  | c, k :: history => (c.apply search order k).bind (replay search order · history)

def pulledInto (expiresAt : Int) :
    List IP → Nat → List (ResolvedAddress IP) → List (ResolvedAddress IP)
  | [], _, out => out
  | ip :: ips, pulled, out => pulledInto expiresAt ips (pulled + 1) (out.set pulled ⟨ip, expiresAt⟩)

-- pulled addresses stand at the front of out; the rest is what the span out still covers.
def pullLoop (fam : Family V4 V6 IP) (now : Int) :
    List (AddrStorage V4 V6) → Nat → List (ResolvedAddress IP) → List (ResolvedAddress IP) × Nat
  | [], pulled, out => (out, pulled)
  | addr :: addrs, pulled, out =>
      if out.length = pulled then (out, pulled)
      else if addr.expiresAt ≤ now then pullLoop fam now addrs pulled out
      else
        let ips := (fam.ipSource addr.ips).take (out.length - pulled)
        pullLoop fam now addrs (pulled + ips.length) (pulledInto addr.expiresAt ips pulled out)

def pullImpl (search : Search Text) (fam : Family V4 V6 IP) (now : Int) (c : MemoryCache V4 V6)
    (asciiName : Text) (out : List (ResolvedAddress IP)) : List (ResolvedAddress IP) × Nat :=
  match c.lookup search asciiName with
  | some e => pullLoop fam now e.ips 0 out
  | none => (out, 0)

def readBlocks (fam : Family V4 V6 IP) (now : Int) (blocks : List (Block V4 V6)) :
    List (ResolvedAddress IP) :=
  (blocks.filter (now < ·.1)).flatMap fun b => (fam.ipSource b.2).map (⟨·, b.1⟩)

end MemoryCache

def Addresses.blocks (order : AddrSort) (now : Int) : Addresses V4 V6 → List (Block V4 V6)
  | v4 addrs => MemoryCache.newBlocks order ipv4 now addrs
  | v6 addrs => MemoryCache.newBlocks order ipv6 now addrs

def CacheCall.specified (order : AddrSort) (v : Text → List (Block V4 V6)) :
    CacheCall V4 V6 → Text → List (Block V4 V6)
  | push _ now asciiName addrs => fun s =>
      if s = asciiName then addrs.blocks order now ++ v s else v s
  | prune now => fun s => (v s).filter (now < ·.1)
  | pull .. => v

namespace MemoryCache

variable {search : Search Text} {order : AddrSort} {fam : Family V4 V6 IP} {c c' : MemoryCache V4 V6}

theorem WellLinked.apply (h : WellLinked c) {k : CacheCall V4 V6}
    (hk : c.apply search order k = some c') : WellLinked c' := by
  cases k with
  | push alloc now asciiName addrs =>
    cases addrs with
    | v4 addrs => exact h.push hk
    | v6 addrs => exact h.push hk
  | prune now =>
    cases hk
    exact h.prune now
  | pull =>
    cases hk
    exact h

theorem apply_spec (ho : Ordered c) (hw : WellLinked c) {k : CacheCall V4 V6} (hk : k.Plain)
    (h : c.apply search order k = some c') :
    Ordered c' ∧ c'.contents = k.specified order c.contents := by
  cases k with
  | push alloc now asciiName addrs =>
    cases addrs with
    | v4 addrs => exact ⟨(ho.push_iff h).mpr (.inl hk.1), funext (contents_push ho hw hk.1 h)⟩
    | v6 addrs => exact ⟨(ho.push_iff h).mpr (.inl hk.1), funext (contents_push ho hw hk.1 h)⟩
  | prune now =>
    cases h
    exact ⟨ho.prune now, funext (contents_prune hw now)⟩
  | pull =>
    cases h
    exact ⟨ho, rfl⟩

theorem replay_spec {history : List (CacheCall V4 V6)} (ho : Ordered c) (hw : WellLinked c)
    (hplain : ∀ k ∈ history, k.Plain) (h : replay search order c history = some c') :
    Ordered c' ∧ c'.contents = history.foldl (CacheCall.specified order) c.contents := by
  induction history generalizing c with
  | nil =>
    cases h
    exact ⟨ho, rfl⟩
  | cons k history ih =>
    obtain ⟨hk, hrest⟩ := List.forall_mem_cons.mp hplain
    obtain ⟨d, hd, h⟩ := Option.bind_eq_some_iff.mp h
    obtain ⟨ho, hcontents⟩ := apply_spec ho hw hk hd
    obtain ⟨ho', hfinal⟩ := ih ho (hw.apply hd) hrest h
    exact ⟨ho', by rw [hfinal, hcontents, List.foldl_cons]⟩

theorem pullFrom_eq (fam : Family V4 V6 IP) (now : Int) (out : Nat)
    (addrs : List (AddrStorage V4 V6)) :
    pullFrom fam now out addrs = (readBlocks fam now (addrs.map AddrStorage.block)).take out := by
  induction addrs generalizing out with
  | nil => simp [pullFrom, readBlocks]
  | cons a addrs ih =>
    rw [pullFrom]
    split
    · rename_i hzero
      rw [hzero, List.take_zero]
    · split
      · rename_i hle
        rw [ih, List.map_cons, readBlocks, readBlocks, List.filter_cons_of_neg]
        exact fun hlt => absurd (of_decide_eq_true hlt) (not_lt.mpr hle)
      · rename_i hlt
        have hkept : readBlocks fam now ((a :: addrs).map AddrStorage.block) =
            (fam.ipSource a.ips).map (⟨·, a.expiresAt⟩) ++
              readBlocks fam now (addrs.map AddrStorage.block) := by
          rw [List.map_cons, readBlocks, List.filter_cons_of_pos, List.flatMap_cons]
          · rfl
          · exact decide_eq_true (not_le.mp hlt)
        rw [hkept, List.take_append, List.length_map, ← List.map_take]
        simp only [ih, List.length_take]
        congr 2
        omega

theorem pull_eq (ho : Ordered c) (now : Int) (asciiName : Text) (out : Nat) :
    c.pull search fam now asciiName out =
      if fqdnMaxOctetLen < asciiName.length then []
      else (readBlocks fam now (c.contents (lowercase asciiName))).take out := by
  rw [pull]
  split
  · rename_i e he
    obtain ⟨hlen, hmem, hname⟩ := (lookup_iff ho).mp he
    rw [if_neg (Nat.not_lt.mpr hlen), pullFrom_eq, contents, ← hname,
      blocksOf_eq ho.increasing hmem]
  · rename_i hnone
    split
    · rfl
    · rename_i hlen
      have habsent : ∀ e ∈ c.names, e.name ≠ lowercase asciiName := by
        intro e he hname
        have hfound : c.lookup search asciiName = some e :=
          (lookup_iff ho).mpr ⟨Nat.not_lt.mp hlen, he, hname⟩
        rw [hfound] at hnone
        cases hnone
      rw [contents, blocksOf_eq_nil habsent]
      simp [readBlocks]

theorem pulledInto_eq (expiresAt : Int) (ips : List IP) {pulled : Nat}
    {out : List (ResolvedAddress IP)} (h : pulled + ips.length ≤ out.length) :
    pulledInto expiresAt ips pulled out =
      out.take pulled ++ ips.map (⟨·, expiresAt⟩) ++ out.drop (pulled + ips.length) := by
  induction ips generalizing pulled out with
  | nil => simp [pulledInto]
  | cons ip ips ih =>
    rw [List.length_cons] at h
    rw [pulledInto, ih (by rw [List.length_set]; omega)]
    have hdrop : (out.set pulled ⟨ip, expiresAt⟩).drop (pulled + 1 + ips.length) =
        out.drop (pulled + 1 + ips.length) := List.drop_set_of_lt (by omega)
    rw [take_succ_set (by omega), hdrop, List.map_cons, List.length_cons]
    simp [Nat.add_assoc, Nat.add_comm 1]

theorem pullLoop_eq (fam : Family V4 V6 IP) (now : Int) (addrs : List (AddrStorage V4 V6))
    {pulled : Nat} {out : List (ResolvedAddress IP)} (h : pulled ≤ out.length) :
    pullLoop fam now addrs pulled out =
      let got := pullFrom fam now (out.length - pulled) addrs
      (out.take pulled ++ got ++ out.drop (pulled + got.length), pulled + got.length) := by
  induction addrs generalizing pulled out with
  | nil => simp [pullLoop, pullFrom]
  | cons a addrs ih =>
    rw [pullLoop, pullFrom]
    split
    · rename_i hfull
      simp [hfull]
    · rename_i hroom
      rw [if_neg (show out.length - pulled ≠ 0 by omega)]
      split
      · exact ih h
      · simp only
        generalize hips : (fam.ipSource a.ips).take (out.length - pulled) = ips
        have hlen : pulled + ips.length ≤ out.length := by
          rw [← hips, List.length_take]
          omega
        have hfront : (out.take pulled ++ ips.map (ResolvedAddress.mk · a.expiresAt)).length =
            pulled + ips.length := by
          rw [List.length_append, List.length_take, List.length_map, Nat.min_eq_left h]
        have hwhole : (out.take pulled ++ ips.map (ResolvedAddress.mk · a.expiresAt) ++
            out.drop (pulled + ips.length)).length = out.length := by
          rw [List.length_append, hfront, List.length_drop]
          omega
        have hdrop (n : Nat) : (out.take pulled ++ ips.map (ResolvedAddress.mk · a.expiresAt) ++
            out.drop (pulled + ips.length)).drop (pulled + ips.length + n) =
            out.drop (pulled + ips.length + n) := by
          rw [← List.drop_drop, List.drop_left' hfront, List.drop_drop]
        rw [pulledInto_eq a.expiresAt ips hlen, ih (by omega)]
        simp only [hwhole, List.take_left' hfront, hdrop]
        simp only [Nat.sub_add_eq, List.length_append, List.length_map, List.append_assoc,
          ← Nat.add_assoc]

variable {t now : Int}

theorem readBlocks_append (fam : Family V4 V6 IP) (now : Int) (xs ys : List (Block V4 V6)) :
    readBlocks fam now (xs ++ ys) = readBlocks fam now xs ++ readBlocks fam now ys := by
  rw [readBlocks, List.filter_append, List.flatMap_append]
  rfl

theorem readBlocks_perm {xs ys : List (Block V4 V6)} (h : xs.Perm ys) :
    (readBlocks fam now xs).Perm (readBlocks fam now ys) :=
  (h.filter _).flatMap_right _

theorem filter_unexpired (h : t ≤ now) (blocks : List (Block V4 V6)) :
    (blocks.filter (t < ·.1)).filter (now < ·.1) = blocks.filter (now < ·.1) := by
  rw [List.filter_filter]
  refine List.filter_congr fun b _ => ?_
  have himp : now < b.1 → t < b.1 := h.trans_lt
  simpa using himp

theorem readBlocks_filter (h : t ≤ now) (blocks : List (Block V4 V6)) :
    readBlocks fam now (blocks.filter (t < ·.1)) = readBlocks fam now blocks := by
  rw [readBlocks, filter_unexpired h]
  rfl

theorem readBlocks_groups (gs : List (Int × List IP)) :
    readBlocks fam now (gs.map fun g => (g.1, fam.store g.2)) =
      (gs.flatMap ungroup).filter (now < ·.expiresAt) := by
  induction gs with
  | nil => rfl
  | cons g gs ih =>
    rw [List.map_cons, List.flatMap_cons, List.filter_append, ← ih, readBlocks, List.filter_cons]
    split
    · rename_i hlive
      have hkept : (ungroup g).filter (now < ·.expiresAt) = ungroup g := by
        refine List.filter_eq_self.mpr fun addr haddr => ?_
        obtain ⟨ip, -, rfl⟩ := List.mem_map.mp haddr
        exact hlive
      rw [hkept, List.flatMap_cons, fam.ipSource_store]
      rfl
    · rename_i hexpired
      have hnone : (ungroup g).filter (now < ·.expiresAt) = [] := by
        refine List.filter_eq_nil_iff.mpr fun addr haddr => ?_
        obtain ⟨ip, -, rfl⟩ := List.mem_map.mp haddr
        exact hexpired
      rw [hnone]
      rfl

theorem readBlocks_own (order : AddrSort) (h : t ≤ now) (addrs : List (ResolvedAddress IP)) :
    (readBlocks fam now (newBlocks order fam t addrs)).Perm
      (addrs.filter (now < ·.expiresAt)) := by
  refine (readBlocks_perm (List.reverse_perm _)).trans ?_
  rw [readBlocks_groups, groups_flatten (order.sorted _)]
  refine ((order.perm _).filter _).trans (List.Perm.of_eq ?_)
  rw [List.filter_filter]
  refine List.filter_congr fun addr _ => ?_
  have himp : now < addr.expiresAt → t < addr.expiresAt := h.trans_lt
  simpa using himp

theorem readBlocks_other {IP' : Type} {fam' : Family V4 V6 IP'}
    (h : ∀ ips, fam'.ipSource (fam.store ips) = []) (order : AddrSort)
    (addrs : List (ResolvedAddress IP)) :
    readBlocks fam' now (newBlocks order fam t addrs) = [] := by
  refine List.flatMap_eq_nil_iff.mpr fun b hb => ?_
  obtain ⟨g, -, rfl⟩ := List.mem_map.mp (List.mem_reverse.mp (List.mem_filter.mp hb).1)
  rw [h]
  rfl

theorem readBlocks_addresses (order : AddrSort) (h : t ≤ now) (f : IpFamily)
    (addrs : Addresses V4 V6) :
    (readBlocks f.family now (addrs.blocks order t)).Perm
      ((addrs.own f).filter (now < ·.expiresAt)) := by
  cases f with
  | v4 =>
    cases addrs with
    | v4 addrs => exact readBlocks_own order h addrs
    | v6 addrs => exact .of_eq (readBlocks_other (fun _ => rfl) order addrs)
  | v6 =>
    cases addrs with
    | v4 addrs => exact .of_eq (readBlocks_other (fun _ => rfl) order addrs)
    | v6 addrs => exact readBlocks_own order h addrs

theorem specified_reads (order : AddrSort) (f : IpFamily) (s : Text)
    {history : List (CacheCall V4 V6)} (h : ∀ k ∈ history, k.calledAt ≤ now)
    (v : Text → List (Block V4 V6)) :
    (readBlocks f.family now (history.foldl (CacheCall.specified order) v s)).Perm
      ((history.flatMap (·.pushedFor f s)).filter (now < ·.expiresAt) ++
        readBlocks f.family now (v s)) := by
  induction history generalizing v with
  | nil => exact .refl _
  | cons k history ih =>
    obtain ⟨hk, hrest⟩ := List.forall_mem_cons.mp h
    rw [List.foldl_cons, List.flatMap_cons, List.filter_append]
    refine (ih hrest _).trans ?_
    have hstep : (readBlocks f.family now (k.specified order v s)).Perm
        ((k.pushedFor f s).filter (now < ·.expiresAt) ++ readBlocks f.family now (v s)) := by
      cases k with
      | push alloc t name addrs =>
        simp only [CacheCall.specified, CacheCall.pushedFor, eq_comm (a := s)]
        split
        · rw [readBlocks_append]
          exact (readBlocks_addresses order hk f addrs).append_right _
        · exact .refl _
      | prune t => exact .of_eq (readBlocks_filter hk (v s))
      | pull => exact .refl _
    refine (hstep.append_left _).trans ?_
    rw [← List.append_assoc]
    exact List.perm_append_comm.append_right _

theorem specified_congr (order : AddrSort) (history : List (CacheCall V4 V6))
    {v v' : Text → List (Block V4 V6)}
    (hv : ∀ s, (v s).filter (now < ·.1) = (v' s).filter (now < ·.1)) (s : Text) :
    (history.foldl (CacheCall.specified order) v s).filter (now < ·.1) =
      (history.foldl (CacheCall.specified order) v' s).filter (now < ·.1) := by
  induction history generalizing v v' with
  | nil => exact hv s
  | cons k history ih =>
    refine ih fun s => ?_
    cases k with
    | push alloc t name addrs =>
      simp only [CacheCall.specified]
      split
      · rw [List.filter_append, List.filter_append, hv]
      · exact hv s
    | prune t =>
      simp only [CacheCall.specified]
      rw [List.filter_comm, hv, List.filter_comm]
    | pull => exact hv s

def stored (f : IpFamily) (now : Int) (asciiName : Text) (history : List (CacheCall V4 V6)) :
    List (ResolvedAddress (f.Addr V4 V6)) :=
  (history.flatMap (·.pushedFor f (lowercase asciiName))).filter (now < ·.expiresAt)

theorem pushedFor_long (f : IpFamily) {asciiName : Text} {history : List (CacheCall V4 V6)}
    (hplain : ∀ k ∈ history, k.Plain) (hlong : fqdnMaxOctetLen < asciiName.length) :
    stored f now asciiName history = [] := by
  have hnone : history.flatMap (·.pushedFor f (lowercase asciiName)) = [] := by
    refine List.flatMap_eq_nil_iff.mpr fun k hk => ?_
    cases k with
    | push alloc t name addrs =>
      refine if_neg fun hname => ?_
      have hlen := (hplain _ hk).2
      rw [hname, length_lowercase] at hlen
      omega
    | prune => rfl
    | pull => rfl
  rw [stored, hnone]
  rfl

theorem replay_reads {history : List (CacheCall V4 V6)} (hplain : ∀ k ∈ history, k.Plain)
    (hclock : ∀ k ∈ history, k.calledAt ≤ now)
    (hrun : replay search order {} history = some c) (f : IpFamily) (asciiName : Text) (out : Nat) :
    ∃ reads : List (ResolvedAddress (f.Addr V4 V6)), reads.Perm (stored f now asciiName history) ∧
      c.pull search f.family now asciiName out = reads.take out := by
  obtain ⟨ho, hcontents⟩ :=
    replay_spec ordered_empty wellLinked_empty hplain hrun
  rw [pull_eq ho]
  split
  · rename_i hlong
    exact ⟨[], by rw [pushedFor_long f hplain hlong], by rw [List.take_nil]⟩
  · refine ⟨_, ?_, rfl⟩
    rw [hcontents]
    have hreads := specified_reads order f (lowercase asciiName) hclock
      (MemoryCache.contents ({} : MemoryCache V4 V6))
    rwa [show readBlocks f.family now (contents ({} : MemoryCache V4 V6) (lowercase asciiName)) =
      [] from rfl, List.append_nil] at hreads

theorem pull_congr {d : MemoryCache V4 V6} (hc : Ordered c) (hd : Ordered d)
    (h : ∀ s, (c.contents s).filter (now < ·.1) = (d.contents s).filter (now < ·.1))
    (asciiName : Text) (out : Nat) :
    c.pull search fam now asciiName out = d.pull search fam now asciiName out := by
  rw [pull_eq hc, pull_eq hd, readBlocks, h]
  rfl

theorem pullImpl_eq (now : Int) (asciiName : Text) (out : List (ResolvedAddress IP)) :
    c.pullImpl search fam now asciiName out =
      let pulled := c.pull search fam now asciiName out.length
      (pulled ++ out.drop pulled.length, pulled.length) := by
  cases hl : c.lookup search asciiName with
  | some e =>
    simp only [pullImpl, pull, hl]
    rw [pullLoop_eq fam now _ (Nat.zero_le _)]
    simp
  | none => simp [pullImpl, pull, hl]

theorem pull_without_prune {before after : List (CacheCall V4 V6)} {d : MemoryCache V4 V6}
    (hplain : ∀ k ∈ before ++ .prune t :: after, k.Plain) (ht : t ≤ now)
    (hrun : replay search order {} (before ++ .prune t :: after) = some c)
    (hd : replay search order {} (before ++ after) = some d) (asciiName : Text) (out : Nat) :
    d.pull search fam now asciiName out = c.pull search fam now asciiName out := by
  obtain ⟨hoc, hc⟩ := replay_spec ordered_empty wellLinked_empty hplain hrun
  rw [List.forall_mem_append, List.forall_mem_cons] at hplain
  obtain ⟨hbefore, -, hafter⟩ := hplain
  obtain ⟨hod, hd⟩ := replay_spec ordered_empty wellLinked_empty
    (List.forall_mem_append.mpr ⟨hbefore, hafter⟩) hd
  refine pull_congr hod hoc (fun s => ?_) asciiName out
  rw [hc, hd, List.foldl_append, List.foldl_append, List.foldl_cons]
  exact specified_congr order after (fun s => (filter_unexpired ht _).symm) s

theorem pull_of_history (search : Search Text) (order : AddrSort)
    (history : List (CacheCall V4 V6)) (c : MemoryCache V4 V6) (now : Int)
    (hplain : ∀ k ∈ history, k.Plain) (hclock : ∀ k ∈ history, k.calledAt ≤ now)
    (hrun : replay search order {} history = some c) (f : IpFamily) (asciiName : Text)
    (out : List (ResolvedAddress (f.Addr V4 V6))) :
    ∃ pulled : List (ResolvedAddress (f.Addr V4 V6)),
      c.pullImpl search f.family now asciiName out =
        (pulled ++ out.drop pulled.length, pulled.length) ∧
      pulled.Subperm (stored f now asciiName history) ∧
      pulled.length = min out.length (stored f now asciiName history).length ∧
      ∀ before t after d, history = before ++ .prune t :: after →
        replay search order {} (before ++ after) = some d →
        d.pullImpl search f.family now asciiName out =
          c.pullImpl search f.family now asciiName out := by
  obtain ⟨reads, hperm, hpull⟩ := replay_reads hplain hclock hrun f asciiName out.length
  refine ⟨_, pullImpl_eq now asciiName out, ?_, ?_, ?_⟩
  · rw [hpull]
    exact (List.take_sublist _ _).subperm.trans hperm.subperm
  · rw [hpull, List.length_take, hperm.length_eq]
  · rintro before t after d rfl hd
    rw [pullImpl_eq, pullImpl_eq]
    rw [pull_without_prune hplain (List.forall_mem_cons.mp (List.forall_mem_append.mp hclock).2).1
      hrun hd]

def pushThenPrune : List (CacheCall Nat Nat) :=
  [.push (fun _ => true) 0 [97] (.v4 [⟨7, 10⟩, ⟨8, 6⟩, ⟨9, 12⟩]),
    .push (fun _ => true) 1 [98] (.v4 [⟨5, 20⟩]), .prune 5]

theorem pull_of_pushThenPrune : ∃ c pulled,
    replay linear byExpireTime {} pushThenPrune = some c ∧
      c.pullImpl linear (IpFamily.family .v4) 6 [65] [⟨0, 0⟩] =
        (pulled ++ [⟨0, 0⟩].drop pulled.length, pulled.length) ∧
      pulled.Subperm [⟨7, 10⟩, ⟨9, 12⟩] ∧ pulled.length = 1 := by
  have hrun : ∃ c, replay linear byExpireTime {} pushThenPrune = some c :=
    Option.isSome_iff_exists.mp (by decide +kernel)
  obtain ⟨c, hc⟩ := hrun
  have hplain : ∀ k ∈ pushThenPrune, k.Plain := by
    intro k hk
    simp only [pushThenPrune, List.mem_cons, List.not_mem_nil, or_false] at hk
    rcases hk with rfl | rfl | rfl
    · exact ⟨rfl, by decide⟩
    · exact ⟨rfl, by decide⟩
    · trivial
  have hclock : ∀ k ∈ pushThenPrune, k.calledAt ≤ 6 := by
    intro k hk
    simp only [pushThenPrune, List.mem_cons, List.not_mem_nil, or_false] at hk
    rcases hk with rfl | rfl | rfl <;> decide
  obtain ⟨pulled, hpull, hsub, hlen, -⟩ := pull_of_history linear byExpireTime pushThenPrune c 6
    hplain hclock hc .v4 [65] [⟨0, 0⟩]
  exact ⟨c, pulled, hc, hpull, hsub, hlen⟩

end MemoryCache

end Corosig.Dns
