import Corosig.Io.Dns.CacheLedger
import Mathlib.Data.List.Induction

namespace Corosig.Dns
open AllocationLedger SortedKeys

variable {V4 V6 IP : Type}

namespace MemoryCache

variable {search : Search Text} {order : AddrSort} {fam : Family V4 V6 IP} {alloc : Nat → Bool}
  {now : Int} {asciiName : Text} {c c' : MemoryCache V4 V6} {addrs : List (ResolvedAddress IP)}

def Backed (c : MemoryCache V4 V6) : Prop :=
  ∀ e ∈ c.names, e.ips ≠ []

def PushBacks (search : Search Text) (alloc : Nat → Bool) (now : Int) (c : MemoryCache V4 V6)
    (asciiName : Text) (addrs : List (ResolvedAddress IP)) : Prop :=
  c.lacks search asciiName → alloc c.allocations → (addrs ≠ [] → alloc (c.allocations + 1)) →
    ∃ addr ∈ addrs, now < addr.expiresAt

def Backs (search : Search Text) (c : MemoryCache V4 V6) : CacheCall V4 V6 → Prop
  | .push alloc now asciiName (.v4 addrs) => c.PushBacks search alloc now asciiName addrs
  | .push alloc now asciiName (.v6 addrs) => c.PushBacks search alloc now asciiName addrs
  | _ => True

theorem allocated_of_push (hp : c.push search order fam alloc now asciiName addrs = some c') :
    (c.lacks search asciiName → alloc c.allocations) ∧
      (addrs ≠ [] → alloc (c.allocations + 1)) := by
  obtain ⟨parent, named, nodes, hname, -, -⟩ := push_cases hp
  refine ⟨fun hlacks => ?_, fun hne => ?_⟩
  · refine not_not.mp fun hfull => ?_
    rw [nameStore_none.mpr ⟨hlacks, hfull⟩] at hname
    cases hname
  · refine not_not.mp fun hfull => ?_
    rw [push_none_of_buffer hname ⟨hne, hfull⟩] at hp
    cases hp

theorem Backed.push (h : Backed c) (hb : c.PushBacks search alloc now asciiName addrs)
    (hp : c.push search order fam alloc now asciiName addrs = some c') : Backed c' := by
  obtain ⟨hnameRoom, hbuffer⟩ := allocated_of_push hp
  obtain ⟨parent, named, nodes, hname, hnodes, rfl⟩ := push_cases hp
  have hnamed : ∀ e ∈ named.names, e.ips ≠ [] ∨ e.id = parent ∧ nodes ≠ [] := by
    rcases nameStore_cases hname with ⟨-, -, -, -, rfl⟩ | ⟨hnew, rfl, rfl⟩
    · exact fun e he => .inl (h e he)
    · intro e he
      rcases mem_insertIdx_lowerBound.mp he with rfl | he
      · have hlacks : c.lacks search asciiName :=
          Option.filter_eq_none_iff.mpr fun e he hname => hnew e he (of_decide_eq_true hname)
        exact .inr ⟨rfl, (makeAddrs_ne_nil hnodes).mpr (hb hlacks (hnameRoom hlacks) hbuffer)⟩
      · exact .inl (h e he)
  intro e' he'
  obtain ⟨e, he, rfl⟩ := List.mem_map.mp he'
  obtain ⟨-, -, hold, hadded⟩ := e.pushFront_spec parent nodes
  rcases hnamed e he with hne | ⟨hid, hne⟩
  · obtain ⟨a, ha⟩ := List.exists_mem_of_ne_nil _ hne
    exact List.ne_nil_of_mem (hold a ha)
  · obtain ⟨a, ha⟩ := List.exists_mem_of_ne_nil _ hne
    exact List.ne_nil_of_mem (hadded hid a ha)

theorem Backed.expire {blocks : List (AddrStorage V4 V6)} {names : List (NameStorage V4 V6)}
    (hc : Consistent blocks names) (h : ∀ e ∈ names, e.ips ≠ []) (now : Int) :
    ∀ e ∈ (MemoryCache.expire now blocks names).2, e.ips ≠ [] := by
  induction blocks generalizing names with
  | nil => exact h
  | cons a blocks ih =>
    unfold MemoryCache.expire
    split
    · refine ih hc.unlink fun e' he' => ?_
      obtain ⟨e, he, hu⟩ := List.mem_filterMap.mp he'
      obtain ⟨hnone, -⟩ | ⟨-, hkept⟩ := hc.unlink_cases he
      · rw [hnone] at hu
        cases hu
      · rw [hc.unlink_some he hu]
        exact hkept (h e he)
    · exact h

theorem Backed.attempt (h : Backed c) (hw : WellLinked c) {k : CacheCall V4 V6}
    (hk : c.Backs search k) : Backed (c.attempt search order k) := by
  rcases attempt_cases search order c k with hsame | hdone
  · exact hsame.symm ▸ h
  · cases k with
    | push alloc now asciiName addrs =>
      cases addrs with
      | v4 addrs => exact h.push hk hdone
      | v6 addrs => exact h.push hk hdone
    | prune now => exact Backed.expire hw.consistent h now
    | pull => exact h

def BackedRun (search : Search Text) (order : AddrSort) (c : MemoryCache V4 V6)
    (history : List (CacheCall V4 V6)) : Prop :=
  ∀ taken k, taken ++ [k] <+: history → (c.afterCalls search order taken).Backs search k

theorem afterCalls_concat (c : MemoryCache V4 V6) (taken : List (CacheCall V4 V6))
    (k : CacheCall V4 V6) :
    c.afterCalls search order (taken ++ [k]) =
      (c.afterCalls search order taken).attempt search order k := by
  rw [afterCalls, List.foldl_append]
  rfl

theorem Backed.afterCalls (h : Backed c) (hw : WellLinked c) {history : List (CacheCall V4 V6)}
    (hb : BackedRun search order c history) : Backed (c.afterCalls search order history) := by
  induction history using List.reverseRecOn with
  | nil => exact h
  | append_singleton taken k ih =>
    rw [afterCalls_concat]
    refine (ih fun taken' k' hpre => hb taken' k' ?_).attempt (hw.afterCalls taken)
      (hb taken k List.prefix_rfl)
    exact hpre.trans (List.prefix_append _ _)

theorem expire_live {blocks : List (AddrStorage V4 V6)} {names : List (NameStorage V4 V6)}
    (hs : blocks.Pairwise fun a b => a.expiresAt ≤ b.expiresAt) (now : Int) :
    ∀ a ∈ (expire now blocks names).1, now < a.expiresAt := by
  induction blocks generalizing names with
  | nil =>
    intro a ha
    cases ha
  | cons b blocks ih =>
    obtain ⟨hfirst, hrest⟩ := List.pairwise_cons.mp hs
    unfold expire
    split
    · exact ih hrest
    · rename_i hlive
      intro a ha
      rcases List.mem_cons.mp ha with rfl | ha
      · exact not_le.mp hlive
      · exact (not_le.mp hlive).trans_le (hfirst a ha)

theorem live_of_backed (hw : WellLinked c) (h : Backed c) (now : Int) :
    ∀ e ∈ (c.prune now).names, ∃ b ∈ e.ips, now < b.expiresAt := by
  intro e he
  obtain ⟨b, hb⟩ := List.exists_mem_of_ne_nil _ (Backed.expire hw.consistent h now e he)
  exact ⟨b, hb, expire_live hw.sorted now b ((hw.prune now).consistent.mem he hb).1⟩

theorem expire_empty {blocks : List (AddrStorage V4 V6)} {names : List (NameStorage V4 V6)}
    {e : NameStorage V4 V6} (hc : Consistent blocks names) (he : e ∈ names) (hnil : e.ips = [])
    (now : Int) : e ∈ (expire now blocks names).2 := by
  induction blocks generalizing names with
  | nil => exact he
  | cons a blocks ih =>
    unfold expire
    split
    · have hother : e.id ≠ a.parent := by
        intro hid
        have hmem : a ∈ (a :: blocks).filter (·.parent = e.id) := by simp [hid]
        have hin := (hc.ips e he).mem_iff.mpr hmem
        rw [hnil] at hin
        cases hin
      exact ih hc.unlink (List.mem_filterMap.mpr ⟨e, he, if_neg hother⟩)
    · exact he

theorem nameStore_of_lacks (hlacks : c.lacks search asciiName) (hroom : alloc c.allocations) :
    c.nameStore search alloc asciiName = some (c.allocations,
      c.insertBefore (lowerBound search (·.name) c.names asciiName) asciiName) := by
  unfold lacks at hlacks
  simp only [nameStore, hlacks, if_pos hroom]

theorem push_of_not_backs (order : AddrSort) (fam : Family V4 V6 IP)
    (h : ¬ c.PushBacks search alloc now asciiName addrs) :
    ∃ d, c.push search order fam alloc now asciiName addrs = some d ∧
      ∃ e ∈ d.names, e.ips = [] := by
  simp only [PushBacks, Classical.not_imp] at h
  obtain ⟨hlacks, hname, hbuffer, hexpired⟩ := h
  have hfilter : addrs.filter (now < ·.expiresAt) = [] :=
    List.filter_eq_nil_iff.mpr fun addr haddr hlive =>
      hexpired ⟨addr, haddr, of_decide_eq_true hlive⟩
  have hsorted : order.sort (addrs.filter (now < ·.expiresAt)) = [] := by
    rw [hfilter]
    exact (order.perm []).eq_nil
  have hroom : ¬ (addrs ≠ [] ∧ ¬ alloc (c.allocations + 1)) := fun hfull =>
    hfull.2 (hbuffer hfull.1)
  refine ⟨_, by rw [push_eq (nameStore_of_lacks hlacks hname) hroom, hsorted]; rfl, ?_⟩
  refine ⟨_, List.mem_map_of_mem (mem_insertIdx_lowerBound.mpr (.inl rfl)), ?_⟩
  rw [NameStorage.pushFront, if_pos rfl]
  rfl

theorem attempt_of_not_backs (order : AddrSort) {k : CacheCall V4 V6} (h : ¬ c.Backs search k) :
    ∃ e ∈ (c.attempt search order k).names, e.ips = [] := by
  cases k with
  | push alloc now asciiName addrs =>
    cases addrs with
    | v4 addrs =>
      obtain ⟨d, hd, hempty⟩ := push_of_not_backs order ipv4 h
      have hdone : c.apply search order (.push alloc now asciiName (.v4 addrs)) = some d := hd
      exact (attempt_of_apply hdone).symm ▸ hempty
    | v6 addrs =>
      obtain ⟨d, hd, hempty⟩ := push_of_not_backs order ipv6 h
      have hdone : c.apply search order (.push alloc now asciiName (.v6 addrs)) = some d := hd
      exact (attempt_of_apply hdone).symm ▸ hempty
  | prune => exact absurd trivial h
  | pull => exact absurd trivial h

end MemoryCache

theorem mem_groupsFrom {expiresAt : Int} {ips : List IP} {addrs : List (ResolvedAddress IP)}
    {g : Int × List IP} (h : g ∈ groupsFrom expiresAt ips addrs) :
    g.1 = expiresAt ∨ ∃ addr ∈ addrs, addr.expiresAt = g.1 := by
  induction addrs generalizing expiresAt ips with
  | nil =>
    cases List.mem_singleton.mp h
    exact .inl rfl
  | cons addr addrs ih =>
    unfold groupsFrom at h
    split at h
    · rcases List.mem_cons.mp h with rfl | h
      · exact .inl rfl
      · rcases ih h with hg | ⟨a, ha, hg⟩
        · exact .inr ⟨addr, List.mem_cons_self .., hg.symm⟩
        · exact .inr ⟨a, List.mem_cons_of_mem _ ha, hg⟩
    · rcases ih h with hg | ⟨a, ha, hg⟩
      · exact .inl hg
      · exact .inr ⟨a, List.mem_cons_of_mem _ ha, hg⟩

theorem mem_groups {addrs : List (ResolvedAddress IP)} {g : Int × List IP} (h : g ∈ groups addrs) :
    ∃ addr ∈ addrs, addr.expiresAt = g.1 := by
  cases addrs with
  | nil => cases h
  | cons addr addrs =>
    rcases mem_groupsFrom h with hg | ⟨a, ha, hg⟩
    · exact ⟨addr, List.mem_cons_self .., hg.symm⟩
    · exact ⟨a, List.mem_cons_of_mem _ ha, hg⟩

def CacheCall.expiries : CacheCall V4 V6 → List Int
  | push _ _ _ (.v4 addrs) => addrs.map (·.expiresAt)
  | push _ _ _ (.v6 addrs) => addrs.map (·.expiresAt)
  | _ => []

namespace MemoryCache

variable {search : Search Text} {order : AddrSort} {fam : Family V4 V6 IP} {alloc : Nat → Bool}
  {now : Int} {asciiName : Text} {c c' : MemoryCache V4 V6} {addrs : List (ResolvedAddress IP)}

theorem push_expiries (hp : c.push search order fam alloc now asciiName addrs = some c') :
    ∀ a ∈ c'.addrsByExpireTime,
      a ∈ c.addrsByExpireTime ∨ a.expiresAt ∈ addrs.map (·.expiresAt) := by
  obtain ⟨parent, named, nodes, hname, hnodes, rfl⟩ := push_cases hp
  obtain ⟨-, haddrs, -⟩ := nameStore_held hname
  intro a ha
  rcases List.mem_append.mp ((foldl_insertByExpireTime_perm _ _).mem_iff.mp ha) with ha | ha
  · have hblock : a.block ∈ nodes.map AddrStorage.block := List.mem_map_of_mem ha
    rw [makeAddrs_blocks hnodes] at hblock
    obtain ⟨g, hg, hga⟩ := List.mem_map.mp hblock
    obtain ⟨addr, haddr, hexpiry⟩ := mem_groups hg
    have hmem := (List.mem_filter.mp ((order.perm _).mem_iff.mp haddr)).1
    refine .inr (List.mem_map.mpr ⟨addr, hmem, ?_⟩)
    rw [hexpiry]
    exact congrArg Prod.fst hga
  · exact .inl (haddrs ▸ ha)

theorem attempt_expiries (k : CacheCall V4 V6) :
    ∀ a ∈ (c.attempt search order k).addrsByExpireTime,
      a ∈ c.addrsByExpireTime ∨ a.expiresAt ∈ k.expiries := by
  rcases attempt_cases search order c k with hsame | hdone
  · exact hsame.symm ▸ fun _ => .inl
  · cases k with
    | push alloc now asciiName addrs =>
      cases addrs with
      | v4 addrs => exact push_expiries hdone
      | v6 addrs => exact push_expiries hdone
    | prune now => exact fun a ha => .inl ((expire_suffix _ _ _).mem ha)
    | pull => exact fun _ => .inl

theorem afterCalls_expiries (history : List (CacheCall V4 V6)) :
    ∀ a ∈ (c.afterCalls search order history).addrsByExpireTime,
      a ∈ c.addrsByExpireTime ∨ ∃ k ∈ history, a.expiresAt ∈ k.expiries := by
  induction history generalizing c with
  | nil => exact fun _ => .inl
  | cons k history ih =>
    intro a ha
    rcases ih a ha with ha | ⟨d, hd, ha⟩
    · rcases attempt_expiries k a ha with ha | ha
      · exact .inl ha
      · exact .inr ⟨k, List.mem_cons_self .., ha⟩
    · exact .inr ⟨d, List.mem_cons_of_mem _ hd, ha⟩

structure Reclaims (search : Search Text) (order : AddrSort) (history : List (CacheCall V4 V6)) :
    Prop where
  empty : ∀ now, (∀ k ∈ history, ∀ t ∈ k.expiries, t ≤ now) →
    (afterCalls search order {} (history ++ [.prune now])).names = [] ∧
      (afterCalls search order {} (history ++ [.prune now])).addrsByExpireTime = [] ∧
      balance [] (entriesOf search order {} (history ++ [.prune now])) = some []
  live : ∀ now, ∀ e ∈ (afterCalls search order {} (history ++ [.prune now])).names,
    ∃ b ∈ e.ips, now < b.expiresAt

theorem reclaims_of_backed {history : List (CacheCall V4 V6)}
    (hb : Backed (afterCalls search order {} history)) : Reclaims search order history := by
  have hw : WellLinked (afterCalls search order {} history) := wellLinked_empty.afterCalls history
  refine ⟨fun now hexpired => ?_, fun now => ?_⟩
  · have hbalances : Balances (held ({} : MemoryCache V4 V6)) _ _ :=
      entriesOf_balances search order wellLinked_empty (history ++ [.prune now])
    rw [afterCalls_concat] at hbalances ⊢
    have hblocks : ((afterCalls search order {} history).prune now).addrsByExpireTime = [] := by
      refine List.eq_nil_iff_forall_not_mem.mpr fun a ha => ?_
      have hlive := expire_live hw.sorted now a ha
      rcases afterCalls_expiries history a ((expire_suffix _ _ _).mem ha) with ha | ⟨k, hk, ha⟩
      · cases ha
      · exact absurd hlive (not_lt.mpr (hexpired k hk _ ha))
    have hnames : ((afterCalls search order {} history).prune now).names = [] := by
      refine List.eq_nil_iff_forall_not_mem.mpr fun e he => ?_
      obtain ⟨b, hbe, -⟩ := live_of_backed hw hb now e he
      have hmem := ((hw.prune now).consistent.mem he hbe).1
      rw [hblocks] at hmem
      cases hmem
    have hheld : ((afterCalls search order {} history).prune now).held = [] := by
      rw [held, hnames, hblocks]
      rfl
    exact ⟨hnames, hblocks, (hbalances.perm (.of_eq hheld)).eq_nil⟩
  · rw [afterCalls_concat]
    exact live_of_backed hw hb now

theorem reclaims_iff (search : Search Text) (order : AddrSort) (history : List (CacheCall V4 V6)) :
    (∀ taken, taken <+: history → Reclaims search order taken) ↔
      BackedRun search order {} history := by
  constructor
  · intro h taken k hpre
    refine not_not.mp fun hk => ?_
    obtain ⟨e, he, hnil⟩ := attempt_of_not_backs order hk
    have hw : WellLinked (afterCalls search order {} (taken ++ [k])) :=
      wellLinked_empty.afterCalls _
    rw [← afterCalls_concat] at he
    have hlive := (h _ hpre).live 0 e
    rw [afterCalls_concat] at hlive
    obtain ⟨b, hb, -⟩ := hlive (expire_empty hw.consistent he hnil 0)
    rw [hnil] at hb
    cases hb
  · intro h taken hpre
    refine reclaims_of_backed (Backed.afterCalls (fun _ he => (by cases he)) wellLinked_empty ?_)
    exact fun taken' k hk => h taken' k (hk.trans hpre)

theorem not_reclaims : ¬ ∀ history : List (CacheCall Nat Nat),
    Reclaims linear byExpireTime history := by
  intro h
  obtain ⟨b, hb, -⟩ := (h [.push (fun _ => true) 0 [97] (.v4 [])]).live 1 ⟨0, [97], []⟩
    (by decide +kernel)
  cases hb

end MemoryCache

end Corosig.Dns
