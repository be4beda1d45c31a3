import Corosig.Io.Dns.MemoryCache
import Mathlib.Logic.Relation

namespace Corosig.Dns
open SortedKeys

variable {V4 V6 IP : Type} {search : Search Text} {order : AddrSort} {fam : Family V4 V6 IP}
  {alloc : Nat → Bool} {now : Int} {asciiName : Text} {parent : Nat}

theorem le_toLower : ∀ c : Byte, c ≤ toLower c := by
  decide +kernel

theorem le_lowercase (s : Text) : s ≤ lowercase s := by
  induction s with
  | nil => exact le_refl _
  | cons c s ih =>
    refine not_lt.mp fun hlt => ?_
    rcases List.cons_lt_cons_iff.mp hlt with h | ⟨-, h⟩
    · exact absurd h (not_lt.mpr (le_toLower c))
    · exact absurd h (not_lt.mpr ih)

theorem groupsFrom_ne_nil (expiresAt : Int) (ips : List IP) (addrs : List (ResolvedAddress IP)) :
    groupsFrom expiresAt ips addrs ≠ [] := by
  induction addrs generalizing ips with
  | nil => simp [groupsFrom]
  | cons addr addrs ih =>
    unfold groupsFrom
    split
    · simp
    · exact ih _

theorem groups_eq_nil {addrs : List (ResolvedAddress IP)} : groups addrs = [] ↔ addrs = [] := by
  cases addrs with
  | nil => simp [groups]
  | cons addr addrs => simp [groups, groupsFrom_ne_nil]

theorem makeAddrs_spec {id : Nat} {gs : List (Int × List IP)} {addrs : List (AddrStorage V4 V6)}
    (h : makeAddrs fam alloc parent id gs = some addrs) :
    addrs.length = gs.length ∧ addrs.map (·.id) = List.range' id addrs.length ∧
      ∀ a ∈ addrs, a.parent = parent := by
  induction gs generalizing id addrs with
  | nil =>
    cases h
    simp
  | cons g gs ih =>
    unfold makeAddrs at h
    split at h
    · obtain ⟨rest, hrest, rfl⟩ := Option.map_eq_some_iff.mp h
      obtain ⟨hlen, hids, hp⟩ := ih hrest
      refine ⟨by simp [hlen], by simp [hids, List.range'_succ], ?_⟩
      intro a ha
      rcases List.mem_cons.mp ha with rfl | ha
      · rfl
      · exact hp a ha
    · cases h

theorem makeAddrs_ne_nil {id : Nat} {resolved : List (ResolvedAddress IP)}
    {addrs : List (AddrStorage V4 V6)}
    (h : makeAddrs fam alloc parent id (groups (order.sort (resolved.filter (now < ·.expiresAt)))) =
      some addrs) :
    addrs ≠ [] ↔ ∃ addr ∈ resolved, now < addr.expiresAt := by
  rw [← List.length_pos_iff, (makeAddrs_spec h).1, List.length_pos_iff, ne_eq, groups_eq_nil,
    ← List.length_eq_zero_iff, (order.perm _).length_eq, List.length_eq_zero_iff,
    List.filter_eq_nil_iff]
  simp

theorem foldl_insertByExpireTime_perm (addrs stored : List (AddrStorage V4 V6)) :
    (addrs.foldl insertByExpireTime stored).Perm (addrs ++ stored) := by
  induction addrs generalizing stored with
  | nil => exact .refl _
  | cons a addrs ih =>
    exact (ih _).trans (((List.perm_orderedInsert _ a stored).append_left addrs).trans
      List.perm_middle)

theorem NameStorage.pushFront_spec (parent : Nat) (nodes : List (AddrStorage V4 V6))
    (e : NameStorage V4 V6) :
    (e.pushFront parent nodes).id = e.id ∧ (e.pushFront parent nodes).name = e.name ∧
      (∀ a ∈ e.ips, a ∈ (e.pushFront parent nodes).ips) ∧
      (e.id = parent → ∀ a ∈ nodes, a ∈ (e.pushFront parent nodes).ips) := by
  unfold pushFront
  split
  · refine ⟨rfl, rfl, fun a ha => ?_, fun _ a ha => ?_⟩ <;> simp [ha]
  · exact ⟨rfl, rfl, fun _ ha => ha, fun h => absurd h ‹_›⟩

theorem NameStorage.unlink_keys {a : AddrStorage V4 V6} {e e' : NameStorage V4 V6}
    (h : e.unlink a = some e') : e'.id = e.id ∧ e'.name = e.name := by
  unfold unlink at h
  split at h
  · simp only at h
    split at h
    · cases h
    · cases h
      exact ⟨rfl, rfl⟩
  · cases h
    exact ⟨rfl, rfl⟩

theorem NameStorage.unlink_keeps {a b : AddrStorage V4 V6} {e : NameStorage V4 V6}
    (hb : b ∈ e.ips) (hab : b.id ≠ a.id) :
    ∃ e', e.unlink a = some e' ∧ e'.id = e.id ∧ e'.name = e.name ∧ b ∈ e'.ips := by
  unfold unlink
  split
  · have hmem : b ∈ e.ips.filter (·.id ≠ a.id) := by simp [hb, hab]
    have hne : ¬ (e.ips.filter (·.id ≠ a.id)).isEmpty := by
      simpa using List.ne_nil_of_mem hmem
    simp only [hne]
    exact ⟨_, rfl, rfl, rfl, hmem⟩
  · exact ⟨e, rfl, rfl, rfl, hb⟩

theorem map_filterMap_unlink {κ : Type} {f : NameStorage V4 V6 → κ} {a : AddrStorage V4 V6}
    (hf : ∀ e e', e.unlink a = some e' → f e' = f e) (names : List (NameStorage V4 V6)) :
    ((names.filterMap (·.unlink a)).map f).Sublist (names.map f) := by
  induction names with
  | nil => exact .slnil
  | cons e names ih =>
    cases h : e.unlink a with
    | none =>
      rw [List.filterMap_cons_none h]
      exact ih.cons _
    | some e' =>
      rw [List.filterMap_cons_some h, List.map_cons, List.map_cons, hf e e' h]
      exact ih.cons_cons _

namespace MemoryCache

theorem expire_suffix (now : Int) (addrs : List (AddrStorage V4 V6))
    (names : List (NameStorage V4 V6)) : (expire now addrs names).1 <:+ addrs := by
  induction addrs generalizing names with
  | nil => exact List.suffix_refl _
  | cons a addrs ih =>
    unfold expire
    split
    · exact (ih _).trans (List.suffix_cons a addrs)
    · exact List.suffix_refl _

theorem expire_map {κ : Type} {f : NameStorage V4 V6 → κ}
    (hf : ∀ a e e', NameStorage.unlink a e = some e' → f e' = f e) (now : Int)
    (addrs : List (AddrStorage V4 V6)) (names : List (NameStorage V4 V6)) :
    ((expire now addrs names).2.map f).Sublist (names.map f) := by
  induction addrs generalizing names with
  | nil => exact .refl _
  | cons a addrs ih =>
    unfold expire
    split
    · exact (ih _).trans (map_filterMap_unlink (hf a) names)
    · exact .refl _

theorem expire_names (now : Int) (addrs : List (AddrStorage V4 V6))
    (names : List (NameStorage V4 V6)) :
    ((expire now addrs names).2.map (·.name)).Sublist (names.map (·.name)) :=
  expire_map (fun _ _ _ hu => (NameStorage.unlink_keys hu).2) now addrs names

theorem expire_keeps {addrs : List (AddrStorage V4 V6)} {names : List (NameStorage V4 V6)}
    (hd : (addrs.map (·.id)).Nodup) {b : AddrStorage V4 V6}
    (hb : b ∈ (expire now addrs names).1) {e : NameStorage V4 V6} (he : e ∈ names)
    (hbe : b ∈ e.ips) :
    ∃ e' ∈ (expire now addrs names).2, e'.id = e.id ∧ e'.name = e.name ∧ b ∈ e'.ips := by
  induction addrs generalizing names e with
  | nil => cases hb
  | cons a addrs ih =>
    unfold expire at hb ⊢
    split at hb
    · rename_i hle
      rw [if_pos hle]
      have hne : b.id ≠ a.id := by
        rintro hid
        have hmem : b.id ∈ addrs.map (·.id) :=
          List.mem_map_of_mem ((expire_suffix _ _ _).mem hb)
        exact (List.nodup_cons.mp hd).1 (by rwa [hid] at hmem)
      obtain ⟨e₁, hu, hid, hname, hb₁⟩ := e.unlink_keeps hbe hne
      obtain ⟨e₂, he₂, hid₂, hname₂, hb₂⟩ := ih (List.nodup_cons.mp hd).2 hb
        (List.mem_filterMap.mpr ⟨e, he, hu⟩) hb₁
      exact ⟨e₂, he₂, hid₂.trans hid, hname₂.trans hname, hb₂⟩
    · rename_i hle
      rw [if_neg hle]
      exact ⟨e, he, rfl, rfl, hbe⟩

variable {c c' : MemoryCache V4 V6}

theorem nameStore_cases (h : c.nameStore search alloc asciiName = some (parent, c')) :
    (∃ e ∈ c.names, e.name = asciiName ∧ e.id = parent ∧ c' = c) ∨
      ((∀ e, c.names[lowerBound search (·.name) c.names asciiName]? = some e →
          e.name ≠ asciiName) ∧ parent = c.allocations ∧
        c' = c.insertBefore (lowerBound search (·.name) c.names asciiName) asciiName) := by
  unfold nameStore at h
  simp only at h
  split at h
  · rename_i e he
    obtain ⟨hget, hname⟩ := Option.filter_eq_some_iff.mp he
    cases h
    exact .inl ⟨e, List.mem_of_getElem? hget, by simpa using hname, rfl, rfl⟩
  · rename_i hnone
    split at h
    · cases h
      refine .inr ⟨?_, rfl, rfl⟩
      intro e he hname
      simp [he, hname] at hnone
    · cases h

theorem push_cases {addrs : List (ResolvedAddress IP)}
    (h : c.push search order fam alloc now asciiName addrs = some c') :
    ∃ parent named nodes, c.nameStore search alloc asciiName = some (parent, named) ∧
      makeAddrs fam alloc parent (named.allocations + 2)
        (groups (order.sort (addrs.filter (now < ·.expiresAt)))) = some nodes ∧
      c' = named.link parent nodes := by
  simp only [push, Option.bind_eq_bind, Option.bind_eq_some_iff] at h
  obtain ⟨⟨parent, named⟩, hname, h⟩ := h
  split at h
  · cases h
  · obtain ⟨nodes, hnodes, h⟩ := Option.bind_eq_some_iff.mp h
    exact ⟨parent, named, nodes, hname, hnodes, (Option.some.inj h).symm⟩

structure Ordered (c : MemoryCache V4 V6) : Prop where
  lower : ∀ e ∈ c.names, lowercase e.name = e.name
  increasing : Increasing NameStorage.name c.names

def Apart (c : MemoryCache V4 V6) (asciiName : Text) : Prop :=
  lowercase asciiName = asciiName ∨
    ∀ e ∈ c.names, e.name < asciiName ∨ lowercase asciiName < e.name

theorem names_link (nodes : List (AddrStorage V4 V6)) :
    (c.link parent nodes).names.map (·.name) = c.names.map (·.name) := by
  simp only [link, List.map_map]
  refine List.map_congr_left fun e _ => ?_
  simp only [Function.comp_apply, NameStorage.pushFront]
  split <;> rfl

theorem ordered_congr (h : c'.names.map (·.name) = c.names.map (·.name)) :
    Ordered c' ↔ Ordered c := by
  have hlower : ∀ {d : MemoryCache V4 V6}, (∀ e ∈ d.names, lowercase e.name = e.name) ↔
      ∀ n ∈ d.names.map (·.name), lowercase n = n := by simp
  constructor
  · rintro ⟨hl, hi⟩
    exact ⟨hlower.mpr (h ▸ hlower.mp hl), by unfold Increasing at hi ⊢; exact h ▸ hi⟩
  · rintro ⟨hl, hi⟩
    exact ⟨hlower.mpr (h ▸ hlower.mp hl), by unfold Increasing at hi ⊢; exact h ▸ hi⟩

theorem Ordered.insertBefore_iff (h : Ordered c) :
    Ordered (c.insertBefore (lowerBound search (·.name) c.names asciiName) asciiName) ↔
      ∀ e ∈ c.names, e.name < asciiName ∨ lowercase asciiName < e.name := by
  have hinc := increasing_insertIdx_iff (x :=
    ({ id := c.allocations, name := lowercase asciiName } : NameStorage V4 V6))
    search h.increasing (le_lowercase asciiName)
  refine ⟨fun ho => hinc.mp ho.increasing, fun hap => ⟨?_, hinc.mpr hap⟩⟩
  intro e he
  rcases mem_insertIdx_lowerBound.mp he with rfl | he
  · exact lowercase_lowercase asciiName
  · exact h.lower e he

theorem Ordered.nameStore_iff (h : Ordered c)
    (hs : c.nameStore search alloc asciiName = some (parent, c')) :
    Ordered c' ↔ Apart c asciiName := by
  rcases nameStore_cases hs with ⟨e, he, rfl, -, rfl⟩ | ⟨hnew, -, rfl⟩
  · exact ⟨fun _ => .inl (h.lower e he), fun _ => h⟩
  · rw [h.insertBefore_iff]
    refine ⟨.inr, fun hap => hap.elim (fun hlow e he => ?_) id⟩
    rw [hlow]
    refine lt_or_gt_of_ne fun heq => ?_
    exact hnew e (heq ▸ getElem_lowerBound h.increasing he) heq

theorem nameStore_spec (h : Ordered c)
    (hs : c.nameStore search alloc asciiName = some (parent, c')) :
    c'.addrsByExpireTime = c.addrsByExpireTime ∧ c'.allocations = c.allocations ∧
      (∀ e ∈ c.names, e ∈ c'.names) ∧
      ∃ e ∈ c'.names, e.id = parent ∧ e.name = lowercase asciiName := by
  rcases nameStore_cases hs with ⟨e, he, rfl, rfl, rfl⟩ | ⟨-, rfl, rfl⟩
  · exact ⟨rfl, rfl, fun _ => id, e, he, rfl, (h.lower e he).symm⟩
  · refine ⟨rfl, rfl, fun e he => mem_insertIdx_lowerBound.mpr (.inr he), ?_⟩
    exact ⟨_, mem_insertIdx_lowerBound.mpr (.inl rfl), rfl, rfl⟩

theorem Ordered.push_iff (h : Ordered c) {addrs : List (ResolvedAddress IP)}
    (hp : c.push search order fam alloc now asciiName addrs = some c') :
    Ordered c' ↔ Apart c asciiName := by
  obtain ⟨parent, named, nodes, hname, -, rfl⟩ := push_cases hp
  exact (ordered_congr (names_link nodes)).trans (h.nameStore_iff hname)

theorem Ordered.prune (h : Ordered c) (now : Int) :
    Ordered (c.prune now) where
  lower e he := by
    obtain ⟨e', he', hn⟩ := List.mem_map.mp
      ((expire_names now c.addrsByExpireTime c.names).mem (List.mem_map_of_mem he))
    exact hn ▸ h.lower e' he'
  increasing := h.increasing.of_sublist (expire_names _ _ _)

theorem lookup_iff (h : Ordered c) {e : NameStorage V4 V6} :
    c.lookup search asciiName = some e ↔
      asciiName.length ≤ fqdnMaxOctetLen ∧ e ∈ c.names ∧ e.name = lowercase asciiName := by
  unfold lookup
  split
  · simp only [reduceCtorEq, false_iff]
    omega
  · rw [find_eq_some_iff h.increasing]
    constructor
    · exact fun he => ⟨by omega, he⟩
    · exact fun he => he.2

end MemoryCache

structure Tracked (V4 V6 : Type) where
  cache : MemoryCache V4 V6 := {}
  owner : Nat → Text := fun _ => []

inductive Call (V4 V6 : Type) : Type 1 where
  | push {IP : Type} (fam : Family V4 V6 IP) (alloc : Nat → Bool) (now : Int) (asciiName : Text)
      (addrs : List (ResolvedAddress IP))
  | prune (now : Int)
  | pull {IP : Type} (fam : Family V4 V6 IP) (now : Int) (asciiName : Text) (out : Nat)

namespace Tracked
open MemoryCache

def call (search : Search Text) (order : AddrSort) (t : Tracked V4 V6) :
    Call V4 V6 → Option (Tracked V4 V6)
  | .push fam alloc now asciiName addrs =>
      (t.cache.push search order fam alloc now asciiName addrs).map fun c =>
        { cache := c
          owner := fun id => if id < t.cache.allocations then t.owner id else asciiName }
  | .prune now => some { t with cache := t.cache.prune now }
  | .pull .. => some t

inductive Step (search : Search Text) (order : AddrSort)
    (ok : MemoryCache V4 V6 → Call V4 V6 → Prop) (t : Tracked V4 V6) : Tracked V4 V6 → Prop where
  | done {t' : Tracked V4 V6} (k : Call V4 V6) (hok : ok t.cache k)
      (h : t.call search order k = some t') : Step search order ok t t'
  | refused (k : Call V4 V6) (h : t.call search order k = none) : Step search order ok t t

abbrev Reaches (search : Search Text) (order : AddrSort)
    (ok : MemoryCache V4 V6 → Call V4 V6 → Prop) : Tracked V4 V6 → Tracked V4 V6 → Prop :=
  Relation.ReflTransGen (Step search order ok)

structure Indexed (search : Search Text) (t : Tracked V4 V6) : Prop where
  ordered : Ordered t.cache
  found : ∀ a ∈ t.cache.addrsByExpireTime, ∀ asciiName,
    lowercase asciiName = lowercase (t.owner a.id) →
      ∃ e, t.cache.lookup search asciiName = some e ∧ a ∈ e.ips

def Harmless (c : MemoryCache V4 V6) : Call V4 V6 → Prop
  | .push _ _ now asciiName addrs => Apart c asciiName ∧
      ((∃ addr ∈ addrs, now < addr.expiresAt) → asciiName.length ≤ fqdnMaxOctetLen)
  | _ => True

structure Linked (t : Tracked V4 V6) : Prop where
  distinct : (t.cache.addrsByExpireTime.map (·.id)).Nodup
  allocated : ∀ a ∈ t.cache.addrsByExpireTime, a.id < t.cache.allocations
  held : ∀ a ∈ t.cache.addrsByExpireTime, (t.owner a.id).length ≤ fqdnMaxOctetLen ∧
    ∃ e ∈ t.cache.names, e.id = a.parent ∧ a ∈ e.ips ∧ e.name = lowercase (t.owner a.id)

variable {t t' : Tracked V4 V6}

theorem indexed_iff (h : Linked t) : Indexed search t ↔ Ordered t.cache := by
  refine ⟨fun hi => hi.ordered, fun ho => ⟨ho, ?_⟩⟩
  intro a ha s hs
  obtain ⟨hlen, e, he, -, hae, hname⟩ := h.held a ha
  refine ⟨e, (lookup_iff ho).mpr ⟨?_, he, hname.trans hs.symm⟩, hae⟩
  rwa [← length_lowercase, hs, length_lowercase]

theorem Linked.prune (h : Linked t) (now : Int) :
    Linked { t with cache := t.cache.prune now } where
  distinct := h.distinct.sublist ((expire_suffix _ _ _).sublist.map _)
  allocated a ha := h.allocated a ((expire_suffix _ _ _).mem ha)
  held a ha := by
    obtain ⟨hlen, e, he, hid, hae, hname⟩ := h.held a ((expire_suffix _ _ _).mem ha)
    obtain ⟨e', he', hid', hname', hae'⟩ := expire_keeps h.distinct ha he hae
    exact ⟨hlen, e', he', hid'.trans hid, hae', hname'.trans hname⟩

theorem Linked.push (h : Linked t) (ho : Ordered t.cache) {addrs : List (ResolvedAddress IP)}
    {c : MemoryCache V4 V6} (hp : t.cache.push search order fam alloc now asciiName addrs = some c)
    (hs : (∃ addr ∈ addrs, now < addr.expiresAt) → asciiName.length ≤ fqdnMaxOctetLen) :
    Linked { cache := c
             owner := fun id => if id < t.cache.allocations then t.owner id else asciiName } := by
  obtain ⟨parent, named, nodes, hname, hnodes, rfl⟩ := push_cases hp
  obtain ⟨haddrs, halloc, hnames, e, he, hid, hlower⟩ := nameStore_spec ho hname
  obtain ⟨-, hids, hparent⟩ := makeAddrs_spec hnodes
  have hperm := foldl_insertByExpireTime_perm nodes named.addrsByExpireTime
  have hfresh : ∀ a ∈ nodes, t.cache.allocations + 2 ≤ a.id ∧
      a.id < t.cache.allocations + 2 + nodes.length := by
    intro a ha
    have hmem : a.id ∈ nodes.map (·.id) := List.mem_map_of_mem ha
    rw [hids, halloc, List.mem_range'_1] at hmem
    exact hmem
  have hmem : ∀ a ∈ (named.link parent nodes).addrsByExpireTime,
      a ∈ nodes ∨ a ∈ t.cache.addrsByExpireTime := by
    intro a ha
    rw [← haddrs]
    exact List.mem_append.mp (hperm.mem_iff.mp ha)
  refine ⟨?_, ?_, ?_⟩
  · refine (hperm.map _).nodup_iff.mpr ?_
    rw [List.map_append, List.nodup_append, hids, haddrs]
    refine ⟨List.nodup_range', h.distinct, ?_⟩
    intro x hx y hy
    obtain ⟨a, ha, rfl⟩ := List.mem_map.mp hy
    have := h.allocated a ha
    rw [List.mem_range'_1] at hx
    omega
  · intro a ha
    show a.id < named.allocations + 2 + nodes.length
    rcases hmem a ha with ha | ha
    · have := hfresh a ha
      omega
    · have := h.allocated a ha
      omega
  · intro a ha
    rcases hmem a ha with ha | ha
    · have hown : ¬ a.id < t.cache.allocations := by
        have := hfresh a ha
        omega
      simp only [hown, if_false]
      refine ⟨hs ((makeAddrs_ne_nil hnodes).mp (List.ne_nil_of_mem ha)),
        e.pushFront parent nodes, List.mem_map_of_mem he, ?_⟩
      obtain ⟨hid', hname', -, hnew⟩ := e.pushFront_spec parent nodes
      exact ⟨(hid'.trans hid).trans (hparent a ha).symm, hnew hid a ha, hname'.trans hlower⟩
    · simp only [h.allocated a ha, if_true]
      obtain ⟨hlen, e, he, hid, hae, hname⟩ := h.held a ha
      obtain ⟨hid', hname', hold, -⟩ := e.pushFront_spec parent nodes
      exact ⟨hlen, _, List.mem_map_of_mem (hnames e he), hid'.trans hid, hold a hae,
        hname'.trans hname⟩

structure Inv (t : Tracked V4 V6) : Prop where
  ordered : Ordered t.cache
  linked : Linked t

theorem Inv.indexed (h : Inv t) : Indexed search t := (indexed_iff h.linked).mpr h.ordered

theorem inv_empty : Inv ({} : Tracked V4 V6) :=
  ⟨⟨by simp, increasing_nil⟩, ⟨by simp, by simp, by simp⟩⟩

theorem Inv.call (h : Inv t) {k : Call V4 V6} (hok : Harmless t.cache k)
    (hk : t.call search order k = some t') : Inv t' := by
  cases k with
  | push fam alloc now asciiName addrs =>
    obtain ⟨c, hp, rfl⟩ := Option.map_eq_some_iff.mp hk
    exact ⟨(h.ordered.push_iff hp).mpr hok.1, h.linked.push h.ordered hp hok.2⟩
  | prune now =>
    obtain rfl := Option.some.inj hk
    exact ⟨h.ordered.prune now, h.linked.prune now⟩
  | pull fam now asciiName out =>
    obtain rfl := Option.some.inj hk
    exact h

theorem Inv.reaches (h : Inv t) (hr : Reaches search order Harmless t t') : Inv t' := by
  induction hr with
  | refl => exact h
  | tail _ hs ih =>
    cases hs with
    | done k hok hk => exact ih.call hok hk
    | refused k hk => exact ih

theorem Inv.indexed_iff_harmless (h : Inv t) {k : Call V4 V6}
    (hk : t.call search order k = some t') : Indexed search t' ↔ Harmless t.cache k := by
  refine ⟨fun hi => ?_, fun hok => (h.call hok hk).indexed⟩
  cases k with
  | push fam alloc now asciiName addrs =>
    obtain ⟨c, hp, rfl⟩ := Option.map_eq_some_iff.mp hk
    refine ⟨(h.ordered.push_iff hp).mp hi.ordered, fun hlive => ?_⟩
    obtain ⟨parent, named, nodes, hname, hnodes, rfl⟩ := push_cases hp
    obtain ⟨a, ha⟩ := List.exists_mem_of_ne_nil _ ((makeAddrs_ne_nil hnodes).mpr hlive)
    have hmem : a ∈ (named.link parent nodes).addrsByExpireTime :=
      (foldl_insertByExpireTime_perm _ _).mem_iff.mpr (List.mem_append_left _ ha)
    have hown : ¬ a.id < t.cache.allocations := by
      have hids : a.id ∈ nodes.map (·.id) := List.mem_map_of_mem ha
      rw [(makeAddrs_spec hnodes).2.1, List.mem_range'_1,
        (nameStore_spec h.ordered hname).2.1] at hids
      omega
    obtain ⟨e, he, -⟩ := hi.found a hmem asciiName (by simp only [hown, if_false])
    exact ((lookup_iff hi.ordered).mp he).1
  | prune now => trivial
  | pull fam now asciiName out => trivial

theorem indexed_of_harmless (h : Reaches search order Harmless {} t) : Indexed search t :=
  (inv_empty.reaches h).indexed

def pushed (c : MemoryCache Nat Nat) (asciiName : Text) (address : Nat) :
    Option (MemoryCache Nat Nat) :=
  c.push linear byExpireTime ipv4 (fun _ => true) 0 asciiName [⟨address, 10⟩]

theorem reaches_pushed (ok : MemoryCache Nat Nat → Call Nat Nat → Prop) {t₀ t : Tracked Nat Nat}
    {s : Text} {address : Nat} {c : MemoryCache Nat Nat}
    (hr : Reaches linear byExpireTime ok t₀ t)
    (hok : ok t.cache (.push ipv4 (fun _ => true) 0 s [⟨address, 10⟩]))
    (hp : pushed t.cache s address = some c) :
    ∃ owner, Reaches linear byExpireTime ok t₀ ⟨c, owner⟩ :=
  ⟨_, hr.tail (.done _ hok (Option.map_eq_some_iff.mpr ⟨c, hp, rfl⟩))⟩

def cacheOfAbc : MemoryCache Nat Nat where
  names := [⟨0, [97, 98, 99], [⟨2, 0, 10, [1], []⟩]⟩]
  addrsByExpireTime := [⟨2, 0, 10, [1], []⟩]
  allocations := 3

theorem indexed_of_harmless_abc_abb : ∃ t : Tracked Nat Nat,
    t.cache.names.map (·.name) = [[97, 98, 98], [97, 98, 99]] ∧ Indexed linear t := by
  have h₁ : pushed {} [97, 98, 99] 1 = some cacheOfAbc := by decide +kernel
  obtain ⟨owner, hr⟩ := reaches_pushed Harmless (t := {}) .refl ⟨.inl rfl, fun _ => by decide⟩ h₁
  have h₂ : ∃ c, pushed cacheOfAbc [65, 66, 66] 2 = some c ∧
      c.names.map (·.name) = [[97, 98, 98], [97, 98, 99]] := by
    simp only [← Option.map_eq_some_iff]
    decide +kernel
  obtain ⟨c, hc, hnames⟩ := h₂
  have happart : Apart cacheOfAbc [65, 66, 66] := .inr (by decide +kernel)
  obtain ⟨owner, hr⟩ := reaches_pushed Harmless hr ⟨happart, fun _ => by decide⟩ hc
  exact ⟨_, hnames, indexed_of_harmless hr⟩

theorem not_indexed_of_reaches : ¬ ∀ t : Tracked Nat Nat,
    Reaches linear byExpireTime (fun _ _ => True) {} t → Indexed linear t := by
  intro hall
  have h : ∃ c, (pushed {} [97, 98, 99] 1).bind (pushed · [65, 66, 67] 2) = some c ∧
      c.names.map (·.name) = [[97, 98, 99], [97, 98, 99]] := by
    simp only [← Option.map_eq_some_iff]
    decide +kernel
  obtain ⟨c, hc, hnames⟩ := h
  obtain ⟨c₁, h₁, h₂⟩ := Option.bind_eq_some_iff.mp hc
  obtain ⟨owner, hr⟩ := reaches_pushed (fun _ _ => True) (t := {}) .refl trivial h₁
  obtain ⟨owner, hr⟩ := reaches_pushed (fun _ _ => True) hr trivial h₂
  have hinc := (hall _ hr).ordered.increasing
  unfold Increasing at hinc
  rw [show c.names.map NameStorage.name = _ from hnames] at hinc
  exact absurd hinc (by decide +kernel)

end Tracked

end Corosig.Dns
