import Corosig.Io.Dns.ResolveName

namespace Corosig.Dns
open SortedKeys

variable {V4 V6 IP : Type}

def blocksOf (names : List (NameStorage V4 V6)) (asciiName : Text) : List (AddrStorage V4 V6) :=
  names.flatMap fun e => if e.name = asciiName then e.ips else []

structure Consistent (addrs : List (AddrStorage V4 V6)) (names : List (NameStorage V4 V6)) :
    Prop where
  nameIds : (names.map (·.id)).Nodup
  addrIds : (addrs.map (·.id)).Nodup
  ips : ∀ e ∈ names, e.ips.Perm (addrs.filter (·.parent = e.id))
  parents : ∀ a ∈ addrs, ∃ e ∈ names, e.id = a.parent

variable {addrs nodes : List (AddrStorage V4 V6)} {names : List (NameStorage V4 V6)}
  {a b : AddrStorage V4 V6} {e e' : NameStorage V4 V6} {asciiName : Text} {now : Int}

theorem mem_blocksOf : b ∈ blocksOf names asciiName ↔
    ∃ e ∈ names, e.name = asciiName ∧ b ∈ e.ips := by
  simp only [blocksOf, List.mem_flatMap]
  refine exists_congr fun e => and_congr_right fun _ => ?_
  split <;> simp [*]

theorem blocksOf_eq (h : Increasing NameStorage.name names) (he : e ∈ names) :
    blocksOf names e.name = e.ips := by
  induction names with
  | nil => cases he
  | cons d names ih =>
    obtain ⟨hd, hrest⟩ := increasing_cons.mp h
    rw [blocksOf, List.flatMap_cons]
    rcases List.mem_cons.mp he with rfl | he
    · have hnone : (names.flatMap fun d => if d.name = e.name then d.ips else []) = [] :=
        List.flatMap_eq_nil_iff.mpr fun d hdn => if_neg (hd d hdn).ne'
      rw [if_pos rfl, hnone, List.append_nil]
    · rw [if_neg (hd e he).ne, List.nil_append]
      exact ih hrest he

theorem blocksOf_eq_nil (h : ∀ e ∈ names, e.name ≠ asciiName) : blocksOf names asciiName = [] :=
  List.flatMap_eq_nil_iff.mpr fun e he => if_neg (h e he)

namespace Consistent

theorem mem (h : Consistent addrs names) (he : e ∈ names) (hb : b ∈ e.ips) :
    b ∈ addrs ∧ b.parent = e.id := by
  have hmem := (h.ips e he).mem_iff.mp hb
  simpa using List.mem_filter.mp hmem

theorem unique (h : Consistent addrs names) (ha : a ∈ addrs) (hb : b ∈ addrs) (hid : a.id = b.id) :
    a = b :=
  List.inj_on_of_nodup_map h.addrIds ha hb hid

theorem others (h : Consistent (a :: addrs) names) : ∀ b ∈ addrs, b.id ≠ a.id := by
  intro b hb hid
  have hmem : b.id ∈ addrs.map (·.id) := List.mem_map_of_mem hb
  rw [hid] at hmem
  exact (List.nodup_cons.mp h.addrIds).1 hmem

theorem remaining (h : Consistent (a :: addrs) names) (he : e ∈ names) :
    (e.ips.filter (·.id ≠ a.id)).Perm (addrs.filter (·.parent = e.id)) := by
  refine ((h.ips e he).filter _).trans (List.Perm.of_eq ?_)
  rw [List.filter_filter, List.filter_cons_of_neg (by simp)]
  refine List.filter_congr fun b hb => ?_
  simp [h.others b hb]

theorem unlink_cases (h : Consistent (a :: addrs) names) (he : e ∈ names) :
    e.unlink a = none ∧ e.ips.filter (·.id ≠ a.id) = [] ∨
      e.unlink a = some { e with ips := e.ips.filter (·.id ≠ a.id) } ∧
        (e.ips ≠ [] → e.ips.filter (·.id ≠ a.id) ≠ []) := by
  unfold NameStorage.unlink
  split
  · simp only
    split
    · exact .inl ⟨rfl, List.isEmpty_iff.mp ‹_›⟩
    · rename_i hne
      exact .inr ⟨rfl, fun _ hnil => hne (List.isEmpty_iff.mpr hnil)⟩
  · rename_i hparent
    have hall : e.ips.filter (·.id ≠ a.id) = e.ips := by
      refine List.filter_eq_self.mpr fun b hb => ?_
      obtain ⟨hmem, hpar⟩ := h.mem he hb
      rcases List.mem_cons.mp hmem with rfl | hmem
      · exact absurd hpar.symm hparent
      · simpa using h.others b hmem
    rw [hall]
    exact .inr ⟨rfl, id⟩

theorem unlink_some (h : Consistent (a :: addrs) names) (he : e ∈ names)
    (hu : e.unlink a = some e') : e' = { e with ips := e.ips.filter (·.id ≠ a.id) } := by
  obtain ⟨hnone, -⟩ | ⟨hsome, -⟩ := h.unlink_cases he
  · rw [hnone] at hu
    cases hu
  · rw [hsome] at hu
    exact (Option.some.inj hu).symm

theorem unlink (h : Consistent (a :: addrs) names) :
    Consistent addrs (names.filterMap (·.unlink a)) where
  nameIds := h.nameIds.sublist
    (map_filterMap_unlink (fun _ _ hu => (NameStorage.unlink_keys hu).1) names)
  addrIds := (List.nodup_cons.mp h.addrIds).2
  ips e' he' := by
    obtain ⟨e, he, hu⟩ := List.mem_filterMap.mp he'
    obtain rfl := h.unlink_some he hu
    exact h.remaining he
  parents b hb := by
    obtain ⟨e, he, hid⟩ := h.parents b (List.mem_cons_of_mem a hb)
    have hmem : b ∈ addrs.filter (·.parent = e.id) := by simp [hb, hid]
    obtain ⟨-, hnil⟩ | ⟨hsome, -⟩ := h.unlink_cases he
    · have hnone := (h.remaining he).mem_iff.mpr hmem
      rw [hnil] at hnone
      cases hnone
    · exact ⟨_, List.mem_filterMap.mpr ⟨e, he, hsome⟩, hid⟩

theorem expire (h : Consistent addrs names) (now : Int) :
    Consistent (MemoryCache.expire now addrs names).1 (MemoryCache.expire now addrs names).2 := by
  induction addrs generalizing names with
  | nil => exact h
  | cons a addrs ih =>
    unfold MemoryCache.expire
    split
    · exact ih h.unlink
    · exact h

theorem blocksOf_unlink (h : Consistent (a :: addrs) names) (asciiName : Text) :
    blocksOf (names.filterMap (·.unlink a)) asciiName =
      (blocksOf names asciiName).filter (·.id ≠ a.id) := by
  have hall : ∀ names' : List (NameStorage V4 V6), (∀ e ∈ names', e ∈ names) →
      blocksOf (names'.filterMap (·.unlink a)) asciiName =
        (blocksOf names' asciiName).filter (·.id ≠ a.id) := by
    intro names' hsub
    induction names' with
    | nil => rfl
    | cons e names' ih =>
      rw [List.forall_mem_cons] at hsub
      have hrest := ih hsub.2
      simp only [blocksOf] at hrest ⊢
      rw [List.flatMap_cons, List.filter_append, ← hrest]
      obtain ⟨hnone, hnil⟩ | ⟨hsome, -⟩ := h.unlink_cases hsub.1
      · rw [List.filterMap_cons_none hnone]
        split
        · rw [hnil, List.nil_append]
        · rfl
      · rw [List.filterMap_cons_some hsome, List.flatMap_cons]
        congr 1
        split <;> rfl
  exact hall names fun _ => id

theorem blocksOf_expire (h : Consistent addrs names)
    (hs : addrs.Pairwise fun a b => a.expiresAt ≤ b.expiresAt) (now : Int) (asciiName : Text) :
    blocksOf (MemoryCache.expire now addrs names).2 asciiName =
      (blocksOf names asciiName).filter (now < ·.expiresAt) := by
  induction addrs generalizing names with
  | nil =>
    have hnil : blocksOf names asciiName = [] := by
      refine List.eq_nil_iff_forall_not_mem.mpr fun b hb => ?_
      obtain ⟨e, he, -, hbe⟩ := mem_blocksOf.mp hb
      cases (h.mem he hbe).1
    rw [MemoryCache.expire, hnil]
    rfl
  | cons a addrs ih =>
    have hmem : ∀ b ∈ blocksOf names asciiName, b ∈ a :: addrs := by
      intro b hb
      obtain ⟨e, he, -, hbe⟩ := mem_blocksOf.mp hb
      exact (h.mem he hbe).1
    obtain ⟨hfirst, hrest⟩ := List.pairwise_cons.mp hs
    unfold MemoryCache.expire
    split
    · rename_i hle
      rw [ih h.unlink hrest, h.blocksOf_unlink, List.filter_filter]
      refine List.filter_congr fun b hb => ?_
      obtain rfl | hne := eq_or_ne b a
      · simp [not_lt.mpr hle]
      · have hid : b.id ≠ a.id := fun hid => hne (h.unique (hmem b hb) (List.mem_cons_self ..) hid)
        simp [hid]
    · rename_i hlt
      refine (List.filter_eq_self.mpr fun b hb => decide_eq_true ?_).symm
      rcases List.mem_cons.mp (hmem b hb) with rfl | hb
      · exact not_le.mp hlt
      · exact (not_le.mp hlt).trans_le (hfirst b hb)

end Consistent

theorem NameStorage.pushFront_ips {parent : Nat} (h : ∀ a ∈ nodes, a.parent = parent)
    (e : NameStorage V4 V6) :
    (e.pushFront parent nodes).ips.Perm (nodes.filter (·.parent = e.id) ++ e.ips) := by
  unfold pushFront
  split
  · rename_i hid
    have hall : nodes.filter (·.parent = e.id) = nodes :=
      List.filter_eq_self.mpr fun a ha => decide_eq_true ((h a ha).trans hid.symm)
    rw [hall]
    exact (List.reverse_perm nodes).append_right _
  · rename_i hid
    have hnone : nodes.filter (·.parent = e.id) = [] := by
      refine List.filter_eq_nil_iff.mpr fun a ha heq => hid ?_
      rw [← h a ha]
      exact (of_decide_eq_true heq).symm
    rw [hnone]
    exact .refl _

theorem Consistent.link {parent : Nat} (h : Consistent addrs names)
    (hids : (nodes.map (·.id)).Nodup) (hfresh : ∀ a ∈ nodes, ∀ b ∈ addrs, a.id ≠ b.id)
    (hparent : ∀ a ∈ nodes, a.parent = parent) (hnamed : ∃ e ∈ names, e.id = parent) :
    Consistent (nodes.foldl insertByExpireTime addrs) (names.map (·.pushFront parent nodes)) := by
  have hperm := foldl_insertByExpireTime_perm nodes addrs
  have hkept : ∀ e : NameStorage V4 V6, (e.pushFront parent nodes).id = e.id := fun e =>
    (e.pushFront_spec parent nodes).1
  refine ⟨?_, ?_, ?_, ?_⟩
  · have hsame : (names.map (·.pushFront parent nodes)).map (·.id) = names.map (·.id) := by
      rw [List.map_map]
      exact List.map_congr_left fun e _ => hkept e
    rw [hsame]
    exact h.nameIds
  · refine (hperm.map _).nodup_iff.mpr ?_
    rw [List.map_append, List.nodup_append]
    refine ⟨hids, h.addrIds, ?_⟩
    intro x hx y hy
    obtain ⟨a, ha, rfl⟩ := List.mem_map.mp hx
    obtain ⟨b, hb, rfl⟩ := List.mem_map.mp hy
    exact hfresh a ha b hb
  · intro e' he'
    obtain ⟨e, he, rfl⟩ := List.mem_map.mp he'
    have hfiltered := hperm.filter (·.parent = e.id)
    rw [List.filter_append] at hfiltered
    rw [hkept]
    exact (e.pushFront_ips hparent).trans (((h.ips e he).append_left _).trans hfiltered.symm)
  · intro a ha
    have hold : ∃ e ∈ names, e.id = a.parent := by
      rcases List.mem_append.mp (hperm.mem_iff.mp ha) with ha | ha
      · rw [hparent a ha]
        exact hnamed
      · exact h.parents a ha
    obtain ⟨e, he, hid⟩ := hold
    exact ⟨_, List.mem_map_of_mem he, (hkept e).trans hid⟩

theorem insertByExpireTime_sorted (a : AddrStorage V4 V6)
    (h : addrs.Pairwise fun a b => a.expiresAt ≤ b.expiresAt) :
    (insertByExpireTime addrs a).Pairwise fun a b => a.expiresAt ≤ b.expiresAt := by
  induction addrs with
  | nil => exact List.pairwise_singleton _ a
  | cons b addrs ih =>
    obtain ⟨hfirst, hrest⟩ := List.pairwise_cons.mp h
    rw [insertByExpireTime, List.orderedInsert_cons]
    split
    · rename_i hlt
      refine List.pairwise_cons.mpr ⟨fun c hc => ?_, h⟩
      rcases List.mem_cons.mp hc with rfl | hc
      · exact hlt.le
      · exact hlt.le.trans (hfirst c hc)
    · rename_i hle
      refine List.pairwise_cons.mpr ⟨fun c hc => ?_, ih hrest⟩
      rcases List.mem_cons.mp ((List.perm_orderedInsert _ a addrs).mem_iff.mp hc) with rfl | hc
      · exact not_lt.mp hle
      · exact hfirst c hc

theorem blocksOf_insertIdx {i : Nat} (hi : i ≤ names.length) (hnil : e.ips = [])
    (asciiName : Text) :
    blocksOf (names.insertIdx i e) asciiName = blocksOf names asciiName := by
  induction i generalizing names with
  | zero => simp [blocksOf, hnil]
  | succ i ih =>
    cases names with
    | nil => cases hi
    | cons d names =>
      have hrest := ih (Nat.le_of_succ_le_succ hi)
      simp only [blocksOf] at hrest ⊢
      rw [List.insertIdx_succ_cons, List.flatMap_cons, List.flatMap_cons, hrest]

namespace MemoryCache

variable {search : Search Text} {order : AddrSort} {fam : Family V4 V6 IP} {alloc : Nat → Bool}
  {parent : Nat} {c c' : MemoryCache V4 V6}

structure WellLinked (c : MemoryCache V4 V6) : Prop where
  consistent : Consistent c.addrsByExpireTime c.names
  sorted : c.addrsByExpireTime.Pairwise fun a b => a.expiresAt ≤ b.expiresAt
  nameFresh : ∀ e ∈ c.names, e.id < c.allocations
  addrFresh : ∀ a ∈ c.addrsByExpireTime, a.id < c.allocations

theorem ordered_empty : Ordered ({} : MemoryCache V4 V6) :=
  ⟨fun _ he => (by cases he), increasing_nil⟩

theorem wellLinked_empty : WellLinked ({} : MemoryCache V4 V6) :=
  ⟨⟨.nil, .nil, fun _ he => (by cases he), fun _ ha => (by cases ha)⟩, .nil,
    fun _ he => (by cases he), fun _ ha => (by cases ha)⟩

theorem WellLinked.nameStore (h : WellLinked c)
    (hs : c.nameStore search alloc asciiName = some (parent, c')) :
    Consistent c.addrsByExpireTime c'.names ∧ c'.addrsByExpireTime = c.addrsByExpireTime ∧
      c'.allocations = c.allocations ∧ (∃ e ∈ c'.names, e.id = parent) ∧
      (∀ e ∈ c'.names, e ∈ c.names ∨ e.ips = [] ∧ e.id = c.allocations) ∧
      ∀ s, blocksOf c'.names s = blocksOf c.names s := by
  rcases nameStore_cases hs with ⟨e, he, -, rfl, rfl⟩ | ⟨-, rfl, rfl⟩
  · exact ⟨h.consistent, rfl, rfl, ⟨e, he, rfl⟩, fun _ => .inl, fun _ => rfl⟩
  · let new : NameStorage V4 V6 := { id := c.allocations, name := lowercase asciiName }
    let pos := lowerBound search (·.name) c.names asciiName
    have hpos : pos ≤ c.names.length :=
      (search.le_length _ _).trans_eq (List.length_map _)
    have hmem : ∀ e, e ∈ c.names.insertIdx pos new ↔ e = new ∨ e ∈ c.names := fun e =>
      List.mem_insertIdx hpos
    have hperm : (c.names.insertIdx pos new).Perm (new :: c.names) := List.perm_insertIdx _ _ hpos
    refine ⟨⟨?_, h.consistent.addrIds, ?_, ?_⟩, rfl, rfl, ⟨new, (hmem new).mpr (.inl rfl), rfl⟩,
      ?_, fun s => blocksOf_insertIdx hpos rfl s⟩
    · refine (hperm.map _).nodup_iff.mpr (List.nodup_cons.mpr ⟨fun hin => ?_, h.consistent.nameIds⟩)
      obtain ⟨e, he, hid⟩ := List.mem_map.mp hin
      exact absurd hid (h.nameFresh e he).ne
    · intro e he
      rcases (hmem e).mp he with rfl | he
      · have hnil : c.addrsByExpireTime.filter (·.parent = new.id) = [] := by
          refine List.filter_eq_nil_iff.mpr fun a ha => ?_
          obtain ⟨d, hd, hid⟩ := h.consistent.parents a ha
          have := h.nameFresh d hd
          simp only [new, ← hid, decide_eq_true_eq]
          exact this.ne
        rw [hnil]
      · exact h.consistent.ips e he
    · intro a ha
      obtain ⟨e, he, hid⟩ := h.consistent.parents a ha
      exact ⟨e, (hmem e).mpr (.inr he), hid⟩
    · intro e he
      rcases (hmem e).mp he with rfl | he
      · exact .inr ⟨rfl, rfl⟩
      · exact .inl he

theorem WellLinked.push (h : WellLinked c) {addrs : List (ResolvedAddress IP)}
    (hp : c.push search order fam alloc now asciiName addrs = some c') : WellLinked c' := by
  obtain ⟨parent, named, nodes, hname, hnodes, rfl⟩ := push_cases hp
  obtain ⟨hconsistent, haddrs, halloc, hparent, hmem, -⟩ := h.nameStore hname
  obtain ⟨-, hids, hparents⟩ := makeAddrs_spec hnodes
  have hrange : ∀ a ∈ nodes, c.allocations + 2 ≤ a.id ∧
      a.id < c.allocations + 2 + nodes.length := by
    intro a ha
    have hin : a.id ∈ nodes.map (·.id) := List.mem_map_of_mem ha
    rwa [hids, halloc, List.mem_range'_1] at hin
  have hperm := foldl_insertByExpireTime_perm nodes c.addrsByExpireTime
  have hbound : (named.link parent nodes).allocations = c.allocations + 2 + nodes.length :=
    congrArg (· + 2 + nodes.length) halloc
  refine ⟨?_, ?_, ?_, ?_⟩
  · rw [link, haddrs]
    refine hconsistent.link ?_ ?_ hparents hparent
    · rw [hids]
      exact List.nodup_range'
    · intro a ha b hb
      have := (hrange a ha).1
      have := h.addrFresh b hb
      omega
  · rw [link, haddrs]
    exact List.foldlRecOn nodes insertByExpireTime h.sorted fun _ hs a _ =>
      insertByExpireTime_sorted a hs
  · intro e' he'
    obtain ⟨e, he, rfl⟩ := List.mem_map.mp he'
    rw [hbound, (e.pushFront_spec parent nodes).1]
    rcases hmem e he with he | ⟨-, hid⟩
    · have := h.nameFresh e he
      omega
    · omega
  · intro a ha
    rw [hbound]
    rw [link, haddrs] at ha
    rcases List.mem_append.mp (hperm.mem_iff.mp ha) with ha | ha
    · exact (hrange a ha).2
    · have := h.addrFresh a ha
      omega

theorem WellLinked.prune (h : WellLinked c) (now : Int) : WellLinked (c.prune now) where
  consistent := h.consistent.expire now
  sorted := h.sorted.sublist (expire_suffix _ _ _).sublist
  nameFresh e he := by
    have hsub := expire_map (fun _ _ _ hu => (NameStorage.unlink_keys hu).1) now
      c.addrsByExpireTime c.names
    obtain ⟨d, hd, hid⟩ := List.mem_map.mp (hsub.mem (List.mem_map_of_mem he))
    exact hid ▸ h.nameFresh d hd
  addrFresh a ha := h.addrFresh a ((expire_suffix _ _ _).mem ha)

end MemoryCache

end Corosig.Dns
