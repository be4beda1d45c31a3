import Corosig.Container.Allocator

namespace Corosig.Allocator
open Function BoundaryTags LinkedList

def next (s : Allocator) (i : Nat) : Nat := (s.blocks i).nextFreeBlockIdx

def prev (s : Allocator) (i : Nat) : Nat := (s.blocks i).prevFreeBlockIdx

def tags (s : Allocator) : Tags where
  before i := (s.blocks i).blocksBefore
  owned i := (s.blocks i).blocksOwned
  used i := (s.blocks i).isUsed

def cut (v : Nat) : Nat := v % 2 ^ 31

structure Retags (s s' : Allocator) (t : Tags) : Prop where
  tags : s'.tags = t
  next : s'.next = s.next
  prev : s'.prev = s.prev
  first : s'.firstFreeBlockIdx = s.firstFreeBlockIdx
  last : s'.lastFreeBlockIdx = s.lastFreeBlockIdx
  mem : s'.mem = s.mem
  used : s'.used = s.used
  peak : s'.peak = s.peak

structure Relinks (s s' : Allocator) : Prop where
  tags : s'.tags = s.tags
  mem : s'.mem = s.mem
  used : s'.used = s.used
  peak : s'.peak = s.peak

variable {s s' : Allocator} {i j v : Nat} {u : Bool} {t : Tags} {fs pre post : List Nat}
  (build : Build)

@[simp] theorem setNext_next : (s.setNext i v).next = update s.next i v := by
  funext j
  by_cases h : j = i <;> simp [setNext, modify, next, update, h]

@[simp] theorem setNext_prev : (s.setNext i v).prev = s.prev := by
  funext j
  by_cases h : j = i <;> simp [setNext, modify, prev, update, h]

@[simp] theorem setPrev_prev : (s.setPrev i v).prev = update s.prev i v := by
  funext j
  by_cases h : j = i <;> simp [setPrev, modify, prev, update, h]

@[simp] theorem setPrev_next : (s.setPrev i v).next = s.next := by
  funext j
  by_cases h : j = i <;> simp [setPrev, modify, next, update, h]

@[simp] theorem setUsed_next : (s.setUsed i u).next = s.next := by
  funext j
  by_cases h : j = i <;> simp [setUsed, modify, next, update, h]

@[simp] theorem setUsed_prev : (s.setUsed i u).prev = s.prev := by
  funext j
  by_cases h : j = i <;> simp [setUsed, modify, prev, update, h]

@[simp] theorem setNext_tags : (s.setNext i v).tags = s.tags := by
  ext j <;> by_cases h : j = i <;> simp [setNext, modify, tags, update, h]

@[simp] theorem setPrev_tags : (s.setPrev i v).tags = s.tags := by
  ext j <;> by_cases h : j = i <;> simp [setPrev, modify, tags, update, h]

@[simp] theorem setUsed_tags : (s.setUsed i u).tags = s.tags.mark i u := by
  ext j <;> by_cases h : j = i <;> simp [setUsed, modify, tags, Tags.mark, update, h]

theorem setUsed_retags : Retags s (s.setUsed i u) (s.tags.mark i u) :=
  ⟨setUsed_tags, setUsed_next, setUsed_prev, rfl, rfl, rfl, rfl, rfl⟩

theorem Retags.trans {s'' : Allocator} {t' : Tags} (h : Retags s s' t) (h' : Retags s' s'' t') :
    Retags s s'' t' :=
  ⟨h'.tags, h'.next.trans h.next, h'.prev.trans h.prev, h'.first.trans h.first,
    h'.last.trans h.last, h'.mem.trans h.mem, h'.used.trans h.used, h'.peak.trans h.peak⟩

theorem Relinks.trans {s'' : Allocator} (h : Relinks s s') (h' : Relinks s' s'') :
    Relinks s s'' :=
  ⟨h'.tags.trans h.tags, h'.mem.trans h.mem, h'.used.trans h.used, h'.peak.trans h.peak⟩

theorem Retags.amount (h : Retags s s' t) : s'.blocksAmount = s.blocksAmount := by
  simp only [blocksAmount, h.mem]

theorem Relinks.amount (h : Relinks s s') : s'.blocksAmount = s.blocksAmount := by
  simp only [blocksAmount, h.mem]

theorem getBlockMetadata_of_lt (hi : i < s.blocksAmount) :
    s.getBlockMetadata i = some (s.blocks i) := by
  simp [getBlockMetadata, hi]

theorem setOwned_retags :
    Retags s (s.setOwned i v) { s.tags with owned := update s.tags.owned i v } := by
  refine ⟨?_, ?_, ?_, rfl, rfl, rfl, rfl, rfl⟩
  · ext j <;> by_cases h : j = i <;> simp [setOwned, modify, tags, update, h]
  · funext j
    by_cases h : j = i <;> simp [setOwned, modify, next, update, h]
  · funext j
    by_cases h : j = i <;> simp [setOwned, modify, prev, update, h]

theorem setBefore_retags :
    Retags s (s.setBefore i v) { s.tags with before := update s.tags.before i (cut v) } := by
  refine ⟨?_, ?_, ?_, rfl, rfl, rfl, rfl, rfl⟩
  · ext j <;> by_cases h : j = i <;> simp [setBefore, modify, tags, cut, update, h]
  · funext j
    by_cases h : j = i <;> simp [setBefore, modify, next, update, h]
  · funext j
    by_cases h : j = i <;> simp [setBefore, modify, prev, update, h]

theorem setBlocksOwned_spec (hi : i < s.blocksAmount) (hv : v < 2 ^ 32) :
    ∃ s', s.setBlocksOwned i v = some s' ∧
      Retags s s' (s.tags.resize cut s.blocksAmount i v) := by
  have hmod : v % 2 ^ 32 = v := Nat.mod_eq_of_lt hv
  have ho : Retags s (s.setOwned i v) _ := setOwned_retags
  by_cases hlt : i + v < s.blocksAmount
  · refine ⟨(s.setOwned i v).setBefore (i + v) v, ?_, ?_⟩
    · have hb : (s.setOwned i v).getBlockMetadata (i + v) = some _ :=
        getBlockMetadata_of_lt (ho.amount ▸ hlt)
      simp only [setBlocksOwned, hmod, getBlockMetadata_of_lt hi, ho.amount, if_pos hlt, hb,
        Option.bind_eq_bind, Option.bind_some, Option.pure_def]
    · simpa [Tags.resize, hlt, ho.tags] using ho.trans setBefore_retags
  · refine ⟨s.setOwned i v, ?_, ?_⟩
    · simp only [setBlocksOwned, hmod, getBlockMetadata_of_lt hi, ho.amount, if_neg hlt,
        Option.bind_eq_bind, Option.bind_some, Option.pure_def]
    · simpa [Tags.resize, hlt] using ho

structure FreeList (s : Allocator) (fs : List Nat) : Prop where
  threaded : Threaded s.next s.prev invalidIdx s.firstFreeBlockIdx s.lastFreeBlockIdx fs
  inside : ∀ i ∈ fs, i < s.blocksAmount
  free : ∀ i ∈ fs, s.tags.used i = false
  amount_le : s.blocksAmount ≤ invalidIdx

def Unlinked (s : Allocator) (i : Nat) : Prop := s.next i = invalidIdx ∧ s.prev i = invalidIdx

def SameLinks (s s' : Allocator) (i : Nat) : Prop := s'.next i = s.next i ∧ s'.prev i = s.prev i

theorem SameLinks.unlinked (h : SameLinks s s' i) (hu : Unlinked s i) : Unlinked s' i :=
  ⟨h.1.trans hu.1, h.2.trans hu.2⟩

theorem FreeList.retag (h : FreeList s fs) (hr : Retags s s' t)
    (ht : ∀ i ∈ fs, t.used i = false) : FreeList s' fs where
  threaded := by simpa only [hr.next, hr.prev, hr.first, hr.last] using h.threaded
  inside i hi := hr.amount ▸ h.inside i hi
  free i hi := by simpa only [hr.tags] using ht i hi
  amount_le := hr.amount ▸ h.amount_le

theorem Retags.sameLinks (h : Retags s s' t) (i : Nat) : SameLinks s s' i :=
  ⟨congrFun h.next i, congrFun h.prev i⟩

theorem FreeList.relink (h : FreeList s fs) (hr : Relinks s s') {fs' : List Nat}
    (ht : Threaded s'.next s'.prev invalidIdx s'.firstFreeBlockIdx s'.lastFreeBlockIdx fs')
    (hm : ∀ i ∈ fs', i < s.blocksAmount ∧ s.tags.used i = false) : FreeList s' fs' where
  threaded := ht
  inside i hi := hr.amount ▸ (hm i hi).1
  free i hi := by simpa only [hr.tags] using (hm i hi).2
  amount_le := hr.amount ▸ h.amount_le

structure Pushed (s s' : Allocator) (fs fs' : List Nat) (i : Nat) : Prop where
  list : FreeList s' fs'
  perm : fs'.Perm (i :: fs)
  relinks : Relinks s s'
  frame : ∀ j, j ≠ i → j ∉ fs → SameLinks s s' j

theorem pushFreeNode_front (h : FreeList s fs) (hi : i < s.blocksAmount)
    (hu : s.tags.used i = false) (hm : i ∉ fs) (hl : Unlinked s i)
    (hf : s.firstFreeBlockIdx ≠ invalidIdx) :
    Pushed s { (s.setPrev s.firstFreeBlockIdx i).setNext i s.firstFreeBlockIdx with
      firstFreeBlockIdx := i } fs (i :: fs) i := by
  obtain ⟨hfm, -⟩ := h.threaded.first_mem hf
  have hin : i ≠ invalidIdx := Nat.ne_of_lt (Nat.lt_of_lt_of_le hi h.amount_le)
  have hr : Relinks s { (s.setPrev s.firstFreeBlockIdx i).setNext i s.firstFreeBlockIdx with
      firstFreeBlockIdx := i } := ⟨setNext_tags.trans setPrev_tags, rfl, rfl, rfl⟩
  have hnext : ({ (s.setPrev s.firstFreeBlockIdx i).setNext i s.firstFreeBlockIdx with
      firstFreeBlockIdx := i } : Allocator).next = update s.next i s.firstFreeBlockIdx :=
    setNext_next.trans (by rw [setPrev_next])
  have hprev : ({ (s.setPrev s.firstFreeBlockIdx i).setNext i s.firstFreeBlockIdx with
      firstFreeBlockIdx := i } : Allocator).prev = update s.prev s.firstFreeBlockIdx i :=
    setNext_prev.trans setPrev_prev
  refine ⟨h.relink hr ?_ ?_, List.Perm.refl _, hr, fun j hj hjm => ?_⟩
  · rw [hnext, hprev]
    exact h.threaded.push_front hf hm hin hl.2
  · intro j hj
    rcases List.mem_cons.mp hj with rfl | hj
    · exact ⟨hi, hu⟩
    · exact ⟨h.inside j hj, h.free j hj⟩
  · rw [SameLinks, hnext, hprev, update_of_ne hj, update_of_ne (ne_of_mem_of_not_mem hfm hjm).symm]
    exact ⟨rfl, rfl⟩

theorem pushFreeNode_back (h : FreeList s fs) (hi : i < s.blocksAmount)
    (hu : s.tags.used i = false) (hm : i ∉ fs) (hl : Unlinked s i)
    (hf : s.firstFreeBlockIdx ≠ invalidIdx) :
    Pushed s { (s.setNext s.lastFreeBlockIdx i).setPrev i s.lastFreeBlockIdx with
      lastFreeBlockIdx := i } fs (fs ++ [i]) i := by
  obtain ⟨hlm, -⟩ := h.threaded.last_mem (h.threaded.last_ne hf)
  have hin : i ≠ invalidIdx := Nat.ne_of_lt (Nat.lt_of_lt_of_le hi h.amount_le)
  have hr : Relinks s { (s.setNext s.lastFreeBlockIdx i).setPrev i s.lastFreeBlockIdx with
      lastFreeBlockIdx := i } := ⟨setPrev_tags.trans setNext_tags, rfl, rfl, rfl⟩
  have hnext : ({ (s.setNext s.lastFreeBlockIdx i).setPrev i s.lastFreeBlockIdx with
      lastFreeBlockIdx := i } : Allocator).next = update s.next s.lastFreeBlockIdx i :=
    setPrev_next.trans setNext_next
  have hprev : ({ (s.setNext s.lastFreeBlockIdx i).setPrev i s.lastFreeBlockIdx with
      lastFreeBlockIdx := i } : Allocator).prev = update s.prev i s.lastFreeBlockIdx :=
    setPrev_prev.trans (by rw [setNext_prev])
  refine ⟨h.relink hr ?_ ?_, List.perm_append_singleton i fs, hr, fun j hj hjm => ?_⟩
  · rw [hnext, hprev]
    exact h.threaded.push_back hf hm hin hl.1
  · intro j hj
    rcases List.mem_append.mp hj with hj | hj
    · exact ⟨h.inside j hj, h.free j hj⟩
    · obtain rfl : j = i := by simpa using hj
      exact ⟨hi, hu⟩
  · rw [SameLinks, hnext, hprev, update_of_ne hj, update_of_ne (ne_of_mem_of_not_mem hlm hjm).symm]
    exact ⟨rfl, rfl⟩

theorem pushFreeNode_spec (h : FreeList s fs) (hi : i < s.blocksAmount)
    (hu : s.tags.used i = false) (hm : i ∉ fs) (hl : Unlinked s i) :
    ∃ s' fs', s.pushFreeNode build i = some s' ∧ Pushed s s' fs fs' i := by
  have hn : (s.blocks i).nextFreeBlockIdx = invalidIdx := hl.1
  have hp : (s.blocks i).prevFreeBlockIdx = invalidIdx := hl.2
  have hui : (s.blocks i).isUsed = false := hu
  have hin : i ≠ invalidIdx := Nat.ne_of_lt (Nat.lt_of_lt_of_le hi h.amount_le)
  simp only [pushFreeNode, getBlockMetadata_of_lt hi, Option.bind_eq_bind, Option.bind_some,
    ensure_of hn, ensure_of hp, ensure_of hui, Option.pure_def]
  by_cases hf : s.firstFreeBlockIdx = invalidIdx
  · obtain rfl := h.threaded.eq_nil hf
    have hr : Relinks s { s with firstFreeBlockIdx := i, lastFreeBlockIdx := i } :=
      ⟨rfl, rfl, rfl, rfl⟩
    refine ⟨_, [i], if_pos hf, h.relink hr ?_ ?_, .refl _, hr, fun _ _ _ => ⟨rfl, rfl⟩⟩
    · exact threaded_singleton hl.1 hl.2 hin
    · simpa using And.intro hi hu
  · rw [if_neg hf]
    by_cases hb : s.blocksAmount / 4 < (s.blocks i).blocksOwned
    · obtain ⟨hfm, hfp⟩ := h.threaded.first_mem hf
      have hfp : (s.blocks s.firstFreeBlockIdx).prevFreeBlockIdx = invalidIdx := hfp
      have hfu : (s.blocks s.firstFreeBlockIdx).isUsed = false := h.free _ hfm
      have hne : s.firstFreeBlockIdx ≠ i := ne_of_mem_of_not_mem hfm hm
      simp only [if_pos hb, getBlockMetadata_of_lt (h.inside _ hfm), Option.bind_some,
        ensure_of hfp, ensure_of hfu, ensure_of hne]
      exact ⟨_, _, rfl, pushFreeNode_front h hi hu hm hl hf⟩
    · obtain ⟨hlm, hln⟩ := h.threaded.last_mem (h.threaded.last_ne hf)
      have hln : (s.blocks s.lastFreeBlockIdx).nextFreeBlockIdx = invalidIdx := hln
      have hlu : (s.blocks s.lastFreeBlockIdx).isUsed = false := h.free _ hlm
      have hne : s.lastFreeBlockIdx ≠ i := ne_of_mem_of_not_mem hlm hm
      simp only [if_neg hb, getBlockMetadata_of_lt (h.inside _ hlm), Option.bind_some,
        ensure_of hln, ensure_of hlu, ensure_of hne]
      exact ⟨_, _, rfl, pushFreeNode_back h hi hu hm hl hf⟩

structure Removed (s s' : Allocator) (fs fs' : List Nat) (i : Nat) : Prop where
  list : FreeList s' fs'
  relinks : Relinks s s'
  unlinked : Unlinked s' i
  frame : ∀ j, j ∉ fs → SameLinks s s' j

theorem unlinkNextNeighbour_spec (hi : i < s.blocksAmount)
    (hx : s.next i ≠ invalidIdx → s.next i < s.blocksAmount ∧ s.tags.used (s.next i) = false ∧
      s.prev (s.next i) = i) :
    ∃ s', s.unlinkNextNeighbour build i = some s' ∧ Relinks s s' ∧ s'.next = s.next ∧
      s'.prev = (if s.next i = invalidIdx then s.prev else
        update s.prev (s.next i) (s.prev i)) ∧
      s'.firstFreeBlockIdx = s.firstFreeBlockIdx ∧ s'.lastFreeBlockIdx = s.lastFreeBlockIdx := by
  simp only [unlinkNextNeighbour, getBlockMetadata_of_lt hi, Option.bind_eq_bind,
    Option.bind_some, Option.pure_def]
  by_cases hn : s.next i = invalidIdx
  · exact ⟨s, if_neg (not_not.mpr hn), ⟨rfl, rfl, rfl, rfl⟩, rfl, (if_pos hn).symm, rfl, rfl⟩
  · obtain ⟨h1, h2, h3⟩ := hx hn
    have hg : s.getBlockMetadata (s.blocks i).nextFreeBlockIdx = some _ :=
      getBlockMetadata_of_lt h1
    have h2 : (s.blocks (s.blocks i).nextFreeBlockIdx).isUsed = false := h2
    have h3 : (s.blocks (s.blocks i).nextFreeBlockIdx).prevFreeBlockIdx = i := h3
    refine ⟨s.setPrev (s.next i) (s.prev i), ?_, ⟨setPrev_tags, rfl, rfl, rfl⟩, setPrev_next, ?_,
      rfl, rfl⟩
    · refine (if_pos hn).trans ?_
      simp only [hg, Option.bind_some, ensure_of h2, ensure_of h3]
      rfl
    · rw [if_neg hn, setPrev_prev]

theorem unlinkPrevNeighbour_spec (hi : i < s.blocksAmount)
    (hx : s.prev i ≠ invalidIdx → s.prev i < s.blocksAmount ∧ s.tags.used (s.prev i) = false ∧
      s.next (s.prev i) = i) :
    ∃ s', s.unlinkPrevNeighbour build i = some s' ∧ Relinks s s' ∧ s'.prev = s.prev ∧
      s'.next = (if s.prev i = invalidIdx then s.next else
        update s.next (s.prev i) (s.next i)) ∧
      s'.firstFreeBlockIdx = s.firstFreeBlockIdx ∧ s'.lastFreeBlockIdx = s.lastFreeBlockIdx := by
  simp only [unlinkPrevNeighbour, getBlockMetadata_of_lt hi, Option.bind_eq_bind,
    Option.bind_some, Option.pure_def]
  by_cases hn : s.prev i = invalidIdx
  · exact ⟨s, if_neg (not_not.mpr hn), ⟨rfl, rfl, rfl, rfl⟩, rfl, (if_pos hn).symm, rfl, rfl⟩
  · obtain ⟨h1, h2, h3⟩ := hx hn
    have hg : s.getBlockMetadata (s.blocks i).prevFreeBlockIdx = some _ :=
      getBlockMetadata_of_lt h1
    have h2 : (s.blocks (s.blocks i).prevFreeBlockIdx).isUsed = false := h2
    have h3 : (s.blocks (s.blocks i).prevFreeBlockIdx).nextFreeBlockIdx = i := h3
    refine ⟨s.setNext (s.prev i) (s.next i), ?_, ⟨setNext_tags, rfl, rfl, rfl⟩, setNext_prev, ?_,
      rfl, rfl⟩
    · refine (if_pos hn).trans ?_
      simp only [hg, Option.bind_some, ensure_of h2, ensure_of h3]
      rfl
    · rw [if_neg hn, setNext_next]

theorem unlinkEnds_spec (hi : i < s.blocksAmount)
    (hf : s.firstFreeBlockIdx = i → s.prev i = invalidIdx)
    (hl : s.lastFreeBlockIdx = i → s.next i = invalidIdx) :
    s.unlinkEnds build i = some { s with
      firstFreeBlockIdx := if s.firstFreeBlockIdx = i then s.next i else s.firstFreeBlockIdx
      lastFreeBlockIdx := if s.lastFreeBlockIdx = i then s.prev i else s.lastFreeBlockIdx } := by
  have h1 : s.firstFreeBlockIdx = i →
      ensure build ((s.blocks i).prevFreeBlockIdx = invalidIdx) = some () :=
    fun h => ensure_of (hf h)
  have h2 : s.lastFreeBlockIdx = i →
      ensure build ((s.blocks i).nextFreeBlockIdx = invalidIdx) = some () :=
    fun h => ensure_of (hl h)
  simp only [unlinkEnds, getBlockMetadata_of_lt hi, Option.bind_eq_bind, Option.bind_some,
    Option.pure_def]
  by_cases hfi : s.firstFreeBlockIdx = i <;> by_cases hli : s.lastFreeBlockIdx = i <;>
    simp only [hfi, hli, if_true, if_false, h1, h2, Option.bind_some] <;> rfl

structure Detachable (s : Allocator) (i : Nat) : Prop where
  lt : i < s.blocksAmount
  free : s.tags.used i = false
  next_ne : s.next i ≠ i
  prev_ne : s.prev i ≠ i
  next_back : s.next i ≠ invalidIdx →
    s.next i < s.blocksAmount ∧ s.tags.used (s.next i) = false ∧ s.prev (s.next i) = i
  prev_back : s.prev i ≠ invalidIdx →
    s.prev i < s.blocksAmount ∧ s.tags.used (s.prev i) = false ∧ s.next (s.prev i) = i
  first_end : s.firstFreeBlockIdx = i → s.prev i = invalidIdx
  last_end : s.lastFreeBlockIdx = i → s.next i = invalidIdx

theorem unlinkFreeNode_links (h : Detachable s i) :
    ∃ s', s.unlinkFreeNode build i = some s' ∧ Relinks s s' ∧
      s'.next = unlinkNext s.next s.prev invalidIdx i ∧
      s'.prev = unlinkPrev s.next s.prev invalidIdx i ∧
      s'.firstFreeBlockIdx = (if s.firstFreeBlockIdx = i then s.next i else s.firstFreeBlockIdx) ∧
      s'.lastFreeBlockIdx = (if s.lastFreeBlockIdx = i then s.prev i else s.lastFreeBlockIdx) := by
  have hu : (s.blocks i).isUsed = false := h.free
  have hpn : (s.blocks i).prevFreeBlockIdx ≠ i := h.prev_ne
  have hnn : (s.blocks i).nextFreeBlockIdx ≠ i := h.next_ne
  obtain ⟨s1, e1, r1, n1, p1, f1, l1⟩ := unlinkNextNeighbour_spec build h.lt h.next_back
  have hp1 : s1.prev i = s.prev i := by
    rw [p1]
    split
    · rfl
    · exact update_of_ne h.next_ne.symm _ _
  have hback : s1.prev i ≠ invalidIdx → s1.prev i < s1.blocksAmount ∧
      s1.tags.used (s1.prev i) = false ∧ s1.next (s1.prev i) = i := by
    rw [hp1, r1.amount, r1.tags, n1]
    exact h.prev_back
  obtain ⟨s2, e2, r2, p2, n2, f2, l2⟩ :=
    unlinkPrevNeighbour_spec build (r1.amount ▸ h.lt) hback
  have hr := r1.trans r2
  have hp2 : s2.prev i = s.prev i := by rw [p2, hp1]
  have hn2 : s2.next i = s.next i := by
    rw [n2, hp1, n1]
    split
    · rfl
    · exact update_of_ne h.prev_ne.symm _ _
  obtain ⟨s3, e3, r3, n3, p3, f3, l3⟩ : ∃ s3, s2.unlinkEnds build i = some s3 ∧ Relinks s2 s3 ∧
      s3.next = s2.next ∧ s3.prev = s2.prev ∧
      s3.firstFreeBlockIdx = (if s2.firstFreeBlockIdx = i then s2.next i else s2.firstFreeBlockIdx) ∧
      s3.lastFreeBlockIdx = (if s2.lastFreeBlockIdx = i then s2.prev i else s2.lastFreeBlockIdx) := by
    refine ⟨_, unlinkEnds_spec build (hr.amount ▸ h.lt) ?_ ?_, ⟨rfl, rfl, rfl, rfl⟩, rfl, rfl, rfl, rfl⟩
    · rw [f2, f1, hp2]
      exact h.first_end
    · rw [l2, l1, hn2]
      exact h.last_end
  refine ⟨(s3.setNext i invalidIdx).setPrev i invalidIdx, ?_,
    (hr.trans r3).trans ⟨setPrev_tags.trans setNext_tags, rfl, rfl, rfl⟩, ?_, ?_, ?_, ?_⟩
  · simp only [unlinkFreeNode, getBlockMetadata_of_lt h.lt, Option.bind_eq_bind, Option.bind_some,
      ensure_of hu, ensure_of hpn, ensure_of hnn, e1, e2, e3, Option.pure_def]
  · rw [setPrev_next, setNext_next, n3, n2, hp1, n1]
    rfl
  · rw [setPrev_prev, setNext_prev, p3, p2, p1]
    rfl
  · exact f3.trans (by rw [f2, f1, hn2])
  · exact l3.trans (by rw [l2, l1, hp2])

theorem FreeList.detachable (h : FreeList s (pre ++ i :: post)) : Detachable s i where
  lt := h.inside i (by simp)
  free := h.free i (by simp)
  next_ne e := by
    have hn : s.next i ≠ invalidIdx := fun hx => h.threaded.proper (by simp [← hx, e])
    exact (List.nodup_cons.mp (List.nodup_append.mp h.threaded.nodup).2.1).1
      (e ▸ (h.threaded.next_mem hn).1)
  prev_ne e := by
    have hp : s.prev i ≠ invalidIdx := fun hx => h.threaded.proper (by simp [← hx, e])
    exact (List.nodup_append.mp h.threaded.nodup).2.2 i (e ▸ (h.threaded.prev_mem hp).1) i
      (by simp) rfl
  next_back hn := by
    obtain ⟨hm, hb⟩ := h.threaded.next_mem hn
    exact ⟨h.inside _ (by simp [hm]), h.free _ (by simp [hm]), hb⟩
  prev_back hp := by
    obtain ⟨hm, hb⟩ := h.threaded.prev_mem hp
    exact ⟨h.inside _ (by simp [hm]), h.free _ (by simp [hm]), hb⟩
  first_end e := by
    have hne : s.firstFreeBlockIdx ≠ invalidIdx := by
      rw [e]
      exact fun hx => h.threaded.proper (by simp [← hx])
    exact e ▸ (h.threaded.first_mem hne).2
  last_end e := by
    have hne : s.lastFreeBlockIdx ≠ invalidIdx := by
      rw [e]
      exact fun hx => h.threaded.proper (by simp [← hx])
    exact e ▸ (h.threaded.last_mem hne).2

theorem unlinkFreeNode_spec (h : FreeList s (pre ++ i :: post)) :
    ∃ s', s.unlinkFreeNode build i = some s' ∧ Removed s s' (pre ++ i :: post) (pre ++ post) i := by
  obtain ⟨s', e, hr, hn, hp, hf, hl⟩ := unlinkFreeNode_links build h.detachable
  refine ⟨s', e, h.relink hr ?_ ?_, hr, ⟨?_, ?_⟩, fun j hj => ?_⟩
  · rw [hn, hp, hf, hl]
    exact h.threaded.unlink
  · intro j hj
    have hj : j ∈ pre ++ i :: post := by
      simp only [List.mem_append, List.mem_cons] at hj ⊢
      tauto
    exact ⟨h.inside j hj, h.free j hj⟩
  · simp [hn, unlinkNext]
  · simp [hp, unlinkPrev]
  · have hji : j ≠ i := fun e => hj (by simp [e])
    rw [SameLinks, hn, hp]
    refine ⟨unlinkNext_of_ne hji fun hp e => hj ?_, unlinkPrev_of_ne hji fun hn e => hj ?_⟩
    · simp [e, (h.threaded.prev_mem hp).1]
    · simp [e, (h.threaded.next_mem hn).1]

theorem FreeList.first_ne (h : FreeList s fs) (hi : i < s.blocksAmount) (hm : i ∉ fs) :
    s.firstFreeBlockIdx ≠ i := by
  rintro rfl
  have hin : s.firstFreeBlockIdx ≠ invalidIdx := Nat.ne_of_lt (Nat.lt_of_lt_of_le hi h.amount_le)
  exact hm (h.threaded.first_mem hin).1

theorem FreeList.last_ne (h : FreeList s fs) (hi : i < s.blocksAmount) (hm : i ∉ fs) :
    s.lastFreeBlockIdx ≠ i := by
  rintro rfl
  have hin : s.lastFreeBlockIdx ≠ invalidIdx := Nat.ne_of_lt (Nat.lt_of_lt_of_le hi h.amount_le)
  exact hm (h.threaded.last_mem hin).1

theorem FreeList.idle (h : FreeList s fs) (hi : i < s.blocksAmount) (hu : s.tags.used i = false)
    (hm : i ∉ fs) (hl : Unlinked s i) : Detachable s i := by
  have hin : i ≠ invalidIdx := Nat.ne_of_lt (Nat.lt_of_lt_of_le hi h.amount_le)
  exact {
    lt := hi
    free := hu
    next_ne := hl.1 ▸ hin.symm
    prev_ne := hl.2 ▸ hin.symm
    next_back := fun hn => absurd hl.1 hn
    prev_back := fun hp => absurd hl.2 hp
    first_end := fun e => absurd e (h.first_ne hi hm)
    last_end := fun e => absurd e (h.last_ne hi hm) }

theorem unlinkFreeNode_idle (h : FreeList s fs) (hi : i < s.blocksAmount)
    (hu : s.tags.used i = false) (hm : i ∉ fs) (hl : Unlinked s i) :
    ∃ s', s.unlinkFreeNode build i = some s' ∧ FreeList s' fs ∧ Relinks s s' ∧
      ∀ j, SameLinks s s' j := by
  obtain ⟨s', e, hr, hn, hp, hf, hlast⟩ := unlinkFreeNode_links build (h.idle hi hu hm hl)
  have hn : s'.next = s.next := by
    rw [hn, unlinkNext, if_pos hl.2]
    exact update_eq_self_iff.mpr hl.1.symm
  have hp : s'.prev = s.prev := by
    rw [hp, unlinkPrev, if_pos hl.1]
    exact update_eq_self_iff.mpr hl.2.symm
  rw [if_neg (h.first_ne hi hm)] at hf
  rw [if_neg (h.last_ne hi hm)] at hlast
  refine ⟨s', e, h.relink hr ?_ fun j hj => ⟨h.inside j hj, h.free j hj⟩, hr,
    fun j => ⟨congrFun hn j, congrFun hp j⟩⟩
  simpa only [hn, hp, hf, hlast] using h.threaded

end Corosig.Allocator
