import Corosig.Container.FreeList

namespace Corosig.Allocator
open Function BoundaryTags LinkedList

structure Layout (s : Allocator) (cs : List Block) (fs : List Nat) : Prop where
  amount : s.blocksAmount = total cs
  tagged : Tagged cut s.tags 0 0 cs
  list : FreeList s fs
  perm : fs.Perm (starts false 0 cs)
  idle : ∀ i ∈ starts true 0 cs, Unlinked s i

structure Hole (s : Allocator) (pre : List Block) (k : Nat) (u : Bool) (post : List Block)
    (fs : List Nat) : Prop where
  amount : s.blocksAmount = total (pre ++ ⟨k, u⟩ :: post)
  tagged : Tagged cut s.tags 0 0 (pre ++ ⟨k, u⟩ :: post)
  list : FreeList s fs
  perm : fs.Perm (starts false 0 pre ++ starts false (total pre + k) post)
  idle : ∀ i ∈ starts true 0 pre ++ starts true (total pre + k) post, Unlinked s i
  unlinked : Unlinked s (total pre)

structure Kept (s s' : Allocator) : Prop where
  mem : s'.mem = s.mem
  used : s'.used = s.used
  peak : s'.peak = s.peak

variable (build : Build) {s s' : Allocator} {pre post cs : List Block} {k m i : Nat} {u v : Bool}
  {fs : List Nat} {t : Tags}

theorem Kept.trans {s'' : Allocator} (h : Kept s s') (h' : Kept s' s'') : Kept s s'' :=
  ⟨h'.mem.trans h.mem, h'.used.trans h.used, h'.peak.trans h.peak⟩

theorem Retags.kept (h : Retags s s' t) : Kept s s' := ⟨h.mem, h.used, h.peak⟩

theorem Relinks.kept (h : Relinks s s') : Kept s s' := ⟨h.mem, h.used, h.peak⟩

theorem Kept.amount (h : Kept s s') : s'.blocksAmount = s.blocksAmount := by
  simp only [blocksAmount, h.mem]

theorem FreeList.notMem_of_used (h : FreeList s fs) (hu : s.tags.used i = true) : i ∉ fs :=
  fun hm => Bool.false_ne_true ((h.free i hm).symm.trans hu)

theorem starts_middle : starts v 0 (pre ++ ⟨k, u⟩ :: post) =
    starts v 0 pre ++ ((if u = v then [total pre] else []) ++ starts v (total pre + k) post) := by
  cases u <;> cases v <;> simp [starts_append, starts]

theorem starts_skip (huv : u ≠ v) : starts v 0 (pre ++ ⟨k, u⟩ :: post) =
    starts v 0 pre ++ starts v (total pre + k) post := by
  rw [starts_middle, if_neg huv, List.nil_append]

theorem starts_perm : (starts u 0 (pre ++ ⟨k, u⟩ :: post)).Perm
    (total pre :: (starts u 0 pre ++ starts u (total pre + k) post)) := by
  rw [starts_middle, if_pos rfl]
  exact List.perm_middle

theorem metadata_of_tagged {c : Block} (h : Tagged cut s.tags 0 0 (pre ++ c :: post)) :
    (s.blocks (total pre)).blocksBefore = cut (lastOwned 0 pre) ∧
      (s.blocks (total pre)).blocksOwned = c.owned ∧ (s.blocks (total pre)).isUsed = c.used := by
  obtain ⟨hb, ho, hu, -⟩ := h.at
  rw [Nat.zero_add] at hb ho hu
  exact ⟨hb, ho, hu⟩

theorem Layout.inside (h : Layout s (pre ++ ⟨k, u⟩ :: post) fs) :
    total pre < s.blocksAmount ∧ total pre + k ≤ s.blocksAmount := by
  have hk : 0 < k := h.tagged.at.2.2.2
  simp only [h.amount, total_append, total_cons]
  omega

theorem Hole.inside (h : Hole s pre k u post fs) :
    total pre < s.blocksAmount ∧ total pre + k ≤ s.blocksAmount := by
  have hk : 0 < k := h.tagged.at.2.2.2
  simp only [h.amount, total_append, total_cons]
  omega

theorem notMem_starts (h : Tagged cut t 0 0 (pre ++ ⟨k, u⟩ :: post)) (hi : total pre ≤ i)
    (hk : i < total pre + k) : i ∉ starts v 0 pre ++ starts v (total pre + k) post := by
  obtain ⟨h1, h2⟩ := tagged_append.mp h
  intro hm
  rcases List.mem_append.mp hm with hm | hm
  · have := h1.boundary_fits (starts_subset hm)
    omega
  · have := le_of_mem_boundaries (starts_subset hm)
    omega

theorem Hole.notMem (h : Hole s pre k u post fs) (hi : total pre ≤ i) (hk : i < total pre + k) :
    i ∉ fs :=
  fun hm => notMem_starts h.tagged hi hk (h.perm.subset hm)

theorem Layout.notMem (h : Layout s (pre ++ ⟨k, u⟩ :: post) fs) (hi : total pre < i)
    (hk : i < total pre + k) : i ∉ fs := by
  intro hm
  have hs := h.perm.subset hm
  rw [starts_middle] at hs
  refine notMem_starts (v := false) h.tagged (Nat.le_of_lt hi) hk ?_
  simp only [List.mem_append] at hs ⊢
  rcases hs with hs | hs | hs
  · exact .inl hs
  · split at hs <;> simp at hs
    omega
  · exact .inr hs

theorem Hole.used_of_mem (h : Hole s pre k u post fs)
    (hi : i ∈ starts true 0 pre ++ starts true (total pre + k) post) : s.tags.used i = true := by
  refine h.tagged.used_of_mem_starts ?_
  rw [starts_middle]
  simp only [List.mem_append] at hi ⊢
  tauto

theorem Layout.detach (h : Layout s (pre ++ ⟨k, false⟩ :: post) fs) :
    ∃ s' fs', s.unlinkFreeNode build (total pre) = some s' ∧ Hole s' pre k false post fs' ∧
      Kept s s' := by
  have hp := h.perm.trans starts_perm
  obtain ⟨xs, ys, rfl⟩ := List.append_of_mem (hp.mem_iff.mpr (List.mem_cons_self))
  obtain ⟨s', e, hr⟩ := unlinkFreeNode_spec build h.list
  refine ⟨s', xs ++ ys, e, ⟨?_, ?_, hr.list, ?_, fun j hj => ?_, hr.unlinked⟩, hr.relinks.kept⟩
  · rw [hr.relinks.amount, h.amount]
  · exact hr.relinks.tags ▸ h.tagged
  · exact (List.perm_middle.symm.trans hp).cons_inv
  · rw [← starts_skip (k := k) Bool.false_ne_true] at hj
    exact (hr.frame j (h.list.notMem_of_used (h.tagged.used_of_mem_starts hj))).unlinked
      (h.idle j hj)

theorem Layout.hole (h : Layout s (pre ++ ⟨k, true⟩ :: post) fs) : Hole s pre k true post fs where
  amount := h.amount
  tagged := h.tagged
  list := h.list
  perm := starts_skip (Ne.symm Bool.false_ne_true) ▸ h.perm
  idle i hi := by
    refine h.idle i ?_
    rw [starts_middle]
    simp only [List.mem_append] at hi ⊢
    tauto
  unlinked := h.idle _ (by simp [starts_middle])

theorem Hole.fill (h : Hole s pre k true post fs) : Layout s (pre ++ ⟨k, true⟩ :: post) fs where
  amount := h.amount
  tagged := h.tagged
  list := h.list
  perm := by
    rw [starts_skip (Ne.symm Bool.false_ne_true)]
    exact h.perm
  idle i hi := by
    rcases List.mem_cons.mp (starts_perm.mem_iff.mp hi) with rfl | hi
    · exact h.unlinked
    · exact h.idle i hi

theorem Hole.attach (h : Hole s pre k false post fs) :
    ∃ s' fs', s.pushFreeNode build (total pre) = some s' ∧
      Layout s' (pre ++ ⟨k, false⟩ :: post) fs' ∧ Kept s s' := by
  obtain ⟨-, -, hu⟩ := metadata_of_tagged h.tagged
  have hk : 0 < k := h.tagged.at.2.2.2
  have hm : total pre ∉ fs := h.notMem (Nat.le_refl _) (Nat.lt_add_of_pos_right hk)
  obtain ⟨s', fs', e, hp⟩ := pushFreeNode_spec build h.list h.inside.1 hu hm h.unlinked
  refine ⟨s', fs', e, ⟨?_, ?_, hp.list, ?_, fun j hj => ?_⟩, hp.relinks.kept⟩
  · rw [hp.relinks.amount, h.amount]
  · exact hp.relinks.tags ▸ h.tagged
  · exact (hp.perm.trans (h.perm.cons _)).trans starts_perm.symm
  · rw [starts_skip Bool.false_ne_true] at hj
    have hjm := h.list.notMem_of_used (h.used_of_mem hj)
    have hne : j ≠ total pre := by
      rintro rfl
      exact notMem_starts h.tagged (Nat.le_refl _) (Nat.lt_add_of_pos_right hk) hj
    exact (hp.frame j hne hjm).unlinked (h.idle j hj)

theorem Hole.unlink (h : Hole s pre k false post fs) :
    ∃ s', s.unlinkFreeNode build (total pre) = some s' ∧ Hole s' pre k false post fs ∧
      Kept s s' := by
  obtain ⟨-, -, hu⟩ := metadata_of_tagged h.tagged
  have hk : 0 < k := h.tagged.at.2.2.2
  have hm : total pre ∉ fs := h.notMem (Nat.le_refl _) (Nat.lt_add_of_pos_right hk)
  obtain ⟨s', e, hl, hr, hs⟩ := unlinkFreeNode_idle build h.list h.inside.1 hu hm h.unlinked
  refine ⟨s', e, ⟨?_, ?_, hl, h.perm, fun j hj => (hs j).unlinked (h.idle j hj),
    (hs _).unlinked h.unlinked⟩, hr.kept⟩
  · rw [hr.amount, h.amount]
  · exact hr.tags ▸ h.tagged

theorem Hole.mark (h : Hole s pre k u post fs) : Hole (s.setUsed (total pre) v) pre k v post fs := by
  have hr : Retags s (s.setUsed (total pre) v) _ := setUsed_retags
  have hk : 0 < k := h.tagged.at.2.2.2
  refine ⟨?_, ?_, h.list.retag hr fun j hj => ?_, h.perm,
    fun j hj => (hr.sameLinks j).unlinked (h.idle j hj), (hr.sameLinks _).unlinked h.unlinked⟩
  · rw [hr.amount, h.amount]
    simp
  · rw [hr.tags]
    exact h.tagged.mark (Nat.zero_add _).symm
  · have hne : j ≠ total pre := by
      rintro rfl
      exact h.notMem (Nat.le_refl _) (Nat.lt_add_of_pos_right hk) hj
    exact (update_of_ne hne _ _).trans (h.list.free j hj)

theorem Layout.small (h : Layout s cs fs) : total cs < 2 ^ 32 := by
  have hle := h.list.amount_le
  rw [h.amount] at hle
  exact Nat.lt_of_le_of_lt hle (by decide)

theorem Hole.small (h : Hole s pre k u post fs) : total pre + k < 2 ^ 32 :=
  Nat.lt_of_le_of_lt (Nat.le_trans h.inside.2 h.list.amount_le) (by decide)

structure Initialized (s s' : Allocator) (i m : Nat) (fs : List Nat) : Prop where
  list : FreeList s' fs
  tags : s'.tags = (s.tags.mark i false).resize cut s.blocksAmount i m
  unlinked : Unlinked s' i
  frame : ∀ j, j ≠ i → SameLinks s s' j
  kept : Kept s s'

theorem initialize_spec (h : FreeList s fs) (hi : i < s.blocksAmount) (hm : i ∉ fs)
    (hv : m < 2 ^ 32) :
    ∃ s', (s.defaultInitialize i).setBlocksOwned i m = some s' ∧ Initialized s s' i m fs := by
  have hk : Kept s (s.defaultInitialize i) := ⟨rfl, rfl, rfl⟩
  have ht : (s.defaultInitialize i).tags = s.tags.mark i false := by simp [defaultInitialize]
  have hn : (s.defaultInitialize i).next = update s.next i invalidIdx := by
    simp [defaultInitialize]
  have hp : (s.defaultInitialize i).prev = update s.prev i invalidIdx := by
    simp [defaultInitialize]
  have hne : ∀ j ∈ fs, j ≠ i := fun j hj e => hm (e ▸ hj)
  have hl : FreeList (s.defaultInitialize i) fs := by
    refine ⟨⟨?_, h.threaded.first_eq, h.threaded.last_eq, h.threaded.nodup, h.threaded.proper⟩,
      h.inside, fun j hj => ?_, h.amount_le⟩
    · rw [hn, hp]
      exact h.threaded.linked.congr (fun j hj => update_of_ne (hne j hj) _ _)
        (fun j hj => update_of_ne (hne j hj) _ _)
    · rw [ht]
      exact (update_of_ne (hne j hj) _ _).trans (h.free j hj)
  obtain ⟨s', e, hr⟩ := setBlocksOwned_spec (s := s.defaultInitialize i) hi hv
  refine ⟨s', e, hl.retag hr hl.free, ?_, (hr.sameLinks i).unlinked ?_, fun j hj => ?_,
    hk.trans hr.kept⟩
  · rw [hr.tags, ht, hk.amount]
  · simp [Unlinked, hn, hp]
  · rw [SameLinks, hr.next, hr.prev, hn, hp]
    exact ⟨update_of_ne hj _ _, update_of_ne hj _ _⟩

end Corosig.Allocator
