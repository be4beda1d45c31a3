import Corosig.Container.Layout

namespace Corosig.Allocator
open Function BoundaryTags LinkedList

variable (build : Build) {s s' : Allocator} {pre post cs : List Block} {k m i : Nat} {u v : Bool}
  {fs : List Nat} {t : Tags}

def JoinsPrevious (pre : List Block) (k : Nat) (pre' : List Block) (k' : Nat) : Prop :=
  (pre' = pre ∧ k' = k ∧ EndsUsed pre) ∨ ∃ m, pre = pre' ++ [⟨m, false⟩] ∧ k' = m + k

def JoinsNext (k : Nat) (post : List Block) (k' : Nat) (post' : List Block) : Prop :=
  (post' = post ∧ k' = k ∧ StartsUsed post) ∨ ∃ m, post = ⟨m, false⟩ :: post' ∧ k' = k + m

theorem mergePrevious_join (h : Hole s (pre ++ [⟨m, false⟩]) k true post fs) :
    ∃ s₁ s₂ fs', s.setBlocksOwned (total pre) (m + k) = some s₁ ∧
      s₁.unlinkFreeNode build (total pre) = some s₂ ∧ Hole s₂ pre (m + k) false post fs' ∧
      Kept s s₂ := by
  have hin := h.inside
  have hsmall := h.small
  simp only [total_append, total_cons, total_nil] at hin hsmall
  obtain ⟨s₁, e₁, r₁⟩ := setBlocksOwned_spec (s := s) (i := total pre) (v := m + k)
    (by omega) (by omega)
  have ht : Tagged cut s₁.tags 0 0 (pre ++ ⟨m + k, false⟩ :: post) := by
    have ht := h.tagged
    have ha := h.amount
    rw [List.append_assoc] at ht ha
    rw [r₁.tags]
    exact ht.merge (Nat.zero_add _).symm (ha.trans (Nat.zero_add _).symm)
  have hl : Layout s₁ (pre ++ ⟨m + k, false⟩ :: post) fs := by
    refine ⟨?_, ht, h.list.retag r₁ h.list.free, ?_, fun i hi => (r₁.sameLinks i).unlinked ?_⟩
    · rw [r₁.amount, h.amount]
      simp only [total_append, total_cons, total_nil]
      omega
    · simpa [starts_append, starts, Nat.add_assoc] using h.perm
    · refine h.idle i ?_
      simpa [starts_append, starts, Nat.add_assoc] using hi
  obtain ⟨s₂, fs', e₂, h₂, k₂⟩ := hl.detach build
  exact ⟨s₁, s₂, fs', e₁, e₂, h₂, r₁.kept.trans k₂⟩

theorem mergeNext_join (h : Hole s pre k u (⟨m, false⟩ :: post) fs) :
    ∃ s₁ s₂ fs', s.setBlocksOwned (total pre) (k + m) = some s₁ ∧
      Unlinked s₁ (total pre) ∧ total pre < s₁.blocksAmount ∧
      s₁.unlinkFreeNode build (total pre + k) = some s₂ ∧ Hole s₂ pre (k + m) u post fs' ∧
      Kept s s₂ := by
  have hin := h.inside
  have hamount : s.blocksAmount = total (pre ++ ⟨k + m, u⟩ :: post) := by
    rw [h.amount]
    simp only [total_append, total_cons, Nat.add_assoc]
  have hsmall : total pre + (k + m) < 2 ^ 32 := by
    have hle := h.list.amount_le
    rw [hamount] at hle
    simp only [total_append, total_cons] at hle
    exact Nat.lt_of_le_of_lt (by omega) (show invalidIdx < 2 ^ 32 by decide)
  obtain ⟨s₁, e₁, r₁⟩ := setBlocksOwned_spec hin.1 (v := k + m) (by omega)
  have l₁ : FreeList s₁ fs := h.list.retag r₁ h.list.free
  have hp : fs.Perm ((total pre + k) :: (starts false 0 pre ++
      starts false (total pre + (k + m)) post)) := by
    refine h.perm.trans ?_
    simp only [starts, if_true, Nat.add_assoc]
    exact List.perm_middle
  obtain ⟨xs, ys, rfl⟩ := List.append_of_mem (hp.mem_iff.mpr List.mem_cons_self)
  obtain ⟨s₂, e₂, r₂⟩ := unlinkFreeNode_spec build l₁
  have hu₁ : Unlinked s₁ (total pre) := (r₁.sameLinks _).unlinked h.unlinked
  have hpos : 0 < k := h.tagged.at.2.2.2
  have hnm : total pre ∉ xs ++ (total pre + k) :: ys :=
    h.notMem (Nat.le_refl _) (Nat.lt_add_of_pos_right hpos)
  refine ⟨s₁, s₂, xs ++ ys, e₁, hu₁, r₁.amount ▸ hin.1, e₂, ⟨?_, ?_, r₂.list, ?_, fun i hi => ?_,
    (r₂.frame _ hnm).unlinked hu₁⟩, r₁.kept.trans r₂.relinks.kept⟩
  · rw [r₂.relinks.amount, r₁.amount, hamount]
  · rw [r₂.relinks.tags, r₁.tags]
    exact h.tagged.merge (Nat.zero_add _).symm (h.amount.trans (Nat.zero_add _).symm)
  · exact (List.perm_middle.symm.trans hp).cons_inv
  · have hi : i ∈ starts true 0 pre ++ starts true (total pre + k) (⟨m, false⟩ :: post) := by
      simpa [starts, Nat.add_assoc] using hi
    exact (r₂.frame i (h.list.notMem_of_used (h.used_of_mem hi))).unlinked
      ((r₁.sameLinks i).unlinked (h.idle i hi))

theorem ensureUnlinked_spec (hi : i < s.blocksAmount) (hl : Unlinked s i) :
    s.ensureUnlinked build i = some () := by
  have hn : (s.blocks i).nextFreeBlockIdx = invalidIdx := hl.1
  have hp : (s.blocks i).prevFreeBlockIdx = invalidIdx := hl.2
  simp only [ensureUnlinked, getBlockMetadata_of_lt hi, Option.bind_eq_bind, Option.bind_some,
    ensure_of hp, ensure_of hn]

theorem mergePrevious_spec (h : Hole s pre k true post fs) (hb : lastOwned 0 pre < 2 ^ 31) :
    ∃ s' pre' k' u fs', s.mergePrevious build (total pre) = some (s', total pre') ∧
      Hole s' pre' k' u post fs' ∧ JoinsPrevious pre k pre' k' ∧ Kept s s' := by
  obtain ⟨hbefore, howned, -⟩ := metadata_of_tagged h.tagged
  rw [cut, Nat.mod_eq_of_lt hb] at hbefore
  simp only [mergePrevious, getBlockMetadata_of_lt h.inside.1, Option.bind_eq_bind,
    Option.bind_some, hbefore, howned, Option.pure_def]
  rcases List.eq_nil_or_concat' pre with rfl | ⟨xs, ⟨m, w⟩, rfl⟩
  · exact ⟨s, [], k, true, fs, if_neg (by simp), h, .inl ⟨rfl, rfl, by simp [EndsUsed]⟩,
      ⟨rfl, rfl, rfl⟩⟩
  · have ht := (tagged_append.mp h.tagged).1
    obtain ⟨-, hm, hw⟩ := metadata_of_tagged ht
    have hpos : 0 < m := ht.at.2.2.2
    have hsmall := h.small
    have hin := h.inside.1
    have hlast : lastOwned 0 (xs ++ [⟨m, w⟩]) = m := by simp [lastOwned_append]
    have hsum : total (xs ++ [⟨m, w⟩]) = total xs + m := by simp
    rw [hsum] at hsmall hin
    have hidx : (total (xs ++ [⟨m, w⟩]) + 2 ^ 64 - m) % 2 ^ 64 = total xs := by omega
    rw [hlast, if_pos hpos.ne', hidx, getBlockMetadata_of_lt (by omega), Option.bind_some, hw, hm]
    cases w with
    | true =>
      exact ⟨s, xs ++ [⟨m, true⟩], k, true, fs, by simp, h,
        .inl ⟨rfl, rfl, by simp [EndsUsed]⟩, ⟨rfl, rfl, rfl⟩⟩
    | false =>
      obtain ⟨s₁, s₂, fs', e₁, e₂, h₂, k₂⟩ := mergePrevious_join build h
      exact ⟨s₂, xs, m + k, false, fs', by simp [e₁, e₂], h₂, .inr ⟨m, rfl, rfl⟩, k₂⟩

theorem mergeNext_spec (h : Hole s pre k u post fs) :
    ∃ s' k' post' fs', s.mergeNext build (total pre) = some s' ∧ Hole s' pre k' u post' fs' ∧
      JoinsNext k post k' post' ∧ Kept s s' := by
  obtain ⟨-, howned, -⟩ := metadata_of_tagged h.tagged
  simp only [mergeNext, getBlockMetadata_of_lt h.inside.1, Option.bind_eq_bind,
    Option.bind_some, howned, Option.pure_def]
  cases post with
  | nil =>
    have hend : ¬ total pre + k < s.blocksAmount := by
      rw [h.amount]
      simp
    exact ⟨s, k, [], fs, if_neg hend, h, .inl ⟨rfl, rfl, by simp [StartsUsed]⟩, ⟨rfl, rfl, rfl⟩⟩
  | cons c post =>
    obtain ⟨m, w⟩ := c
    have ht := h.tagged
    rw [List.append_cons] at ht
    obtain ⟨-, hm, hw⟩ := metadata_of_tagged ht
    have hpos : 0 < m := ht.at.2.2.2
    simp only [total_append, total_cons, total_nil, Nat.add_zero] at hm hw
    have hlt : total pre + k < s.blocksAmount := by
      rw [h.amount]
      simp only [total_append, total_cons]
      omega
    rw [if_pos hlt, getBlockMetadata_of_lt hlt, Option.bind_some, hw, hm]
    cases w with
    | true =>
      exact ⟨s, k, _, fs, by simp, h, .inl ⟨rfl, rfl, by simp [StartsUsed]⟩, ⟨rfl, rfl, rfl⟩⟩
    | false =>
      obtain ⟨s₁, s₂, fs', e₁, hu, hi, e₂, h₂, k₂⟩ := mergeNext_join build h
      refine ⟨s₂, k + m, post, fs', ?_, h₂, .inr ⟨m, rfl, rfl⟩, k₂⟩
      simp [e₁, e₂, ensureUnlinked_spec build hi hu]

structure Released (s s' : Allocator) (k : Nat) : Prop where
  mem : s'.mem = s.mem
  used : s'.used = s.used - k * blockSize
  peak : s'.peak = s.peak

theorem getMetadataIdxFromAddr_getMem (hmem : s.mem.data % blockSize = 0)
    (hi : i < 2 ^ 32) : s.getMetadataIdxFromAddr (s.getMem i) = i := by
  have hp : s.getMem i % blockSize = 0 := by
    simp only [getMem, blockSize] at hmem ⊢
    omega
  rw [getMetadataIdxFromAddr, if_pos hp]
  simp only [getMem, blockSize]
  omega

theorem Hole.charge (h : Hole s pre k u post fs) (used : Nat) :
    Hole { s with used := used } pre k u post fs :=
  ⟨h.amount, h.tagged, ⟨h.list.threaded, h.list.inside, h.list.free, h.list.amount_le⟩, h.perm,
    h.idle, h.unlinked⟩

theorem deallocate_spec (h : Layout s (pre ++ ⟨k, true⟩ :: post) fs)
    (hmem : s.mem.data % blockSize = 0) (hb : lastOwned 0 pre < 2 ^ 31)
    (hused : k * blockSize ≤ s.used) (hlt : s.used < 2 ^ 64)
    (hend : ensure build (s.mem.data ≤ s.getMem (total pre) ∧
      s.getMem (total pre) < s.mem.data + s.mem.size) = some ()) :
    ∃ s' pre' k₁ k₂ post' fs', s.deallocate build (s.getMem (total pre)) = some s' ∧
      Layout s' (pre' ++ ⟨k₂, false⟩ :: post') fs' ∧ JoinsPrevious pre k pre' k₁ ∧
      JoinsNext k₁ post k₂ post' ∧ Released s s' k := by
  have hh := h.hole
  have hin := h.inside.1
  have hidx : s.getMetadataIdxFromAddr (s.getMem (total pre)) = total pre :=
    getMetadataIdxFromAddr_getMem hmem (Nat.lt_of_le_of_lt (Nat.le_add_right _ _) hh.small)
  have hne : s.getMem (total pre) ≠ 0 := by
    simp only [getMem, blockSize]
    omega
  obtain ⟨-, howned, hu⟩ := metadata_of_tagged h.tagged
  have hsub : (s.used + 2 ^ 64 - k * blockSize) % 2 ^ 64 = s.used - k * blockSize := by omega
  obtain ⟨s₁, pre', k₁, u₁, fs₁, e₁, h₁, j₁, r₁⟩ :=
    mergePrevious_spec build (hh.charge (s.used - k * blockSize)) hb
  obtain ⟨s₂, k₂, post', fs₂, e₂, h₂, j₂, r₂⟩ := mergeNext_spec build h₁
  obtain ⟨s₃, e₃, h₃, r₃⟩ := (h₂.mark (v := false)).unlink build
  obtain ⟨s₄, fs₄, e₄, h₄, r₄⟩ := h₃.attach build
  have r₃ : Kept s₂ s₃ := setUsed_retags.kept.trans r₃
  have hk := r₁.trans (r₂.trans (r₃.trans r₄))
  refine ⟨s₄, pre', k₁, k₂, post', fs₄, ?_, h₄, j₁, j₂, hk.mem, hk.used, hk.peak⟩
  simp only [deallocate, if_neg hne, hend, hidx, getBlockMetadata_of_lt hin, ensure_of hu,
    ensureUnlinked_spec build hin hh.unlinked, howned, ensure_of hused, hsub, e₁,
    ensureUnlinked_spec build h₁.inside.1 h₁.unlinked, e₂,
    ensureUnlinked_spec build h₂.inside.1 h₂.unlinked, e₃, e₄, Option.bind_eq_bind,
    Option.bind_some]

end Corosig.Allocator
