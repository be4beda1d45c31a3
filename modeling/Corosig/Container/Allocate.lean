import Corosig.Container.Alignment
import Corosig.Container.Layout

namespace Corosig.Allocator
open Function BoundaryTags LinkedList

variable (build : Build) {s s' : Allocator} {pre post cs : List Block} {k m i : Nat} {u v : Bool}
  {fs xs ys : List Nat} {t : Tags} {r : Request}

def spare (k : Nat) : List Block := if k = 0 then [] else [⟨k, false⟩]

@[simp] theorem total_spare : total (spare k) = k := by
  by_cases h : k = 0 <;> simp [spare, h]

theorem splitRemainder_spec (h : Hole s pre k true post fs) (hm : 0 < m) (hmk : m ≤ k) :
    ∃ s₁ s₂ fs', s.setBlocksOwned (total pre) m = some s₁ ∧
      s₁.splitRemainder build (total pre) m k = some s₂ ∧
      Layout s₂ (pre ++ ⟨m, true⟩ :: (spare (k - m) ++ post)) fs' ∧ Kept s s₂ := by
  have hsmall := h.small
  obtain ⟨s₁, e₁, r₁⟩ := setBlocksOwned_spec h.inside.1 (v := m) (by omega)
  have l₁ : FreeList s₁ fs := h.list.retag r₁ h.list.free
  rcases Nat.eq_or_lt_of_le hmk with rfl | hlt
  · refine ⟨s₁, s₁, fs, e₁, if_neg (Nat.lt_irrefl m), ?_, r₁.kept⟩
    rw [Nat.sub_self]
    refine Hole.fill ⟨?_, ?_, l₁, h.perm, fun i hi => (r₁.sameLinks i).unlinked (h.idle i hi),
      (r₁.sameLinks _).unlinked h.unlinked⟩
    · exact r₁.amount.trans h.amount
    · rw [r₁.tags]
      exact h.tagged.keep (Nat.zero_add _).symm (h.amount.trans (Nat.zero_add _).symm)
  · obtain ⟨r, rfl⟩ := Nat.exists_eq_add_of_le hmk
    have hr : 0 < r := by omega
    have hin := h.inside.2
    obtain ⟨s₂, e₂, i₂⟩ := initialize_spec l₁ (i := total pre + m) (m := r)
      (by rw [r₁.amount]; omega) (h.notMem (by omega) (by omega)) (by omega)
    have hk : Kept s s₂ := r₁.kept.trans i₂.kept
    have ht : Tagged cut s₂.tags 0 0 ((pre ++ [⟨m, true⟩]) ++ ⟨r, false⟩ :: post) := by
      rw [i₂.tags, r₁.tags, r₁.amount, List.append_assoc]
      exact h.tagged.split (Nat.zero_add _).symm hm hr (h.amount.trans (Nat.zero_add _).symm)
    have hh : Hole s₂ (pre ++ [⟨m, true⟩]) r false post fs := by
      refine ⟨?_, ht, i₂.list, ?_, fun i hi => ?_, ?_⟩
      · rw [hk.amount, h.amount]
        simp only [total_append, total_cons, total_nil]
        omega
      · simpa [starts_append, starts, Nat.add_assoc] using h.perm
      · have hne : i ≠ total pre + m := by
          rintro rfl
          exact notMem_starts ht (by simp) (by simp [hr]) hi
        have hi : i ∈ starts true 0 (pre ++ ⟨m + r, true⟩ :: post) := by
          simpa [starts_append, starts, Nat.add_assoc] using hi
        exact (i₂.frame i hne).unlinked ((r₁.sameLinks i).unlinked (h.fill.idle i hi))
      · simpa using i₂.unlinked
    obtain ⟨s₃, fs', e₃, l₃, k₃⟩ := hh.attach build
    refine ⟨s₁, s₃, fs', e₁, ?_, ?_, hk.trans k₃⟩
    · simp only [splitRemainder, if_pos hlt, Nat.add_sub_cancel_left, Option.bind_eq_bind]
      rw [getBlockMetadata_of_lt (by rw [r₁.amount]; omega)]
      simpa [e₂] using e₃
    · simpa [spare, hr.ne', Nat.add_sub_cancel_left] using l₃

theorem skip_spec {rest : Nat} (h : Layout s (pre ++ ⟨m + rest, false⟩ :: post) fs) (hpos : 0 < m)
    (hrest : 0 < rest) :
    ∃ s₁ s₂ s₃ s₄ fs', s.setBlocksOwned (total pre) m = some s₁ ∧
      s₁.unlinkFreeNode build (total pre) = some s₂ ∧
      s₂.pushFreeNode build (total pre) = some s₃ ∧ s₃.blocksAmount = s.blocksAmount ∧
      (s₃.defaultInitialize (total pre + m)).setBlocksOwned (total pre + m) rest = some s₄ ∧
      Hole s₄ (pre ++ [⟨m, false⟩]) rest false post fs' ∧ Kept s s₄ := by
  have hin := h.inside
  have hsmall : total pre + (m + rest) < 2 ^ 32 :=
    Nat.lt_of_le_of_lt (Nat.le_trans hin.2 h.list.amount_le) (by decide)
  have hpm := h.perm.trans starts_perm
  obtain ⟨xs, ys, rfl⟩ := List.append_of_mem (hpm.mem_iff.mpr List.mem_cons_self)
  obtain ⟨s₁, e₁, r₁⟩ := setBlocksOwned_spec hin.1 (v := m) (by omega)
  have l₁ := h.list.retag r₁ h.list.free
  obtain ⟨s₂, e₂, r₂⟩ := unlinkFreeNode_spec build l₁
  have hu : s₂.tags.used (total pre) = false := by
    rw [r₂.relinks.tags, r₁.tags]
    exact h.list.free _ (by simp)
  have hnm : total pre ∉ xs ++ ys :=
    (List.nodup_cons.mp (List.nodup_middle.mp h.list.threaded.nodup)).1
  obtain ⟨s₃, fs', e₃, r₃⟩ := pushFreeNode_spec build r₂.list
    (by rw [r₂.relinks.amount, r₁.amount]; exact hin.1) hu hnm r₂.unlinked
  have ha₃ : s₃.blocksAmount = s.blocksAmount :=
    r₃.relinks.amount.trans (r₂.relinks.amount.trans r₁.amount)
  have hfs : fs'.Perm (xs ++ total pre :: ys) := r₃.perm.trans List.perm_middle.symm
  obtain ⟨s₄, e₄, i₄⟩ := initialize_spec r₃.list (i := total pre + m) (m := rest)
    (by rw [ha₃]; omega) (fun hx => h.notMem (by omega) (by omega) (hfs.mem_iff.mp hx))
    (by omega)
  have hk : Kept s s₄ :=
    ((r₁.kept.trans r₂.relinks.kept).trans r₃.relinks.kept).trans i₄.kept
  have ht : Tagged cut s₄.tags 0 0 ((pre ++ [⟨m, false⟩]) ++ ⟨rest, false⟩ :: post) := by
    rw [i₄.tags, r₃.relinks.tags, r₂.relinks.tags, r₁.tags, ha₃, List.append_assoc]
    exact h.tagged.split (Nat.zero_add _).symm hpos hrest (h.amount.trans (Nat.zero_add _).symm)
  refine ⟨s₁, s₂, s₃, s₄, fs', e₁, e₂, e₃, ha₃, e₄,
    ⟨?_, ht, i₄.list, ?_, fun i hi => ?_, ?_⟩, hk⟩
  · rw [hk.amount, h.amount]
    simp only [total_append, total_cons, total_nil]
    omega
  · refine (hfs.trans h.perm).trans ?_
    simp [starts_append, starts, Nat.add_assoc]
  · have hne : i ≠ total pre + m := by
      rintro rfl
      exact notMem_starts ht (by simp) (by simp [hrest]) hi
    have hi : i ∈ starts true 0 (pre ++ ⟨m + rest, false⟩ :: post) := by
      simpa [starts_append, starts, Nat.add_assoc] using hi
    have hm := h.list.notMem_of_used (h.tagged.used_of_mem_starts hi)
    have hm' : i ∉ total pre :: (xs ++ ys) := fun hx => hm (List.perm_middle.mem_iff.mpr hx)
    rw [List.mem_cons, not_or] at hm'
    have h₁ := (r₁.sameLinks i).unlinked (h.idle i hi)
    exact (i₄.frame i hne).unlinked ((r₃.frame i hm'.1 hm'.2).unlinked
      ((r₂.frame i hm).unlinked h₁))
  · simpa using i₄.unlinked

theorem splitAlignment_spec (h : Layout s (pre ++ ⟨k, false⟩ :: post) fs) (hm : m < k) :
    ∃ s₁ s₂ fs', s.splitAlignment build (total pre) m = some (s₁, total pre + m) ∧
      s₁.getBlockMetadata (total pre + m) = some (s₁.blocks (total pre + m)) ∧
      (s₁.blocks (total pre + m)).blocksOwned = k - m ∧
      s₁.unlinkFreeNode build (total pre + m) = some s₂ ∧
      Hole s₂ (pre ++ spare m) (k - m) false post fs' ∧ Kept s s₂ := by
  have hin := h.inside
  obtain ⟨-, howned, -⟩ := metadata_of_tagged h.tagged
  rcases Nat.eq_zero_or_pos m with rfl | hpos
  · obtain ⟨s₂, fs', e, hh, hk⟩ := h.detach build
    refine ⟨s, s₂, fs', if_neg (not_not.mpr rfl), getBlockMetadata_of_lt hin.1, howned, e, ?_, hk⟩
    simpa [spare] using hh
  · obtain ⟨rest, rfl⟩ := Nat.exists_eq_add_of_le (Nat.le_of_lt hm)
    obtain ⟨s₁, s₂, s₃, s₄, fs', e₁, e₂, e₃, ha₃, e₄, hh, hk⟩ :=
      skip_spec build h hpos (by omega)
    obtain ⟨s₅, e₅, h₅, k₅⟩ := hh.unlink build
    have hsmall : total pre + (m + rest) < 2 ^ 32 :=
      Nat.lt_of_le_of_lt (Nat.le_trans hin.2 h.list.amount_le) (by decide)
    have hlt : total pre + m < s.blocksAmount := by omega
    have hmod : (m + rest + 2 ^ 64 - m) % 2 ^ 64 = rest := by omega
    refine ⟨s₄, s₅, fs', ?_, getBlockMetadata_of_lt (hk.amount ▸ hlt), ?_, ?_, ?_, hk.trans k₅⟩
    · simp only [splitAlignment, if_pos hpos.ne', getBlockMetadata_of_lt hin.1, howned, hmod,
        Option.bind_eq_bind, Option.bind_some, e₁, e₂, e₃, getBlockMetadata_of_lt (ha₃ ▸ hlt), e₄,
        Option.pure_def]
    · have hat := (metadata_of_tagged hh.tagged).2.1
      simp only [total_append, total_cons, total_nil, Nat.add_zero] at hat
      rw [Nat.add_sub_cancel_left]
      exact hat
    · simpa using e₅
    · simpa [spare, hpos.ne'] using h₅

structure Arena (m : MemSpan) : Prop where
  aligned : m.data % blockSize = 0
  whole : m.size % blockSize = 0
  bounded : m.data + m.size < 2 ^ 64

def FitsWord (s : Allocator) (r : Request) (i : Nat) : Prop :=
  blockSize + r.size + s.alignDiff r i < 2 ^ 64

def need (r : Request) : Nat := ceilDiv (blockSize + r.size) blockSize

theorem need_pos : 0 < need r := ceilDiv_pos (by simp [blockSize])

theorem Arena.getMem_lt (hm : Arena s.mem) (hi : i < s.blocksAmount) :
    s.getMem i < 2 ^ 64 ∧ s.getMem i % blockSize = 0 := by
  obtain ⟨ha, hw, hb⟩ := hm
  simp only [blocksAmount, getMem, blockSize] at *
  omega

theorem Arena.alignDiff_skip (hm : Arena s.mem) (hi : i < s.blocksAmount) :
    s.alignDiff r i / blockSize * blockSize = s.alignDiff r i := by
  obtain ⟨hlt, hblock⟩ := hm.getMem_lt hi
  exact Nat.div_mul_cancel
    (Nat.dvd_of_mod_eq_zero (alignRightDiff_blocks hlt r.alignment_lt hblock))

theorem Arena.blocksNeeded_eq (hm : Arena s.mem) (hi : i < s.blocksAmount)
    (hw : FitsWord s r i) : s.blocksNeeded r i = need r + s.alignDiff r i / blockSize := by
  rw [blocksNeeded, Nat.mod_eq_of_lt hw, ← hm.alignDiff_skip hi, ceilDiv_add_mul,
    hm.alignDiff_skip hi, need]

theorem Arena.getMem_skip (hm : Arena s.mem) (hi : i < s.blocksAmount) :
    s.getMem (i + s.alignDiff r i / blockSize) % r.alignment = 0 := by
  have hspec := (alignRightDiff_spec (hm.getMem_lt hi).1 r.alignment_lt).2
  have hskip := hm.alignDiff_skip (r := r) hi
  have hsum : s.getMem (i + s.alignDiff r i / blockSize) = s.getMem i + s.alignDiff r i := by
    conv_rhs => rw [← hskip]
    simp only [getMem]
    ring
  rw [hsum]
  exact hspec

structure Charged (s s' : Allocator) (k : Nat) : Prop where
  mem : s'.mem = s.mem
  used : s'.used = s.used + k * blockSize
  peak : s'.peak = max s.peak (s.used + k * blockSize)

theorem carve_eq {s₁ s₂ s₃ s₄ : Allocator} {idx skip n : Nat}
    (hskip : s.alignDiff r i / blockSize = skip)
    (hneed : (s.blocksNeeded r i + 2 ^ 64 - skip) % 2 ^ 64 = n)
    (e₁ : s.splitAlignment build i skip = some (s₁, idx))
    (g₁ : s₁.getBlockMetadata idx = some (s₁.blocks idx))
    (e₂ : s₁.unlinkFreeNode build idx = some s₂)
    (e₃ : (s₂.setUsed idx true).setBlocksOwned idx n = some s₃)
    (e₄ : s₃.splitRemainder build idx n (s₁.blocks idx).blocksOwned = some s₄)
    (hroom : (s₄.charge n).used ≤ (s₄.charge n).mem.size)
    (halign : ((s₄.charge n).getMem idx + (s.alignDiff r i - skip * blockSize)) %
      r.alignment = 0) :
    s.carve build r i =
      some (s₄.charge n, (s₄.charge n).getMem idx + (s.alignDiff r i - skip * blockSize)) := by
  unfold carve
  simp only [-Nat.reducePow, hskip, hneed, e₁, g₁, e₂, e₃, e₄, Option.bind_eq_bind,
    Option.bind_some]
  rw [ensure_of hroom, Option.bind_some, ensure_of halign, Option.bind_some]
  rfl

theorem carve_spec (hm : Arena s.mem) (h : Layout s (pre ++ ⟨k, false⟩ :: post) fs)
    (hw : FitsWord s r (total pre)) (hfit : s.blocksNeeded r (total pre) ≤ k)
    (hused : s.used = blockSize * usedTotal (pre ++ ⟨k, false⟩ :: post)) :
    ∃ s' skip fs', s.carve build r (total pre) = some (s', s.getMem (total pre + skip)) ∧
      skip = s.alignDiff r (total pre) / blockSize ∧ skip + need r ≤ k ∧
      Layout s' (pre ++ (spare skip ++ ⟨need r, true⟩ :: (spare (k - skip - need r) ++ post))) fs' ∧
      s.getMem (total pre + skip) % r.alignment = 0 ∧ Charged s s' (need r) := by
  have hin := h.inside.1
  have hlen : total (pre ++ ⟨k, false⟩ :: post) = s.blocksAmount := h.amount.symm
  have hsmall : s.blocksAmount < 2 ^ 32 := h.amount ▸ h.small
  have hpos : 0 < need r := need_pos
  have hneed := hm.blocksNeeded_eq hin hw
  obtain ⟨skip, hskip⟩ : ∃ skip, s.alignDiff r (total pre) / blockSize = skip := ⟨_, rfl⟩
  have hdiff : s.alignDiff r (total pre) - skip * blockSize = 0 := by
    rw [← hskip, hm.alignDiff_skip hin, Nat.sub_self]
  have halign := hm.getMem_skip (r := r) hin
  rw [hskip] at hneed halign
  rw [hneed] at hfit
  simp only [total_append, total_cons] at hlen
  have hsub : (s.blocksNeeded r (total pre) + 2 ^ 64 - skip) % 2 ^ 64 = need r := by
    rw [hneed]
    omega
  obtain ⟨s₁, s₂, fs₂, e₁, g₁, o₁, e₂, h₂, k₂⟩ := splitAlignment_spec build h (m := skip) (by omega)
  obtain ⟨s₃, s₄, fs₄, e₃, e₄, l₄, k₄⟩ :=
    splitRemainder_spec build (h₂.mark (v := true)) hpos (show need r ≤ k - skip by omega)
  rw [total_append, total_spare] at e₃ e₄
  have hk : Kept s s₄ := k₂.trans (setUsed_retags.kept.trans k₄)
  have hsize : s.mem.size = s.blocksAmount * blockSize :=
    (Nat.div_mul_cancel (Nat.dvd_of_mod_eq_zero hm.whole)).symm
  have hfill : s.used + need r * blockSize ≤ s.mem.size := by
    have hle : usedTotal (pre ++ ⟨k, false⟩ :: post) + need r ≤ s.blocksAmount := by
      have h1 : usedTotal pre ≤ total pre := usedTotal_le
      have h2 : usedTotal post ≤ total post := usedTotal_le
      simp only [usedTotal_append, usedTotal_cons, Bool.false_eq_true, if_false]
      omega
    rw [hused, hsize, Nat.mul_comm blockSize, ← Nat.add_mul]
    exact Nat.mul_le_mul_right _ hle
  have hsum : (s₄.used + need r * blockSize) % 2 ^ 64 = s.used + need r * blockSize := by
    rw [hk.used]
    exact Nat.mod_eq_of_lt (Nat.lt_of_le_of_lt hfill
      (Nat.lt_of_le_of_lt (Nat.le_add_left _ _) hm.bounded))
  have hcharge : (s₄.charge (need r)).used = s.used + need r * blockSize := hsum
  have hmem : (s₄.charge (need r)).mem = s.mem := hk.mem
  have hptr : (s₄.charge (need r)).getMem (total pre + skip) +
      (s.alignDiff r (total pre) - skip * blockSize) = s.getMem (total pre + skip) := by
    rw [hdiff, getMem, hmem]
    rfl
  have e := carve_eq build hskip hsub e₁ g₁ e₂ e₃ (o₁ ▸ e₄) (by rw [hcharge, hmem]; exact hfill)
    (by rw [hptr]; exact halign)
  rw [hptr] at e
  refine ⟨s₄.charge (need r), skip, fs₄, e, hskip.symm, by omega, ?_, halign, hmem, hcharge, ?_⟩
  · rw [List.append_assoc] at l₄
    exact ⟨l₄.amount, l₄.tagged, ⟨l₄.list.threaded, l₄.list.inside, l₄.list.free,
      l₄.list.amount_le⟩, l₄.perm, l₄.idle⟩
  · show max s₄.peak ((s₄.used + need r * blockSize) % 2 ^ 64) = _
    rw [hsum, hk.peak]

inductive FirstFit (s : Allocator) (r : Request) : Nat → Nat → Prop
  | here {i : Nat} : i < s.blocksAmount → s.blocksNeeded r i ≤ (s.blocks i).blocksOwned →
      FirstFit s r i i
  | later {i j : Nat} : i < s.blocksAmount → (s.blocks i).blocksOwned < s.blocksNeeded r i →
      FirstFit s r (s.blocks i).nextFreeBlockIdx j → FirstFit s r i j

theorem FirstFit.fits {i j : Nat} (h : FirstFit s r i j) :
    s.blocksNeeded r j ≤ (s.blocks j).blocksOwned := by
  induction h with
  | here _ hfit => exact hfit
  | later _ _ _ ih => exact ih

theorem FirstFit.inside {i j : Nat} (h : FirstFit s r i j) : j < s.blocksAmount := by
  induction h with
  | here hlt _ => exact hlt
  | later _ _ _ ih => exact ih

theorem allocateFrom_spec {n : Nat} (h : FreeList s (xs ++ ys)) (hn : ys.length < n) :
    (s.allocateFrom build r n (ys.headD invalidIdx) = some (s, none) ∧
        ∀ i ∈ ys, (s.blocks i).blocksOwned < s.blocksNeeded r i) ∨
      ∃ i ∈ ys, FirstFit s r (ys.headD invalidIdx) i ∧
        s.allocateFrom build r n (ys.headD invalidIdx) =
          (s.carve build r i).map fun q => (q.1, some q.2) := by
  induction ys generalizing xs n with
  | nil =>
    cases n with
    | zero => exact absurd hn (Nat.not_lt_zero _)
    | succ n =>
      refine .inl ⟨?_, by rintro _ ⟨⟩⟩
      rw [List.headD_nil, allocateFrom, if_neg (Nat.not_lt.mpr h.amount_le)]
      rfl
  | cons i ys ih =>
    cases n with
    | zero => exact absurd hn (Nat.not_lt_zero _)
    | succ n =>
    have hd := h.detachable
    have hu : (s.blocks i).isUsed = false := hd.free
    have hnext : (s.blocks i).nextFreeBlockIdx = ys.headD invalidIdx := h.threaded.linked.next_mem
    have hne : (s.blocks i).nextFreeBlockIdx = invalidIdx ∨ (s.blocks i).nextFreeBlockIdx ≠ i :=
      .inr hd.next_ne
    rw [List.headD_cons, allocateFrom, if_pos hd.lt, getBlockMetadata_of_lt hd.lt]
    simp only [Option.bind_eq_bind, Option.bind_some]
    rw [ensure_of hu, Option.bind_some, ensure_of hne, Option.bind_some]
    by_cases hfit : (s.blocks i).blocksOwned < s.blocksNeeded r i
    · rw [if_pos hfit, hnext]
      rw [List.append_cons] at h
      rcases ih h (Nat.lt_of_succ_lt_succ hn) with ⟨e, hall⟩ | ⟨j, hj, hf, e⟩
      · exact .inl ⟨e, List.forall_mem_cons.mpr ⟨hfit, hall⟩⟩
      · exact .inr ⟨j, List.mem_cons_of_mem _ hj, .later hd.lt hfit (hnext ▸ hf), e⟩
    · rw [if_neg hfit]
      refine .inr ⟨i, List.mem_cons_self, .here hd.lt (Nat.not_lt.mp hfit), ?_⟩
      rw [Option.map_eq_bind]
      rfl

theorem FreeList.not_firstFit {j : Nat} (h : FreeList s (xs ++ ys))
    (hall : ∀ i ∈ ys, (s.blocks i).blocksOwned < s.blocksNeeded r i) :
    ¬FirstFit s r (ys.headD invalidIdx) j := by
  induction ys generalizing xs with
  | nil =>
    intro hf
    rw [List.headD_nil] at hf
    cases hf with
    | here hlt _ => exact absurd h.amount_le (Nat.not_le.mpr hlt)
    | later hlt _ _ => exact absurd h.amount_le (Nat.not_le.mpr hlt)
  | cons i ys ih =>
    intro hf
    have hnext : (s.blocks i).nextFreeBlockIdx = ys.headD invalidIdx := h.threaded.linked.next_mem
    obtain ⟨hsmall, hall⟩ := List.forall_mem_cons.mp hall
    rw [List.append_cons] at h
    cases hf with
    | here _ hfit => exact absurd hfit (Nat.not_le.mpr hsmall)
    | later _ _ hf => exact ih h hall (hnext ▸ hf)

theorem FreeList.length_le (h : FreeList s fs) : fs.length ≤ s.blocksAmount := by
  have hsub : fs ⊆ List.range s.blocksAmount := fun i hi => List.mem_range.mpr (h.inside i hi)
  simpa using (List.subperm_of_subset h.threaded.nodup hsub).length_le

theorem allocate_search (h : FreeList s fs) :
    (s.allocate build r = some (s, none) ∧
        ∀ i ∈ fs, (s.blocks i).blocksOwned < s.blocksNeeded r i) ∨
      ∃ i ∈ fs, FirstFit s r s.firstFreeBlockIdx i ∧
        s.allocate build r = (s.carve build r i).map fun q => (q.1, some q.2) := by
  rw [allocate, h.threaded.first_eq]
  exact allocateFrom_spec build (show FreeList s ([] ++ fs) from h) (Nat.lt_succ_of_le h.length_le)

end Corosig.Allocator
