import Corosig.Container.Heap

namespace Corosig.Heap
open BoundaryTags LinkedList Allocator

variable {build : Build} {h h' : Heap} {cs : List Block} {fs : List Nat} {l l' : Live} {i j k : Nat}

@[simp] theorem held_spare : held i (spare k) = [] := by
  by_cases hk : k = 0 <;> simp [spare, held, hk]

@[simp] theorem usedTotal_spare : usedTotal (spare k) = 0 := by
  by_cases hk : k = 0 <;> simp [spare, hk]

theorem coalesced_spare {pre post : List Block} {m n : Nat}
    (hc : Coalesced (pre ++ ⟨k, false⟩ :: post)) :
    Coalesced (pre ++ (spare m ++ ⟨j, true⟩ :: (spare n ++ post))) := by
  obtain ⟨hpre, hpost, hends, hstarts⟩ := coalesced_free.mp hc
  have hnil : Coalesced [] := by simp [Coalesced]
  have hleft : Coalesced (pre ++ spare m) := by
    by_cases hm : m = 0
    · simpa [spare, hm] using hpre
    · simp only [spare, hm, if_false]
      exact coalesced_free.mpr ⟨hpre, hnil, hends, by simp [StartsUsed]⟩
  have hright : Coalesced (spare n ++ post) := by
    by_cases hn : n = 0
    · simpa [spare, hn] using hpost
    · simp only [spare, hn, if_false]
      have hr : Coalesced ([] ++ ⟨n, false⟩ :: post) :=
        coalesced_free.mpr ⟨hnil, hpost, by simp [EndsUsed], hstarts⟩
      exact hr
  rw [← List.append_assoc]
  exact coalesced_used.mpr ⟨hleft, hright⟩

theorem joinsPrevious_spec {pre pre' : List Block} {m : Nat} (hj : JoinsPrevious pre k pre' m) :
    total pre + k = total pre' + m ∧ held i pre' = held i pre ∧ usedTotal pre' = usedTotal pre ∧
      (Coalesced pre → Coalesced pre' ∧ EndsUsed pre') := by
  rcases hj with ⟨rfl, rfl, hu⟩ | ⟨n, rfl, rfl⟩
  · exact ⟨rfl, rfl, rfl, fun hc => ⟨hc, hu⟩⟩
  · refine ⟨by simp [Nat.add_assoc], by simp [held_append, held], by simp, fun hc => ?_⟩
    obtain ⟨hc, -, hu, -⟩ := coalesced_free.mp hc
    exact ⟨hc, hu⟩

theorem joinsNext_spec {post post' : List Block} {m : Nat} (hj : JoinsNext k post m post') :
    held (i + m) post' = held (i + k) post ∧ usedTotal post' = usedTotal post ∧
      (Coalesced post → Coalesced post' ∧ StartsUsed post') := by
  rcases hj with ⟨rfl, rfl, hu⟩ | ⟨n, rfl, rfl⟩
  · exact ⟨rfl, rfl, fun hc => ⟨hc, hu⟩⟩
  · refine ⟨by simp [held, Nat.add_assoc], by simp, fun hc => ?_⟩
    obtain ⟨-, hc, -, hu⟩ := coalesced_free.mp (show Coalesced ([] ++ _) from hc)
    exact ⟨hc, hu⟩

theorem backed_congr {s s' : Allocator} {cs cs' : List Block} (hm : s'.mem = s.mem)
    (hs : ∀ e ∈ held 0 cs, e ∈ held 0 cs') (hb : Backed s cs l) : Backed s' cs' l := by
  obtain ⟨i, k, hk, ha, hr⟩ := hb
  exact ⟨i, k, hs _ hk, by rw [ha, getMem, getMem, hm], hr⟩

theorem mem_held_carved {pre post : List Block} {m n : Nat} (hfit : m + n ≤ k) {e : Nat × Nat} :
    e ∈ held 0 (pre ++ (spare m ++ ⟨n, true⟩ :: (spare (k - m - n) ++ post))) ↔
      e ∈ held 0 (pre ++ ⟨k, false⟩ :: post) ∨ e = (total pre + m, n) := by
  have hsum : total pre + m + n + (k - m - n) = total pre + k := by omega
  simp only [held_append, held, held_spare, Bool.false_eq_true, if_false, if_true, total_spare,
    List.nil_append, List.mem_append, List.mem_cons, Nat.zero_add, hsum]
  tauto

theorem held_joined {pre post pre' post' : List Block} {k₁ k₂ : Nat}
    (hp : JoinsPrevious pre k pre' k₁) (hn : JoinsNext k₁ post k₂ post') :
    held 0 (pre' ++ ⟨k₂, false⟩ :: post') = held 0 pre ++ held (total pre + k) post := by
  obtain ⟨hsum, hheld, -⟩ := joinsPrevious_spec (i := 0) hp
  obtain ⟨hheld', -⟩ := joinsNext_spec (i := total pre') hn
  rw [held_append, held_of_free, Nat.zero_add, hheld, hheld', ← hsum]

theorem held_released {pre post pre' post' : List Block} {k₁ k₂ : Nat}
    (hp : JoinsPrevious pre k pre' k₁) (hn : JoinsNext k₁ post k₂ post') :
    ∀ e ∈ held 0 (pre ++ ⟨k, true⟩ :: post), e.1 ≠ total pre →
      e ∈ held 0 (pre' ++ ⟨k₂, false⟩ :: post') := by
  intro e he hne
  rw [held_joined hp hn]
  simp only [held_append, held_of_used, Nat.zero_add, List.mem_append, List.mem_cons] at he ⊢
  rcases he with he | rfl | he
  · exact .inl he
  · exact absurd rfl hne
  · exact .inr he

theorem Inv.fresh (hi : Inv h cs fs) {pre post : List Block} {n m : Nat} {r : Request}
    (hcs : cs = pre ++ ⟨k, false⟩ :: post) {s : Allocator} {fs' : List Nat}
    (hfit : m + n ≤ k) (hn : 0 < n)
    (hl : Layout s (pre ++ (spare m ++ ⟨n, true⟩ :: (spare (k - m - n) ++ post))) fs')
    (ha : h.alloc.getMem (total pre + m) % r.alignment = 0)
    (hr : blockSize + r.size ≤ n * blockSize) (hc : Charged h.alloc s n) :
    Inv ⟨s, ⟨h.alloc.getMem (total pre + m), r⟩ :: h.live, s.used :: h.history⟩
      (pre ++ (spare m ++ ⟨n, true⟩ :: (spare (k - m - n) ++ post))) fs' := by
  subst hcs
  refine ⟨hc.mem ▸ hi.arena, hl, ?_, fun l hm => ?_, ?_, List.mem_cons_self, ?_, fun u hu => ?_⟩
  · rw [hc.used, hi.used]
    simp only [usedTotal_append, usedTotal_cons, usedTotal_spare, Bool.false_eq_true, if_false,
      if_true]
    ring
  · rcases List.mem_cons.mp hm with rfl | hm
    · refine ⟨total pre + m, n, ?_, by simp only [getMem, hc.mem], ?_, ha⟩
      · simp [held_append, held]
      · rwa [Nat.add_comm] at hr
    · exact backed_congr hc.mem (fun _ he => (mem_held_carved hfit).mpr (.inl he)) (hi.backed l hm)
  · refine List.pairwise_cons.mpr ⟨fun l hm => ?_, hi.distinct⟩
    obtain ⟨i, j, hij, hl, -⟩ := hi.backed l hm
    have hs := mem_starts_of_held hij
    rw [starts_skip Bool.false_ne_true] at hs
    rw [hl]
    intro he
    have hi' : i = total pre + m := by
      simp only [getMem, blockSize] at he
      omega
    exact notMem_starts hi.layout.tagged (by omega) (by omega) hs
  · rw [hc.peak, hc.used]
    rcases max_choice h.alloc.peak (h.alloc.used + n * blockSize) with he | he
    · rw [he]
      exact List.mem_cons_of_mem _ hi.peak_mem
    · rw [he]
      exact List.mem_cons_self
  · rw [hc.peak]
    rcases List.mem_cons.mp hu with rfl | hu
    · exact hc.used ▸ Nat.le_max_right _ _
    · exact Nat.le_trans (hi.peak_le u hu) (Nat.le_max_left _ _)

def Continues (cs : List Block) (h h' : Heap) (c : Call) : Prop :=
  ∃ cs' fs', Inv h' cs' fs' ∧ h'.alloc.mem = h.alloc.mem ∧ (Coalesced cs → Coalesced cs') ∧
    ∀ e ∈ held 0 cs, c ≠ .deallocate (h.alloc.getMem e.1) → e ∈ held 0 cs'

structure Carved (build : Build) (h : Heap) (cs : List Block) (r : Request) (i : Nat)
    (s : Allocator) (j : Nat) (cs' : List Block) (fs' : List Nat) : Prop where
  carve : h.alloc.carve build r i = some (s, h.alloc.getMem j)
  place : j = i + h.alloc.alignDiff r i / blockSize
  inv : Inv ⟨s, ⟨h.alloc.getMem j, r⟩ :: h.live, s.used :: h.history⟩ cs' fs'
  taken : (j, need r) ∈ held 0 cs'
  kept : ∀ e ∈ held 0 cs, e ∈ held 0 cs'
  charged : Charged h.alloc s (need r)
  coalesced : Coalesced cs → Coalesced cs'

theorem Inv.carved_blocks (build : Build) (hi : Inv h cs fs) {r : Request} (hm : i ∈ fs)
    (hw : FitsWord h.alloc r i) (hfit : h.alloc.blocksNeeded r i ≤ (h.alloc.blocks i).blocksOwned) :
    ∃ pre k post m s fs', cs = pre ++ ⟨k, false⟩ :: post ∧ i = total pre ∧
      m = h.alloc.alignDiff r i / blockSize ∧ m + need r ≤ k ∧
      Carved build h cs r i s (i + m)
        (pre ++ (spare m ++ ⟨need r, true⟩ :: (spare (k - m - need r) ++ post))) fs' := by
  obtain ⟨pre, ⟨k, w⟩, post, rfl, rfl, rfl⟩ := mem_starts.mp (hi.layout.perm.subset hm)
  rw [Nat.zero_add] at hfit hw ⊢
  rw [(metadata_of_tagged hi.layout.tagged).2.1] at hfit
  obtain ⟨s', m, fs', he, hskip, hle, hl, ha, hc⟩ :=
    carve_spec build hi.arena hi.layout hw hfit hi.used
  refine ⟨pre, k, post, m, s', fs', rfl, rfl, hskip, hle, he, hskip ▸ rfl,
    hi.fresh rfl hle need_pos hl ha (le_ceilDiv_mul _) hc, ?_,
    fun _ he => (mem_held_carved hle).mpr (.inl he), hc, coalesced_spare⟩
  exact (mem_held_carved hle).mpr (.inr rfl)

theorem Inv.carved (build : Build) (hi : Inv h cs fs) {r : Request} (hm : i ∈ fs)
    (hw : FitsWord h.alloc r i) (hfit : h.alloc.blocksNeeded r i ≤ (h.alloc.blocks i).blocksOwned) :
    ∃ s j cs' fs', Carved build h cs r i s j cs' fs' ∧
      ∀ e ∈ held 0 cs', e ∈ held 0 cs ∨ e = (j, need r) := by
  obtain ⟨pre, k, post, m, s, fs', rfl, rfl, -, hle, hc⟩ := hi.carved_blocks build hm hw hfit
  exact ⟨s, _, _, fs', hc, fun _ he => (mem_held_carved hle).mp he⟩

theorem Inv.refused (hi : Inv h cs fs) :
    Inv ⟨h.alloc, h.live, h.alloc.used :: h.history⟩ cs fs := by
  refine ⟨hi.arena, hi.layout, hi.used, hi.backed, hi.distinct, List.mem_cons_self,
    List.mem_cons_of_mem _ hi.peak_mem, fun u hu => ?_⟩
  rcases List.mem_cons.mp hu with rfl | hu
  · exact hi.peak_le _ hi.used_mem
  · exact hi.peak_le u hu

theorem Inv.allocate (hi : Inv h cs fs) {r : Request} (hg : h.Guarded (.allocate r)) :
    ∃ h', h.call build (.allocate r) = some h' ∧ Continues cs h h' (.allocate r) := by
  rcases allocate_search build (r := r) hi.layout.list with ⟨hs, -⟩ | ⟨i, hm, hf, hs⟩
  · refine ⟨⟨h.alloc, h.live, h.alloc.used :: h.history⟩, ?_, cs, fs, hi.refused, rfl, id,
      fun _ he _ => he⟩
    simp only [call, hs, Option.bind_eq_bind, Option.bind_some, Option.pure_def]
  · obtain ⟨s', j, cs', fs', hc, -⟩ := hi.carved build hm (hg _ hf) hf.fits
    refine ⟨⟨s', ⟨h.alloc.getMem j, r⟩ :: h.live, s'.used :: h.history⟩, ?_, cs', fs', hc.inv,
      hc.charged.mem, hc.coalesced, fun e he _ => hc.kept e he⟩
    simp only [call, hs, hc.carve, Option.map_some, Option.bind_eq_bind, Option.bind_some,
      Option.pure_def]

theorem Inv.release (hi : Inv h cs fs) {pre post pre' post' : List Block} {k₁ k₂ : Nat}
    (hcs : cs = pre ++ ⟨k, true⟩ :: post) {s : Allocator} {fs' : List Nat}
    (hp : JoinsPrevious pre k pre' k₁) (hn : JoinsNext k₁ post k₂ post')
    (hl : Layout s (pre' ++ ⟨k₂, false⟩ :: post') fs') (hr : Released h.alloc s k) :
    Inv ⟨s, h.live.filter (·.addr ≠ h.alloc.getMem (total pre)), s.used :: h.history⟩
      (pre' ++ ⟨k₂, false⟩ :: post') fs' := by
  subst hcs
  obtain ⟨-, -, hused, -⟩ := joinsPrevious_spec (i := 0) hp
  obtain ⟨-, hused', -⟩ := joinsNext_spec (i := total pre') hn
  have hle : s.used ≤ h.alloc.used := by
    rw [hr.used]
    exact Nat.sub_le _ _
  refine ⟨hr.mem ▸ hi.arena, hl, ?_, fun l hm => ?_, hi.distinct.filter _,
    List.mem_cons_self, List.mem_cons_of_mem _ (hr.peak ▸ hi.peak_mem), fun u hu => ?_⟩
  · rw [hr.used, hi.used]
    simp only [usedTotal_append, usedTotal_cons, Bool.false_eq_true, if_false, if_true, hused,
      hused', blockSize]
    omega
  · obtain ⟨hm, hne⟩ := List.mem_filter.mp hm
    obtain ⟨i, j, hij, ha, hr'⟩ := hi.backed l hm
    refine ⟨i, j, held_released hp hn _ hij ?_, by rw [ha, getMem, getMem, hr.mem], hr'⟩
    rintro rfl
    simp [ha] at hne
  · show u ≤ s.peak
    rw [hr.peak]
    rcases List.mem_cons.mp hu with rfl | hu
    · exact Nat.le_trans hle (hi.peak_le _ hi.used_mem)
    · exact hi.peak_le u hu

theorem coalesced_join {pre post pre' post' : List Block} {k₁ k₂ : Nat}
    (hp : JoinsPrevious pre k pre' k₁) (hn : JoinsNext k₁ post k₂ post')
    (hc : Coalesced (pre ++ ⟨k, true⟩ :: post)) : Coalesced (pre' ++ ⟨k₂, false⟩ :: post') := by
  obtain ⟨hpre, hpost⟩ := coalesced_used.mp hc
  obtain ⟨h1, h2⟩ := (joinsPrevious_spec (i := 0) hp).2.2.2 hpre
  obtain ⟨h3, h4⟩ := (joinsNext_spec (i := 0) hn).2.2 hpost
  exact coalesced_free.mpr ⟨h1, h3, h2, h4⟩

theorem Inv.lastOwned_lt (hi : Inv h cs fs) {pre post : List Block}
    (hcs : cs = pre ++ ⟨k, true⟩ :: post)
    (hg : h.Guarded (.deallocate (h.alloc.getMem (total pre)))) : lastOwned 0 pre < 2 ^ 31 := by
  subst hcs
  rcases List.eq_nil_or_concat' pre with rfl | ⟨xs, c, rfl⟩
  · simp
  · have hlast : lastOwned 0 (xs ++ [c]) = c.owned := by simp [lastOwned_append]
    have ht := (tagged_append.mp hi.layout.tagged).1
    have howned : h.alloc.tags.owned (total xs) = c.owned := (metadata_of_tagged ht).2.1
    have hidx := getMetadataIdxFromAddr_getMem hi.arena.aligned
      (Nat.lt_of_le_of_lt (Nat.le_add_right _ _) hi.layout.hole.small)
    rw [hlast, ← howned]
    refine hg (total xs) ((hi.layout.tagged.stepped_iff hi.layout.amount).mpr ?_) ?_
    · exact starts_subset (mem_starts.mpr ⟨xs, c, ⟨k, true⟩ :: post, by simp, rfl, by simp⟩)
    · rw [hidx, howned]
      simp

theorem Inv.held_le (hi : Inv h cs fs) (hik : (i, k) ∈ held 0 cs) :
    k * blockSize ≤ h.alloc.used ∧ h.alloc.used < 2 ^ 64 := by
  obtain ⟨pre, post, rfl, rfl⟩ := mem_held.mp hik
  have hused := hi.used
  have hfull : usedTotal (pre ++ ⟨k, true⟩ :: post) ≤ h.alloc.blocksAmount :=
    hi.layout.amount ▸ usedTotal_le
  have hb := hi.arena.bounded
  constructor
  · simp only [usedTotal_append, usedTotal_cons, if_true, blockSize] at hused ⊢
    omega
  · simp only [blocksAmount, blockSize] at hfull hused
    omega

structure Joined (build : Build) (h : Heap) (i k : Nat) (s : Allocator) (pre' : List Block)
    (k' : Nat) (post' : List Block) (fs' : List Nat) : Prop where
  deallocate : h.alloc.deallocate build (h.alloc.getMem i) = some s
  released : Released h.alloc s k
  inv : Inv ⟨s, h.live.filter (·.addr ≠ h.alloc.getMem i), s.used :: h.history⟩
    (pre' ++ ⟨k', false⟩ :: post') fs'

theorem Inv.joined (build : Build) (hi : Inv h cs fs) (hik : (i, k) ∈ held 0 cs)
    (hg : h.Guarded (.deallocate (h.alloc.getMem i)))
    (hend : ensure build (h.alloc.mem.data ≤ h.alloc.getMem i ∧
      h.alloc.getMem i < h.alloc.mem.data + h.alloc.mem.size) = some ()) :
    ∃ pre post pre' k₁ k₂ post' s fs', cs = pre ++ ⟨k, true⟩ :: post ∧ i = total pre ∧
      JoinsPrevious pre k pre' k₁ ∧ JoinsNext k₁ post k₂ post' ∧
      Joined build h i k s pre' k₂ post' fs' := by
  obtain ⟨hle, hlt⟩ := hi.held_le hik
  obtain ⟨pre, post, rfl, rfl⟩ := mem_held.mp hik
  rw [Nat.zero_add] at hend hg ⊢
  obtain ⟨s, pre', k₁, k₂, post', fs', e, h', j₁, j₂, r⟩ := deallocate_spec build hi.layout
    hi.arena.aligned (hi.lastOwned_lt rfl hg) hle hlt hend
  exact ⟨pre, post, pre', k₁, k₂, post', s, fs', rfl, rfl, j₁, j₂, e, r, hi.release rfl j₁ j₂ h' r⟩

theorem Inv.deallocate_blocks (build : Build) (hi : Inv h cs fs) (hik : (i, k) ∈ held 0 cs)
    (hg : h.Guarded (.deallocate (h.alloc.getMem i)))
    (hend : ensure build (h.alloc.mem.data ≤ h.alloc.getMem i ∧
      h.alloc.getMem i < h.alloc.mem.data + h.alloc.mem.size) = some ()) :
    ∃ s cs' fs', h.alloc.deallocate build (h.alloc.getMem i) = some s ∧ Released h.alloc s k ∧
      Inv ⟨s, h.live.filter (·.addr ≠ h.alloc.getMem i), s.used :: h.history⟩ cs' fs' ∧
      (Coalesced cs → Coalesced cs') ∧ held 0 cs' = (held 0 cs).filter (·.1 ≠ i) := by
  obtain ⟨pre, post, pre', k₁, k₂, post', s, fs', rfl, rfl, j₁, j₂, hj⟩ :=
    hi.joined build hik hg hend
  have hfilter := held_filter (a := 0) hi.layout.tagged.pos
  rw [Nat.zero_add] at hfilter
  exact ⟨s, _, fs', hj.deallocate, hj.released, hj.inv, coalesced_join j₁ j₂,
    (held_joined j₁ j₂).trans hfilter.symm⟩

theorem Inv.deallocate_held (build : Build) (hi : Inv h cs fs) (hik : (i, k) ∈ held 0 cs)
    (hg : h.Guarded (.deallocate (h.alloc.getMem i)))
    (hend : ensure build (h.alloc.mem.data ≤ h.alloc.getMem i ∧
      h.alloc.getMem i < h.alloc.mem.data + h.alloc.mem.size) = some ()) :
    ∃ s, h.alloc.deallocate build (h.alloc.getMem i) = some s ∧ Released h.alloc s k ∧
      Continues cs h ⟨s, h.live.filter (·.addr ≠ h.alloc.getMem i), s.used :: h.history⟩
        (.deallocate (h.alloc.getMem i)) := by
  obtain ⟨s, cs', fs', e, r, hi', hc, hheld⟩ := hi.deallocate_blocks build hik hg hend
  refine ⟨s, e, r, cs', fs', hi', r.mem, hc, fun e he hne => ?_⟩
  rw [hheld]
  refine List.mem_filter.mpr ⟨he, decide_eq_true fun heq => hne ?_⟩
  rw [heq]

theorem Inv.deallocate_live (hi : Inv h cs fs) (hl : l ∈ h.live)
    (hg : h.Guarded (.deallocate l.addr))
    (hend : ensure build (h.alloc.mem.data ≤ l.addr ∧
      l.addr < h.alloc.mem.data + h.alloc.mem.size) = some ()) :
    ∃ s, h.alloc.deallocate build l.addr = some s ∧
      Continues cs h ⟨s, h.live.filter (·.addr ≠ l.addr), s.used :: h.history⟩
        (.deallocate l.addr) := by
  obtain ⟨i, k, hik, ha, -⟩ := hi.backed l hl
  rw [ha] at hend hg ⊢
  obtain ⟨s, e, -, hc⟩ := hi.deallocate_held build hik hg hend
  exact ⟨s, e, hc⟩

theorem Inv.deallocate_null (hi : Inv h cs fs) :
    h.alloc.deallocate build 0 = some h.alloc ∧
      Inv ⟨h.alloc, h.live.filter (·.addr ≠ 0), h.alloc.used :: h.history⟩ cs fs := by
  have hr := hi.refused
  exact ⟨by rw [Allocator.deallocate, if_pos rfl, Option.pure_def], hr.arena, hr.layout, hr.used,
    fun l hl => hr.backed l (List.mem_filter.mp hl).1, hr.distinct.filter _, hr.used_mem,
    hr.peak_mem, hr.peak_le⟩

theorem Inv.live_ne (hi : Inv h cs fs) (hl : l ∈ h.live) : l.addr ≠ 0 := by
  obtain ⟨i, k, -, ha, -⟩ := hi.backed l hl
  simp only [ha, getMem, blockSize]
  omega

theorem ensure_of_deallocate {s s' : Allocator} {p : Nat} (hp : p ≠ 0)
    (e : s.deallocate build p = some s') :
    ensure build (s.mem.data ≤ p ∧ p < s.mem.data + s.mem.size) = some () := by
  rw [Allocator.deallocate, if_neg hp] at e
  obtain ⟨u, hu, -⟩ := Option.bind_eq_some_iff.mp e
  exact hu

theorem Inv.deallocate (hi : Inv h cs fs) {p : Nat} (hp : h.Permits (.deallocate p))
    (hg : h.Guarded (.deallocate p)) (e : h.call build (.deallocate p) = some h') :
    Continues cs h h' (.deallocate p) := by
  simp only [call, Option.bind_eq_bind, Option.pure_def, Option.bind_eq_some_iff,
    Option.some.injEq] at e
  obtain ⟨s, e, rfl⟩ := e
  rcases hp with rfl | ⟨l, hl, rfl⟩
  · obtain ⟨e', hi'⟩ := hi.deallocate_null
    obtain rfl : h.alloc = s := Option.some.inj (e'.symm.trans e)
    exact ⟨cs, fs, hi', rfl, id, fun _ he _ => he⟩
  · have hend := ensure_of_deallocate (hi.live_ne hl) e
    obtain ⟨s', e', hs⟩ := hi.deallocate_live hl hg hend
    obtain rfl : s' = s := Option.some.inj (e'.symm.trans e)
    exact hs

theorem Inv.not_written (hi : Inv h cs fs) (hm : i ∈ boundaries 0 cs) : h.written i = false := by
  refine Bool.eq_false_iff.mpr fun hw => ?_
  obtain ⟨l, hl, hw⟩ := List.any_eq_true.mp hw
  obtain ⟨j, k, hjk, ha, hs, -⟩ := hi.backed l hl
  obtain ⟨pre, post, rfl, rfl⟩ := mem_held.mp hjk
  obtain ⟨-, howned, -⟩ := metadata_of_tagged hi.layout.tagged
  have howned : h.alloc.tags.owned (total pre) = k := howned
  have hb : total pre ∈ boundaries 0 (pre ++ ⟨k, true⟩ :: post) :=
    starts_subset (u := true) (by simp [starts_middle])
  simp only [decide_eq_true_eq, ha, getMem, blockSize, Nat.zero_add] at hw hs
  rcases hi.boundaries_apart hb hm with rfl | hle | hle
  · omega
  · omega
  · have hpos := (hi.layout.tagged.boundary_fits hm).1
    omega

theorem Inv.write (hi : Inv h cs fs) {cells : Nat → BlockMetadata}
    (e : h.call build (.write cells) = some h') : Inv h' cs fs := by
  obtain rfl := Option.some.inj e
  have hkeep : ∀ i ∈ boundaries 0 cs,
      (if h.written i then cells i else h.alloc.blocks i) = h.alloc.blocks i := by
    intro i hm
    rw [hi.not_written hm]
    rfl
  have hfree : ∀ i ∈ fs, i ∈ boundaries 0 cs := fun i hm =>
    starts_subset (hi.layout.perm.subset hm)
  have hl := hi.layout
  refine ⟨hi.arena, ⟨hl.amount, ?_, ⟨⟨?_, hl.list.threaded.first_eq, hl.list.threaded.last_eq,
    hl.list.threaded.nodup, hl.list.threaded.proper⟩, hl.list.inside, fun i hm => ?_,
    hl.list.amount_le⟩, hl.perm, fun i hm => ?_⟩, hi.used, hi.backed, hi.distinct, hi.used_mem,
    hi.peak_mem, hi.peak_le⟩
  · refine hl.tagged.congr_boundaries fun i hm => ?_
    have he := hkeep i hm
    exact ⟨congrArg BlockMetadata.blocksBefore he, congrArg BlockMetadata.blocksOwned he,
      congrArg BlockMetadata.isUsed he⟩
  · exact hl.list.threaded.linked.congr
      (fun i hm => congrArg BlockMetadata.nextFreeBlockIdx (hkeep i (hfree i hm)))
      (fun i hm => congrArg BlockMetadata.prevFreeBlockIdx (hkeep i (hfree i hm)))
  · exact (congrArg BlockMetadata.isUsed (hkeep i (hfree i hm))).trans (hl.list.free i hm)
  · have he := hkeep i (starts_subset hm)
    exact ⟨(congrArg BlockMetadata.nextFreeBlockIdx he).trans (hl.idle i hm).1,
      (congrArg BlockMetadata.prevFreeBlockIdx he).trans (hl.idle i hm).2⟩

theorem Inv.continues (hi : Inv h cs fs) {c : Call} (hp : h.Permits c) (hg : h.Guarded c)
    (e : h.call build c = some h') : Continues cs h h' c := by
  cases c with
  | allocate r =>
    obtain ⟨h₁, e₁, hs⟩ := hi.allocate hg
    exact Option.some.inj (e₁.symm.trans e) ▸ hs
  | deallocate p => exact hi.deallocate hp hg e
  | write cells =>
    refine ⟨cs, fs, hi.write e, ?_, id, fun _ he _ => he⟩
    rw [← Option.some.inj e]

theorem Inv.step (hi : Inv h cs fs) (hs : Step build Guarded h h') :
    ∃ cs' fs', Inv h' cs' fs' ∧ h'.alloc.mem = h.alloc.mem ∧ (Coalesced cs → Coalesced cs') := by
  obtain ⟨c, hp, hg, e⟩ := hs
  obtain ⟨cs', fs', hi', hm, hc, -⟩ := hi.continues hp hg e
  exact ⟨cs', fs', hi', hm, hc⟩

theorem Inv.progress (hi : Inv h cs fs) {c : Call} (hp : h.Permits c) (hg : h.Guarded c)
    (hend : ∀ l ∈ h.live, c = .deallocate l.addr →
      build = .release ∨ l.addr < h.alloc.mem.data + h.alloc.mem.size) :
    ∃ h', h.call build c = some h' := by
  cases c with
  | allocate r =>
    obtain ⟨h', e, -⟩ := hi.allocate hg
    exact ⟨h', e⟩
  | deallocate p =>
    rcases hp with rfl | ⟨l, hl, rfl⟩
    · exact ⟨_, by rw [call, hi.deallocate_null.1]; rfl⟩
    · have he : ensure build (h.alloc.mem.data ≤ l.addr ∧
          l.addr < h.alloc.mem.data + h.alloc.mem.size) = some () := by
        rcases hend l hl rfl with rfl | hlt
        · rfl
        · exact ensure_of ⟨(hi.backed_inside (hi.backed l hl)).1, hlt⟩
      obtain ⟨s, e, -⟩ := hi.deallocate_live hl hg he
      exact ⟨_, by rw [call, e]; rfl⟩
  | write cells => exact ⟨_, rfl⟩

theorem Inv.reaches (hi : Inv h cs fs) (hr : Reaches build Guarded h h') :
    ∃ cs' fs', Inv h' cs' fs' := by
  induction hr with
  | refl => exact ⟨cs, fs, hi⟩
  | tail _ hs ih =>
    obtain ⟨cs₁, fs₁, h₁⟩ := ih
    obtain ⟨cs₂, fs₂, h₂, -⟩ := h₁.step hs
    exact ⟨cs₂, fs₂, h₂⟩

theorem step_allocate {P : Heap → Call → Prop} {r : Request}
    (e : h.call build (.allocate r) = some h') (hP : P h (.allocate r)) : Step build P h h' :=
  ⟨.allocate r, trivial, hP, e⟩

end Corosig.Heap
