import Corosig.Container.HeapReturns

namespace Corosig.Heap
open BoundaryTags LinkedList Allocator

variable {build : Build} {h h' h'' : Heap} {cs : List Block} {fs : List Nat} {i k p : Nat}

structure TagsMeet (h : Heap) : Prop where
  first : 0 < h.alloc.blocksAmount → h.alloc.tags.before 0 = 0
  behind : ∀ i, Stepped h.alloc.tags h.alloc.blocksAmount i →
    i + h.alloc.tags.owned i < h.alloc.blocksAmount →
    h.alloc.tags.before (i + h.alloc.tags.owned i) = h.alloc.tags.owned i
  back : ∀ i, Stepped h.alloc.tags h.alloc.blocksAmount i →
    i + h.alloc.tags.owned i < h.alloc.blocksAmount →
    (i + h.alloc.tags.owned i + 2 ^ 64 - h.alloc.tags.before (i + h.alloc.tags.owned i)) % 2 ^ 64 = i

def mergedStart (t : Tags) (i : Nat) : Nat :=
  if t.before i ≠ 0 ∧ t.used (i - t.before i) = false then i - t.before i else i

def mergedEnd (t : Tags) (n i : Nat) : Nat :=
  let next := i + t.owned i
  if next < n ∧ t.used next = false then next + t.owned next else next

def WithinTag (h : Heap) : Call → Prop
  | .allocate r => ∀ i, FirstFit h.alloc r h.alloc.firstFreeBlockIdx i →
      h.alloc.alignDiff r i / blockSize < 2 ^ 31 ∧
        (i + h.alloc.alignDiff r i / blockSize + need r < h.alloc.blocksAmount → need r < 2 ^ 31)
  | .deallocate p => p ≠ 0 →
      mergedEnd h.alloc.tags h.alloc.blocksAmount (h.alloc.getMetadataIdxFromAddr p) <
        h.alloc.blocksAmount →
      mergedEnd h.alloc.tags h.alloc.blocksAmount (h.alloc.getMetadataIdxFromAddr p) -
        mergedStart h.alloc.tags (h.alloc.getMetadataIdxFromAddr p) < 2 ^ 31
  | .write _ => True

theorem cut_eq_iff (v : Nat) : cut v = v ↔ v < 2 ^ 31 := by
  simp only [cut]
  omega

theorem Inv.tagsMeet_iff (hi : Inv h cs fs) : h.TagsMeet ↔ Narrow (2 ^ 31) cs := by
  have hsteps (i : Nat) := hi.layout.tagged.stepped_iff (i := i) hi.layout.amount
  have hiff := hi.layout.tagged.narrow_iff cut_eq_iff
  rw [Nat.zero_add, ← hi.layout.amount] at hiff
  constructor
  · intro hm
    exact hiff.mp fun i hb hlt => hm.behind i ((hsteps i).mpr hb) hlt
  · intro hn
    have hbehind (i : Nat) (hs : Stepped h.alloc.tags h.alloc.blocksAmount i)
        (hlt : i + h.alloc.tags.owned i < h.alloc.blocksAmount) :
        h.alloc.tags.before (i + h.alloc.tags.owned i) = h.alloc.tags.owned i :=
      hiff.mpr hn i ((hsteps i).mp hs) hlt
    refine ⟨fun hpos => ?_, hbehind, fun i hs hlt => ?_⟩
    · obtain ⟨c, rest, rfl⟩ := List.exists_cons_of_ne_nil
        (show cs ≠ [] by rintro rfl; simp [hi.layout.amount] at hpos)
      exact hi.layout.tagged.1
    · have hsmall := hi.layout.list.amount_le
      have hmax : invalidIdx < 2 ^ 64 := by decide
      rw [hbehind i hs hlt]
      omega

theorem narrow_spare {post : List Block} {n : Nat} (hnk : n ≤ k)
    (hk : post ≠ [] → k < 2 ^ 31) (hn : Narrow (2 ^ 31) post) :
    Narrow (2 ^ 31) (spare n ++ post) := by
  by_cases hz : n = 0
  · simpa [spare, hz] using hn
  · simp only [spare, hz, if_false]
    exact ⟨fun hne => Nat.lt_of_le_of_lt hnk (hk hne), hn⟩

theorem total_pos_iff (hpos : ∀ c ∈ cs, 0 < c.owned) : 0 < total cs ↔ cs ≠ [] := by
  constructor
  · rintro hlt rfl
    exact Nat.lt_irrefl 0 hlt
  · exact total_pos hpos

theorem narrow_carved {pre post : List Block} {m n : Nat}
    (hpos : ∀ c ∈ pre ++ ⟨k, false⟩ :: post, 0 < c.owned)
    (hn : Narrow (2 ^ 31) (pre ++ ⟨k, false⟩ :: post)) (hfit : m + n ≤ k) :
    Narrow (2 ^ 31) (pre ++ (spare m ++ ⟨n, true⟩ :: (spare (k - m - n) ++ post))) ↔
      m < 2 ^ 31 ∧ (total pre + m + n < total (pre ++ ⟨k, false⟩ :: post) → n < 2 ^ 31) := by
  obtain ⟨hpre, hk, hpost⟩ := narrow_append.mp hn
  have hspare : (∀ d ∈ spare m, d.owned < 2 ^ 31) ↔ m < 2 ^ 31 := by
    by_cases hz : m = 0 <;> simp [spare, hz]
  have hrest : ∀ c ∈ spare (k - m - n) ++ post, 0 < c.owned := by
    intro c hc
    rcases List.mem_append.mp hc with hc | hc
    · by_cases hz : k - m - n = 0
      · simp [spare, hz] at hc
      · simp only [spare, hz, if_false, List.mem_singleton] at hc
        exact hc ▸ Nat.pos_of_ne_zero hz
    · exact hpos c (by simp [hc])
  have hlast : total pre + m + n < total (pre ++ ⟨k, false⟩ :: post) ↔
      spare (k - m - n) ++ post ≠ [] := by
    rw [← total_pos_iff hrest]
    simp only [total_append, total_cons, total_spare]
    omega
  rw [← List.append_assoc, narrow_append, List.forall_mem_append, hspare, hlast]
  constructor
  · rintro ⟨⟨-, hm⟩, hn, -⟩
    exact ⟨hm, hn⟩
  · rintro ⟨hm, hn⟩
    exact ⟨⟨hpre, hm⟩, hn, narrow_spare (show k - m - n ≤ k by omega) hk hpost⟩

theorem narrow_joined {pre post pre' post' : List Block} {k₁ k₂ : Nat}
    (hp : JoinsPrevious pre k pre' k₁) (hj : JoinsNext k₁ post k₂ post')
    (hn : Narrow (2 ^ 31) (pre ++ ⟨k, true⟩ :: post)) :
    Narrow (2 ^ 31) (pre' ++ ⟨k₂, false⟩ :: post') ↔ (post' ≠ [] → k₂ < 2 ^ 31) := by
  obtain ⟨hpre, -, hpost⟩ := narrow_append.mp hn
  have hpre' : ∀ d ∈ pre', d.owned < 2 ^ 31 := by
    rcases hp with ⟨rfl, -, -⟩ | ⟨m, rfl, -⟩
    · exact hpre
    · exact fun d hd => hpre d (List.mem_append_left _ hd)
  have hpost' : Narrow (2 ^ 31) post' := by
    rcases hj with ⟨rfl, -, -⟩ | ⟨m, rfl, -⟩
    · exact hpost
    · exact hpost.2
  rw [narrow_append]
  exact ⟨fun h => h.2.1, fun h => ⟨hpre', h, hpost'⟩⟩

theorem mergedStart_eq {s : Allocator} {pre post pre' : List Block} {k' : Nat}
    (ht : Tagged cut s.tags 0 0 (pre ++ ⟨k, true⟩ :: post)) (hb : lastOwned 0 pre < 2 ^ 31)
    (hp : JoinsPrevious pre k pre' k') : mergedStart s.tags (total pre) = total pre' := by
  have hbefore : s.tags.before (total pre) = lastOwned 0 pre := by
    obtain ⟨hbefore, -⟩ := metadata_of_tagged ht
    exact hbefore.trans ((cut_eq_iff _).mpr hb)
  have hprev {xs : List Block} {c : Block} (hxs : pre = xs ++ [c]) :
      lastOwned 0 pre = c.owned ∧ total pre - c.owned = total xs ∧ 0 < c.owned ∧
        s.tags.used (total xs) = c.used := by
    subst hxs
    have hat := (tagged_append.mp ht).1
    refine ⟨by simp [lastOwned_append], by simp, hat.at.2.2.2, (metadata_of_tagged hat).2.2⟩
  rw [mergedStart, hbefore]
  rcases hp with ⟨rfl, -, hu⟩ | ⟨m, hpre, -⟩
  · rcases List.eq_nil_or_concat' pre' with rfl | ⟨xs, c, hxs⟩
    · exact if_neg fun h => h.1 rfl
    · obtain ⟨hlast, hsub, -, hused⟩ := hprev hxs
      have hcu : c.used = true := hu c (by simp [hxs])
      rw [hlast, hsub, hused, hcu]
      exact if_neg fun h => Bool.noConfusion h.2
  · obtain ⟨hlast, hsub, hpos, hused⟩ := hprev hpre
    rw [hlast, hsub, hused]
    exact if_pos ⟨hpos.ne', rfl⟩

theorem mergedEnd_eq {s : Allocator} {pre post post' : List Block} {k₁ k₂ n : Nat}
    (ht : Tagged cut s.tags 0 0 (pre ++ ⟨k, true⟩ :: post))
    (hn : n = total (pre ++ ⟨k, true⟩ :: post)) (hj : JoinsNext k₁ post k₂ post') :
    mergedEnd s.tags n (total pre) + k₁ = total pre + k + k₂ := by
  obtain ⟨-, howned, -⟩ := metadata_of_tagged ht
  have howned : s.tags.owned (total pre) = k := howned
  have hnext {c : Block} {ys : List Block} (hys : post = c :: ys) :
      total pre + k < n ∧ s.tags.owned (total pre + k) = c.owned ∧
        s.tags.used (total pre + k) = c.used := by
    subst hys
    rw [List.append_cons] at ht
    obtain ⟨-, ho, hu⟩ := metadata_of_tagged ht
    have hpos := ht.at.2.2.2
    simp only [total_append, total_cons, total_nil, Nat.add_zero] at ho hu hn
    exact ⟨by omega, ho, hu⟩
  simp only [mergedEnd, howned]
  rcases hj with ⟨rfl, rfl, hu⟩ | ⟨m, hpost, rfl⟩
  · cases hpost : post' with
    | nil =>
      have hend : ¬total pre + k < n := by
        rw [hn, hpost]
        simp
      rw [if_neg fun h => hend h.1]
    | cons c ys =>
      obtain ⟨-, -, hused⟩ := hnext hpost
      have hcu : c.used = true := hu c (by simp [hpost])
      rw [hused, hcu, if_neg fun h => Bool.noConfusion h.2]
  · obtain ⟨hlt, ho, hused⟩ := hnext hpost
    rw [if_pos ⟨hlt, hused⟩, ho]
    show total pre + k + m + k₁ = total pre + k + (k₁ + m)
    omega

theorem Inv.narrow_allocate (hi : Inv h cs fs) (hn : Narrow (2 ^ 31) cs) {r : Request}
    (hm : h.Modest (.allocate r)) (e : h.call build (.allocate r) = some h') :
    ∃ cs' fs', Inv h' cs' fs' ∧ (Narrow (2 ^ 31) cs' ↔ h.WithinTag (.allocate r)) := by
  rcases allocate_search build (r := r) hi.layout.list with ⟨hs, hall⟩ | ⟨i, hif, hf, hs⟩
  · have hnone {j : Nat} : ¬FirstFit h.alloc r h.alloc.firstFreeBlockIdx j := by
      rw [hi.layout.list.threaded.first_eq]
      exact FreeList.not_firstFit (show FreeList h.alloc ([] ++ fs) from hi.layout.list) hall
    simp only [call, hs, Option.bind_eq_bind, Option.bind_some, Option.pure_def] at e
    cases e
    exact ⟨cs, fs, hi.refused, iff_of_true hn fun i hf => absurd hf hnone⟩
  · obtain ⟨pre, k, post, m, s, fs', rfl, rfl, rfl, hle, hc⟩ :=
      hi.carved_blocks build hif (hi.fitsWord hm hf.inside) hf.fits
    simp only [call, hs, hc.carve, Option.map_some, Option.bind_eq_bind, Option.bind_some,
      Option.pure_def] at e
    cases e
    refine ⟨_, fs', hc.inv, ?_⟩
    rw [narrow_carved hi.layout.tagged.pos hn hle, ← hi.layout.amount]
    constructor
    · intro hw j hj
      cases firstFit_unique hf hj
      exact hw
    · exact fun hw => hw _ hf

theorem Inv.guarded_of_narrow (hi : Inv h cs fs) (hn : Narrow (2 ^ 31) cs)
    (hik : (i, k) ∈ held 0 cs) : h.Guarded (.deallocate (h.alloc.getMem i)) := by
  intro j hs hlast
  have hin := (hi.layout.tagged.boundary_fits (starts_subset (mem_starts_of_held hik)))
  have hle := hi.layout.list.amount_le
  have hmax : invalidIdx < 2 ^ 32 := by decide
  rw [hi.layout.amount] at hle
  rw [getMetadataIdxFromAddr_getMem hi.arena.aligned (by omega)] at hlast
  refine hi.layout.tagged.owned_lt hn ((hi.layout.tagged.stepped_iff hi.layout.amount).mp hs) ?_
  omega

theorem Inv.narrow_deallocate (hi : Inv h cs fs) (hn : Narrow (2 ^ 31) cs)
    (hp : h.Permits (.deallocate p)) (e : h.call build (.deallocate p) = some h') :
    ∃ cs' fs', Inv h' cs' fs' ∧ (Narrow (2 ^ 31) cs' ↔ h.WithinTag (.deallocate p)) := by
  simp only [call, Option.bind_eq_bind, Option.pure_def, Option.bind_eq_some_iff,
    Option.some.injEq] at e
  obtain ⟨s, e, rfl⟩ := e
  rcases hp with rfl | ⟨l, hl, rfl⟩
  · obtain ⟨e', hi'⟩ := hi.deallocate_null
    cases e'.symm.trans e
    exact ⟨cs, fs, hi', iff_of_true hn fun hne => absurd rfl hne⟩
  · obtain ⟨i, k, hik, ha, -⟩ := hi.backed l hl
    have hend := ensure_of_deallocate (hi.live_ne hl) e
    have hne := hi.live_ne hl
    rw [ha] at hend e hne ⊢
    obtain ⟨pre, post, pre', k₁, k₂, post', s', fs', rfl, rfl, j₁, j₂, hj⟩ :=
      hi.joined build hik (hi.guarded_of_narrow hn hik) hend
    cases hj.deallocate.symm.trans e
    refine ⟨_, fs', hj.inv, ?_⟩
    have hidx := getMetadataIdxFromAddr_getMem hi.arena.aligned
      (Nat.lt_of_le_of_lt (Nat.le_add_right _ _) hi.layout.hole.small)
    have hstart := mergedStart_eq hi.layout.tagged (hn.lastOwned_lt (by decide)) j₁
    have hstop := mergedEnd_eq hi.layout.tagged hi.layout.amount j₂
    obtain ⟨hsum, -⟩ := joinsPrevious_spec (i := 0) j₁
    have hstop : mergedEnd h.alloc.tags h.alloc.blocksAmount (total pre) = total pre' + k₂ := by
      omega
    have hlast : total pre' + k₂ < h.alloc.blocksAmount ↔ post' ≠ [] := by
      have hamount := hj.inv.layout.amount
      rw [blocksAmount, hj.released.mem, ← blocksAmount, total_append, total_cons] at hamount
      rw [← total_pos_iff fun c hc => hj.inv.layout.tagged.pos c (by simp [hc]), hamount]
      show total pre' + k₂ < total pre' + (k₂ + total post') ↔ 0 < total post'
      omega
    rw [narrow_joined j₁ j₂ hn, WithinTag, hidx, hstart, hstop, hlast, Nat.add_sub_cancel_left]
    exact ⟨fun h _ => h, fun h => h hne⟩

theorem Inv.narrow_step (hi : Inv h cs fs) (hn : Narrow (2 ^ 31) cs) {c : Call}
    (hp : h.Permits c) (hm : h.Modest c) (e : h.call build c = some h') :
    ∃ cs' fs', Inv h' cs' fs' ∧ (Narrow (2 ^ 31) cs' ↔ h.WithinTag c) := by
  cases c with
  | allocate r => exact hi.narrow_allocate hn hm e
  | deallocate p => exact hi.narrow_deallocate hn hp e
  | write cells => exact ⟨cs, fs, hi.write e, iff_of_true hn trivial⟩

theorem Inv.narrow_reaches (hi : Inv h cs fs) (hn : Narrow (2 ^ 31) cs)
    (hr : Reaches build (fun h c => h.Modest c ∧ h.WithinTag c) h h') :
    ∃ cs' fs', Inv h' cs' fs' ∧ Narrow (2 ^ 31) cs' := by
  induction hr with
  | refl => exact ⟨cs, fs, hi, hn⟩
  | tail _ hs ih =>
    obtain ⟨cs₁, fs₁, hi₁, hn₁⟩ := ih
    obtain ⟨c, hp, ⟨hm, hw⟩, e⟩ := hs
    obtain ⟨cs₂, fs₂, hi₂, hiff⟩ := hi₁.narrow_step hn₁ hp hm e
    exact ⟨cs₂, fs₂, hi₂, hiff.mpr hw⟩

theorem Fresh.arena {buffer : MemSpan} {s : Allocator} (hf : Fresh buffer s cs fs)
    (hspace : s.mem.data + s.mem.size < 2 ^ 64) : Arena s.mem := by
  refine ⟨?_, ?_, hspace⟩
  · rw [hf.mem] at hspace ⊢
    have hle : buffer.data ≤ (capped (trim buffer)).data := Nat.le_add_right _ _
    exact (alignRightDiff_spec (k := 4) (by omega) (by decide)).2
  · rw [hf.mem]
    show min (_ - _ % blockSize) ((2 ^ 32 - 1) * blockSize) % blockSize = 0
    simp only [blockSize]
    omega

theorem Fresh.narrow {buffer : MemSpan} {s : Allocator} (hf : Fresh buffer s cs fs) {n : Nat} :
    Narrow n cs := by
  have hpos := hf.layout.tagged.pos
  have hfree := hf.free
  match cs, hf.coalesced with
  | [], _ => trivial
  | [c], _ => exact ⟨fun hne => absurd rfl hne, trivial⟩
  | c :: d :: rest, hc =>
    have hc' := hpos c (by simp)
    have hd' := hpos d (by simp)
    simp only [usedTotal_cons] at hfree
    rcases (coalesced_cons.mp hc).2 with hu | hu
    · simp only [hu, if_true] at hfree
      omega
    · simp only [hu d rfl, if_true] at hfree
      omega

theorem tagsMeet_of_withinTag {buffer : MemSpan} (hs : Boots build buffer h)
    (hspace : h.alloc.mem.data + h.alloc.mem.size < 2 ^ 64)
    (hr : Reaches build (fun h c => h.Modest c ∧ h.WithinTag c) h h') :
    h'.TagsMeet ∧ ∀ c h'', h'.Permits c → h'.Modest c → h'.call build c = some h'' →
      (h''.TagsMeet ↔ h'.WithinTag c) := by
  obtain ⟨blocks, s, e, rfl⟩ := hs
  obtain ⟨cs, fs, hf⟩ := construct_spec e
  obtain ⟨cs', fs', hi, hn⟩ := (hf.inv_of_arena (hf.arena hspace)).narrow_reaches hf.narrow hr
  refine ⟨hi.tagsMeet_iff.mpr hn, fun c h'' hp hm e => ?_⟩
  obtain ⟨cs'', fs'', hi', hiff⟩ := hi.narrow_step hn hp hm e
  exact hi'.tagsMeet_iff.trans hiff

theorem tagsMeet_of_withinTag_small : ∃ h h', Boots .debug ⟨4100, 100⟩ h ∧
    Reaches .debug (fun h c => h.Modest c ∧ h.WithinTag c) h h' ∧ h'.live.length = 1 ∧
    h'.TagsMeet := by
  have e : ((construct .debug ⟨4100, 100⟩ fun _ => ⟨0, false, 0, 0, 0⟩).bind fun s =>
      (call .debug { alloc := s } (.allocate ⟨20, 5, by decide, by decide⟩)).map fun h₁ =>
        (s.mem, s.blocksAmount, h₁.live.length)) = some (⟨4112, 80⟩, 5, 1) := by
    decide +kernel
  simp only [Option.bind_eq_some_iff, Option.map_eq_some_iff, Prod.mk.injEq] at e
  obtain ⟨s, e, h₁, e₁, hmem, hn, hl⟩ := e
  have hspace : s.mem.data + s.mem.size < 2 ^ 64 := by
    rw [hmem]
    decide
  have hs : Boots .debug ⟨4100, 100⟩ { alloc := s } := ⟨_, s, e, rfl⟩
  have hw : WithinTag { alloc := s } (.allocate ⟨20, 5, by decide, by decide⟩) := by
    intro i hf
    have hi : i < s.blocksAmount := hf.inside
    have hget : s.getMem i < 2 ^ 64 := by
      simp only [getMem, hmem, blockSize]
      omega
    have hdiff : s.alignDiff ⟨20, 5, by decide, by decide⟩ i < 2 ^ 5 :=
      (alignRightDiff_spec hget (by decide)).1
    simp only [blockSize]
    omega
  have s₁ := step_allocate (P := fun h c => h.Modest c ∧ h.WithinTag c) e₁
    ⟨show 16 + 20 + 2 ^ 5 < 2 ^ 64 by decide, hw⟩
  exact ⟨_, h₁, hs, .single s₁, hl, (tagsMeet_of_withinTag hs hspace (.single s₁)).1⟩

theorem not_tagsMeet_wide : ∃ h h', Boots .debug ⟨4096, (2 ^ 31 + 1) * 16⟩ h ∧
    Reaches .debug Modest h h' ∧ h'.alloc.tags.owned 0 = 2 ^ 31 ∧
    h'.alloc.tags.before (2 ^ 31) = 0 ∧ ¬h'.TagsMeet := by
  have e : ((construct .debug ⟨4096, (2 ^ 31 + 1) * 16⟩ fun _ => ⟨0, false, 0, 0, 0⟩).bind fun s =>
      (call .debug { alloc := s } (.allocate ⟨2 ^ 31 * 16 - 16, 0, by decide, by decide⟩)).map
        fun h₁ => (h₁.alloc.blocksAmount, h₁.alloc.tags.owned 0, h₁.alloc.tags.before (2 ^ 31))) =
      some (2 ^ 31 + 1, 2 ^ 31, 0) := by
    decide +kernel
  simp only [Option.bind_eq_some_iff, Option.map_eq_some_iff, Prod.mk.injEq] at e
  obtain ⟨s, e, h₁, e₁, hn, howned, hbefore⟩ := e
  have s₁ : Step .debug Modest _ h₁ :=
    step_allocate e₁ (show 16 + (2 ^ 31 * 16 - 16) + 2 ^ 0 < 2 ^ 64 by decide)
  refine ⟨_, h₁, ⟨_, s, e, rfl⟩, .single s₁, howned, hbefore, fun hm => ?_⟩
  have hbehind := hm.behind 0 (.first (hn ▸ by decide)) (by rw [howned, hn]; decide)
  rw [howned, Nat.zero_add, hbefore] at hbehind
  exact absurd hbehind (by decide)

end Corosig.Heap
