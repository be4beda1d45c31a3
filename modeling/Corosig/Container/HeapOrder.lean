import Corosig.Container.HeapRuns

namespace Corosig.Heap
open BoundaryTags LinkedList Allocator

variable {build : Build} {h h' : Heap} {cs : List Block} {fs : List Nat} {i j k p : Nat}
  {s s' : Allocator} {ps qs : List Nat}

def deallocateAll (build : Build) (s : Allocator) (ps : List Nat) : Option Allocator :=
  ps.foldlM (fun s p => s.deallocate build p) s

structure SameTiling (s s' : Allocator) : Prop where
  starts : ∀ i, Stepped s.tags s.blocksAmount i ↔ Stepped s'.tags s'.blocksAmount i
  tags : ∀ i, Stepped s.tags s.blocksAmount i → s.tags.before i = s'.tags.before i ∧
    s.tags.owned i = s'.tags.owned i ∧ s.tags.used i = s'.tags.used i
  used : s.used = s'.used

structure Emptied (s : Allocator) : Prop where
  tags : Tagged id s.tags 0 0 (spare s.blocksAmount)
  list : Threaded s.next s.prev invalidIdx s.firstFreeBlockIdx s.lastFreeBlockIdx
    (starts false 0 (spare s.blocksAmount))
  used : s.used = 0

def Covered (h : Heap) : Prop :=
  ∀ i, Stepped h.alloc.tags h.alloc.blocksAmount i → h.alloc.tags.used i = true →
    ∃ l ∈ h.live, l.addr = h.alloc.getMem i

theorem getMem_inj (h : s.getMem i = s.getMem j) : i = j := by
  simp only [getMem, blockSize] at h
  omega

theorem mem_held_of_starts (hi : i ∈ starts true 0 cs) : ∃ k, (i, k) ∈ held 0 cs := by
  obtain ⟨pre, ⟨k, u⟩, post, rfl, rfl, rfl⟩ := mem_starts.mp hi
  exact ⟨k, mem_held.mpr ⟨pre, post, rfl, rfl⟩⟩

theorem Inv.covered_iff (hi : Inv h cs fs) :
    h.Covered ↔ ∀ e ∈ held 0 cs, ∃ l ∈ h.live, l.addr = h.alloc.getMem e.1 := by
  have hsteps (i : Nat) := hi.layout.tagged.stepped_iff (i := i) hi.layout.amount
  constructor
  · rintro hc ⟨i, k⟩ he
    have hm := mem_starts_of_held he
    exact hc i ((hsteps i).mpr (starts_subset hm)) (hi.layout.tagged.used_of_mem_starts hm)
  · intro hc i hs hu
    have hm := hi.layout.tagged.mem_boundaries ((hsteps i).mp hs)
    rw [hu] at hm
    obtain ⟨k, he⟩ := mem_held_of_starts hm
    exact hc (i, k) he

theorem Inv.covered_allocate (hi : Inv h cs fs) (hc : h.Covered) {r : Request}
    (hg : h.Guarded (.allocate r)) (e : h.call build (.allocate r) = some h') : h'.Covered := by
  rcases allocate_search build (r := r) hi.layout.list with ⟨hs, -⟩ | ⟨i, hm, hf, hs⟩
  · simp only [call, hs, Option.bind_eq_bind, Option.bind_some, Option.pure_def] at e
    cases e
    exact hc
  · obtain ⟨s, j, cs', fs', hcarved, hheld⟩ := hi.carved build hm (hg _ hf) hf.fits
    simp only [call, hs, hcarved.carve, Option.map_some, Option.bind_eq_bind, Option.bind_some,
      Option.pure_def] at e
    cases e
    refine hcarved.inv.covered_iff.mpr fun e he => ?_
    have hmem : s.getMem e.1 = h.alloc.getMem e.1 := by
      rw [getMem, getMem, hcarved.charged.mem]
    rw [hmem]
    rcases hheld e he with he | rfl
    · obtain ⟨l, hl, ha⟩ := hi.covered_iff.mp hc e he
      exact ⟨l, List.mem_cons_of_mem _ hl, ha⟩
    · exact ⟨_, List.mem_cons_self, rfl⟩

theorem Inv.covered_deallocate (hi : Inv h cs fs) (hc : h.Covered)
    (hp : h.Permits (.deallocate p)) (hg : h.Guarded (.deallocate p))
    (e : h.call build (.deallocate p) = some h') : h'.Covered := by
  simp only [call, Option.bind_eq_bind, Option.pure_def, Option.bind_eq_some_iff,
    Option.some.injEq] at e
  obtain ⟨s, e, rfl⟩ := e
  rcases hp with rfl | ⟨l, hl, rfl⟩
  · obtain ⟨e', hi'⟩ := hi.deallocate_null
    cases e'.symm.trans e
    refine hi'.covered_iff.mpr fun e he => ?_
    obtain ⟨l, hl, ha⟩ := hi.covered_iff.mp hc e he
    exact ⟨l, List.mem_filter.mpr ⟨hl, decide_eq_true (hi.live_ne hl)⟩, ha⟩
  · obtain ⟨i, k, hik, ha, -⟩ := hi.backed l hl
    have hend := ensure_of_deallocate (hi.live_ne hl) e
    rw [ha] at hend hg e ⊢
    obtain ⟨s', cs', fs', e', hr, hi', -, hheld⟩ := hi.deallocate_blocks build hik hg hend
    cases e'.symm.trans e
    refine hi'.covered_iff.mpr fun e he => ?_
    rw [hheld] at he
    obtain ⟨he, hne⟩ := List.mem_filter.mp he
    obtain ⟨l', hl', ha'⟩ := hi.covered_iff.mp hc e he
    have hmem : s.getMem e.1 = h.alloc.getMem e.1 := by
      rw [getMem, getMem, hr.mem]
    refine ⟨l', List.mem_filter.mpr ⟨hl', decide_eq_true fun heq => ?_⟩, hmem ▸ ha'⟩
    exact of_decide_eq_true hne (getMem_inj (ha'.symm.trans heq))

theorem Inv.covered_step (hi : Inv h cs fs) (hc : h.Covered) (hs : Step build Guarded h h') :
    h'.Covered := by
  obtain ⟨c, hp, hg, e⟩ := hs
  cases c with
  | allocate r => exact hi.covered_allocate hc hg e
  | deallocate p => exact hi.covered_deallocate hc hp hg e
  | write cells =>
    have hi' := hi.write e
    obtain rfl := Option.some.inj e
    exact hi'.covered_iff.mpr (hi.covered_iff.mp hc)

theorem Fresh.covered {buffer : MemSpan} (hf : Fresh buffer s cs fs) (hb : Bounded buffer)
    (ha : Alignable buffer) : Covered { alloc := s } := by
  refine (hf.inv hb ha).covered_iff.mpr fun e he => ?_
  obtain ⟨pre, post, rfl, -⟩ := mem_held.mp he
  have hfree := hf.free
  have hpos : 0 < e.2 := hf.layout.tagged.pos ⟨e.2, true⟩ (by simp)
  simp only [usedTotal_append, usedTotal_cons, if_true] at hfree
  omega

theorem Inv.deallocateAll (hi : Inv h cs fs) (hn : h.alloc.blocksAmount < 2 ^ 31)
    (hc : Coalesced cs) (hlive : ∀ p ∈ ps, ∃ l ∈ h.live, l.addr = p) (hnodup : ps.Nodup)
    (hend : build = .release ∨ ∀ p ∈ ps, p < h.alloc.mem.data + h.alloc.mem.size) :
    ∃ h' cs' fs', deallocateAll build h.alloc ps = some h'.alloc ∧ Inv h' cs' fs' ∧
      Coalesced cs' ∧ h'.alloc.mem = h.alloc.mem ∧
      held 0 cs' = (held 0 cs).filter fun e => h.alloc.getMem e.1 ∉ ps := by
  induction ps generalizing h cs fs with
  | nil => exact ⟨h, cs, fs, rfl, hi, hc, rfl, by simp⟩
  | cons p ps ih =>
    obtain ⟨⟨l, hl, rfl⟩, hrest⟩ := List.forall_mem_cons.mp hlive
    obtain ⟨hnotin, hnodup⟩ := List.nodup_cons.mp hnodup
    obtain ⟨i, k, hik, ha, -⟩ := hi.backed l hl
    have hlow := (hi.backed_inside (hi.backed l hl)).1
    have hfirst : ensure build (h.alloc.mem.data ≤ l.addr ∧
        l.addr < h.alloc.mem.data + h.alloc.mem.size) = some () := by
      rcases hend with rfl | hend
      · rfl
      · exact ensure_of ⟨hlow, hend _ List.mem_cons_self⟩
    rw [ha] at hfirst hnotin
    obtain ⟨s, cs₁, fs₁, e, hr, hi₁, hc₁, hheld₁⟩ :=
      hi.deallocate_blocks build hik (hi.guarded hn (c := .deallocate _) trivial) hfirst
    have hn₁ : s.blocksAmount < 2 ^ 31 := by
      rwa [blocksAmount, hr.mem]
    have hlive₁ : ∀ q ∈ ps, ∃ l' ∈ h.live.filter (·.addr ≠ h.alloc.getMem i), l'.addr = q := by
      intro q hq
      obtain ⟨l', hl', rfl⟩ := hrest q hq
      refine ⟨l', List.mem_filter.mpr ⟨hl', decide_eq_true fun heq => hnotin (heq ▸ hq)⟩, rfl⟩
    have hend₁ : build = .release ∨ ∀ q ∈ ps, q < s.mem.data + s.mem.size := by
      rw [hr.mem]
      exact hend.imp_right fun hend q hq => hend q (List.mem_cons_of_mem _ hq)
    obtain ⟨h', cs', fs', e', hi', hc', hmem, hheld⟩ :=
      ih hi₁ hn₁ (hc₁ hc) hlive₁ hnodup hend₁
    refine ⟨h', cs', fs', ?_, hi', hc', hmem.trans hr.mem, ?_⟩
    · rw [Heap.deallocateAll, List.foldlM_cons, ha, e]
      exact e'
    · have hget (j : Nat) : s.getMem j = h.alloc.getMem j := by
        rw [getMem, getMem, hr.mem]
      rw [hheld, hheld₁, List.filter_filter, ha]
      refine List.filter_congr fun e _ => ?_
      have hinj : h.alloc.getMem e.1 = h.alloc.getMem i ↔ e.1 = i := ⟨getMem_inj, congrArg _⟩
      show (decide (s.getMem e.1 ∉ ps) && decide (e.1 ≠ i)) = _
      rw [hget, ← Bool.decide_and]
      exact decide_eq_decide.mpr (by rw [List.mem_cons, hinj, not_or, and_comm])

theorem Inv.sameTiling (hi : Inv h cs fs) {fs' : List Nat} (hi' : Inv h' cs fs')
    (hn : h.alloc.blocksAmount < 2 ^ 31) (hn' : h'.alloc.blocksAmount < 2 ^ 31)
    (hc : Coalesced cs) : SameTiling h.alloc h'.alloc := by
  have ht := (hi.represented hn hc).tags
  have ht' := (hi'.represented hn' hc).tags
  have hsteps (i : Nat) := ht.stepped_iff (i := i) hi.layout.amount
  refine ⟨fun i => (hsteps i).trans (ht'.stepped_iff hi'.layout.amount).symm,
    fun i hs => ht.agree ht' i ((hsteps i).mp hs), hi.used.trans hi'.used.symm⟩

theorem Inv.emptied (hi : Inv h cs fs) (hn : h.alloc.blocksAmount < 2 ^ 31) (hc : Coalesced cs)
    (hnone : held 0 cs = []) : Emptied h.alloc := by
  have hspare : cs = spare h.alloc.blocksAmount := by
    refine Coalesced.unique hi.layout.tagged.pos (fun c hm => ?_) hc ?_
      (hi.layout.amount.symm.trans total_spare.symm) (hnone.trans held_spare.symm)
    · by_cases hz : h.alloc.blocksAmount = 0
      · simp [spare, hz] at hm
      · simp only [spare, hz, if_false, List.mem_singleton] at hm
        exact hm ▸ Nat.pos_of_ne_zero hz
    · by_cases hz : h.alloc.blocksAmount = 0 <;> simp [spare, hz, Coalesced]
  have hlist : fs = starts false 0 cs := by
    have hperm := hi.layout.perm
    rw [hspare] at hperm ⊢
    by_cases hz : h.alloc.blocksAmount = 0
    · simpa [spare, hz, starts] using hperm
    · simpa [spare, hz, starts] using hperm
  refine ⟨hspare ▸ (hi.represented hn hc).tags, ?_, ?_⟩
  · rw [← hspare, ← hlist]
    exact hi.layout.list.threaded
  · rw [hi.used, hspare, usedTotal_spare, Nat.mul_zero]

def OrderFree (build : Build) (h : Heap) (ps : List Nat) : Prop :=
  ∀ qs qs', qs.Perm ps → qs'.Perm ps → ∃ s s', deallocateAll build h.alloc qs = some s ∧
    deallocateAll build h.alloc qs' = some s' ∧ SameTiling s s' ∧
    ((∀ l ∈ h.live, l.addr ∈ ps) → Emptied s)

theorem Inv.orderFree (hi : Inv h cs fs) (hn : h.alloc.blocksAmount < 2 ^ 31)
    (hc : Coalesced cs) (hcov : h.Covered) (hlive : ∀ p ∈ ps, ∃ l ∈ h.live, l.addr = p)
    (hnodup : ps.Nodup)
    (hend : build = .release ∨ ∀ p ∈ ps, p < h.alloc.mem.data + h.alloc.mem.size) :
    OrderFree build h ps := by
  have hrun {qs : List Nat} (hq : qs.Perm ps) : ∃ h' cs' fs',
      Heap.deallocateAll build h.alloc qs = some h'.alloc ∧ Inv h' cs' fs' ∧ Coalesced cs' ∧
      h'.alloc.blocksAmount = h.alloc.blocksAmount ∧
      held 0 cs' = (held 0 cs).filter fun e => h.alloc.getMem e.1 ∉ ps := by
    obtain ⟨h', cs', fs', e, hi', hc', hmem, hheld⟩ := hi.deallocateAll hn hc
      (fun p hp => hlive p (hq.mem_iff.mp hp)) (hq.nodup_iff.mpr hnodup)
      (hend.imp_right fun hend p hp => hend p (hq.mem_iff.mp hp))
    refine ⟨h', cs', fs', e, hi', hc', by rw [blocksAmount, hmem, ← blocksAmount], ?_⟩
    rw [hheld]
    exact List.filter_congr fun e _ => by simp [hq.mem_iff]
  intro qs qs' hq hq'
  obtain ⟨h₁, cs₁, fs₁, e₁, hi₁, hc₁, ha₁, hheld₁⟩ := hrun hq
  obtain ⟨h₂, cs₂, fs₂, e₂, hi₂, hc₂, ha₂, hheld₂⟩ := hrun hq'
  have hsame : cs₁ = cs₂ := by
    refine hc₁.unique hi₁.layout.tagged.pos hi₂.layout.tagged.pos hc₂ ?_
      (hheld₁.trans hheld₂.symm)
    rw [← hi₁.layout.amount, ← hi₂.layout.amount, ha₁, ha₂]
  subst hsame
  refine ⟨_, _, e₁, e₂, hi₁.sameTiling hi₂ (ha₁ ▸ hn) (ha₂ ▸ hn) hc₁, fun hall => ?_⟩
  refine hi₁.emptied (ha₁ ▸ hn) hc₁ ?_
  rw [hheld₁, List.filter_eq_nil_iff]
  intro e he
  obtain ⟨l, hl, ha⟩ := hi.covered_iff.mp hcov e he
  simpa [← ha] using hall l hl

theorem not_orderFree_of_atEnd (hp : p ∈ ps) (hne : p ≠ 0)
    (hend : ¬p < h.alloc.mem.data + h.alloc.mem.size) : ¬OrderFree .debug h ps := by
  intro hfree
  have hperm : (p :: ps.erase p).Perm ps := (List.perm_cons_erase hp).symm
  obtain ⟨s, -, e, -⟩ := hfree _ _ hperm hperm
  rw [deallocateAll, List.foldlM_cons] at e
  obtain ⟨s₁, e₁, -⟩ := Option.bind_eq_some_iff.mp e
  rw [Allocator.deallocate, if_neg hne, ensure, if_neg fun hin => hend hin.2] at e₁
  cases e₁

theorem orderFree_iff {buffer : MemSpan} (hb : Bounded buffer) (hs : Boots build buffer h)
    (hn : h.alloc.blocksAmount < 2 ^ 31) (hr : Reaches build Modest h h')
    (hlive : ∀ p ∈ ps, ∃ l ∈ h'.live, l.addr = p) (hnodup : ps.Nodup) :
    OrderFree build h' ps ↔
      build = .release ∨ ∀ p ∈ ps, p < h'.alloc.mem.data + h'.alloc.mem.size := by
  obtain ⟨blocks, s, e, rfl⟩ := hs
  obtain ⟨cs, fs, hf⟩ := construct_spec e
  have ha := hf.alignable hb hn
  obtain ⟨cs', fs', hi, hmem, hc, hcov⟩ := (hf.inv hb ha).keeps_reaches
    (fun hi hs hcov => hi.covered_step hcov hs) hn hf.coalesced (hf.covered hb ha) hr
  have hn' : h'.alloc.blocksAmount < 2 ^ 31 := by rwa [blocksAmount, hmem]
  constructor
  · intro hfree
    cases build with
    | release => exact .inl rfl
    | debug =>
      refine .inr fun p hp => ?_
      obtain ⟨l, hl, rfl⟩ := hlive p hp
      by_contra hend
      exact not_orderFree_of_atEnd hp (hi.live_ne hl) hend hfree
  · exact hi.orderFree hn' hc hcov hlive hnodup

theorem orderFree_iff_two_live : ∃ h h', Boots .debug ⟨4100, 100⟩ h ∧
    Reaches .debug Modest h h' ∧ h'.live.map (·.addr) = [4176, 4128] ∧
    (OrderFree .debug h' [4128, 4176] ↔ Build.debug = .release ∨
      ∀ p ∈ [4128, 4176], p < h'.alloc.mem.data + h'.alloc.mem.size) := by
  have hb : Bounded ⟨4100, 100⟩ := show 4100 + 100 < 2 ^ 64 by decide
  have e : ((construct .debug ⟨4100, 100⟩ fun _ => ⟨0, false, 0, 0, 0⟩).bind fun s =>
      (call .debug { alloc := s } (.allocate ⟨20, 5, by decide, by decide⟩)).bind fun h₁ =>
        (h₁.call .debug (.allocate ⟨0, 0, by decide, by decide⟩)).map fun h₂ =>
          (s.blocksAmount, h₂.live.map (·.addr))) = some (5, [4176, 4128]) := by
    decide +kernel
  simp only [Option.bind_eq_some_iff, Option.map_eq_some_iff, Prod.mk.injEq] at e
  obtain ⟨s, hs, h₁, e₁, h₂, e₂, hn, hl⟩ := e
  have hs : Boots .debug ⟨4100, 100⟩ { alloc := s } := ⟨_, s, hs, rfl⟩
  have s₁ : Step .debug Modest _ h₁ := step_allocate e₁ (show 16 + 20 + 2 ^ 5 < 2 ^ 64 by decide)
  have s₂ : Step .debug Modest h₁ h₂ := step_allocate e₂ (show 16 + 0 + 2 ^ 0 < 2 ^ 64 by decide)
  have hr := (Relation.ReflTransGen.single s₁).tail s₂
  have hlive : ∀ p ∈ [4128, 4176], ∃ l ∈ h₂.live, l.addr = p := by
    intro p hp
    refine List.mem_map.mp (hl ▸ ?_ : p ∈ h₂.live.map (·.addr))
    simpa [or_comm] using hp
  exact ⟨_, h₂, hs, hr, hl, orderFree_iff hb hs (hn ▸ by decide) hr hlive (by decide)⟩

theorem not_orderFree_zero_size : ∃ h h', Boots .debug ⟨4096, 16⟩ h ∧
    Reaches .debug Modest h h' ∧ h'.live.map (·.addr) = [4112] ∧
    deallocateAll .debug h'.alloc [4112] = none ∧ ¬OrderFree .debug h' [4112] := by
  have e : ((construct .debug ⟨4096, 16⟩ fun _ => ⟨0, false, 0, 0, 0⟩).bind fun s =>
      (call .debug { alloc := s } (.allocate ⟨0, 0, by decide, by decide⟩)).map fun h₁ =>
        (h₁.live.map (·.addr), (deallocateAll .debug h₁.alloc [4112]).isNone)) =
      some ([4112], true) := by
    decide +kernel
  simp only [Option.bind_eq_some_iff, Option.map_eq_some_iff, Prod.mk.injEq] at e
  obtain ⟨s, hs, h₁, e₁, hl, hnone⟩ := e
  have hnone := Option.isNone_iff_eq_none.mp hnone
  have s₁ : Step .debug Modest _ h₁ := step_allocate e₁ (show 16 + 0 + 2 ^ 0 < 2 ^ 64 by decide)
  refine ⟨_, h₁, ⟨_, s, hs, rfl⟩, .single s₁, hl, hnone, fun hfree => ?_⟩
  obtain ⟨s', -, hs', -⟩ := hfree [4112] [4112] .rfl .rfl
  cases hnone.symm.trans hs'

end Corosig.Heap
