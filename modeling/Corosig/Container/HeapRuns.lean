import Corosig.Container.HeapCalls

namespace Corosig.Heap
open BoundaryTags LinkedList Allocator

variable {build : Build} {h h' : Heap} {cs : List Block} {fs : List Nat}

def Boots (build : Build) (buffer : MemSpan) (h : Heap) : Prop :=
  ∃ blocks s, construct build buffer blocks = some s ∧ h = { alloc := s }

def Bounded (buffer : MemSpan) : Prop := buffer.data + buffer.size < 2 ^ 64

def Alignable (buffer : MemSpan) : Prop := alignRightDiff buffer.data blockSize ≤ buffer.size

theorem freeList_nil {s : Allocator} (hf : s.firstFreeBlockIdx = invalidIdx)
    (hl : s.lastFreeBlockIdx = invalidIdx) (ha : s.blocksAmount ≤ invalidIdx) : FreeList s [] :=
  ⟨⟨trivial, hf, hl, by simp, by simp⟩, by simp, by simp, ha⟩

theorem trim_spec {buffer : MemSpan} (hb : Bounded buffer) (ha : Alignable buffer) :
    Arena (trim buffer) := by
  have hspec := (alignRightDiff_spec (p := buffer.data) (k := 4)
    (Nat.lt_of_le_of_lt (Nat.le_add_right _ _) hb) (by decide)).2
  have hmod : (buffer.size + 2 ^ 64 - alignRightDiff buffer.data blockSize) % 2 ^ 64 =
      buffer.size - alignRightDiff buffer.data blockSize := by
    unfold Alignable at ha
    unfold Bounded at hb
    omega
  unfold Alignable Bounded at *
  refine ⟨hspec, ?_, ?_⟩
  · show (_ - _ % blockSize) % blockSize = 0
    simp only [blockSize]
    omega
  · show buffer.data + alignRightDiff buffer.data blockSize + (_ - _ % blockSize) < 2 ^ 64
    simp only [MemSpan.subspan, hmod, blockSize] at *
    omega

def capped (m : MemSpan) : MemSpan := m.first (min m.size ((2 ^ 32 - 1) * blockSize))

theorem capped_size (m : MemSpan) : (capped m).size / blockSize ≤ invalidIdx := by
  show min m.size ((2 ^ 32 - 1) * blockSize) / blockSize ≤ invalidIdx
  simp only [blockSize, invalidIdx]
  omega

theorem arena_capped {m : MemSpan} (hm : Arena m) : Arena (capped m) := by
  obtain ⟨ha, hw, hb⟩ := hm
  refine ⟨ha, ?_, ?_⟩
  · show min m.size ((2 ^ 32 - 1) * blockSize) % blockSize = 0
    simp only [blockSize] at hw ⊢
    omega
  · show m.data + min m.size ((2 ^ 32 - 1) * blockSize) < 2 ^ 64
    omega

theorem hole_start {s : Allocator} (ha : s.blocksAmount ≤ invalidIdx) (hpos : 0 < s.blocksAmount)
    (hf : s.firstFreeBlockIdx = invalidIdx) (hl : s.lastFreeBlockIdx = invalidIdx) :
    Hole (s.modify 0 fun _ => { blocksBefore := 0, blocksOwned := s.blocksAmount % 2 ^ 32 })
      [] s.blocksAmount false [] [] := by
  have hlt : s.blocksAmount < 2 ^ 32 := Nat.lt_of_le_of_lt ha (by decide)
  refine ⟨?_, ?_, freeList_nil hf hl ha, .refl _, by simp [starts], ?_⟩
  · simp only [List.nil_append, total_cons, total_nil, Nat.add_zero]
    rfl
  · refine ⟨?_, ?_, ?_, hpos, trivial⟩
    · simp [tags, Allocator.modify, cut]
    · simpa [tags, Allocator.modify] using hlt
    · simp [tags, Allocator.modify]
  · simp [Unlinked, next, prev, Allocator.modify]

structure Fresh (buffer : MemSpan) (s : Allocator) (cs : List Block) (fs : List Nat) : Prop where
  layout : Layout s cs fs
  mem : s.mem = capped (trim buffer)
  used : s.used = 0
  peak : s.peak = 0
  free : usedTotal cs = 0
  coalesced : Coalesced cs

theorem construct_spec {buffer : MemSpan} {blocks : Nat → BlockMetadata} {s : Allocator}
    (e : construct build buffer blocks = some s) : ∃ cs fs, Fresh buffer s cs fs := by
  simp only [construct, Option.bind_eq_bind, Option.bind_eq_some_iff, Option.pure_def] at e
  obtain ⟨u, -, e⟩ := e
  have hle := capped_size (trim buffer)
  change (if 0 < (capped (trim buffer)).size / blockSize then _ else _) = some s at e
  split at e
  · rename_i hpos
    obtain ⟨_, -, e⟩ := Option.bind_eq_some_iff.mp e
    obtain ⟨s', fs, e', hl, hk⟩ := (hole_start (s := { mem := capped (trim buffer), blocks := blocks })
      hle hpos rfl rfl).attach build
    obtain rfl : s' = s := Option.some.inj (e'.symm.trans e)
    exact ⟨_, fs, hl, hk.mem, hk.used, hk.peak, by simp, by simp [Coalesced]⟩
  · rename_i hpos
    obtain rfl := Option.some.inj e
    refine ⟨[], [], ⟨Nat.eq_zero_of_not_pos hpos, trivial, freeList_nil rfl rfl hle, .refl _,
      by simp [starts]⟩, rfl, rfl, rfl, rfl, by simp [Coalesced]⟩

theorem Fresh.inv_of_arena {buffer : MemSpan} {s : Allocator} (hf : Fresh buffer s cs fs)
    (hm : Arena s.mem) : Inv { alloc := s } cs fs where
  arena := hm
  layout := hf.layout
  used := by rw [hf.used, hf.free, Nat.mul_zero]
  backed := by simp
  distinct := by simp
  used_mem := by simp
  peak_mem := by simp [hf.used, hf.peak]
  peak_le := by simp [hf.used]

theorem Fresh.inv {buffer : MemSpan} {s : Allocator} (hf : Fresh buffer s cs fs)
    (hb : Bounded buffer) (ha : Alignable buffer) : Inv { alloc := s } cs fs :=
  hf.inv_of_arena (hf.mem ▸ arena_capped (trim_spec hb ha))

theorem Fresh.alignable {buffer : MemSpan} {s : Allocator} (hf : Fresh buffer s cs fs)
    (hb : Bounded buffer) (hn : s.blocksAmount < 2 ^ 31) : Alignable buffer := by
  have hlt := (alignRightDiff_spec (p := buffer.data) (k := 4)
    (Nat.lt_of_le_of_lt (Nat.le_add_right _ _) hb) (by decide)).1
  by_contra hgt
  have hmod : (buffer.size + 2 ^ 64 - alignRightDiff buffer.data blockSize) % 2 ^ 64 =
      buffer.size + 2 ^ 64 - alignRightDiff buffer.data blockSize := by
    unfold Alignable at hgt
    omega
  rw [blocksAmount, hf.mem] at hn
  change min (_ - _ % blockSize) ((2 ^ 32 - 1) * blockSize) / blockSize < 2 ^ 31 at hn
  simp only [MemSpan.subspan, hmod] at hn
  change alignRightDiff buffer.data blockSize < 16 at hlt
  simp only [blockSize] at hn hlt
  omega

def Modest (_ : Heap) : Call → Prop
  | .allocate r => blockSize + r.size + r.alignment < 2 ^ 64
  | _ => True

theorem Inv.guarded (hi : Inv h cs fs) (hn : h.alloc.blocksAmount < 2 ^ 31) {c : Call}
    (hm : h.Modest c) : h.Guarded c := by
  cases c with
  | allocate r =>
    intro i hf
    have hlt := (alignRightDiff_spec (hi.arena.getMem_lt hf.inside).1 r.alignment_lt).1
    exact Nat.lt_trans (Nat.add_lt_add_left hlt _) hm
  | deallocate p =>
    intro i hs _
    have hb := hi.layout.tagged.boundary_fits
      ((hi.layout.tagged.stepped_iff hi.layout.amount).mp hs)
    rw [Nat.zero_add, ← hi.layout.amount] at hb
    omega
  | write cells => trivial

theorem safe_of_guarded {buffer : MemSpan} (hb : Bounded buffer) (ha : Alignable buffer)
    (hs : Boots build buffer h) (hr : Reaches build Guarded h h') : Safe h' := by
  obtain ⟨blocks, s, e, rfl⟩ := hs
  obtain ⟨cs, fs, hf⟩ := construct_spec e
  obtain ⟨cs', fs', hi⟩ := (hf.inv hb ha).reaches hr
  exact hi.safe

theorem safe_of_guarded_small : ∃ h h', Boots .debug ⟨4100, 100⟩ h ∧
    Reaches .debug Guarded h h' ∧ h'.live.length = 1 ∧ Safe h' := by
  have hb : Bounded ⟨4100, 100⟩ := show 4100 + 100 < 2 ^ 64 by decide
  have ha : Alignable ⟨4100, 100⟩ := show alignRightDiff 4100 16 ≤ 100 by decide +kernel
  have e : ((construct .debug ⟨4100, 100⟩ fun _ => ⟨0, false, 0, 0, 0⟩).bind fun s =>
      (call .debug { alloc := s } (.allocate ⟨20, 5, by decide, by decide⟩)).map fun h₁ =>
        (s.blocksAmount, h₁.live.length)) = some (5, 1) := by
    decide +kernel
  simp only [Option.bind_eq_some_iff, Option.map_eq_some_iff, Prod.mk.injEq] at e
  obtain ⟨s, e, h₁, e₁, hn, hl⟩ := e
  obtain ⟨cs, fs, hf⟩ := construct_spec e
  have hg := (hf.inv hb ha).guarded (hn ▸ by decide)
    (c := .allocate ⟨20, 5, by decide, by decide⟩) (show 16 + 20 + 2 ^ 5 < 2 ^ 64 by decide)
  have hs : Boots .debug ⟨4100, 100⟩ { alloc := s } := ⟨_, s, e, rfl⟩
  have s₁ : Step .debug Guarded _ h₁ := step_allocate e₁ hg
  exact ⟨_, h₁, hs, .single s₁, hl, safe_of_guarded hb ha hs (.single s₁)⟩

theorem not_safe_of_reaches : ¬ ∀ (buffer : MemSpan) (h h' : Heap), Bounded buffer →
    Alignable buffer → Boots .debug buffer h → Reaches .debug (fun _ _ => True) h h' → Safe h' := by
  intro hall
  have e : ((construct .debug ⟨4096, 64⟩ fun _ => ⟨0, false, 0, 0, 0⟩).bind fun s =>
      (call .debug { alloc := s } (.allocate ⟨2 ^ 64 - 8, 0, by decide, by decide⟩)).map fun h₁ =>
        h₁.live.all fun l => l.addr + l.request.size ≤ h₁.alloc.mem.data + h₁.alloc.mem.size) =
      some false := by
    decide +kernel
  simp only [Option.bind_eq_some_iff, Option.map_eq_some_iff] at e
  obtain ⟨s, e, h₁, e₁, hu⟩ := e
  have s₁ : Step .debug (fun _ _ => True) _ h₁ := step_allocate e₁ trivial
  have hsafe := hall ⟨4096, 64⟩ _ h₁ (show 4096 + 64 < 2 ^ 64 by decide)
    (show alignRightDiff 4096 16 ≤ 64 by decide +kernel) ⟨_, s, e, rfl⟩ (.single s₁)
  obtain ⟨l, hl, hlt⟩ := List.all_eq_false.mp hu
  exact hlt (decide_eq_true (hsafe.inside l hl).2)

structure Represented (h : Heap) (cs : List Block) (fs : List Nat) : Prop where
  tiles : total cs = h.alloc.blocksAmount
  tags : Tagged id h.alloc.tags 0 0 cs
  threaded : Threaded h.alloc.next h.alloc.prev invalidIdx h.alloc.firstFreeBlockIdx
    h.alloc.lastFreeBlockIdx fs
  free_iff : ∀ i, i ∈ fs ↔
    Stepped h.alloc.tags h.alloc.blocksAmount i ∧ h.alloc.tags.used i = false
  coalesced : ∀ i, Stepped h.alloc.tags h.alloc.blocksAmount i →
    i + h.alloc.tags.owned i < h.alloc.blocksAmount →
      h.alloc.tags.used i = true ∨ h.alloc.tags.used (i + h.alloc.tags.owned i) = true
  used : h.alloc.used = blockSize * usedTotal cs
  peak : h.alloc.peak ∈ h.history ∧ ∀ u ∈ h.history, u ≤ h.alloc.peak

theorem Inv.mem_free_iff (hi : Inv h cs fs) {i : Nat} :
    i ∈ fs ↔ Stepped h.alloc.tags h.alloc.blocksAmount i ∧ h.alloc.tags.used i = false := by
  rw [hi.layout.perm.mem_iff, hi.layout.tagged.stepped_iff hi.layout.amount]
  constructor
  · exact fun hm => ⟨starts_subset hm, hi.layout.tagged.used_of_mem_starts hm⟩
  · rintro ⟨hm, hu⟩
    exact hu ▸ hi.layout.tagged.mem_boundaries hm

theorem Inv.represented (hi : Inv h cs fs) (hn : h.alloc.blocksAmount < 2 ^ 31)
    (hc : Coalesced cs) : Represented h cs fs where
  tiles := hi.layout.amount.symm
  tags := by
    refine hi.layout.tagged.exact rfl fun c hc => Nat.mod_eq_of_lt ?_
    obtain ⟨pre, post, rfl⟩ := List.append_of_mem (List.dropLast_subset _ hc)
    have ha := hi.layout.amount
    simp only [total_append, total_cons] at ha
    omega
  threaded := hi.layout.list.threaded
  free_iff i := hi.mem_free_iff
  coalesced i hs hlt := by
    have hm := (hi.layout.tagged.stepped_iff hi.layout.amount).mp hs
    obtain ⟨pre, c, post, rfl, -, rfl⟩ := mem_starts.mp (hi.layout.tagged.mem_boundaries hm)
    obtain ⟨-, ho, hu, -⟩ := hi.layout.tagged.at
    cases post with
    | nil =>
      rw [ho, hi.layout.amount] at hlt
      simp at hlt
    | cons d post =>
      have ht := hi.layout.tagged
      rw [List.append_cons] at ht
      have hd := ht.at.2.2.1
      simp only [total_append, total_cons, total_nil, Nat.add_zero, ← Nat.add_assoc] at hd
      rw [ho, hu, hd]
      exact (coalesced_cons.mp (coalesced_append.mp hc).2.1).2.imp_right fun h => h d rfl
  used := hi.used
  peak := ⟨hi.peak_mem, hi.peak_le⟩

theorem Inv.keeps_reaches {Q : Heap → Prop}
    (hQ : ∀ {h h' : Heap} {cs : List Block} {fs : List Nat}, Inv h cs fs →
      Step build Guarded h h' → Q h → Q h')
    (hi : Inv h cs fs) (hn : h.alloc.blocksAmount < 2 ^ 31) (hc : Coalesced cs) (hq : Q h)
    (hr : Reaches build Modest h h') :
    ∃ cs' fs', Inv h' cs' fs' ∧ h'.alloc.mem = h.alloc.mem ∧ Coalesced cs' ∧ Q h' := by
  induction hr with
  | refl => exact ⟨cs, fs, hi, rfl, hc, hq⟩
  | tail _ hs ih =>
    obtain ⟨cs₁, fs₁, h₁, hm₁, hc₁, hq₁⟩ := ih
    obtain ⟨c, hp, hm, e⟩ := hs
    have hstep : Step build Guarded _ _ :=
      ⟨c, hp, h₁.guarded (by rwa [blocksAmount, hm₁]) hm, e⟩
    obtain ⟨cs₂, fs₂, h₂, hm₂, hc₂⟩ := h₁.step hstep
    exact ⟨cs₂, fs₂, h₂, hm₂.trans hm₁, hc₂ hc₁, hQ h₁ hstep hq₁⟩

theorem Inv.represented_reaches (hi : Inv h cs fs) (hn : h.alloc.blocksAmount < 2 ^ 31)
    (hc : Coalesced cs) (hr : Reaches build Modest h h') :
    ∃ cs' fs', Inv h' cs' fs' ∧ h'.alloc.mem = h.alloc.mem ∧ Coalesced cs' := by
  obtain ⟨cs', fs', hi', hm, hc', -⟩ :=
    hi.keeps_reaches (Q := fun _ => True) (fun _ _ _ => trivial) hn hc trivial hr
  exact ⟨cs', fs', hi', hm, hc'⟩

theorem represented_of_modest {buffer : MemSpan} (hb : Bounded buffer)
    (hs : Boots build buffer h) (hn : h.alloc.blocksAmount < 2 ^ 31)
    (hr : Reaches build Modest h h') : ∃ cs fs, Represented h' cs fs := by
  obtain ⟨blocks, s, e, rfl⟩ := hs
  obtain ⟨cs, fs, hf⟩ := construct_spec e
  obtain ⟨cs', fs', hi, hm, hc⟩ :=
    (hf.inv hb (hf.alignable hb hn)).represented_reaches hn hf.coalesced hr
  exact ⟨cs', fs', hi.represented (by rwa [blocksAmount, hm]) hc⟩

theorem represented_of_modest_small : ∃ h h', Boots .debug ⟨4100, 100⟩ h ∧
    Reaches .debug Modest h h' ∧ h'.live.length = 2 ∧ ∃ cs fs, Represented h' cs fs := by
  have hb : Bounded ⟨4100, 100⟩ := show 4100 + 100 < 2 ^ 64 by decide
  have e : ((construct .debug ⟨4100, 100⟩ fun _ => ⟨0, false, 0, 0, 0⟩).bind fun s =>
      (call .debug { alloc := s } (.allocate ⟨20, 5, by decide, by decide⟩)).bind fun h₁ =>
        (h₁.call .debug (.allocate ⟨0, 0, by decide, by decide⟩)).map fun h₂ =>
          (s.blocksAmount, h₂.live.length)) = some (5, 2) := by
    decide +kernel
  simp only [Option.bind_eq_some_iff, Option.map_eq_some_iff, Prod.mk.injEq] at e
  obtain ⟨s, hs, h₁, e₁, h₂, e₂, hn, hl⟩ := e
  have hs : Boots .debug ⟨4100, 100⟩ { alloc := s } := ⟨_, s, hs, rfl⟩
  have s₁ : Step .debug Modest _ h₁ := step_allocate e₁ (show 16 + 20 + 2 ^ 5 < 2 ^ 64 by decide)
  have s₂ : Step .debug Modest h₁ h₂ := step_allocate e₂ (show 16 + 0 + 2 ^ 0 < 2 ^ 64 by decide)
  have hr := (Relation.ReflTransGen.single s₁).tail s₂
  exact ⟨_, h₂, hs, hr, hl,
    represented_of_modest hb hs (hn ▸ by decide) hr⟩

end Corosig.Heap
