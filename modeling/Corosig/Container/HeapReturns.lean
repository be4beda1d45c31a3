import Corosig.Container.HeapRuns

namespace Corosig.Heap
open BoundaryTags LinkedList Allocator

variable {build : Build} {h h' h₂ : Heap} {cs : List Block} {fs : List Nat} {i j k p : Nat}
  {r : Request} {s : Allocator}

def gap (s : Allocator) (r : Request) (i : Nat) : Nat :=
  (r.alignment - s.getMem i % r.alignment) % r.alignment

def Room (s : Allocator) (r : Request) : Prop :=
  ∃ i, Stepped s.tags s.blocksAmount i ∧ s.tags.used i = false ∧
    ceilDiv (blockSize + r.size + gap s r i) blockSize ≤ s.tags.owned i

theorem gap_unique {a n d : Nat} (hd : d < a) (hm : (n + d) % a = 0) : (a - n % a) % a = d := by
  have hlt : n % a < a := Nat.mod_lt _ (Nat.lt_of_le_of_lt (Nat.zero_le d) hd)
  have hsum : (n % a + d) % a = 0 := by rw [Nat.mod_add_mod, hm]
  rcases Nat.lt_or_ge (n % a + d) a with h | h
  · rw [Nat.mod_eq_of_lt h] at hsum
    rw [show n % a = 0 by omega, Nat.sub_zero, Nat.mod_self]
    omega
  · rw [Nat.mod_eq_sub_mod h, Nat.mod_eq_of_lt (by omega)] at hsum
    rw [Nat.mod_eq_of_lt (by omega)]
    omega

theorem Inv.blocksNeeded_eq_gap (hi : Inv h cs fs) (hs : i < h.alloc.blocksAmount)
    (hw : FitsWord h.alloc r i) :
    h.alloc.blocksNeeded r i = ceilDiv (blockSize + r.size + gap h.alloc r i) blockSize := by
  have hspec := alignRightDiff_spec (hi.arena.getMem_lt hs).1 r.alignment_lt
  have hgap : gap h.alloc r i = h.alloc.alignDiff r i := gap_unique hspec.1 hspec.2
  rw [blocksNeeded, Nat.mod_eq_of_lt hw, hgap]

theorem Inv.fitsWord (hi : Inv h cs fs) (hm : h.Modest (.allocate r))
    (hs : i < h.alloc.blocksAmount) : FitsWord h.alloc r i := by
  have hlt := (alignRightDiff_spec (hi.arena.getMem_lt hs).1 r.alignment_lt).1
  exact Nat.lt_trans (Nat.add_lt_add_left hlt _) hm

theorem Inv.allocate_exhausted (hi : Inv h cs fs) (hm : h.Modest (.allocate r)) :
    ∃ s p, h.alloc.allocate build r = some (s, p) ∧ (p = none ↔ ¬Room h.alloc r) ∧
      (p = none → s = h.alloc) := by
  have hneed {i : Nat} (hif : i ∈ fs) : h.alloc.blocksNeeded r i =
      ceilDiv (blockSize + r.size + gap h.alloc r i) blockSize :=
    hi.blocksNeeded_eq_gap (hi.layout.list.inside i hif)
      (hi.fitsWord hm (hi.layout.list.inside i hif))
  rcases allocate_search build (r := r) hi.layout.list with ⟨e, hall⟩ | ⟨i, hif, hf, e⟩
  · refine ⟨h.alloc, none, e, iff_of_true rfl ?_, fun _ => rfl⟩
    rintro ⟨i, hs, hu, hle⟩
    have hif := hi.mem_free_iff.mpr ⟨hs, hu⟩
    rw [← hneed hif] at hle
    exact Nat.lt_irrefl _ (Nat.lt_of_lt_of_le (hall i hif) hle)
  · obtain ⟨s, j, cs', fs', hc, -⟩ := hi.carved build hif (hi.fitsWord hm hf.inside) hf.fits
    refine ⟨s, some (h.alloc.getMem j), ?_, iff_of_false (by simp) (not_not.mpr ?_), by simp⟩
    · rw [e, hc.carve]
      rfl
    · obtain ⟨hs, hu⟩ := hi.mem_free_iff.mp hif
      exact ⟨i, hs, hu, hneed hif ▸ hf.fits⟩

theorem allocate_eq_none_iff {buffer : MemSpan} (hb : Bounded buffer) (hs : Boots build buffer h)
    (hn : h.alloc.blocksAmount < 2 ^ 31) (hr : Reaches build Modest h h')
    (hm : h'.Modest (.allocate r)) :
    ∃ s p, h'.alloc.allocate build r = some (s, p) ∧ (p = none ↔ ¬Room h'.alloc r) ∧
      (p = none → s = h'.alloc) := by
  obtain ⟨blocks, s, e, rfl⟩ := hs
  obtain ⟨cs, fs, hf⟩ := construct_spec e
  obtain ⟨cs', fs', hi, -, -⟩ :=
    (hf.inv hb (hf.alignable hb hn)).represented_reaches hn hf.coalesced hr
  exact hi.allocate_exhausted hm

theorem allocate_eq_none_iff_filled : ∃ h h', Boots .debug ⟨4096, 64⟩ h ∧
    Reaches .debug Modest h h' ∧ h'.live.length = 1 ∧
    ∃ s p, h'.alloc.allocate .debug ⟨40, 0, by decide, by decide⟩ = some (s, p) ∧
      (p = none ↔ ¬Room h'.alloc ⟨40, 0, by decide, by decide⟩) ∧ (p = none → s = h'.alloc) := by
  have hb : Bounded ⟨4096, 64⟩ := show 4096 + 64 < 2 ^ 64 by decide
  have e : ((construct .debug ⟨4096, 64⟩ fun _ => ⟨0, false, 0, 0, 0⟩).bind fun s =>
      (call .debug { alloc := s } (.allocate ⟨8, 4, by decide, by decide⟩)).map fun h₁ =>
        (s.blocksAmount, h₁.live.length)) = some (4, 1) := by
    decide +kernel
  simp only [Option.bind_eq_some_iff, Option.map_eq_some_iff, Prod.mk.injEq] at e
  obtain ⟨s, e, h₁, e₁, hn, hl⟩ := e
  have hs : Boots .debug ⟨4096, 64⟩ { alloc := s } := ⟨_, s, e, rfl⟩
  have hr : Reaches .debug Modest { alloc := s } h₁ :=
    .single (step_allocate e₁ (show 16 + 8 + 2 ^ 4 < 2 ^ 64 by decide))
  exact ⟨_, h₁, hs, hr, hl,
    allocate_eq_none_iff hb hs (hn ▸ by decide) hr (show 16 + 40 + 2 ^ 0 < 2 ^ 64 by decide)⟩

structure GivenBack (build : Build) (h : Heap) (p added : Nat) : Prop where
  range : h.alloc.mem.data ≤ p ∧ p < h.alloc.mem.data + h.alloc.mem.size
  inside : h.alloc.getMetadataIdxFromAddr p < h.alloc.blocksAmount
  found : h.alloc.getMem (h.alloc.getMetadataIdxFromAddr p) = p
  used : h.alloc.tags.used (h.alloc.getMetadataIdxFromAddr p) = true
  owned : h.alloc.tags.owned (h.alloc.getMetadataIdxFromAddr p) * blockSize = added
  unlinked : Unlinked h.alloc (h.alloc.getMetadataIdxFromAddr p)
  enough : added ≤ h.alloc.used
  dropped : ∃ s, h.alloc.deallocate build p = some s ∧ s.used + added = h.alloc.used

-- First fit takes a block of which, behind the alignment gap, the last 16 bytes of the arena
-- are left: the metadata fit and the payload starts where the arena ends.
def AtEnd (s : Allocator) (r : Request) : Prop :=
  ∃ i, FirstFit s r s.firstFreeBlockIdx i ∧
    i + s.alignDiff r i / blockSize + 1 = s.blocksAmount

theorem firstFit_unique {a : Nat} (hi : FirstFit s r a i) (hj : FirstFit s r a j) : i = j := by
  induction hi with
  | here _ hfit =>
    cases hj with
    | here _ _ => rfl
    | later _ hlt _ => exact absurd hfit (Nat.not_le.mpr hlt)
  | later _ hlt _ ih =>
    cases hj with
    | here _ hfit => exact absurd hfit (Nat.not_le.mpr hlt)
    | later _ _ hj => exact ih hj

theorem Inv.held_reaches (hi : Inv h cs fs) (hik : (i, k) ∈ held 0 cs)
    (hp : h.alloc.getMem i = p)
    (hr : Reaches build (fun h c => h.Guarded c ∧ c ≠ .deallocate p) h h') :
    h'.alloc.mem = h.alloc.mem ∧ ∃ cs' fs', Inv h' cs' fs' ∧ (i, k) ∈ held 0 cs' := by
  induction hr with
  | refl => exact ⟨rfl, cs, fs, hi, hik⟩
  | tail _ hs ih =>
    obtain ⟨hmem, cs₁, fs₁, hi₁, hik₁⟩ := ih
    obtain ⟨c, hperm, ⟨hg, hne⟩, e⟩ := hs
    obtain ⟨cs₂, fs₂, hi₂, hmem₂, -, hkept⟩ := hi₁.continues hperm hg e
    refine ⟨hmem₂.trans hmem, cs₂, fs₂, hi₂, hkept _ hik₁ ?_⟩
    rwa [getMem, hmem, ← getMem, hp]

theorem Inv.givenBack (hi : Inv h cs fs) (hik : (i, k) ∈ held 0 cs)
    (hg : h.Guarded (.deallocate (h.alloc.getMem i)))
    (hend : h.alloc.getMem i < h.alloc.mem.data + h.alloc.mem.size) :
    GivenBack build h (h.alloc.getMem i) (k * blockSize) := by
  have hlow : h.alloc.mem.data ≤ h.alloc.getMem i := by
    simp only [getMem, Nat.add_assoc]
    exact Nat.le_add_right _ _
  obtain ⟨hle, -⟩ := hi.held_le hik
  obtain ⟨s, e, hr, -⟩ := hi.deallocate_held build hik hg (ensure_of ⟨hlow, hend⟩)
  obtain ⟨pre, post, rfl, rfl⟩ := mem_held.mp hik
  rw [Nat.zero_add] at *
  have hsmall : total pre < 2 ^ 32 :=
    Nat.lt_of_le_of_lt (Nat.le_add_right _ _) hi.layout.hole.small
  obtain ⟨-, howned, hused⟩ := metadata_of_tagged hi.layout.tagged
  have hidx : h.alloc.getMetadataIdxFromAddr (h.alloc.getMem (total pre)) = total pre :=
    getMetadataIdxFromAddr_getMem hi.arena.aligned hsmall
  refine ⟨⟨hlow, hend⟩, ?_, ?_, ?_, ?_, ?_, hle, s, e, ?_⟩
  · rw [hidx]
    exact hi.layout.inside.1
  · rw [hidx]
  · rw [hidx]
    exact hused
  · rw [hidx]
    exact congrArg (· * blockSize) howned
  · rw [hidx]
    exact hi.layout.hole.unlinked
  · rw [hr.used]
    exact Nat.sub_add_cancel hle

theorem getMem_lt_iff (hm : Arena s.mem) (hj : j < s.blocksAmount) :
    s.getMem j < s.mem.data + s.mem.size ↔ j + 1 ≠ s.blocksAmount := by
  have hsize : s.mem.size = s.blocksAmount * blockSize :=
    (Nat.div_mul_cancel (Nat.dvd_of_mod_eq_zero hm.whole)).symm
  rw [hsize]
  simp only [getMem, blockSize]
  omega

theorem givenBack_iff {buffer : MemSpan} {h₀ : Heap} (hb : Bounded buffer) (ha : Alignable buffer)
    (hs : Boots build buffer h₀) (hr : Reaches build Guarded h₀ h)
    (hg : h.Guarded (.allocate r)) (e : h.alloc.allocate build r = some (s, some p))
    (hr' : Reaches build (fun h c => h.Guarded c ∧ c ≠ .deallocate p)
      ⟨s, ⟨p, r⟩ :: h.live, s.used :: h.history⟩ h₂)
    (hg' : h₂.Guarded (.deallocate p)) :
    GivenBack build h₂ p (s.used - h.alloc.used) ↔ ¬AtEnd h.alloc r := by
  obtain ⟨blocks, s₀, e₀, rfl⟩ := hs
  obtain ⟨cs₀, fs₀, hf⟩ := construct_spec e₀
  obtain ⟨cs, fs, hi⟩ := (hf.inv hb ha).reaches hr
  rcases allocate_search build (r := r) hi.layout.list with ⟨es, -⟩ | ⟨i, hif, hfit, es⟩
  · cases es.symm.trans e
  obtain ⟨s', j, cs₁, fs₁, hc, -⟩ := hi.carved build hif (hg i hfit) hfit.fits
  rw [es, hc.carve] at e
  cases e
  obtain ⟨hmem, cs₂, fs₂, hi₂, hj⟩ := hc.inv.held_reaches hc.taken
    (show s'.getMem j = h.alloc.getMem j by rw [getMem, getMem, hc.charged.mem]) hr'
  have hmem₂ : h₂.alloc.mem = h.alloc.mem := hmem.trans hc.charged.mem
  have hp : h.alloc.getMem j = h₂.alloc.getMem j := by rw [getMem, getMem, hmem₂]
  have hamount : h₂.alloc.blocksAmount = h.alloc.blocksAmount := by
    rw [blocksAmount, blocksAmount, hmem₂]
  have hlt : j < h₂.alloc.blocksAmount := by
    obtain ⟨pre, post, rfl, rfl⟩ := mem_held.mp hj
    rw [Nat.zero_add]
    exact hi₂.layout.inside.1
  have hend := getMem_lt_iff hi₂.arena hlt
  have hadded : s'.used - h.alloc.used = need r * blockSize := by
    rw [hc.charged.used]
    exact Nat.add_sub_cancel_left _ _
  rw [hp] at hg' ⊢
  rw [hadded]
  constructor
  · rintro hback ⟨i', hfit', hlast⟩
    rw [← firstFit_unique hfit hfit', ← hc.place, ← hamount] at hlast
    exact hend.mp hback.range.2 hlast
  · intro hno
    refine hi₂.givenBack hj hg' (hend.mpr fun hlast => hno ⟨i, hfit, ?_⟩)
    rw [← hc.place, hlast, hamount]

theorem givenBack_iff_small : ∃ h s p h₂, Boots .debug ⟨4096, 64⟩ h ∧
    h.alloc.allocate .debug ⟨8, 4, by decide, by decide⟩ = some (s, some p) ∧
    (GivenBack .debug h₂ p (s.used - h.alloc.used) ↔
      ¬AtEnd h.alloc ⟨8, 4, by decide, by decide⟩) := by
  have hb : Bounded ⟨4096, 64⟩ := show 4096 + 64 < 2 ^ 64 by decide
  have ha : Alignable ⟨4096, 64⟩ := show alignRightDiff 4096 16 ≤ 64 by decide +kernel
  have e : ((construct .debug ⟨4096, 64⟩ fun _ => ⟨0, false, 0, 0, 0⟩).bind fun s =>
      (s.allocate .debug ⟨8, 4, by decide, by decide⟩).map fun q =>
        (s.blocksAmount, q.1.blocksAmount, q.2)) = some (4, 4, some 4112) := by
    decide +kernel
  simp only [Option.bind_eq_some_iff, Option.map_eq_some_iff, Prod.mk.injEq] at e
  obtain ⟨s, e, ⟨s', p⟩, e', hn, hn', rfl⟩ := e
  obtain ⟨cs, fs, hf⟩ := construct_spec e
  have hi := hf.inv hb ha
  have hg := hi.guarded (hn ▸ by decide) (c := .allocate ⟨8, 4, by decide, by decide⟩)
    (show 16 + 8 + 2 ^ 4 < 2 ^ 64 by decide)
  have hstep : Step .debug Guarded { alloc := s }
      ⟨s', [⟨4112, ⟨8, 4, by decide, by decide⟩⟩], [s'.used, s.used]⟩ :=
    step_allocate (by simp only [call, e']; rfl) hg
  obtain ⟨cs', fs', hi'⟩ := hi.reaches (.single hstep)
  have hs : Boots .debug ⟨4096, 64⟩ { alloc := s } := ⟨_, s, e, rfl⟩
  have hsmall : s'.blocksAmount < 2 ^ 31 := Nat.lt_of_le_of_lt (Nat.le_of_eq hn') (by decide)
  have hg' := hi'.guarded hsmall (c := .deallocate 4112) trivial
  exact ⟨_, s', 4112, _, hs, e', givenBack_iff hb ha hs .refl hg e' .refl hg'⟩

theorem not_givenBack_of_atEnd : ∃ h s, Boots .debug ⟨4096, 16⟩ h ∧
    h.Modest (.allocate ⟨0, 0, by decide, by decide⟩) ∧
    h.alloc.allocate .debug ⟨0, 0, by decide, by decide⟩ = some (s, some 4112) ∧
    s.deallocate .debug 4112 = none ∧
    ¬GivenBack .debug ⟨s, [⟨4112, ⟨0, 0, by decide, by decide⟩⟩], [s.used, h.alloc.used]⟩ 4112
      (s.used - h.alloc.used) := by
  have e : ((construct .debug ⟨4096, 16⟩ fun _ => ⟨0, false, 0, 0, 0⟩).bind fun s =>
      (s.allocate .debug ⟨0, 0, by decide, by decide⟩).map fun q =>
        (q.2, (q.1.deallocate .debug 4112).isNone)) = some (some 4112, true) := by
    decide +kernel
  simp only [Option.bind_eq_some_iff, Option.map_eq_some_iff, Prod.mk.injEq] at e
  obtain ⟨s, e, ⟨s', p⟩, e', rfl, hnone⟩ := e
  have hnone := Option.isNone_iff_eq_none.mp hnone
  refine ⟨_, s', ⟨_, s, e, rfl⟩, show 16 + 0 + 2 ^ 0 < 2 ^ 64 by decide, e', hnone, fun hback => ?_⟩
  obtain ⟨s₂, hs₂, -⟩ := hback.dropped
  cases hnone.symm.trans hs₂

end Corosig.Heap
