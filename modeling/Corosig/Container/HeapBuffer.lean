import Corosig.Container.HeapReturns

namespace Corosig.Allocator
open Function BoundaryTags LinkedList

variable {build : Build} {s s' : Allocator} {f : Nat → BlockMetadata} {i j v : Nat} {u : Bool}
  {r : Request}

def patch (s : Allocator) (f : Nat → BlockMetadata) : Allocator :=
  { s with blocks := fun i => if i < s.blocksAmount then s.blocks i else f i }

@[simp] theorem patch_amount : (s.patch f).blocksAmount = s.blocksAmount := rfl

@[simp] theorem patch_first : (s.patch f).firstFreeBlockIdx = s.firstFreeBlockIdx := rfl

@[simp] theorem patch_last : (s.patch f).lastFreeBlockIdx = s.lastFreeBlockIdx := rfl

@[simp] theorem patch_mem : (s.patch f).mem = s.mem := rfl

@[simp] theorem patch_used : (s.patch f).used = s.used := rfl

@[simp] theorem patch_getMem : (s.patch f).getMem i = s.getMem i := rfl

@[simp] theorem patch_get : (s.patch f).getBlockMetadata i = s.getBlockMetadata i := by
  by_cases h : i < s.blocksAmount
  · rw [getBlockMetadata_of_lt h, getBlockMetadata_of_lt (s := s.patch f) h]
    exact congrArg some (if_pos h)
  · rw [getBlockMetadata, getBlockMetadata, if_neg h]
    exact if_neg h

theorem patch_modify {g : BlockMetadata → BlockMetadata} (hi : i < s.blocksAmount) :
    (s.patch f).modify i g = (s.modify i g).patch f := by
  have hblocks : (s.patch f).blocks i = s.blocks i := if_pos hi
  simp only [modify, hblocks]
  refine congrArg (Allocator.mk s.firstFreeBlockIdx s.lastFreeBlockIdx s.mem · s.used s.peak) ?_
  funext j
  show update (s.patch f).blocks i (g (s.blocks i)) j =
    if j < s.blocksAmount then update s.blocks i (g (s.blocks i)) j else f j
  by_cases hj : j = i
  · subst hj
    rw [update_self, update_self, if_pos hi]
  · rw [update_of_ne hj, update_of_ne hj]
    rfl

theorem bind_map {α β : Type} {x y : Option α} {k k' : α → Option β} {g : α → α} {g' : β → β}
    (hx : y = x.map g) (hk : ∀ a, x = some a → k' (g a) = (k a).map g') :
    y.bind k' = (x.bind k).map g' := by
  subst hx
  cases x with
  | none => rfl
  | some a => exact hk a rfl

theorem bind_same {α β : Type} {x : Option α} {k k' : α → Option β} {g' : β → β}
    (hk : ∀ a, x = some a → k' a = (k a).map g') : x.bind k' = (x.bind k).map g' :=
  bind_map (g := id) (by simp) hk

theorem ite_map {α : Type} {c : Prop} [Decidable c] {x x' y y' : Option α} {g : α → α}
    (hx : x' = x.map g) (hy : y' = y.map g) :
    (if c then x' else y') = (if c then x else y).map g := by
  split
  · exact hx
  · exact hy

theorem lt_of_get {m : BlockMetadata} (h : s.getBlockMetadata i = some m) : i < s.blocksAmount := by
  by_contra hlt
  rw [getBlockMetadata, if_neg hlt] at h
  cases h

theorem patch_setBlocksOwned :
    (s.patch f).setBlocksOwned i v = (s.setBlocksOwned i v).map (·.patch f) := by
  simp only [setBlocksOwned, patch_get, Option.bind_eq_bind, Option.pure_def]
  refine bind_same fun m hm => ?_
  simp only [setOwned, patch_modify (lt_of_get hm), patch_get, patch_amount]
  refine ite_map (bind_same fun m' hm' => ?_) rfl
  rw [setBefore, patch_modify (lt_of_get hm')]
  rfl

theorem patch_pushFreeNode :
    (s.patch f).pushFreeNode build i = (s.pushFreeNode build i).map (·.patch f) := by
  simp only [pushFreeNode, patch_get, patch_first, patch_last, patch_amount, Option.bind_eq_bind,
    Option.pure_def]
  refine bind_same fun m hm => bind_same fun _ _ => bind_same fun _ _ => bind_same fun _ _ => ?_
  have hi := lt_of_get hm
  refine ite_map rfl (ite_map ?_ ?_)
  · refine bind_same fun front hfront => bind_same fun _ _ => bind_same fun _ _ =>
      bind_same fun _ _ => ?_
    rw [setPrev, patch_modify (lt_of_get hfront), setNext, patch_modify (s := s.modify _ _) hi]
    rfl
  · refine bind_same fun back hback => bind_same fun _ _ => bind_same fun _ _ =>
      bind_same fun _ _ => ?_
    rw [setNext, patch_modify (lt_of_get hback), setPrev, patch_modify (s := s.modify _ _) hi]
    rfl

theorem patch_unlinkNextNeighbour :
    (s.patch f).unlinkNextNeighbour build i = (s.unlinkNextNeighbour build i).map (·.patch f) := by
  simp only [unlinkNextNeighbour, patch_get, Option.bind_eq_bind, Option.pure_def]
  refine bind_same fun m _ => ite_map ?_ rfl
  refine bind_same fun next hnext => bind_same fun _ _ => bind_same fun _ _ => ?_
  rw [setPrev, patch_modify (lt_of_get hnext)]
  rfl

theorem patch_unlinkPrevNeighbour :
    (s.patch f).unlinkPrevNeighbour build i = (s.unlinkPrevNeighbour build i).map (·.patch f) := by
  simp only [unlinkPrevNeighbour, patch_get, Option.bind_eq_bind, Option.pure_def]
  refine bind_same fun m _ => ite_map ?_ rfl
  refine bind_same fun prev hprev => bind_same fun _ _ => bind_same fun _ _ => ?_
  rw [setNext, patch_modify (lt_of_get hprev)]
  rfl

theorem patch_unlinkEnds :
    (s.patch f).unlinkEnds build i = (s.unlinkEnds build i).map (·.patch f) := by
  simp only [unlinkEnds, patch_get, patch_first, patch_last, Option.bind_eq_bind, Option.pure_def]
  refine bind_same fun m _ => ite_map (bind_same fun _ _ => ?_) ?_
  · exact ite_map (bind_same fun _ _ => rfl) rfl
  · exact ite_map (bind_same fun _ _ => rfl) rfl

theorem lt_of_unlinkEnds (e : s.unlinkEnds build i = some s') : i < s'.blocksAmount := by
  simp only [unlinkEnds, Option.bind_eq_bind, Option.pure_def] at e
  obtain ⟨m, hm, e⟩ := Option.bind_eq_some_iff.mp e
  have hi := lt_of_get hm
  have hends {x : Option Unit} {s₁ : Allocator}
      (e : (if s.lastFreeBlockIdx = i then x.bind fun _ => some s₁ else some s₁) = some s')
      (hmem : s₁.blocksAmount = s.blocksAmount) : i < s'.blocksAmount := by
    split at e
    · obtain ⟨-, -, e⟩ := Option.bind_eq_some_iff.mp e
      cases e
      exact hmem ▸ hi
    · cases e
      exact hmem ▸ hi
  split at e
  · obtain ⟨-, -, e⟩ := Option.bind_eq_some_iff.mp e
    exact hends e rfl
  · exact hends e rfl

theorem patch_unlinkFreeNode :
    (s.patch f).unlinkFreeNode build i = (s.unlinkFreeNode build i).map (·.patch f) := by
  simp only [unlinkFreeNode, patch_get, Option.bind_eq_bind, Option.pure_def]
  refine bind_same fun m hm => bind_same fun _ _ => bind_same fun _ _ => bind_same fun _ _ => ?_
  refine bind_map patch_unlinkNextNeighbour fun s₁ e₁ =>
    bind_map patch_unlinkPrevNeighbour fun s₂ e₂ => bind_map patch_unlinkEnds fun s₃ e₃ => ?_
  have hi := lt_of_unlinkEnds e₃
  rw [setNext, patch_modify hi, setPrev, patch_modify (s := s₃.modify _ _) hi]
  rfl

theorem patch_defaultInitialize (hi : i < s.blocksAmount) :
    (s.patch f).defaultInitialize i = (s.defaultInitialize i).patch f := by
  simp only [defaultInitialize, setUsed, setPrev, setNext]
  rw [patch_modify hi, patch_modify (s := s.modify _ _) hi,
    patch_modify (s := (s.modify _ _).modify _ _) hi]

theorem patch_splitAlignment : (s.patch f).splitAlignment build i v =
    (s.splitAlignment build i v).map fun q => (q.1.patch f, q.2) := by
  simp only [splitAlignment, patch_get, Option.bind_eq_bind, Option.pure_def]
  refine ite_map (bind_same fun m _ => ?_) rfl
  refine bind_map patch_setBlocksOwned fun s₁ _ => bind_map patch_unlinkFreeNode fun s₂ _ =>
    bind_map patch_pushFreeNode fun s₃ _ => ?_
  rw [patch_get]
  refine bind_same fun m' hm' => ?_
  rw [patch_defaultInitialize (lt_of_get hm')]
  exact bind_map patch_setBlocksOwned fun s₄ _ => rfl

theorem patch_splitRemainder {k : Nat} : (s.patch f).splitRemainder build i v k =
    (s.splitRemainder build i v k).map (·.patch f) := by
  simp only [splitRemainder, patch_get, Option.bind_eq_bind, Option.pure_def]
  refine ite_map (bind_same fun m hm => ?_) rfl
  rw [patch_defaultInitialize (lt_of_get hm)]
  exact bind_map patch_setBlocksOwned fun s₁ _ => patch_pushFreeNode

theorem patch_setUsed_setBlocksOwned : ((s.patch f).setUsed i u).setBlocksOwned i v =
    ((s.setUsed i u).setBlocksOwned i v).map (·.patch f) := by
  by_cases hi : i < s.blocksAmount
  · rw [setUsed, patch_modify hi]
    exact patch_setBlocksOwned
  · have hout {s : Allocator} (hs : ¬i < s.blocksAmount) :
        (s.setUsed i u).setBlocksOwned i v = none := by
      simp only [setBlocksOwned, getBlockMetadata]
      rw [if_neg (show ¬i < (s.setUsed i u).blocksAmount from hs)]
      rfl
    rw [hout hi, hout (s := s.patch f) hi]
    rfl

theorem patch_finish {n d : Nat} :
    ((ensure build (((s.patch f).charge n).used ≤ ((s.patch f).charge n).mem.size)).bind fun _ =>
      (ensure build ((((s.patch f).charge n).getMem i + d) % r.alignment = 0)).bind fun _ =>
        some ((s.patch f).charge n, ((s.patch f).charge n).getMem i + d)) =
    ((ensure build ((s.charge n).used ≤ (s.charge n).mem.size)).bind fun _ =>
      (ensure build (((s.charge n).getMem i + d) % r.alignment = 0)).bind fun _ =>
        some (s.charge n, (s.charge n).getMem i + d)).map fun q => (q.1.patch f, q.2) := by
  have hcharge : (s.patch f).charge n = (s.charge n).patch f := rfl
  simp only [hcharge, patch_used, patch_mem, patch_getMem]
  exact bind_same fun _ _ => bind_same fun _ _ => rfl

theorem patch_carve : (s.patch f).carve build r i =
    (s.carve build r i).map fun q => (q.1.patch f, q.2) := by
  have hdiff : (s.patch f).alignDiff r i = s.alignDiff r i := rfl
  have hneed : (s.patch f).blocksNeeded r i = s.blocksNeeded r i := rfl
  simp only [carve, hdiff, hneed, Option.bind_eq_bind, Option.pure_def]
  refine bind_map patch_splitAlignment fun q _ => ?_
  simp only [patch_get]
  exact bind_same fun old _ => bind_map patch_unlinkFreeNode fun s₁ _ =>
    bind_map patch_setUsed_setBlocksOwned fun s₂ _ => bind_map patch_splitRemainder fun s₃ _ =>
      patch_finish

theorem patch_allocateFrom {n : Nat} : (s.patch f).allocateFrom build r n i =
    (s.allocateFrom build r n i).map fun q => (q.1.patch f, q.2) := by
  induction n generalizing i with
  | zero => rfl
  | succ n ih =>
    simp only [allocateFrom, patch_get, patch_amount, Option.bind_eq_bind, Option.pure_def]
    refine ite_map (bind_same fun m _ => bind_same fun _ _ => bind_same fun _ _ => ?_) rfl
    exact ite_map ih (bind_map patch_carve fun q _ => rfl)

theorem patch_allocate : (s.patch f).allocate build r =
    (s.allocate build r).map fun q => (q.1.patch f, q.2) :=
  patch_allocateFrom

end Corosig.Allocator

namespace Corosig.Heap
open Allocator

variable {build : Build} {buffer : MemSpan} {s : Allocator} {r : Request} {i : Nat}
  {blocks : Nat → BlockMetadata}

def wholeBlocks (buffer : MemSpan) : Nat :=
  (buffer.size - alignRightDiff buffer.data blockSize) / blockSize

def InBuffer (buffer : MemSpan) (s : Allocator) (i : Nat) : Prop :=
  buffer.data ≤ s.mem.data + i * blockSize ∧
    s.mem.data + i * blockSize + blockSize ≤ buffer.data + buffer.size

def AllocatesInside (build : Build) (buffer : MemSpan) (s : Allocator) (r : Request) : Prop :=
  ∃ s' p, s.allocate build r = some (s', p) ∧
    (∀ i, ¬InBuffer buffer s i → s'.blocks i = s.blocks i) ∧
    ∀ blocks, (∀ i, InBuffer buffer s i → blocks i = s.blocks i) →
      ∃ s'', { s with blocks := blocks }.allocate build r = some (s'', p) ∧
        ∀ i, InBuffer buffer s i → s''.blocks i = s'.blocks i

structure Region (buffer mem : MemSpan) : Prop where
  lower : buffer.data ≤ mem.data
  upper : mem.data + mem.size ≤ buffer.data + buffer.size
  aligned : mem.data % blockSize = 0
  whole : mem.size % blockSize = 0

def StaysInside (build : Build) (buffer : MemSpan) (blocks : Nat → BlockMetadata) : Prop :=
  ∃ s, construct build buffer blocks = some s ∧ Region buffer s.mem ∧
    ∀ h r, Reaches build Modest { alloc := s } h → h.Modest (.allocate r) →
      AllocatesInside build buffer h.alloc r

theorem Region.inBuffer (hr : Region buffer s.mem) (hi : i < s.blocksAmount) :
    InBuffer buffer s i := by
  obtain ⟨hl, hu, -, hw⟩ := hr
  simp only [InBuffer, blocksAmount, blockSize] at *
  omega

theorem Region.allocatesInside (hr : Region buffer s.mem)
    (hs : ∃ s' p, s.allocate build r = some (s', p) ∧ s'.mem = s.mem) :
    AllocatesInside build buffer s r := by
  obtain ⟨s', p, e, hmem⟩ := hs
  have hpatch (f : Nat → BlockMetadata) : (s.patch f).allocate build r = some (s'.patch f, p) := by
    rw [patch_allocate, e]
    rfl
  have hcells (f : Nat → BlockMetadata) {i : Nat} (hi : ¬i < s.blocksAmount) :
      (s'.patch f).blocks i = f i := by
    refine if_neg ?_
    rwa [blocksAmount, hmem]
  have hout {i : Nat} (hi : ¬i < s.blocksAmount) : s'.blocks i = s.blocks i := by
    have hself : s.patch s.blocks = s := by simp only [patch, ite_self]
    have he := (hpatch s.blocks).symm.trans (hself ▸ e)
    have hkept := congrArg Allocator.blocks (Prod.mk.inj (Option.some.inj he)).1
    exact (congrFun hkept i).symm.trans (hcells s.blocks hi)
  refine ⟨s', p, e, fun i hi => hout fun hlt => hi (hr.inBuffer hlt), fun blocks hb => ?_⟩
  have hsame : { s with blocks := blocks } = s.patch blocks := by
    refine congrArg (Allocator.mk s.firstFreeBlockIdx s.lastFreeBlockIdx s.mem · s.used s.peak) ?_
    funext i
    by_cases hi : i < s.blocksAmount
    · rw [if_pos hi, hb i (hr.inBuffer hi)]
    · rw [if_neg hi]
  refine ⟨s'.patch blocks, hsame ▸ hpatch blocks, fun i hi => ?_⟩
  by_cases hlt : i < s.blocksAmount
  · refine if_pos ?_
    rwa [blocksAmount, hmem]
  · rw [hcells blocks hlt, hb i hi, hout hlt]

theorem Inv.allocate_mem {h : Heap} {cs : List BoundaryTags.Block} {fs : List Nat}
    (hi : Inv h cs fs) (hm : h.Modest (.allocate r)) :
    ∃ s' p, h.alloc.allocate build r = some (s', p) ∧ s'.mem = h.alloc.mem := by
  obtain ⟨h', e, cs', fs', -, hmem, -⟩ :
      ∃ h', h.call build (.allocate r) = some h' ∧ Continues cs h h' (.allocate r) :=
    hi.allocate fun i hf => hi.fitsWord hm hf.inside
  simp only [call, Option.bind_eq_bind, Option.pure_def, Option.bind_eq_some_iff] at e
  obtain ⟨⟨s', p⟩, e, e'⟩ := e
  cases p <;> cases e' <;> exact ⟨s', _, e, hmem⟩

theorem trim_size (hb : Bounded buffer) (ha : Alignable buffer) :
    (trim buffer).size = wholeBlocks buffer * blockSize := by
  unfold Alignable Bounded at *
  show (buffer.size + 2 ^ 64 - _) % 2 ^ 64 - (buffer.size + 2 ^ 64 - _) % 2 ^ 64 % blockSize = _
  have hmod : (buffer.size + 2 ^ 64 - alignRightDiff buffer.data blockSize) % 2 ^ 64 =
      buffer.size - alignRightDiff buffer.data blockSize := by omega
  rw [hmod, wholeBlocks]
  simp only [blockSize]
  omega

theorem capped_trim (hb : Bounded buffer) (ha : Alignable buffer)
    (hn : wholeBlocks buffer < 2 ^ 31) : capped (trim buffer) = trim buffer := by
  have hsize := trim_size hb ha
  refine congrArg (MemSpan.mk (trim buffer).data) (Nat.min_eq_left ?_)
  rw [hsize, blockSize]
  omega

theorem construct_defined (hb : Bounded buffer) (ha : Alignable buffer)
    (hn : wholeBlocks buffer < 2 ^ 31) : ∃ s, construct build buffer blocks = some s := by
  have hsize := trim_size hb ha
  have hroom : (trim buffer).size < blockSize * (2 ^ 32 - 1) := by
    rw [hsize, blockSize]
    omega
  have hle := capped_size (trim buffer)
  suffices hboot : ∃ s, (if 0 < (capped (trim buffer)).size / blockSize then
      (({ mem := capped (trim buffer), blocks := blocks } : Allocator).getBlockMetadata 0).bind
        fun _ => (({ mem := capped (trim buffer), blocks := blocks } : Allocator).modify 0 fun _ =>
          { blocksBefore := 0, blocksOwned := (capped (trim buffer)).size / blockSize % 2 ^ 32 }
          ).pushFreeNode build 0
      else some { mem := capped (trim buffer), blocks := blocks }) = some s by
    obtain ⟨s, e⟩ := hboot
    exact ⟨s, Option.bind_eq_some_iff.mpr ⟨(), ensure_of hroom, e⟩⟩
  split
  · rename_i hpos
    obtain ⟨s, fs, e, -⟩ := (hole_start (s := { mem := capped (trim buffer), blocks := blocks })
      hle hpos rfl rfl).attach build
    exact ⟨s, Option.bind_eq_some_iff.mpr ⟨_, getBlockMetadata_of_lt hpos, e⟩⟩
  · exact ⟨_, rfl⟩

theorem Region.trim (hb : Bounded buffer) (ha : Alignable buffer)
    (hn : wholeBlocks buffer < 2 ^ 31) : Region buffer (capped (trim buffer)) := by
  have hm := arena_capped (trim_spec hb ha)
  have hsize := trim_size hb ha
  refine ⟨Nat.le_add_right _ _, ?_, hm.aligned, hm.whole⟩
  rw [capped_trim hb ha hn, hsize, wholeBlocks]
  show buffer.data + alignRightDiff buffer.data blockSize + _ ≤ _
  unfold Alignable at ha
  simp only [blockSize] at *
  omega

theorem staysInside_iff (hb : Bounded buffer) (hn : wholeBlocks buffer < 2 ^ 31) :
    StaysInside build buffer blocks ↔ Alignable buffer := by
  constructor
  · rintro ⟨s, e, hr, -⟩
    obtain ⟨cs, fs, hf⟩ := construct_spec e
    have hupper := hr.upper
    rw [hf.mem] at hupper
    have hle : buffer.data + alignRightDiff buffer.data blockSize ≤ buffer.data + buffer.size :=
      Nat.le_trans (Nat.le_add_right _ _) hupper
    exact Nat.le_of_add_le_add_left hle
  · intro ha
    obtain ⟨s, e⟩ : ∃ s, construct build buffer blocks = some s := construct_defined hb ha hn
    obtain ⟨cs, fs, hf⟩ := construct_spec e
    have hr : Region buffer s.mem := hf.mem ▸ Region.trim hb ha hn
    have hsmall : s.blocksAmount < 2 ^ 31 := by
      rw [blocksAmount, hf.mem, capped_trim hb ha hn, trim_size hb ha,
        Nat.mul_div_cancel _ (by decide)]
      exact hn
    refine ⟨s, e, hr, fun h r hreach hm => ?_⟩
    obtain ⟨cs', fs', hi, hmem, -⟩ :=
      (hf.inv hb ha).represented_reaches hsmall hf.coalesced hreach
    exact Region.allocatesInside (hmem ▸ hr) (hi.allocate_mem hm)

theorem staysInside_iff_offset :
    StaysInside .debug ⟨4100, 100⟩ (fun _ => ⟨0, false, 0, 0, 0⟩) ↔ Alignable ⟨4100, 100⟩ :=
  staysInside_iff (show 4100 + 100 < 2 ^ 64 by decide)
    (show wholeBlocks ⟨4100, 100⟩ < 2 ^ 31 by decide +kernel)

theorem not_staysInside_short : Bounded ⟨4097, 4⟩ ∧ wholeBlocks ⟨4097, 4⟩ = 0 ∧
    (∃ s s', construct .release ⟨4097, 4⟩ (fun _ => ⟨0, false, 0, 0, 0⟩) = some s ∧
      s.mem = ⟨4112, (2 ^ 32 - 1) * 16⟩ ∧
      s.allocate .release ⟨1, 0, by decide, by decide⟩ = some (s', some 4128)) ∧
    ¬StaysInside .release ⟨4097, 4⟩ fun _ => ⟨0, false, 0, 0, 0⟩ := by
  have e : ((construct .release ⟨4097, 4⟩ fun _ => ⟨0, false, 0, 0, 0⟩).bind fun s =>
      (s.allocate .release ⟨1, 0, by decide, by decide⟩).map fun q => (s.mem, q.2)) =
      some (⟨4112, (2 ^ 32 - 1) * 16⟩, some 4128) := by
    decide +kernel
  simp only [Option.bind_eq_some_iff, Option.map_eq_some_iff, Prod.mk.injEq] at e
  obtain ⟨s, e, ⟨s', p⟩, e', hmem, rfl⟩ := e
  refine ⟨show 4097 + 4 < 2 ^ 64 by decide, by decide +kernel, ⟨s, s', e, hmem, e'⟩, ?_⟩
  rintro ⟨s₁, e₁, hr, -⟩
  cases e.symm.trans e₁
  have hupper := hr.upper
  rw [hmem] at hupper
  exact absurd hupper (by decide)

end Corosig.Heap
