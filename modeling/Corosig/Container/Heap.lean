import Corosig.Container.Allocate
import Corosig.Container.Deallocate
import Mathlib.Data.Set.Lattice
import Mathlib.Logic.Relation
import Mathlib.Order.CompletePartialOrder
import Mathlib.Order.Interval.Set.Basic

namespace Corosig
open BoundaryTags LinkedList Allocator

structure Live where
  addr : Nat
  request : Request

def Live.range (l : Live) : Set Nat := Set.Ico l.addr (l.addr + l.request.size)

def Allocator.metadataRange (s : Allocator) (i : Nat) : Set Nat :=
  Set.Ico (s.mem.data + i * blockSize) (s.mem.data + i * blockSize + blockSize)

structure Heap where
  alloc : Allocator
  live : List Live := []
  history : List Nat := [alloc.used]

inductive Call where
  | allocate (r : Request)
  | deallocate (p : Nat)
  | write (cells : Nat → BlockMetadata)

namespace Heap

-- A client may overwrite any cell that shares a byte with one of its live allocations.
def written (h : Heap) (i : Nat) : Bool :=
  h.live.any fun l => h.alloc.mem.data + i * blockSize < l.addr + l.request.size ∧
    l.addr < h.alloc.mem.data + i * blockSize + blockSize

def call (build : Build) (h : Heap) : Call → Option Heap
  | .allocate r => do
      let (s, p) ← h.alloc.allocate build r
      match p with
      | some p => return ⟨s, ⟨p, r⟩ :: h.live, s.used :: h.history⟩
      | none => return ⟨s, h.live, s.used :: h.history⟩
  | .deallocate p => do
      let s ← h.alloc.deallocate build p
      return ⟨s, h.live.filter (·.addr ≠ p), s.used :: h.history⟩
  | .write cells =>
      some { h with alloc := { h.alloc with
        blocks := fun i => if h.written i then cells i else h.alloc.blocks i } }

def Permits (h : Heap) : Call → Prop
  | .deallocate p => p = 0 ∨ ∃ l ∈ h.live, l.addr = p
  | _ => True

def Step (build : Build) (P : Heap → Call → Prop) (h h' : Heap) : Prop :=
  ∃ c, h.Permits c ∧ P h c ∧ h.call build c = some h'

abbrev Reaches (build : Build) (P : Heap → Call → Prop) : Heap → Heap → Prop :=
  Relation.ReflTransGen (Step build P)

structure Safe (h : Heap) : Prop where
  aligned : ∀ l ∈ h.live, l.addr % l.request.alignment = 0
  inside : ∀ l ∈ h.live, h.alloc.mem.data ≤ l.addr ∧
    l.addr + l.request.size ≤ h.alloc.mem.data + h.alloc.mem.size
  apart : h.live.Pairwise fun l l' => Disjoint l.range l'.range
  clear : ∀ l ∈ h.live, ∀ i, Stepped h.alloc.tags h.alloc.blocksAmount i →
    Disjoint l.range (h.alloc.metadataRange i)

def Guarded (h : Heap) : Call → Prop
  | .allocate r => ∀ i, FirstFit h.alloc r h.alloc.firstFreeBlockIdx i → FitsWord h.alloc r i
  | .deallocate p => ∀ i, Stepped h.alloc.tags h.alloc.blocksAmount i →
      i + h.alloc.tags.owned i = h.alloc.getMetadataIdxFromAddr p → h.alloc.tags.owned i < 2 ^ 31
  | .write _ => True

def Backed (s : Allocator) (cs : List Block) (l : Live) : Prop :=
  ∃ i k, (i, k) ∈ held 0 cs ∧ l.addr = s.getMem i ∧
    l.request.size + blockSize ≤ k * blockSize ∧ l.addr % l.request.alignment = 0

structure Inv (h : Heap) (cs : List Block) (fs : List Nat) : Prop where
  arena : Arena h.alloc.mem
  layout : Layout h.alloc cs fs
  used : h.alloc.used = blockSize * usedTotal cs
  backed : ∀ l ∈ h.live, Backed h.alloc cs l
  distinct : h.live.Pairwise fun l l' => l.addr ≠ l'.addr
  used_mem : h.alloc.used ∈ h.history
  peak_mem : h.alloc.peak ∈ h.history
  peak_le : ∀ u ∈ h.history, u ≤ h.alloc.peak

variable {build : Build} {h h' : Heap} {cs : List Block} {fs : List Nat} {l l' : Live} {i j k : Nat}

theorem Inv.range_inside (hi : Inv h cs fs) (hl : Backed h.alloc cs l) :
    ∃ i ∈ boundaries 0 cs, l.addr = h.alloc.getMem i ∧ ∀ b ∈ l.range,
      h.alloc.mem.data + i * blockSize + blockSize ≤ b ∧
        b < h.alloc.mem.data + (i + h.alloc.tags.owned i) * blockSize := by
  obtain ⟨i, k, hk, ha, hs, -⟩ := hl
  obtain ⟨pre, post, rfl, rfl⟩ := mem_held.mp hk
  obtain ⟨-, howned, -⟩ := metadata_of_tagged hi.layout.tagged
  have howned : h.alloc.tags.owned (total pre) = k := howned
  simp only [Nat.zero_add] at ha ⊢
  refine ⟨total pre, starts_subset (u := true) ?_, ha, fun b hb => ?_⟩
  · simp [starts_middle]
  · obtain ⟨h1, h2⟩ := hb
    rw [howned]
    simp only [ha, getMem, blockSize] at *
    omega

theorem Inv.boundaries_apart (hi : Inv h cs fs) (hm : i ∈ boundaries 0 cs)
    (hm' : j ∈ boundaries 0 cs) :
    i = j ∨ i + h.alloc.tags.owned i ≤ j ∨ j + h.alloc.tags.owned j ≤ i := by
  rcases Nat.lt_trichotomy i j with hlt | rfl | hlt
  · exact .inr (.inl (hi.layout.tagged.boundaries_apart hm hm' hlt))
  · exact .inl rfl
  · exact .inr (.inr (hi.layout.tagged.boundaries_apart hm' hm hlt))

theorem Inv.backed_inside (hi : Inv h cs fs) (hl : Backed h.alloc cs l) :
    h.alloc.mem.data ≤ l.addr ∧
      l.addr + l.request.size ≤ h.alloc.mem.data + h.alloc.mem.size := by
  obtain ⟨i, k, hk, ha, hs, -⟩ := hl
  obtain ⟨pre, post, rfl, rfl⟩ := mem_held.mp hk
  have hin := hi.layout.inside.2
  have hsize := hi.arena.whole
  simp only [ha, getMem, blocksAmount, blockSize] at *
  omega

theorem Inv.apart (hi : Inv h cs fs) (hl : Backed h.alloc cs l) (hl' : Backed h.alloc cs l')
    (hne : l.addr ≠ l'.addr) : Disjoint l.range l'.range := by
  obtain ⟨i, hm, ha, hr⟩ := hi.range_inside hl
  obtain ⟨j, hm', ha', hr'⟩ := hi.range_inside hl'
  refine Set.disjoint_left.mpr fun b hb hb' => ?_
  have h1 := hr b hb
  have h2 := hr' b hb'
  rcases hi.boundaries_apart hm hm' with rfl | hle | hle
  · exact hne (ha.trans ha'.symm)
  · have := Nat.mul_le_mul_right blockSize hle
    omega
  · have := Nat.mul_le_mul_right blockSize hle
    omega

theorem Inv.clear (hi : Inv h cs fs) (hl : Backed h.alloc cs l) (hm' : j ∈ boundaries 0 cs) :
    Disjoint l.range (h.alloc.metadataRange j) := by
  obtain ⟨i, hm, ha, hr⟩ := hi.range_inside hl
  refine Set.disjoint_left.mpr fun b hb hb' => ?_
  obtain ⟨h1, h2⟩ := hr b hb
  obtain ⟨h3, h4⟩ := hb'
  have hpos := (hi.layout.tagged.boundary_fits hm').1
  rcases hi.boundaries_apart hm hm' with rfl | hle | hle
  · omega
  · have := Nat.mul_le_mul_right blockSize hle
    omega
  · have := Nat.mul_le_mul_right blockSize (show j + 1 ≤ i by omega)
    rw [Nat.add_mul] at this
    omega

theorem Inv.safe (hi : Inv h cs fs) : Safe h where
  aligned l hl := by
    obtain ⟨i, k, -, -, -, ha⟩ := hi.backed l hl
    exact ha
  inside l hl := hi.backed_inside (hi.backed l hl)
  apart := hi.distinct.imp_of_mem fun hl hl' hne => hi.apart (hi.backed _ hl) (hi.backed _ hl') hne
  clear l hl i hs := by
    refine hi.clear (hi.backed l hl) ?_
    exact (hi.layout.tagged.stepped_iff hi.layout.amount).mp hs

end Heap

end Corosig
