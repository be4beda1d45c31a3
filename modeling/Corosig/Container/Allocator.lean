import Corosig.Build
import Corosig.Library.BoundaryTags
import Corosig.Library.LinkedList
import Mathlib.Data.Nat.Bitwise
import Mathlib.Tactic.Ring

namespace Corosig
open Function BoundaryTags

def blockSize : Nat := 16

def invalidIdx : Nat := 2 ^ 32 - 1

def alignRightDiff (p alignment : Nat) : Nat :=
  (((p + alignment - 1) % 2 ^ 64 &&& (2 ^ 64 - alignment)) + 2 ^ 64 - p) % 2 ^ 64

def ceilDiv (a b : Nat) : Nat := a / b + if a % b ≠ 0 then 1 else 0

structure BlockMetadata where
  blocksBefore : Nat
  isUsed : Bool := false
  blocksOwned : Nat
  prevFreeBlockIdx : Nat := invalidIdx
  nextFreeBlockIdx : Nat := invalidIdx
  deriving DecidableEq, Repr

structure MemSpan where
  data : Nat
  size : Nat
  deriving DecidableEq, Repr

def MemSpan.subspan (m : MemSpan) (offset : Nat) : MemSpan :=
  ⟨m.data + offset, (m.size + 2 ^ 64 - offset) % 2 ^ 64⟩

def MemSpan.first (m : MemSpan) (count : Nat) : MemSpan := ⟨m.data, count⟩

structure Allocator where
  firstFreeBlockIdx : Nat := invalidIdx
  lastFreeBlockIdx : Nat := invalidIdx
  mem : MemSpan
  blocks : Nat → BlockMetadata
  used : Nat := 0
  peak : Nat := 0

structure Request where
  size : Nat
  alignmentLog2 : Nat
  size_lt : size < 2 ^ 64
  alignment_lt : alignmentLog2 < 64
  deriving DecidableEq

def Request.alignment (r : Request) : Nat := 2 ^ r.alignmentLog2

namespace Allocator

def blocksAmount (s : Allocator) : Nat := s.mem.size / blockSize

def getMem (s : Allocator) (idx : Nat) : Nat := s.mem.data + idx * blockSize + blockSize

-- The bounds check stays in release builds: past it the access is undefined.
def getBlockMetadata (s : Allocator) (idx : Nat) : Option BlockMetadata :=
  if idx < s.blocksAmount then some (s.blocks idx) else none

def modify (s : Allocator) (idx : Nat) (f : BlockMetadata → BlockMetadata) : Allocator :=
  { s with blocks := update s.blocks idx (f (s.blocks idx)) }

def setBefore (s : Allocator) (idx value : Nat) : Allocator :=
  s.modify idx fun m => { m with blocksBefore := value % 2 ^ 31 }

def setOwned (s : Allocator) (idx value : Nat) : Allocator :=
  s.modify idx fun m => { m with blocksOwned := value }

def setUsed (s : Allocator) (idx : Nat) (value : Bool) : Allocator :=
  s.modify idx fun m => { m with isUsed := value }

def setPrev (s : Allocator) (idx value : Nat) : Allocator :=
  s.modify idx fun m => { m with prevFreeBlockIdx := value }

def setNext (s : Allocator) (idx value : Nat) : Allocator :=
  s.modify idx fun m => { m with nextFreeBlockIdx := value }

def defaultInitialize (s : Allocator) (idx : Nat) : Allocator :=
  ((s.setPrev idx invalidIdx).setNext idx invalidIdx).setUsed idx false

def setBlocksOwned (s : Allocator) (idx value : Nat) : Option Allocator := do
  let value := value % 2 ^ 32
  let _ ← s.getBlockMetadata idx
  let s := s.setOwned idx value
  if idx + value < s.blocksAmount then
    let _ ← s.getBlockMetadata (idx + value)
    return s.setBefore (idx + value) value
  else
    return s

variable (build : Build)

def pushFreeNode (s : Allocator) (idx : Nat) : Option Allocator := do
  let metadata ← s.getBlockMetadata idx
  ensure build (metadata.prevFreeBlockIdx = invalidIdx)
  ensure build (metadata.nextFreeBlockIdx = invalidIdx)
  ensure build (metadata.isUsed = false)
  if s.firstFreeBlockIdx = invalidIdx then
    return { s with firstFreeBlockIdx := idx, lastFreeBlockIdx := idx }
  else if s.blocksAmount / 4 < metadata.blocksOwned then
    let front ← s.getBlockMetadata s.firstFreeBlockIdx
    ensure build (front.prevFreeBlockIdx = invalidIdx)
    ensure build (front.isUsed = false)
    ensure build (s.firstFreeBlockIdx ≠ idx)
    return { (s.setPrev s.firstFreeBlockIdx idx).setNext idx s.firstFreeBlockIdx with
      firstFreeBlockIdx := idx }
  else
    let back ← s.getBlockMetadata s.lastFreeBlockIdx
    ensure build (back.nextFreeBlockIdx = invalidIdx)
    ensure build (back.isUsed = false)
    ensure build (s.lastFreeBlockIdx ≠ idx)
    return { (s.setNext s.lastFreeBlockIdx idx).setPrev idx s.lastFreeBlockIdx with
      lastFreeBlockIdx := idx }

def unlinkNextNeighbour (s : Allocator) (idx : Nat) : Option Allocator := do
  let metadata ← s.getBlockMetadata idx
  if metadata.nextFreeBlockIdx ≠ invalidIdx then
    let nextFree ← s.getBlockMetadata metadata.nextFreeBlockIdx
    ensure build (nextFree.isUsed = false)
    ensure build (nextFree.prevFreeBlockIdx = idx)
    return s.setPrev metadata.nextFreeBlockIdx metadata.prevFreeBlockIdx
  else
    return s

def unlinkPrevNeighbour (s : Allocator) (idx : Nat) : Option Allocator := do
  let metadata ← s.getBlockMetadata idx
  if metadata.prevFreeBlockIdx ≠ invalidIdx then
    let prevFree ← s.getBlockMetadata metadata.prevFreeBlockIdx
    ensure build (prevFree.isUsed = false)
    ensure build (prevFree.nextFreeBlockIdx = idx)
    return s.setNext metadata.prevFreeBlockIdx metadata.nextFreeBlockIdx
  else
    return s

def unlinkEnds (s : Allocator) (idx : Nat) : Option Allocator := do
  let metadata ← s.getBlockMetadata idx
  if s.firstFreeBlockIdx = idx then ensure build (metadata.prevFreeBlockIdx = invalidIdx)
  if s.lastFreeBlockIdx = idx then ensure build (metadata.nextFreeBlockIdx = invalidIdx)
  return { s with
    firstFreeBlockIdx :=
      if s.firstFreeBlockIdx = idx then metadata.nextFreeBlockIdx else s.firstFreeBlockIdx
    lastFreeBlockIdx :=
      if s.lastFreeBlockIdx = idx then metadata.prevFreeBlockIdx else s.lastFreeBlockIdx }

def unlinkFreeNode (s : Allocator) (idx : Nat) : Option Allocator := do
  let metadata ← s.getBlockMetadata idx
  ensure build (metadata.isUsed = false)
  ensure build (metadata.prevFreeBlockIdx ≠ idx)
  ensure build (metadata.nextFreeBlockIdx ≠ idx)
  let s ← s.unlinkNextNeighbour build idx
  let s ← s.unlinkPrevNeighbour build idx
  let s ← s.unlinkEnds build idx
  return (s.setNext idx invalidIdx).setPrev idx invalidIdx

def alignDiff (s : Allocator) (r : Request) (idx : Nat) : Nat :=
  alignRightDiff (s.getMem idx) r.alignment

def blocksNeeded (s : Allocator) (r : Request) (idx : Nat) : Nat :=
  ceilDiv ((blockSize + r.size + s.alignDiff r idx) % 2 ^ 64) blockSize

def splitAlignment (s : Allocator) (idx skip : Nat) : Option (Allocator × Nat) := do
  if skip ≠ 0 then
    let metadata ← s.getBlockMetadata idx
    let blocksOwned := (metadata.blocksOwned + 2 ^ 64 - skip) % 2 ^ 64
    let s ← s.setBlocksOwned idx skip
    let s ← s.unlinkFreeNode build idx
    let s ← s.pushFreeNode build idx
    let idx := idx + skip
    let _ ← s.getBlockMetadata idx
    let s ← (s.defaultInitialize idx).setBlocksOwned idx blocksOwned
    return (s, idx)
  else
    return (s, idx)

def splitRemainder (s : Allocator) (idx needed owned : Nat) : Option Allocator := do
  if needed < owned then
    let newIdx := idx + needed
    let _ ← s.getBlockMetadata newIdx
    let s ← (s.defaultInitialize newIdx).setBlocksOwned newIdx (owned - needed)
    s.pushFreeNode build newIdx
  else
    return s

def charge (s : Allocator) (needed : Nat) : Allocator :=
  let used := (s.used + needed * blockSize) % 2 ^ 64
  { s with used := used, peak := max s.peak used }

-- The body of the search loop of allocate, from the first free block that is big enough.
def carve (s : Allocator) (r : Request) (idx : Nat) : Option (Allocator × Nat) := do
  let skip := s.alignDiff r idx / blockSize
  let needed := (s.blocksNeeded r idx + 2 ^ 64 - skip) % 2 ^ 64
  let diff := s.alignDiff r idx - skip * blockSize
  let (s, idx) ← s.splitAlignment build idx skip
  let old ← s.getBlockMetadata idx
  let s ← s.unlinkFreeNode build idx
  let s ← (s.setUsed idx true).setBlocksOwned idx needed
  let s ← s.splitRemainder build idx needed old.blocksOwned
  let s := s.charge needed
  ensure build (s.used ≤ s.mem.size)
  let result := s.getMem idx + diff
  ensure build (result % r.alignment = 0)
  return (s, result)

def allocateFrom (s : Allocator) (r : Request) : Nat → Nat → Option (Allocator × Option Nat)
  | 0, _ => none
  | fuel + 1, idx =>
      if idx < s.blocksAmount then do
        let metadata ← s.getBlockMetadata idx
        ensure build (metadata.isUsed = false)
        ensure build (metadata.nextFreeBlockIdx = invalidIdx ∨ metadata.nextFreeBlockIdx ≠ idx)
        if metadata.blocksOwned < s.blocksNeeded r idx then
          allocateFrom s r fuel metadata.nextFreeBlockIdx
        else
          let (s, p) ← s.carve build r idx
          return (s, some p)
      else
        return (s, none)

def allocate (s : Allocator) (r : Request) : Option (Allocator × Option Nat) :=
  s.allocateFrom build r (s.blocksAmount + 1) s.firstFreeBlockIdx

def getMetadataIdxFromAddr (s : Allocator) (p : Nat) : Nat :=
  let index := (p - s.mem.data) / blockSize
  if p % blockSize = 0 then (index + 2 ^ 64 - 1) % 2 ^ 64 else index

def ensureUnlinked (s : Allocator) (idx : Nat) : Option Unit := do
  let metadata ← s.getBlockMetadata idx
  ensure build (metadata.prevFreeBlockIdx = invalidIdx)
  ensure build (metadata.nextFreeBlockIdx = invalidIdx)

def mergePrevious (s : Allocator) (idx : Nat) : Option (Allocator × Nat) := do
  let metadata ← s.getBlockMetadata idx
  if metadata.blocksBefore ≠ 0 then
    let previousIdx := (idx + 2 ^ 64 - metadata.blocksBefore) % 2 ^ 64
    let previous ← s.getBlockMetadata previousIdx
    if previous.isUsed = false then
      let s ← s.setBlocksOwned previousIdx (previous.blocksOwned + metadata.blocksOwned)
      let s ← s.unlinkFreeNode build previousIdx
      return (s, previousIdx)
    else
      return (s, idx)
  else
    return (s, idx)

def mergeNext (s : Allocator) (idx : Nat) : Option Allocator := do
  let metadata ← s.getBlockMetadata idx
  let nextIdx := idx + metadata.blocksOwned
  if nextIdx < s.blocksAmount then
    let next ← s.getBlockMetadata nextIdx
    if next.isUsed = false then
      let s ← s.setBlocksOwned idx (metadata.blocksOwned + next.blocksOwned)
      s.ensureUnlinked build idx
      s.unlinkFreeNode build nextIdx
    else
      return s
  else
    return s

def deallocate (s : Allocator) (ptr : Nat) : Option Allocator := do
  if ptr = 0 then
    return s
  else
    ensure build (s.mem.data ≤ ptr ∧ ptr < s.mem.data + s.mem.size)
    let idx := s.getMetadataIdxFromAddr ptr
    let metadata ← s.getBlockMetadata idx
    ensure build (metadata.isUsed = true)
    s.ensureUnlinked build idx
    ensure build (metadata.blocksOwned * blockSize ≤ s.used)
    let s := { s with used := (s.used + 2 ^ 64 - metadata.blocksOwned * blockSize) % 2 ^ 64 }
    let (s, idx) ← s.mergePrevious build idx
    s.ensureUnlinked build idx
    let s ← s.mergeNext build idx
    s.ensureUnlinked build idx
    let s ← (s.setUsed idx false).unlinkFreeNode build idx
    s.pushFreeNode build idx

def trim (mem : MemSpan) : MemSpan :=
  let mem := mem.subspan (alignRightDiff mem.data blockSize)
  mem.first (mem.size - mem.size % blockSize)

def construct (mem : MemSpan) (blocks : Nat → BlockMetadata) : Option Allocator := do
  let mem := trim mem
  ensure build (mem.size < blockSize * (2 ^ 32 - 1))
  let mem := mem.first (min mem.size ((2 ^ 32 - 1) * blockSize))
  let s : Allocator := { mem := mem, blocks := blocks }
  if 0 < s.blocksAmount then
    let _ ← s.getBlockMetadata 0
    (s.modify 0 fun _ =>
      { blocksBefore := 0, blocksOwned := s.blocksAmount % 2 ^ 32 }).pushFreeNode build 0
  else
    return s

end Allocator

end Corosig
