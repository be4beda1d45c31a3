import Corosig.Library.Custody
import Mathlib.Algebra.Group.Nat.Defs

namespace Corosig.Container
open Custody

-- An element is the value it holds and the number it was given when it was constructed; moving
-- it keeps the number, cloning it makes a new one.
structure Element (α : Type) where
  id : Nat
  value : α
  deriving DecidableEq, Repr

-- raw holds no object, shell one that was moved from.
inductive Slot (α : Type) where
  | raw
  | shell
  | live (e : Element α)
  deriving DecidableEq, Repr

structure Buffer (α : Type) where
  id : Nat
  slots : List (Slot α)
  deriving DecidableEq, Repr

structure Vector (α : Type) where
  data : Option (Buffer α) := none
  size : Nat := 0
  capacity : Nat := 0
  deriving DecidableEq, Repr

inductive VectorError where
  | allocation
  | clone
  deriving DecidableEq, Repr

-- What the element type and the allocator bring along: whether moving is a copy of the bytes and
-- destroying nothing (int), the answer to the n-th call of allocate, and whether the n-th call of
-- clone succeeds (it has to where copies cannot throw).
structure Elements (α : Type) where
  sizeof : Nat
  sizeof_pos : 0 < sizeof := by decide
  nothrowCopy : Bool
  trivialMove : Bool := false
  allocates : Nat → Bool
  clones : Nat → α → Bool

structure Memory where
  allocations : Nat := 0
  cloned : Nat := 0
  elements : Book := {}
  buffers : Book := {}
  deriving DecidableEq, Repr

namespace Vector

variable {α : Type} (t : Elements α)

def slots (v : Vector α) : List (Slot α) := (v.data.map (·.slots)).getD []

def setSlots (v : Vector α) (slots : List (Slot α)) : Vector α :=
  { v with data := v.data.map fun b => { b with slots } }

-- Placement new outside the buffer or over an object that still owns its value is undefined.
def construct (slots : List (Slot α)) (i : Nat) (e : Element α) : Option (List (Slot α)) :=
  match slots[i]? with
  | some .raw => some (slots.set i (.live e))
  | some .shell => some (slots.set i (.live e))
  | _ => none

def moveOut (slots : List (Slot α)) (i : Nat) : Option (Element α × List (Slot α)) :=
  match slots[i]? with
  | some (.live e) => some (e, slots.set i .shell)
  | _ => none

def destroy (m : Memory) (slots : List (Slot α)) (i : Nat) :
    Option (Memory × List (Slot α)) :=
  match slots[i]? with
  | some (.live e) => some ({ m with elements := m.elements.retire e.id }, slots.set i .raw)
  | some .shell => some (m, slots.set i .raw)
  | _ => none

def make (m : Memory) (value : α) : Memory × Element α :=
  ({ m with elements := m.elements.issue }, ⟨m.elements.next, value⟩)

def clone (m : Memory) (value : α) : Memory × Option (Element α) :=
  if t.nothrowCopy then ((make m value).1, some (make m value).2)
  else
    let m := { m with cloned := m.cloned + 1 }
    if t.clones (m.cloned - 1) value then ((make m value).1, some (make m value).2)
    else (m, none)

def discard (m : Memory) (e : Element α) : Memory :=
  { m with elements := m.elements.retire e.id }

def allocate (m : Memory) (count : Nat) : Memory × Option (Buffer α) :=
  let m' := { m with allocations := m.allocations + 1 }
  if t.allocates m.allocations then
    ({ m' with buffers := m.buffers.issue },
      some ⟨m.buffers.next, List.replicate (count * t.sizeof % 2 ^ 64 / t.sizeof) .raw⟩)
  else (m', none)

def deallocate (m : Memory) (data : Option (Buffer α)) : Memory :=
  match data with
  | none => m
  | some b => { m with buffers := m.buffers.retire b.id }

def moveAll (src dst : List (Slot α)) : Nat → Option (List (Slot α) × List (Slot α))
  | 0 => some (src, dst)
  | n + 1 => do
      let (src, dst) ← moveAll src dst n
      let (e, src) ← moveOut src n
      let dst ← construct dst n e
      return (src, dst)

def popBack (m : Memory) (v : Vector α) : Option (Memory × Vector α) :=
  match v.size with
  | 0 => none
  | size + 1 => do
      let (m, slots) ← destroy m v.slots size
      return (m, { v.setSlots slots with size })

def popTimes (m : Memory) (v : Vector α) : Nat → Option (Memory × Vector α)
  | 0 => some (m, v)
  | n + 1 => do
      let (m, v) ← popBack m v
      popTimes m v n

def clear (m : Memory) (v : Vector α) : Option (Memory × Vector α) := popTimes m v v.size

def drop (m : Memory) (v : Vector α) : Option Memory := do
  let (m, v) ← clear m v
  return deallocate m v.data

def reserve (m : Memory) (v : Vector α) (count : Nat) :
    Option (Memory × Vector α × Except VectorError Unit) :=
  if count ≤ v.capacity then some (m, v, .ok ())
  else
    match allocate t m count with
    | (m, none) => some (m, v, .error .allocation)
    | (m, some b) => do
        let (_, slots) ← moveAll v.slots b.slots v.size
        return (deallocate m v.data,
          { data := some { b with slots }, size := v.size, capacity := count }, .ok ())

def grow (m : Memory) (v : Vector α) : Option (Memory × Vector α × Except VectorError Unit) :=
  if v.size = v.capacity then reserve t m v (max 16 (v.size * 2 % 2 ^ 64)) else some (m, v, .ok ())

-- The argument is consumed only where the result is ok.
def pushBack (m : Memory) (v : Vector α) (e : Element α) :
    Option (Memory × Vector α × Except VectorError Unit) := do
  let (m, v, r) ← grow t m v
  match r with
  | .error err => return (m, v, .error err)
  | .ok () =>
      let slots ← construct v.slots v.size e
      return (m, { v.setSlots slots with size := v.size + 1 }, .ok ())

-- push_back of a temporary: what is not consumed is destroyed by the caller.
def pushTemporary (m : Memory) (v : Vector α) (e : Element α) :
    Option (Memory × Vector α × Except VectorError Unit) := do
  let (m, v, r) ← pushBack t m v e
  match r with
  | .error err => return (discard m e, v, .error err)
  | .ok () => return (m, v, .ok ())

def pushBackCopy (m : Memory) (v : Vector α) (value : α) :
    Option (Memory × Vector α × Except VectorError Unit) :=
  match clone t m value with
  | (m, none) => some (m, v, .error .clone)
  | (m, some cloned) => pushTemporary t m v cloned

def pushClones (m : Memory) (v : Vector α) :
    List α → Option (Memory × Vector α × Except VectorError Unit)
  | [] => some (m, v, .ok ())
  | value :: values => do
      let (m, v, r) ← pushBackCopy t m v value
      match r with
      | .error err => return (m, v, .error err)
      | .ok () => pushClones m v values

def read (v : Vector α) : Option (List α) :=
  (v.slots.take v.size).mapM fun
    | .live e => some e.value
    | _ => none

def reserveCopies (m : Memory) (sized : Bool) (values : List α) :
    Option (Memory × Vector α × Except VectorError Unit) :=
  if sized then reserve t m {} values.length else some (m, {}, .ok ())

-- Vector new_vec{m_alloc}, reserved for values.length elements where the size is known, filled
-- with clones; it is destroyed where a step fails.
def cloneAll (m : Memory) (sized : Bool) (values : List α) :
    Option (Memory × Except VectorError (Vector α)) := do
  let (m, copies, r) ← reserveCopies t m sized values
  match r with
  | .error err => return (← drop m copies, .error err)
  | .ok () =>
      let (m, copies, r) ← pushClones t m copies values
      match r with
      | .error err => return (← drop m copies, .error err)
      | .ok () => return (m, .ok copies)

def cloneVector (m : Memory) (v : Vector α) :
    Option (Memory × Except VectorError (Vector α)) := do
  cloneAll t m true (← v.read)

def moveAssign (m : Memory) (v rhs : Vector α) : Option (Memory × Vector α) := do
  return (← drop m v, rhs)

def assign (m : Memory) (v : Vector α) (sized : Bool) (values : List α) :
    Option (Memory × Vector α × Except VectorError Unit) := do
  let (m, r) ← cloneAll t m sized values
  match r with
  | .error err => return (m, v, .error err)
  | .ok newThis =>
      let (m, v) ← moveAssign m v newThis
      return (m, v, .ok ())

def resizeUninitialized (m : Memory) (v : Vector α) (count : Nat) :
    Option (Memory × Vector α × Except VectorError Unit) :=
  if count = v.size then some (m, v, .ok ())
  else if count < v.size then do
    let (m, v) ← popTimes m v (v.size - count)
    return (m, v, .ok ())
  else do
    let (m, v, r) ← reserve t m v count
    match r with
    | .error err => return (m, v, .error err)
    | .ok () => return (m, { v with size := count }, .ok ())

def shrinkToFit (m : Memory) (v : Vector α) :
    Option (Memory × Vector α × Except VectorError Unit) := do
  let (m, newVec, r) ← resizeUninitialized t m {} v.size
  match r with
  | .error err => return (← drop m newVec, v, .error err)
  | .ok () =>
      let (src, dst) ← moveAll v.slots newVec.slots v.size
      let (m, v) ← moveAssign m (v.setSlots src) (newVec.setSlots dst)
      return (m, v, .ok ())

inductive Arg (α : Type) where
  | value (x : α)
  | slot (buffer j : Nat)
  deriving DecidableEq, Repr

-- A reference into a buffer the vector no longer has dangles.
def Arg.read (v : Vector α) : Arg α → Option α
  | .value x => some x
  | .slot buffer j =>
      match v.data with
      | none => none
      | some b =>
          match b.slots[j]? with
          | some (.live e) => if b.id = buffer then some e.value else none
          | _ => none

def pushValues (m : Memory) (v : Vector α) (arg : Arg α) :
    Nat → Option (Memory × Vector α × Except VectorError Unit)
  | 0 => some (m, v, .ok ())
  | n + 1 => do
      let x ← arg.read v
      let (m, v, r) ← pushTemporary t (make m x).1 v (make m x).2
      match r with
      | .error err => return (m, v, .error err)
      | .ok () => pushValues m v arg n

def pushMoves (m : Memory) (v copies : Vector α) (k : Nat) :
    Nat → Option (Memory × Vector α × Vector α × Except VectorError Unit)
  | 0 => some (m, v, copies, .ok ())
  | n + 1 => do
      let (e, slots) ← moveOut copies.slots k
      let (m, v, r) ← pushBack t m v e
      match r with
      | .error err => return (m, v, copies, .error err)
      | .ok () => pushMoves m v (copies.setSlots slots) (k + 1) n

def resizeCopying (m : Memory) (v : Vector α) (count : Nat) (arg : Arg α) :
    Option (Memory × Vector α × Except VectorError Unit) := do
  let (m, v, r) ← reserve t m v ((v.size + count) % 2 ^ 64)
  match r with
  | .error err => return (m, v, .error err)
  | .ok () => pushValues t m v arg (count - v.size)

def resizeCloning (m : Memory) (v : Vector α) (count : Nat) (arg : Arg α) :
    Option (Memory × Vector α × Except VectorError Unit) := do
  let (m, copies, r) ← reserve t m {} count
  match r with
  | .error err => return (← drop m copies, v, .error err)
  | .ok () =>
      let x ← arg.read v
      let (m, copies, r) ← pushClones t m copies (List.replicate (count - v.size) x)
      match r with
      | .error err => return (← drop m copies, v, .error err)
      | .ok () =>
          let (m, v, r) ← reserve t m v ((v.size + count) % 2 ^ 64)
          match r with
          | .error err => return (← drop m copies, v, .error err)
          | .ok () =>
              let (m, v, copies, r) ← pushMoves t m v copies 0 copies.size
              return (← drop m copies, v, r)

def resize (m : Memory) (v : Vector α) (count : Nat) (arg : Arg α) :
    Option (Memory × Vector α × Except VectorError Unit) :=
  if count = v.size then some (m, v, .ok ())
  else if count < v.size then do
    let (m, v) ← popTimes m v (v.size - count)
    return (m, v, .ok ())
  else if t.nothrowCopy then resizeCopying t m v count arg
  else resizeCloning t m v count arg

-- new (&(*this)[i]) T{std::move((*this)[j])}: an object cannot be built from itself, unless its
-- bytes are copied onto themselves.
def moveWithin (slots : List (Slot α)) (i j : Nat) : Option (List (Slot α)) :=
  if i = j then
    if t.trivialMove then (moveOut slots j).map fun _ => slots else none
  else do
    let (e, slots) ← moveOut slots j
    construct slots i e

def destroyRange (m : Memory) (slots : List (Slot α)) (first : Nat) :
    Nat → Option (Memory × List (Slot α))
  | 0 => some (m, slots)
  | n + 1 => do
      let (m, slots) ← destroyRange m slots first n
      destroy m slots (first + n)

def shiftDown (slots : List (Slot α)) (first last : Nat) : Nat → Option (List (Slot α))
  | 0 => some slots
  | n + 1 => do
      let slots ← shiftDown slots first last n
      moveWithin t slots (first + n) (last + n)

def erase (m : Memory) (v : Vector α) (first last : Nat) : Option (Memory × Vector α) := do
  let (m, slots) ← destroyRange m v.slots first (last - first)
  let slots ← shiftDown t slots first last (v.size - last)
  return (m, { v.setSlots slots with size := v.size - (last - first) })

-- The body of insert's loop: what was moved onto itself is not changed by a destructor that
-- does nothing.
def shift (m : Memory) (slots : List (Slot α)) (i j : Nat) : Option (Memory × List (Slot α)) := do
  let slots ← moveWithin t slots i j
  if i = j then some (m, slots) else destroy m slots j

-- The loop for (i = size() - 1; i >= bound; --i); where bound is 0 the index wraps below 0.
def shiftUp (m : Memory) (slots : List (Slot α)) (bound n : Nat) :
    Nat → Option (Memory × List (Slot α))
  | 0 => if bound = 0 then none else some (m, slots)
  | i + 1 =>
      if bound ≤ i + 1 then do
        let (m, slots) ← shift t m slots (i + 1) (i + 1 - n)
        shiftUp m slots bound n i
      else some (m, slots)

def constructAll (slots : List (Slot α)) (pos : Nat) :
    List (Element α) → Option (List (Slot α))
  | [] => some slots
  | e :: values => do
      let slots ← construct slots pos e
      constructAll slots (pos + 1) values

def reserveForInsert (m : Memory) (v : Vector α) (n : Nat) :
    Option (Memory × Vector α × Except VectorError Unit) :=
  if (v.size + n) % 2 ^ 64 < v.capacity then reserve t m v (max 16 (v.size * 2 % 2 ^ 64))
  else some (m, v, .ok ())

def insert (m : Memory) (v : Vector α) (pos : Nat) (values : List (Element α)) :
    Option (Memory × Vector α × Except VectorError Nat) := do
  let n := values.length
  let (m, v, r) ← reserveForInsert t m v n
  match r with
  | .error err => return (m, v, .error err)
  | .ok () =>
      let (m, v, r) ← resizeUninitialized t m v ((v.size + n) % 2 ^ 64)
      match r with
      | .error err => return (m, v, .error err)
      | .ok () =>
          match v.size with
          | 0 => none
          | last + 1 =>
              let (m, slots) ← shiftUp t m v.slots ((pos + n) % 2 ^ 64) n last
              let slots ← constructAll slots pos values
              return (m, v.setSlots slots, .ok pos)

end Vector

end Corosig.Container
