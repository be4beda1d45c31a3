import Corosig.Library.Handles
import Corosig.Library.OperationRuns
import Corosig.Library.Positions

namespace Corosig
open Handles OperationRuns Positions

abbrev Syscall (ρ : Type) := Except Nat ρ

def EWOULDBLOCK : Nat := 11

def EINPROGRESS : Nat := 115

inductive SocketError where
  | allocation
  | syscall (errno : Nat)
  deriving DecidableEq, Repr

inductive SocketKind where
  | tcpSocket
  | tcpListener
  | udpSocket
  deriving DecidableEq, Repr

structure Socket where
  kind : SocketKind
  fd : Int := -1
  deriving DecidableEq, Repr

inductive Awaiting where
  | connected
  | acceptable (listener : Nat)
  deriving DecidableEq, Repr

-- A future of connect, connect_from or accept: sock is the parameter in the coroutine's frame,
-- result holds the socket once there is one.
structure SocketFut where
  waiting : Option Awaiting := none
  sock : Int := -1
  result : Option (Except SocketError Int) := none

structure Accepting where
  accept : Syscall Nat
  getFlags : Syscall Unit
  setFlags : Syscall Unit

namespace Sockets

-- The kernel may return any number that is not open.
def unused (live : List Int) (n : Nat) : Int :=
  if (n : Int) ∈ live then live.foldr max 0 + 1 else n

def opened (k : Table Int) : Syscall Nat → Table Int × Except SocketError Int
  | .error errno => (k, .error (.syscall errno))
  | .ok n => (k.acquire (unused k.live n), .ok (unused k.live n))

def close (k : Table Int) (fd : Int) : Table Int := if fd ≠ -1 then k.release fd else k

-- The descriptor is wrapped already, so that an early return destroys the object and closes it.
def checked (r : Table Int × Except SocketError Int) (calls : Syscall Unit) :
    Table Int × Except SocketError Int :=
  match r with
  | (k, .error err) => (k, .error err)
  | (k, .ok fd) =>
      match calls with
      | .error errno => (close k fd, .error (.syscall errno))
      | .ok () => (k, .ok fd)

def unbound (k : Table Int) (socket : Syscall Nat) : Table Int × Except SocketError Int :=
  opened k socket

def bound (k : Table Int) (socket : Syscall Nat) (bind : Syscall Unit) :
    Table Int × Except SocketError Int :=
  checked (unbound k socket) bind

def make (k : Table Int) (socket : Syscall Nat) (reuseAddr reusePort bind listen : Syscall Unit) :
    Table Int × Except SocketError Int :=
  checked (opened k socket) do
    reuseAddr
    reusePort
    bind
    listen

def tryAccept (k : Table Int) (calls : Accepting) : Table Int × Except SocketError Int :=
  checked (opened k calls.accept) do
    calls.getFlags
    calls.setFlags

-- Where no frame can be allocated the parameter is destroyed by the caller.
def connectImpl (k : Table Int) (frame : Bool) (connect : Syscall Unit) (sock : Int) :
    Table Int × SocketFut :=
  if frame then
    match connect with
    | .ok () => (k, { waiting := some .connected, sock })
    | .error errno =>
        if errno ≠ EINPROGRESS then (k, { sock, result := some (.error (.syscall errno)) })
        else (k, { waiting := some .connected, sock })
  else (close k sock, { result := some (.error .allocation) })

def connect (k : Table Int) (socket : Syscall Nat) (frame : Bool) (connect : Syscall Unit) :
    Table Int × SocketFut :=
  match opened k socket with
  | (k, .error err) => (k, { result := some (.error err) })
  | (k, .ok sock) => connectImpl k frame connect sock

-- Here the descriptor is not wrapped yet when bind fails.
def connectFrom (k : Table Int) (socket : Syscall Nat) (bind : Syscall Unit) (frame : Bool)
    (connect : Syscall Unit) : Table Int × SocketFut :=
  match opened k socket with
  | (k, .error err) => (k, { result := some (.error err) })
  | (k, .ok sock) =>
      match bind with
      | .error errno => (k, { result := some (.error (.syscall errno)) })
      | .ok () => connectImpl k frame connect sock

def resumeConnect (fut : SocketFut) : Syscall Nat → SocketFut
  | .error errno => { fut with waiting := none, result := some (.error (.syscall errno)) }
  | .ok 0 => { waiting := none, sock := -1, result := some (.ok fut.sock) }
  | .ok socketError =>
      { fut with waiting := none, result := some (.error (.syscall socketError)) }

def accept (k : Table Int) (listener : Nat) (frame : Bool) (calls : Accepting) :
    Table Int × SocketFut :=
  if frame then
    match tryAccept k calls with
    | (k, .error (.syscall errno)) =>
        if errno ≠ EWOULDBLOCK then (k, { result := some (.error (.syscall errno)) })
        else (k, { waiting := some (.acceptable listener) })
    | (k, r) => (k, { result := some r })
  else (k, { result := some (.error .allocation) })

end Sockets

structure Sockets where
  kernel : Table Int := {}
  objects : List (Option Socket) := []
  futs : List (Option SocketFut) := []

namespace Sockets

inductive Op where
  | empty (kind : SocketKind)
  | unbound (socket : Syscall Nat)
  | bound (socket : Syscall Nat) (bind : Syscall Unit)
  | make (socket : Syscall Nat) (reuseAddr reusePort bind listen : Syscall Unit)
  | connect (socket : Syscall Nat) (frame : Bool) (connect : Syscall Unit)
  | connectFrom (socket : Syscall Nat) (bind : Syscall Unit) (frame : Bool)
      (connect : Syscall Unit)
  | connected (j : Nat) (getsockopt : Syscall Nat)
  | tryAccept (i : Nat) (calls : Accepting)
  | accept (i : Nat) (frame : Bool) (calls : Accepting)
  | acceptable (j : Nat) (calls : Accepting)
  | take (j : Nat)
  | destroyFut (j : Nat)
  | moveConstruct (i : Nat)
  | moveAssign (i j : Nat)
  | close (i : Nat)
  | destroy (i : Nat)

def object (w : Sockets) (i : Nat) : Option Socket := w.objects[i]?.join

def fut (w : Sockets) (j : Nat) : Option SocketFut := w.futs[j]?.join

def listener (w : Sockets) (i : Nat) : Option Socket :=
  (w.object i).filter (·.kind = .tcpListener)

def store (w : Sockets) (kind : SocketKind) (r : Table Int × Except SocketError Int) : Sockets :=
  match r with
  | (kernel, .error _) => { w with kernel }
  | (kernel, .ok fd) => { w with kernel, objects := w.objects ++ [some ⟨kind, fd⟩] }

def launch (w : Sockets) (r : Table Int × SocketFut) : Sockets :=
  { w with kernel := r.1, futs := w.futs ++ [some r.2] }

-- Operations on what is not there are none, except that a coroutine resumed in accept reads its
-- listener: where that has been destroyed the step is undefined.
def step (w : Sockets) : Op → Option Sockets
  | .empty kind => some { w with objects := w.objects ++ [some { kind }] }
  | .unbound socket => some (w.store .udpSocket (unbound w.kernel socket))
  | .bound socket bind => some (w.store .udpSocket (bound w.kernel socket bind))
  | .make socket reuseAddr reusePort bind listen =>
      some (w.store .tcpListener (make w.kernel socket reuseAddr reusePort bind listen))
  | .connect socket frame connecting => some (w.launch (connect w.kernel socket frame connecting))
  | .connectFrom socket bind frame connecting =>
      some (w.launch (connectFrom w.kernel socket bind frame connecting))
  | .connected j getsockopt =>
      match w.fut j with
      | some fut =>
          if fut.waiting = some .connected then
            some { w with futs := w.futs.set j (some (resumeConnect fut getsockopt)) }
          else some w
      | none => some w
  | .tryAccept i calls =>
      match w.listener i with
      | some _ => some (w.store .tcpSocket (tryAccept w.kernel calls))
      | none => some w
  | .accept i frame calls =>
      match w.listener i with
      | some _ => some (w.launch (accept w.kernel i frame calls))
      | none => some w
  | .acceptable j calls =>
      match w.fut j with
      | some fut =>
          match fut.waiting with
          | some (.acceptable i) => do
              let _ ← w.listener i
              let (kernel, r) := tryAccept w.kernel calls
              return { w with
                kernel
                futs := w.futs.set j (some { fut with waiting := none, result := some r }) }
          | _ => some w
      | none => some w
  | .take j =>
      match w.fut j with
      | some fut =>
          match fut.result with
          | some (.ok fd) =>
              some { w with
                objects := w.objects ++ [some ⟨.tcpSocket, fd⟩]
                futs := w.futs.set j (some { fut with result := some (.ok (-1)) }) }
          | _ => some w
      | none => some w
  | .destroyFut j =>
      match w.fut j with
      | some fut =>
          let kernel := close w.kernel fut.sock
          let kernel := match fut.result with
            | some (.ok fd) => close kernel fd
            | _ => kernel
          some { w with kernel, futs := w.futs.set j none }
      | none => some w
  | .moveConstruct i =>
      match w.object i with
      | some rhs =>
          some { w with objects := w.objects.set i (some { rhs with fd := -1 }) ++ [some rhs] }
      | none => some w
  | .moveAssign i j =>
      match w.object i, w.object j with
      | some self, some rhs =>
          if i = j ∨ self.kind ≠ rhs.kind then some w
          else some { w with
            kernel := close w.kernel self.fd
            objects := (w.objects.set i (some rhs)).set j (some { rhs with fd := -1 }) }
      | _, _ => some w
  | .close i =>
      match w.object i with
      | some self =>
          some { w with
            kernel := close w.kernel self.fd
            objects := w.objects.set i (some { self with fd := -1 }) }
      | none => some w
  | .destroy i =>
      match w.object i with
      | some self =>
          some { w with kernel := close w.kernel self.fd, objects := w.objects.set i none }
      | none => some w

def owns (fd : Int) : List Int := if fd = -1 then [] else [fd]

def resultOwns : Except SocketError Int → List Int
  | .ok fd => owns fd
  | .error _ => []

def objectOwns (o : Option Socket) : List Int := (o.map fun self => owns self.fd).getD []

def futOwns (f : Option SocketFut) : List Int :=
  (f.map fun fut => owns fut.sock ++ (fut.result.map resultOwns).getD []).getD []

def held (w : Sockets) : List Int := w.objects.flatMap objectOwns ++ w.futs.flatMap futOwns

def Owned (w : Sockets) : Prop := Accounts w.kernel w.held

instance : DecidablePred Owned := fun w => inferInstanceAs (Decidable (Accounts w.kernel w.held))

def Keeps (_ : Sockets) : Op → Prop
  | .connectFrom (.ok _) (.error _) _ _ => False
  | _ => True

variable {k k' : Table Int} {w w' : Sockets} {i j n : Nat} {fd : Int} {a b : List Int}

theorem le_foldr_max {l : List Int} {x : Int} (h : x ∈ l) : x ≤ l.foldr max 0 := by
  induction l with
  | nil => cases h
  | cons y l ih =>
    rcases List.mem_cons.mp h with rfl | h
    · exact Int.le_max_left _ _
    · exact Int.le_trans (ih h) (Int.le_max_right _ _)

theorem zero_le_foldr_max (l : List Int) : 0 ≤ l.foldr max 0 := by
  induction l with
  | nil => exact Int.le_refl 0
  | cons y l ih => exact Int.le_trans ih (Int.le_max_right _ _)

theorem unused_notMem (l : List Int) (n : Nat) : unused l n ∉ l := by
  rw [unused]
  split
  · intro h
    have hle := le_foldr_max h
    omega
  · assumption

theorem owns_unused (l : List Int) (n : Nat) : owns (unused l n) = [unused l n] := by
  refine if_neg ?_
  rw [unused]
  split
  · have hle := zero_le_foldr_max l
    omega
  · omega

theorem opened_moves (k : Table Int) (r : Syscall Nat) :
    Moves k (opened k r).1 [] (resultOwns (opened k r).2) := by
  cases r with
  | error errno => exact moves_refl k []
  | ok n =>
    rw [opened, resultOwns, owns_unused]
    exact moves_acquire (unused_notMem k.live n)

theorem close_moves (k : Table Int) (fd : Int) : Moves k (close k fd) (owns fd) [] := by
  rw [close, owns]
  rcases eq_or_ne fd (-1) with h | h
  · rw [if_neg (not_not.mpr h), if_pos h]
    exact moves_refl k []
  · rw [if_pos h, if_neg h]
    exact moves_release k fd

theorem checked_moves {r : Table Int × Except SocketError Int} (h : Moves k r.1 [] (resultOwns r.2))
    (calls : Syscall Unit) : Moves k (checked r calls).1 [] (resultOwns (checked r calls).2) := by
  obtain ⟨k', err | fd⟩ := r
  · exact h
  · cases calls with
    | error errno => exact h.trans (close_moves k' fd)
    | ok _ => exact h

theorem connectImpl_moves (k : Table Int) (frame : Bool) (connect : Syscall Unit) (sock : Int) :
    Moves k (connectImpl k frame connect sock).1 (owns sock)
      (futOwns (some (connectImpl k frame connect sock).2)) := by
  have hkept (r : Option (Except SocketError Int)) (hr : (r.map resultOwns).getD [] = [])
      (waiting : Option Awaiting) :
      Moves k k (owns sock) (futOwns (some { waiting, sock, result := r })) := by
    simpa [futOwns, hr] using moves_refl k (owns sock)
  cases frame with
  | false => exact close_moves k sock
  | true =>
    cases connect with
    | ok _ => exact hkept none rfl _
    | error errno =>
      simp only [connectImpl, if_true]
      split
      · exact hkept (some (.error _)) rfl none
      · exact hkept none rfl _

theorem connect_moves (k : Table Int) (socket : Syscall Nat) (frame : Bool)
    (connecting : Syscall Unit) :
    Moves k (connect k socket frame connecting).1 []
      (futOwns (some (connect k socket frame connecting).2)) := by
  have h := opened_moves k socket
  cases socket with
  | error errno => exact h
  | ok n => exact h.trans (connectImpl_moves _ _ _ _)

theorem connectFrom_moves (k : Table Int) (socket : Syscall Nat) (bind : Syscall Unit)
    (frame : Bool) (connecting : Syscall Unit)
    (hk : ∀ n errno, ¬(socket = .ok n ∧ bind = .error errno)) :
    Moves k (connectFrom k socket bind frame connecting).1 []
      (futOwns (some (connectFrom k socket bind frame connecting).2)) := by
  have h := opened_moves k socket
  cases socket with
  | error errno => exact h
  | ok n =>
    cases bind with
    | error errno => exact absurd ⟨rfl, rfl⟩ (hk n errno)
    | ok _ => exact h.trans (connectImpl_moves _ _ _ _)

theorem accept_moves (k : Table Int) (listener : Nat) (frame : Bool) (calls : Accepting) :
    Moves k (accept k listener frame calls).1 []
      (futOwns (some (accept k listener frame calls).2)) := by
  have h : Moves k (tryAccept k calls).1 [] (resultOwns (tryAccept k calls).2) :=
    checked_moves (opened_moves k calls.accept) _
  rw [accept]
  cases frame with
  | false => exact moves_refl k []
  | true =>
    rw [if_pos rfl]
    split
    · rename_i k' errno hr
      rw [hr] at h
      split <;> exact h
    · rename_i k' r _ hr
      rw [hr] at h
      exact h

theorem resumeConnect_owns (fut : SocketFut) (getsockopt : Syscall Nat)
    (hr : fut.result = none) :
    futOwns (some (resumeConnect fut getsockopt)) = futOwns (some fut) := by
  have hfut : futOwns (some fut) = owns fut.sock := by simp [futOwns, hr]
  rw [hfut]
  cases getsockopt with
  | error errno => exact List.append_nil _
  | ok socketError =>
    cases socketError with
    | zero => rfl
    | succ n => exact List.append_nil _

structure Inv (w : Sockets) : Prop where
  owned : Accounts w.kernel w.held
  pending : ∀ fut, some fut ∈ w.futs → fut.waiting ≠ none → fut.result = none

theorem inv_init : Inv {} := ⟨⟨.refl _, List.nodup_nil, rfl⟩, by rintro _ ⟨⟩⟩

theorem getElem?_of_join {β : Type} {l : List (Option β)} {x : β} (h : l[i]?.join = some x) :
    l[i]? = some (some x) := by
  rcases hi : l[i]? with _ | o
  · rw [hi] at h
    cases h
  · rw [hi] at h
    exact congrArg some h

theorem flatMap_set {β : Type} {l : List β} {x : β} (h : l[i]? = some x) (f : β → List Int)
    (y : β) : ∃ r, (l.flatMap f).Perm (f x ++ r) ∧ (f y ++ r).Perm ((l.set i y).flatMap f) := by
  obtain ⟨hlt, -⟩ := List.getElem?_eq_some_iff.mp h
  have hput : (l.set i y)[i]? = some y := by simp [hlt]
  have hafter := (perm_eraseIdx hput).flatMap_right f
  rw [List.eraseIdx_set_eq] at hafter
  exact ⟨(l.eraseIdx i).flatMap f, ((perm_eraseIdx h).flatMap_right f).symm, hafter⟩

theorem accounts_objects {objects : List (Option Socket)} (hi : Inv w) (hm : Moves w.kernel k a b)
    {r : List Int} (hp : (w.objects.flatMap objectOwns).Perm (a ++ r))
    (hp' : (b ++ r).Perm (objects.flatMap objectOwns)) :
    Inv { w with kernel := k, objects } := by
  refine ⟨hm.accounts (r := r ++ w.futs.flatMap futOwns) hi.owned ?_ ?_, hi.pending⟩
  · rw [held, ← List.append_assoc]
    exact hp.append_right _
  · rw [held, ← List.append_assoc]
    exact hp'.append_right _

theorem accounts_futs {futs : List (Option SocketFut)} (hi : Inv w) (hm : Moves w.kernel k a b)
    {r : List Int} (hp : (w.futs.flatMap futOwns).Perm (a ++ r))
    (hp' : (b ++ r).Perm (futs.flatMap futOwns))
    (hpend : ∀ fut, some fut ∈ futs → fut.waiting ≠ none → fut.result = none) :
    Inv { w with kernel := k, futs } := by
  refine ⟨hm.accounts (r := r ++ w.objects.flatMap objectOwns) hi.owned ?_ ?_, hpend⟩
  · rw [held, ← List.append_assoc]
    exact List.perm_append_comm.trans (hp.append_right _)
  · rw [held, ← List.append_assoc]
    exact (hp'.append_right _).trans List.perm_append_comm

theorem inv_store (hi : Inv w) (kind : SocketKind) {r : Table Int × Except SocketError Int}
    (hm : Moves w.kernel r.1 [] (resultOwns r.2)) : Inv (w.store kind r) := by
  obtain ⟨k, err | fd⟩ := r
  · exact accounts_objects hi hm (.refl _) (.refl _)
  · refine accounts_objects hi hm (.refl _) ?_
    rw [List.flatMap_append, List.flatMap_singleton]
    exact List.perm_append_comm

theorem inv_launch (hi : Inv w) {r : Table Int × SocketFut}
    (hm : Moves w.kernel r.1 [] (futOwns (some r.2)))
    (hp : r.2.waiting ≠ none → r.2.result = none) : Inv (w.launch r) := by
  refine accounts_futs hi hm (.refl _) ?_ fun fut hfut => ?_
  · rw [List.flatMap_append, List.flatMap_singleton]
    exact List.perm_append_comm
  · rcases List.mem_append.mp hfut with hfut | hfut
    · exact hi.pending fut hfut
    · cases List.mem_singleton.mp hfut
      exact hp

theorem inv_setObject (hi : Inv w) {self : Socket} (h : w.object i = some self)
    (o : Option Socket) (hm : Moves w.kernel k (owns self.fd) (objectOwns o)) :
    Inv { w with kernel := k, objects := w.objects.set i o } := by
  obtain ⟨r, hp, hp'⟩ := flatMap_set (getElem?_of_join h) objectOwns o
  exact accounts_objects hi hm hp hp'

theorem inv_setFut (hi : Inv w) {fut : SocketFut} (h : w.fut j = some fut)
    (f : Option SocketFut) (hm : Moves w.kernel k (futOwns (some fut)) (futOwns f))
    (hf : ∀ fut, f = some fut → fut.waiting ≠ none → fut.result = none) :
    Inv { w with kernel := k, futs := w.futs.set j f } := by
  obtain ⟨r, hp, hp'⟩ := flatMap_set (getElem?_of_join h) futOwns f
  refine accounts_futs hi hm hp hp' fun fut' hfut' => ?_
  rcases List.mem_or_eq_of_mem_set hfut' with hfut' | hfut'
  · exact hi.pending fut' hfut'
  · exact hf fut' hfut'.symm

theorem connectImpl_pending (k : Table Int) (frame : Bool) (connect : Syscall Unit) (sock : Int) :
    (connectImpl k frame connect sock).2.waiting ≠ none →
      (connectImpl k frame connect sock).2.result = none := by
  cases frame with
  | false => exact fun h => absurd rfl h
  | true =>
    cases connect with
    | ok _ => exact fun _ => rfl
    | error errno =>
      simp only [connectImpl, if_true]
      split
      · exact fun h => absurd rfl h
      · exact fun _ => rfl

theorem connect_pending (k : Table Int) (socket : Syscall Nat) (frame : Bool)
    (connecting : Syscall Unit) :
    (connect k socket frame connecting).2.waiting ≠ none →
      (connect k socket frame connecting).2.result = none := by
  cases socket with
  | error errno => exact fun h => absurd rfl h
  | ok n => exact connectImpl_pending _ _ _ _

theorem connectFrom_pending (k : Table Int) (socket : Syscall Nat) (bind : Syscall Unit)
    (frame : Bool) (connecting : Syscall Unit) :
    (connectFrom k socket bind frame connecting).2.waiting ≠ none →
      (connectFrom k socket bind frame connecting).2.result = none := by
  cases socket with
  | error errno => exact fun h => absurd rfl h
  | ok n =>
    cases bind with
    | error errno => exact fun h => absurd rfl h
    | ok _ => exact connectImpl_pending _ _ _ _

theorem accept_pending (k : Table Int) (listener : Nat) (frame : Bool) (calls : Accepting) :
    (accept k listener frame calls).2.waiting ≠ none →
      (accept k listener frame calls).2.result = none := by
  rw [accept]
  split
  · split
    · split
      · exact fun h => absurd rfl h
      · exact fun _ => rfl
    · exact fun h => absurd rfl h
  · exact fun h => absurd rfl h

theorem inv_take (hi : Inv w) {fut : SocketFut} (h : w.fut j = some fut)
    (hr : fut.result = some (.ok fd)) :
    Inv { w with
      objects := w.objects ++ [some ⟨.tcpSocket, fd⟩]
      futs := w.futs.set j (some { fut with result := some (.ok (-1)) }) } := by
  obtain ⟨r, hp, hp'⟩ := flatMap_set (getElem?_of_join h) futOwns
    (some { fut with result := some (.ok (-1)) })
  have hfut : futOwns (some fut) = owns fut.sock ++ owns fd := by simp [futOwns, hr, resultOwns]
  have hleft : futOwns (some { fut with result := some (.ok (-1)) }) = owns fut.sock :=
    List.append_nil _
  rw [hfut] at hp
  rw [hleft] at hp'
  refine ⟨hi.owned.perm ?_, fun fut' hfut' => ?_⟩
  · rw [held, held, List.flatMap_append, List.flatMap_singleton, List.append_assoc]
    refine List.Perm.append_left _ (hp.trans (.trans ?_ (hp'.append_left (owns fd))))
    rw [List.append_assoc]
    exact List.perm_append_comm_assoc _ _ _
  · rcases List.mem_or_eq_of_mem_set hfut' with hfut' | hfut'
    · exact hi.pending fut' hfut'
    · cases hfut'
      intro hw
      cases hr.symm.trans (hi.pending fut (List.mem_of_getElem? (getElem?_of_join h)) hw)

theorem inv_moveConstruct (hi : Inv w) {rhs : Socket} (h : w.object i = some rhs) :
    Inv { w with objects := w.objects.set i (some { rhs with fd := -1 }) ++ [some rhs] } := by
  obtain ⟨r, hp, hp'⟩ := flatMap_set (getElem?_of_join h) objectOwns (some { rhs with fd := -1 })
  refine accounts_objects hi (moves_refl w.kernel []) (r := objectOwns (some rhs) ++ r) hp ?_
  rw [List.flatMap_append, List.flatMap_singleton]
  exact (hp'.append_left _).trans List.perm_append_comm

theorem inv_moveAssign (hi : Inv w) {self rhs : Socket} (h : w.object i = some self)
    (hj : w.object j = some rhs) (hne : i ≠ j) :
    Inv { w with
      kernel := close w.kernel self.fd
      objects := (w.objects.set i (some rhs)).set j (some { rhs with fd := -1 }) } := by
  have hmove := (perm_move (getElem?_of_join h) (getElem?_of_join hj) hne
    (some { rhs with fd := -1 })).flatMap_right objectOwns
  exact accounts_objects hi (close_moves w.kernel self.fd) hmove.symm (.refl _)

theorem inv_destroyFut (hi : Inv w) {fut : SocketFut} (h : w.fut j = some fut) :
    ∃ w', w.step (.destroyFut j) = some w' ∧ Inv w' := by
  have hsock := close_moves w.kernel fut.sock
  rw [step, h]
  refine ⟨_, rfl, inv_setFut hi h none ?_ (by rintro _ ⟨⟩)⟩
  split
  · rename_i fd hr
    have hfut : futOwns (some fut) = owns fut.sock ++ owns fd := by simp [futOwns, hr, resultOwns]
    rw [hfut]
    exact (hsock.frame _).trans (close_moves _ fd)
  · rename_i hr
    have hfut : futOwns (some fut) = owns fut.sock := by
      rcases hres : fut.result with _ | err | fd
      · simp [futOwns, hres]
      · simp [futOwns, hres, resultOwns]
      · exact absurd hres (hr fd)
    rw [hfut]
    exact hsock

theorem resumeConnect_waiting (fut : SocketFut) (getsockopt : Syscall Nat) :
    (resumeConnect fut getsockopt).waiting = none := by
  cases getsockopt with
  | error errno => rfl
  | ok socketError =>
    cases socketError with
    | zero => rfl
    | succ n => rfl

theorem inv_connected {getsockopt : Syscall Nat} (hi : Inv w)
    (hs : w.step (.connected j getsockopt) = some w') : Inv w' := by
  rw [step] at hs
  split at hs
  · rename_i fut h
    split at hs
    · rename_i hw
      cases hs
      have hr := hi.pending fut (List.mem_of_getElem? (getElem?_of_join h)) (by simp [hw])
      refine inv_setFut hi h _ ?_ ?_
      · rw [resumeConnect_owns fut getsockopt hr]
        exact moves_refl _ _
      · rintro _ ⟨⟩ hw'
        exact absurd (resumeConnect_waiting fut getsockopt) hw'
    · cases hs
      exact hi
  · cases hs
    exact hi

theorem inv_acceptable (hi : Inv w) {calls : Accepting}
    (hs : w.step (.acceptable j calls) = some w') : Inv w' := by
  rw [step] at hs
  split at hs
  · rename_i fut h
    split at hs
    · rename_i i hw
      obtain ⟨_, -, hs⟩ := Option.bind_eq_some_iff.mp hs
      cases hs
      have hr := hi.pending fut (List.mem_of_getElem? (getElem?_of_join h)) (by simp [hw])
      have hm := (checked_moves (opened_moves w.kernel calls.accept) (do
        calls.getFlags
        calls.setFlags)).frame (owns fut.sock)
      refine inv_setFut hi h _ ?_ (by rintro _ ⟨⟩ hw; exact absurd rfl hw)
      have hfut : futOwns (some fut) = owns fut.sock := by simp [futOwns, hr]
      rw [hfut]
      exact fun r hr => (hm r hr).perm (List.perm_append_comm.append_right r)
    · cases hs
      exact hi
  · cases hs
    exact hi

theorem inv_step {op : Op} (hi : Inv w) (hk : w.Keeps op) (hs : w.step op = some w') :
    Inv w' := by
  cases op with
  | empty kind =>
    cases hs
    exact inv_store hi kind (r := (w.kernel, .ok (-1))) (moves_refl _ _)
  | unbound socket =>
    cases hs
    exact inv_store hi _ (opened_moves _ _)
  | bound socket bind =>
    cases hs
    exact inv_store hi _ (checked_moves (opened_moves _ _) _)
  | make socket reuseAddr reusePort bind listen =>
    cases hs
    exact inv_store hi _ (checked_moves (opened_moves _ _) _)
  | connect socket frame connecting =>
    cases hs
    exact inv_launch hi (connect_moves _ _ _ _) (connect_pending _ _ _ _)
  | connectFrom socket bind frame connecting =>
    cases hs
    refine inv_launch hi (connectFrom_moves _ _ _ _ _ ?_) (connectFrom_pending _ _ _ _ _)
    rintro n errno ⟨rfl, rfl⟩
    exact hk
  | connected j getsockopt => exact inv_connected hi hs
  | tryAccept i calls =>
    rw [step] at hs
    split at hs
    · cases hs
      exact inv_store hi _ (checked_moves (opened_moves _ _) _)
    · cases hs
      exact hi
  | accept i frame calls =>
    rw [step] at hs
    split at hs
    · cases hs
      exact inv_launch hi (accept_moves _ _ _ _) (accept_pending _ _ _ _)
    · cases hs
      exact hi
  | acceptable j calls => exact inv_acceptable hi hs
  | take j =>
    rw [step] at hs
    split at hs
    · rename_i fut h
      split at hs
      · rename_i fd hr
        cases hs
        exact inv_take hi h hr
      · cases hs
        exact hi
    · cases hs
      exact hi
  | destroyFut j =>
    rcases h : w.fut j with _ | fut
    · rw [step, h] at hs
      cases hs
      exact hi
    · obtain ⟨w₁, h₁, hi₁⟩ := inv_destroyFut hi h
      cases hs.symm.trans h₁
      exact hi₁
  | moveConstruct i =>
    rw [step] at hs
    split at hs
    · rename_i rhs h
      cases hs
      exact inv_moveConstruct hi h
    · cases hs
      exact hi
  | moveAssign i j =>
    rw [step] at hs
    split at hs
    · rename_i self rhs h hj
      split at hs
      · cases hs
        exact hi
      · rename_i hno
        cases hs
        exact inv_moveAssign hi h hj fun heq => hno (.inl heq)
    · cases hs
      exact hi
  | close i =>
    rw [step] at hs
    split at hs
    · rename_i self h
      cases hs
      exact inv_setObject hi h _ (close_moves w.kernel self.fd)
    · cases hs
      exact hi
  | destroy i =>
    rw [step] at hs
    split at hs
    · rename_i self h
      cases hs
      exact inv_setObject hi h none (close_moves w.kernel self.fd)
    · cases hs
      exact hi

theorem keeps_of_owned {op : Op} (hi : Inv w) (hs : ∀ w', w.step op = some w' → w'.Owned) :
    w.Keeps op := by
  cases op with
  | connectFrom socket bind frame connecting =>
    rcases socket with _ | n
    · trivial
    rcases bind with errno | _
    · have hbefore := hi.owned.length
      have hafter := (hs _ rfl).length
      have hheld : (w.launch (connectFrom w.kernel (.ok n) (.error errno) frame connecting)).held =
          w.held := by
        rw [held, held, launch, List.flatMap_append]
        exact congrArg (_ ++ ·) (List.append_nil _)
      rw [hheld, hbefore] at hafter
      exact absurd hafter (Nat.ne_of_lt (Nat.lt_succ_self _))
    · trivial
  | _ => trivial

theorem accounted_iff (ops : List Op) :
    Always step Owned {} ops ↔ Along step Keeps {} ops :=
  always_iff (J := Inv) (fun _ => Inv.owned) (fun _ _ _ => inv_step) (fun _ _ => keeps_of_owned)
    inv_init ops

theorem not_accounted_of_unbindable :
    ¬Always step Owned {} [.connectFrom (.ok 3) (.error 98) true (.ok ())] := by
  decide

end Sockets

end Corosig
