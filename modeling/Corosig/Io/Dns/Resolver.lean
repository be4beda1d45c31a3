import Corosig.Library.Loop
import Mathlib.Algebra.GroupWithZero.Nat
import Mathlib.Data.List.Basic
import Mathlib.Data.List.Sort
import Mathlib.Order.Fin.Basic

namespace Corosig.Dns
open Loop

abbrev Id := Fin 65536

instance neZeroId : NeZero 65536 := ⟨by decide⟩

inductive ResolveErrorCode where
  | resolveAborted
  | tooManyParallelRequests
  | noServersProvided
  | gotRequestInstead
  | questionTruncated
  | invalidQdcount
  | questionValueMismatch
  | noAnswersGiven
  deriving DecidableEq, Repr

inductive Failure where
  | allocation
  | syscall (errno : Nat)
  | resolve (code : ResolveErrorCode)
  | server (rcode : Nat)
  | decode (code : Nat)
  | encode (code : Nat)
  deriving DecidableEq, Repr

inductive Outcome where
  | resolved (count : Nat)
  | failed (failure : Failure)
  deriving DecidableEq, Repr

inductive Sender where
  | sending
  | sleeping
  | finished
  deriving DecidableEq, Repr

structure Request where
  alive : Bool := true
  sender : Sender := .finished
  result : Option Outcome := none
  stored : List Outcome := []
  scheduled : Nat := 0
  returned : Option Outcome := none
  deriving DecidableEq, Repr

structure Memory where
  senderFrame : Bool := true
  sendFrame : Bool := true
  receiverFrame : Bool := true
  deriving DecidableEq, Repr

structure Packet where
  header : Option Id
  answer : Outcome
  deriving DecidableEq, Repr

inductive Event where
  | resolve (drawn : Id) (servers : Nat) (encoded : Option Failure) (memory : Memory)
  | sent (key : Nat) (failure : Option Failure) (memory : Memory)
  | awake (key : Nat) (memory : Memory)
  | received (packet : Packet) (memory : Memory)
  | receiveFailed
  | resumed
  | dropped (key : Nat)
  deriving DecidableEq, Repr

structure CachelessResolver where
  pendingRequests : List (Id × Nat) := []
  requests : List Request := []
  receiving : Bool := false
  ready : List Nat := []
  deriving DecidableEq, Repr

def maxId : Id := 65535

def collisionStep (ids : List Id) (id : Id) (it : Nat) : Next Nat Unit :=
  match ids[it]? with
  | some other =>
      if id = other then
        if id = maxId then .more 0 else .more (it + 1)
      else .done ()
  | none => .done ()

namespace CachelessResolver

def ids (s : CachelessResolver) : List Id := s.pendingRequests.map (·.1)

def find (s : CachelessResolver) (id : Id) : Nat := s.ids.findIdx (· = id)

def update (s : CachelessResolver) (key : Nat) (f : Request → Request) : CachelessResolver :=
  { s with requests := s.requests.modify key f }

def unlink (s : CachelessResolver) (key : Nat) : CachelessResolver :=
  { s with pendingRequests := s.pendingRequests.filter (·.2 ≠ key) }

def schedule (s : CachelessResolver) (key : Nat) : CachelessResolver :=
  { s.update key fun r => { r with scheduled := r.scheduled + 1 } with ready := s.ready ++ [key] }

def store (s : CachelessResolver) (key : Nat) (outcome : Outcome) : CachelessResolver :=
  s.update key fun r => { r with result := some outcome, stored := r.stored ++ [outcome] }

def complete (s : CachelessResolver) (key : Nat) (outcome : Outcome) : CachelessResolver :=
  ((s.store key outcome).unlink key).schedule key

def setSender (s : CachelessResolver) (key : Nat) (sender : Sender) : CachelessResolver :=
  s.update key fun r => { r with sender := sender }

def destroy (s : CachelessResolver) (key : Nat) : CachelessResolver :=
  { (s.update key fun r => { r with alive := false }).unlink key with
    ready := s.ready.filter (· ≠ key) }

def finish (s : CachelessResolver) (key : Nat) : CachelessResolver :=
  (s.update key fun r => { r with returned := r.result }).destroy key

def receiveServerAnswers (s : CachelessResolver) (memory : Memory) : CachelessResolver :=
  { s with receiving := !s.pendingRequests.isEmpty && memory.receiverFrame }

def restart (s : CachelessResolver) (memory : Memory) : CachelessResolver :=
  if s.receiving then s else s.receiveServerAnswers memory

def afterSend (s : CachelessResolver) (key : Nat) (failure : Option Failure) (memory : Memory) :
    CachelessResolver :=
  let s := s.restart memory
  match failure with
  | none => s.setSender key .sleeping
  | some failure => (s.complete key (.failed failure)).setSender key .finished

def periodicBackgroundSend (s : CachelessResolver) (key : Nat) (memory : Memory) :
    CachelessResolver :=
  if memory.sendFrame then s.setSender key .sending
  else s.afterSend key (some .allocation) memory

def insert (s : CachelessResolver) (id : Id) : CachelessResolver :=
  { s with
    pendingRequests := s.pendingRequests.orderedInsert (·.1 < ·.1) (id, s.requests.length)
    requests := s.requests ++ [{}] }

def startSender (s : CachelessResolver) (key : Nat) (memory : Memory) : CachelessResolver :=
  if memory.senderFrame then s.periodicBackgroundSend key memory else s

def processRequest (s : CachelessResolver) (id : Id) (memory : Memory) : CachelessResolver :=
  let key := s.requests.length
  let s := (s.insert id).startSender key memory
  if (s.requests[key]?.bind (·.result)).isSome then s.finish key else s

def refuses (s : CachelessResolver) (servers : Nat) : Prop :=
  s.pendingRequests.length = 65535 ∨ servers = 0

instance (s : CachelessResolver) (servers : Nat) : Decidable (s.refuses servers) :=
  inferInstanceAs (Decidable (_ ∨ _))

def acts (s : CachelessResolver) (key : Nat) (sender : Sender) : Prop :=
  ∃ r ∈ s.requests[key]?, r.alive ∧ r.sender = sender

instance (s : CachelessResolver) (key : Nat) (sender : Sender) : Decidable (s.acts key sender) :=
  inferInstanceAs (Decidable (∃ r ∈ s.requests[key]?, r.alive ∧ r.sender = sender))

def receiveAnswer (s : CachelessResolver) (packet : Packet) : CachelessResolver :=
  match packet.header with
  | none => s
  | some id =>
      match s.pendingRequests.find? (·.1 = id) with
      | some (_, key) => s.complete key packet.answer
      | none => s

def apply (s : CachelessResolver) : Event → Option CachelessResolver
  | .resolve drawn servers encoded memory =>
      if s.refuses servers ∨ encoded.isSome then some s else some (s.processRequest drawn memory)
  | .sent key failure memory =>
      if s.acts key .sending then some (s.afterSend key failure memory) else none
  | .awake key memory =>
      if s.acts key .sleeping then some (s.periodicBackgroundSend key memory) else none
  | .received packet memory =>
      if s.receiving then some ((s.receiveAnswer packet).receiveServerAnswers memory) else none
  | .receiveFailed => if s.receiving then some { s with receiving := false } else none
  | .resumed =>
      match s.ready with
      | [] => none
      | key :: ready => some ({ s with ready := ready }.finish key)
  | .dropped key =>
      match s.requests[key]? with
      | some r => if r.alive then some (s.destroy key) else none
      | none => none

theorem apply_cases {s s' : CachelessResolver} {e : Event} (h : s.apply e = some s') :
    match e with
    | .resolve drawn servers encoded memory =>
        (s.refuses servers ∨ encoded.isSome) ∧ s' = s ∨
          ¬ s.refuses servers ∧ s' = s.processRequest drawn memory
    | .sent key failure memory => s.acts key .sending ∧ s' = s.afterSend key failure memory
    | .awake key memory => s.acts key .sleeping ∧ s' = s.periodicBackgroundSend key memory
    | .received packet memory =>
        s.receiving ∧ s' = (s.receiveAnswer packet).receiveServerAnswers memory
    | .receiveFailed => s.receiving ∧ s' = { s with receiving := false }
    | .resumed => ∃ key ready, s.ready = key :: ready ∧ s' = { s with ready := ready }.finish key
    | .dropped key => (∃ r ∈ s.requests[key]?, r.alive) ∧ s' = s.destroy key := by
  cases e with
  | resolve drawn servers encoded memory =>
    simp only [apply] at h
    split at h
    · rename_i hr
      exact .inl ⟨hr, (Option.some.inj h).symm⟩
    · rename_i hr
      exact .inr ⟨fun hs => hr (.inl hs), (Option.some.inj h).symm⟩
  | resumed =>
    simp only [apply] at h
    split at h
    · cases h
    · exact ⟨_, _, ‹_›, (Option.some.inj h).symm⟩
  | dropped key =>
    simp only [apply] at h
    split at h
    · rename_i r hr
      split at h
      · exact ⟨⟨r, hr, ‹_›⟩, (Option.some.inj h).symm⟩
      · cases h
    · cases h
  | sent | awake | received | receiveFailed =>
    simp only [apply] at h
    split at h
    · exact ⟨‹_›, (Option.some.inj h).symm⟩
    · cases h

def draws (s : CachelessResolver) : Event → Option Id
  | .resolve drawn servers _ _ => if s.refuses servers then none else some drawn
  | _ => none

def Settles (s : CachelessResolver) (id : Id) : Prop := Halts (collisionStep s.ids id) (s.find id)

structure Step (s : CachelessResolver) (e : Event) (s' : CachelessResolver) : Prop where
  settles : ∀ id, s.draws e = some id → s.Settles id
  applied : s.apply e = some s'

def Reaches (ok : CachelessResolver → Event → Prop) :
    CachelessResolver → CachelessResolver → Prop :=
  Relation.ReflTransGen fun s s' => ∃ e, ok s e ∧ s.Step e s'

end CachelessResolver

end Corosig.Dns
