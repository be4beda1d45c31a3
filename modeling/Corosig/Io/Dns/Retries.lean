import Corosig.Io.Dns.Answers
import Corosig.Io.Dns.Completion
import Corosig.Library.OperationRuns
import Corosig.Library.Spacing

namespace Corosig.Dns.Protocol
open Spacing

inductive SendPhase where
  | sending
  | sleeping (awakeTime : Int)
  | returned
  deriving DecidableEq, Repr

inductive SendEvent where
  | sent (now : Int) (failed : Bool)
  | awake (now : Int)
  deriving DecidableEq, Repr

-- The frame of periodic_background_send, with the calls of send_to so far and the time points that
-- this_request had as its send_time in them.
structure PeriodicSend (Addr : Type) where
  dnsServerAddrs : List Addr
  position : Nat := 0
  phase : SendPhase := .returned
  sendTime : Int := 0
  now : Int := 0
  sends : List (Addr × Int) := []
  deriving DecidableEq, Repr

namespace PeriodicSend

variable {Addr : Type}

def timeout : Int := 2 * ticksPerSecond

def sendTo (s : PeriodicSend Addr) (position : Nat) (now : Int) : Option (PeriodicSend Addr) :=
  s.dnsServerAddrs[position]?.map fun addr => { s with
    position := position
    phase := .sending
    sendTime := now
    now := now
    sends := s.sends ++ [(addr, now)] }

def start (dnsServerAddrs : List Addr) (now : Int) : Option (PeriodicSend Addr) :=
  sendTo { dnsServerAddrs := dnsServerAddrs } 0 now

def nextPosition (s : PeriodicSend Addr) : Nat :=
  if s.position + 1 < s.dnsServerAddrs.length then s.position + 1 else 0

-- The clock does not go back, and a Sleep is over at its awake time at the earliest.
def step (s : PeriodicSend Addr) : SendEvent → Option (PeriodicSend Addr)
  | .sent now failed =>
      if s.phase = .sending ∧ s.now ≤ now then
        some { s with
          now := now
          phase := if failed then .returned else .sleeping (now + timeout) }
      else none
  | .awake now =>
      match s.phase with
      | .sleeping awakeTime =>
          if awakeTime ≤ now ∧ s.now ≤ now then s.sendTo s.nextPosition now else none
      | .sending | .returned => none

variable {s s' : PeriodicSend Addr} {servers : List Addr} {now : Int} {e : SendEvent}

def times (s : PeriodicSend Addr) : List Int := s.sends.map (·.2)

structure Paced (servers : List Addr) (s : PeriodicSend Addr) : Prop where
  addrs : s.dnsServerAddrs = servers
  turns : ∀ (k : Nat) send, s.sends[k]? = some send →
    servers[k % servers.length]? = some send.1
  position : s.position < servers.length
  count : s.sends.length % servers.length = (s.position + 1) % servers.length
  spaced : Spaced timeout s.times
  last : s.times.getLast? = some s.sendTime
  passed : ∀ t ∈ s.times, t ≤ s.now
  awake : ∀ awakeTime, s.phase = .sleeping awakeTime → ∀ t ∈ s.times, t + timeout ≤ awakeTime

theorem times_sendTo {addr : Addr} {position : Nat} : ({ s with
    position := position
    phase := .sending
    sendTime := now
    now := now
    sends := s.sends ++ [(addr, now)] } : PeriodicSend Addr).times = s.times ++ [now] := by
  rw [times, List.map_append]
  rfl

theorem sendTo_paced {position : Nat} (haddrs : s.dnsServerAddrs = servers)
    (hturns : ∀ (k : Nat) send, s.sends[k]? = some send →
      servers[k % servers.length]? = some send.1)
    (hspaced : Spaced timeout s.times) (hcount : s.sends.length % servers.length = position)
    (hnow : ∀ t ∈ s.times, t + timeout ≤ now) (h : s.sendTo position now = some s') :
    Paced servers s' := by
  obtain ⟨addr, haddr, rfl⟩ := Option.map_eq_some_iff.mp h
  rw [haddrs] at haddr
  obtain ⟨hlt, -⟩ := List.getElem?_eq_some_iff.mp haddr
  refine ⟨haddrs, fun k send hk => ?_, hlt, ?_, ?_, ?_, fun t ht => ?_, nofun⟩
  · rw [List.getElem?_append] at hk
    split at hk
    · exact hturns k send hk
    · rename_i hge
      obtain ⟨hk', rfl⟩ := List.getElem?_eq_some_iff.mp hk
      rw [List.length_singleton] at hk'
      obtain rfl : k = s.sends.length := by omega
      rw [hcount, haddr, List.getElem_singleton]
  · rw [List.length_append, List.length_singleton, ← Nat.mod_add_mod, hcount]
  · rw [times_sendTo]
    exact hspaced.concat hnow
  · rw [times_sendTo, List.getLast?_concat]
  · rw [times_sendTo] at ht
    obtain ht | ht := List.mem_append.mp ht
    · have hgap : 0 ≤ timeout := by decide
      have := hnow t ht
      show t ≤ now
      omega
    · exact (List.mem_singleton.mp ht).le

theorem start_paced (h : start servers now = some s) : Paced servers s := by
  have hturns (k : Nat) (send : Addr × Int) (hk : ([] : List (Addr × Int))[k]? = some send) :
      servers[k % servers.length]? = some send.1 := by
    cases hk
  exact sendTo_paced (s := { dnsServerAddrs := servers }) rfl hturns .nil (Nat.zero_mod _)
    (fun t ht => absurd ht List.not_mem_nil) h

theorem Paced.nextPosition (h : Paced servers s) :
    s.sends.length % servers.length = s.nextPosition := by
  have hposition := h.position
  rw [h.count, PeriodicSend.nextPosition, h.addrs]
  split
  · exact Nat.mod_eq_of_lt ‹_›
  · rw [show s.position + 1 = servers.length by omega, Nat.mod_self]

theorem Paced.step (h : Paced servers s) (hs : s.step e = some s') : Paced servers s' := by
  cases e with
  | sent now failed =>
    rw [PeriodicSend.step] at hs
    split at hs
    · rename_i hnow
      cases hs
      refine ⟨h.addrs, h.turns, h.position, h.count, h.spaced, h.last, fun t ht =>
        (h.passed t ht).trans hnow.2, fun awakeTime hawake t ht => ?_⟩
      dsimp only at hawake
      split at hawake
      · cases hawake
      · cases hawake
        have := h.passed t ht
        omega
    · cases hs
  | awake now =>
    rw [PeriodicSend.step] at hs
    split at hs
    · rename_i awakeTime hphase
      split at hs
      · rename_i hnow
        exact sendTo_paced h.addrs h.turns h.spaced h.nextPosition
          (fun t ht => (h.awake awakeTime hphase t ht).trans hnow.1) hs
      · cases hs
    · cases hs
    · cases hs

def SendPhase.sender : SendPhase → Sender
  | .sending => .sending
  | .sleeping _ => .sleeping
  | .returned => .finished

def SendEvent.event (key : Nat) (failure : Failure) (memory : Memory) : SendEvent → Event
  | .sent _ failed => .sent key (if failed then some failure else none) memory
  | .awake _ => .awake key memory

theorem step_sender {resolver : CachelessResolver} {key : Nat} {r : Request} {failure : Failure}
    {memory : Memory} (hs : s.step e = some s') (hr : resolver.requests[key]? = some r)
    (halive : r.alive) (hsender : r.sender = SendPhase.sender s.phase)
    (hframe : memory.sendFrame) : ∃ resolver' r',
      resolver.apply (SendEvent.event key failure memory e) = some resolver' ∧
      resolver'.requests[key]? = some r' ∧ r'.alive ∧ r'.sender = SendPhase.sender s'.phase := by
  cases e with
  | sent now failed =>
    rw [PeriodicSend.step] at hs
    split at hs
    · rename_i hnow
      cases hs
      have hacts : resolver.acts key .sending := ⟨r, hr, halive, by rw [hsender, hnow.1]; rfl⟩
      obtain ⟨b, hb⟩ := CachelessResolver.restart_eq resolver memory
      have hrestart : (resolver.restart memory).requests[key]? = some r := by rw [hb]; exact hr
      cases failed with
      | false =>
        exact ⟨_, _, if_pos hacts, CachelessResolver.update_same hrestart, halive, rfl⟩
      | true =>
        exact ⟨_, _, if_pos hacts, CachelessResolver.update_same
          (CachelessResolver.complete_same hrestart), halive, rfl⟩
    · cases hs
  | awake now =>
    rw [PeriodicSend.step] at hs
    split at hs
    · rename_i awakeTime hphase
      split at hs
      · obtain ⟨addr, -, rfl⟩ := Option.map_eq_some_iff.mp hs
        have hacts : resolver.acts key .sleeping := ⟨r, hr, halive, by rw [hsender, hphase]; rfl⟩
        refine ⟨_, { r with sender := .sending }, if_pos hacts, ?_, halive, rfl⟩
        rw [CachelessResolver.periodicBackgroundSend, if_pos hframe]
        exact CachelessResolver.update_same hr
      · cases hs
    · cases hs
    · cases hs

def Drives (s : PeriodicSend Addr) (es : List SendEvent) (s' : PeriodicSend Addr) : Prop :=
  ∀ (key : Nat) (failure : Failure) (memory : Memory) (resolver : CachelessResolver) (r : Request),
    memory.sendFrame → resolver.requests[key]? = some r → r.alive →
    r.sender = SendPhase.sender s.phase → ∃ resolver' r',
      (es.map (SendEvent.event key failure memory)).foldlM CachelessResolver.apply resolver =
        some resolver' ∧
      resolver'.requests[key]? = some r' ∧ r'.alive ∧ r'.sender = SendPhase.sender s'.phase

theorem run_sender {es : List SendEvent} (h : es.foldlM step s = some s') : Drives s es s' := by
  intro key failure memory resolver r hframe hr halive hsender
  induction es generalizing s resolver r with
  | nil =>
    cases h
    exact ⟨resolver, r, rfl, hr, halive, hsender⟩
  | cons e es ih =>
    obtain ⟨s₁, h₁, h⟩ := Option.bind_eq_some_iff.mp h
    obtain ⟨resolver₁, r₁, happly, hr₁, halive₁, hsender₁⟩ :=
      step_sender h₁ hr halive hsender hframe
    obtain ⟨resolver', r', hrun, hr', halive', hsender'⟩ :=
      ih h _ _ hr₁ halive₁ hsender₁
    refine ⟨resolver', r', ?_, hr', halive', hsender'⟩
    rw [List.map_cons, List.foldlM_cons, happly]
    exact hrun

theorem sends_in_turn {es : List SendEvent} (hstart : start servers now = some s)
    (h : es.foldlM step s = some s') :
    (∀ (k : Nat) send, s'.sends[k]? = some send → servers[k % servers.length]? = some send.1) ∧
      s'.times.getLast? = some s'.sendTime ∧ s'.times.Pairwise (fun t u => t + timeout ≤ u) ∧
      (∀ a b, a ≤ b →
        (s'.times.filter fun t => a ≤ t ∧ t ≤ b).length * timeout ≤ b - a + timeout) ∧
      Drives s es s' := by
  have hpaced : Paced servers s' :=
    OperationRuns.run_invariant (fun _ _ _ => Paced.step) (start_paced hstart) h
  exact ⟨hpaced.turns, hpaced.last, hpaced.spaced,
    fun a b => hpaced.spaced.window (by decide), run_sender h⟩

def threeSends : List SendEvent :=
  [.sent 5 false, .awake 2000000009, .sent 2000000010 false, .awake 4000000010]

theorem sends_in_turn_three : ∃ s s' : PeriodicSend Nat, start [1, 2] 0 = some s ∧
    threeSends.foldlM step s = some s' ∧ s'.sends.map (·.1) = [1, 2, 1] ∧
    s'.times.Pairwise fun t u => t + timeout ≤ u := by
  have hstart : start [1, 2] 0 = some ⟨[1, 2], 0, .sending, 0, 0, [(1, 0)]⟩ := rfl
  have hrun : threeSends.foldlM step ⟨[1, 2], 0, .sending, 0, 0, [(1, 0)]⟩ =
      some ⟨[1, 2], 0, .sending, 4000000010, 4000000010,
        [(1, 0), (2, 2000000009), (1, 4000000010)]⟩ := by decide
  exact ⟨_, _, hstart, hrun, rfl, (sends_in_turn hstart hrun).2.2.1⟩

end PeriodicSend

end Corosig.Dns.Protocol
