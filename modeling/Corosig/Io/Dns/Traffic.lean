import Corosig.Io.Dns.Completion
import Corosig.Io.Dns.ResolveName1
import Corosig.Io.Dns.ServerAnswer

namespace Corosig.Dns

def Request.Gives (r : Request) (n : Nat) : Prop :=
  r.result = some (.resolved n) ∨ r.returned = some (.resolved n)

namespace CachelessResolver

def matched (s : CachelessResolver) : Event → Option (Nat × Outcome)
  | .received packet _ =>
      packet.header.bind fun id =>
        (s.pendingRequests.find? (·.1 = id)).map fun p => (p.2, packet.answer)
  | _ => none

structure Follows (answered : Option (Nat × Outcome)) (s s' : CachelessResolver) : Prop where
  length : s'.requests.length = s.requests.length
  gives : ∀ (key : Nat) r', s'.requests[key]? = some r' → ∀ n, r'.Gives n →
    answered = some (key, .resolved n) ∨ ∃ r, s.requests[key]? = some r ∧ r.Gives n
  pending : ∀ p ∈ s'.pendingRequests, p ∈ s.pendingRequests ∧
    (∀ outcome, answered ≠ some (p.2, outcome)) ∧
    ∀ r', s'.requests[p.2]? = some r' → ∀ n, r'.Gives n →
      ∃ r, s.requests[p.2]? = some r ∧ r.Gives n

variable {s s' s'' : CachelessResolver} {e : Event} {key : Nat} {memory : Memory}
  {answered : Option (Nat × Outcome)}

theorem Follows.trans (h : Follows answered s s') (h' : Follows none s' s'') :
    Follows answered s s'' := by
  refine ⟨h'.length.trans h.length, ?_, ?_⟩
  · intro key r'' hr'' n hn
    obtain hm | ⟨r', hr', hn'⟩ := h'.gives key r'' hr'' n hn
    · cases hm
    · exact h.gives key r' hr' n hn'
  · intro p hp
    obtain ⟨hp', -, hgives'⟩ := h'.pending p hp
    obtain ⟨hp, hanswered, hgives⟩ := h.pending p hp'
    refine ⟨hp, hanswered, fun r'' hr'' n hn => ?_⟩
    obtain ⟨r', hr', hn'⟩ := hgives' r'' hr'' n hn
    exact hgives r' hr' n hn'

theorem follows_same (hreq : s'.requests = s.requests)
    (hpending : ∀ p ∈ s'.pendingRequests, p ∈ s.pendingRequests) : Follows none s s' := by
  refine ⟨by rw [hreq], ?_, ?_⟩
  · intro key r' hr' n hn
    rw [hreq] at hr'
    exact .inr ⟨r', hr', hn⟩
  · intro p hp
    refine ⟨hpending p hp, nofun, fun r' hr' n hn => ?_⟩
    rw [hreq] at hr'
    exact ⟨r', hr', hn⟩

theorem Follows.refl (s : CachelessResolver) : Follows none s s := follows_same rfl fun _ hp => hp

theorem follows_modify {f : Request → Request} (hreq : s'.requests = s.requests.modify key f)
    (hgives : ∀ r n, (f r).Gives n → answered = some (key, .resolved n) ∨ r.Gives n)
    (hpending : ∀ p ∈ s'.pendingRequests, p ∈ s.pendingRequests ∧
      (∀ outcome, answered ≠ some (p.2, outcome)) ∧
      (p.2 = key → ∀ r n, (f r).Gives n → r.Gives n)) : Follows answered s s' := by
  have hget {k : Nat} {r' : Request} (hr' : s'.requests[k]? = some r') :
      (k = key ∧ ∃ r, s.requests[key]? = some r ∧ r' = f r) ∨
        (k ≠ key ∧ s.requests[k]? = some r') := by
    rw [hreq] at hr'
    exact getElem?_update hr'
  refine ⟨by rw [hreq, List.length_modify], ?_, ?_⟩
  · intro k r' hr' n hn
    obtain ⟨rfl, r, hr, rfl⟩ | ⟨-, hr⟩ := hget hr'
    · exact (hgives r n hn).imp_right fun hn => ⟨r, hr, hn⟩
    · exact .inr ⟨r', hr, hn⟩
  · intro p hp
    obtain ⟨hp', hanswered, hsame⟩ := hpending p hp
    refine ⟨hp', hanswered, fun r' hr' n hn => ?_⟩
    obtain ⟨hkey, r, hr, rfl⟩ | ⟨-, hr⟩ := hget hr'
    · exact ⟨r, hkey ▸ hr, hsame hkey r n hn⟩
    · exact ⟨r', hr, hn⟩

theorem mem_unlink {p : Id × Nat} (hp : p ∈ (s.unlink key).pendingRequests) :
    p ∈ s.pendingRequests ∧ p.2 ≠ key := by
  obtain ⟨hp, hne⟩ := List.mem_filter.mp hp
  exact ⟨hp, of_decide_eq_true hne⟩

theorem follows_complete (s : CachelessResolver) (key : Nat) (outcome : Outcome) :
    Follows (some (key, outcome)) s (s.complete key outcome) := by
  refine follows_modify (f := completed outcome) (by rw [complete_eq]; rfl) ?_ ?_
  · rintro r n (hn | hn)
    · exact .inl (by cases hn; rfl)
    · exact .inr (.inr hn)
  · intro p hp
    obtain ⟨hp, hne⟩ := mem_unlink hp
    exact ⟨hp, fun _ heq => hne (by cases heq; rfl), fun heq => absurd heq hne⟩

theorem follows_fail (s : CachelessResolver) (key : Nat) (failure : Failure) :
    Follows none s (s.complete key (.failed failure)) := by
  have h := follows_complete s key (.failed failure)
  refine ⟨h.length, fun k r' hr' n hn => .inr ((h.gives k r' hr' n hn).resolve_left nofun), ?_⟩
  intro p hp
  obtain ⟨hp, -, hgives⟩ := h.pending p hp
  exact ⟨hp, nofun, hgives⟩

theorem follows_setSender (s : CachelessResolver) (key : Nat) (sender : Sender) :
    Follows none s (s.setSender key sender) :=
  follows_modify rfl (fun _ _ hn => .inr hn) fun _ hp => ⟨hp, nofun, fun _ _ _ hn => hn⟩

theorem follows_destroy (s : CachelessResolver) (key : Nat) : Follows none s (s.destroy key) :=
  follows_modify rfl (fun _ _ hn => .inr hn) fun _ hp =>
    ⟨(mem_unlink hp).1, nofun, fun _ _ _ hn => hn⟩

theorem follows_finish (s : CachelessResolver) (key : Nat) : Follows none s (s.finish key) := by
  refine follows_modify (f := destroyed ∘ returning) (List.modify_modify_eq _ _ _ _) ?_ ?_
  · rintro r n (hn | hn)
    · exact .inr (.inl hn)
    · exact .inr (.inl hn)
  · intro p hp
    obtain ⟨hp, hne⟩ := mem_unlink hp
    exact ⟨hp, nofun, fun heq => absurd heq hne⟩

theorem follows_afterSend (s : CachelessResolver) (key : Nat) (failure : Option Failure)
    (memory : Memory) : Follows none s (s.afterSend key failure memory) := by
  have hrestart : Follows none s (s.restart memory) := by
    obtain ⟨b, hb⟩ := restart_eq s memory
    rw [hb]
    exact follows_same rfl fun _ hp => hp
  cases failure with
  | none => exact hrestart.trans (follows_setSender _ key _)
  | some failure =>
    exact (hrestart.trans (follows_fail _ key failure)).trans (follows_setSender _ key _)

theorem follows_periodicBackgroundSend (s : CachelessResolver) (key : Nat) (memory : Memory) :
    Follows none s (s.periodicBackgroundSend key memory) := by
  rw [periodicBackgroundSend]
  split
  · exact follows_setSender s key _
  · exact follows_afterSend s key _ memory

theorem follows_processRequest (s : CachelessResolver) (id : Id) (memory : Memory) :
    Follows none (s.insert id) (s.processRequest id memory) := by
  have hstart : Follows none (s.insert id)
      ((s.insert id).startSender s.requests.length memory) := by
    rw [startSender]
    split
    · exact follows_periodicBackgroundSend _ _ memory
    · exact .refl _
  rw [processRequest]
  split
  · exact hstart.trans (follows_finish _ _)
  · exact hstart

theorem follows_receiveAnswer (s : CachelessResolver) (packet : Packet) (memory : Memory) :
    Follows (s.matched (.received packet memory)) s (s.receiveAnswer packet) := by
  obtain ⟨header, answer⟩ := packet
  cases header with
  | none => exact .refl s
  | some id =>
    cases hfind : s.pendingRequests.find? (·.1 = id) with
    | none =>
      simp only [receiveAnswer, matched, Option.bind_some, hfind]
      exact .refl s
    | some p =>
      simp only [receiveAnswer, matched, Option.bind_some, hfind]
      exact follows_complete s p.2 answer

theorem apply_follows (h : s.apply e = some s') : Follows (s.matched e) s s' ∨
    ∃ drawn servers encoded memory, e = .resolve drawn servers encoded memory ∧
      ¬(s.refuses servers ∨ encoded.isSome) ∧ s' = s.processRequest drawn memory := by
  have hc := apply_cases h
  cases e with
  | resolve drawn servers encoded memory =>
    rw [apply] at h
    split at h
    · cases h
      exact .inl (.refl s)
    · rename_i hrefuses
      cases h
      exact .inr ⟨drawn, servers, encoded, memory, rfl, hrefuses, rfl⟩
  | sent key failure memory =>
    obtain ⟨-, rfl⟩ := hc
    exact .inl (follows_afterSend s key failure memory)
  | awake key memory =>
    obtain ⟨-, rfl⟩ := hc
    exact .inl (follows_periodicBackgroundSend s key memory)
  | received packet memory =>
    obtain ⟨-, rfl⟩ := hc
    exact .inl ((follows_receiveAnswer s packet memory).trans (follows_same rfl fun _ hp => hp))
  | receiveFailed =>
    obtain ⟨-, rfl⟩ := hc
    exact .inl (follows_same rfl fun _ hp => hp)
  | resumed =>
    obtain ⟨key, ready, -, rfl⟩ := hc
    have hready : Follows none s { s with ready := ready } := follows_same rfl fun _ hp => hp
    exact .inl (hready.trans (follows_finish _ key))
  | dropped key =>
    obtain ⟨-, rfl⟩ := hc
    exact .inl (follows_destroy s key)

theorem getElem?_insert {id : Id} {k : Nat} {r' : Request}
    (hr' : (s.insert id).requests[k]? = some r') :
    s.requests[k]? = some r' ∨ k = s.requests.length ∧ r' = {} := by
  simp only [insert, List.getElem?_append] at hr'
  split at hr'
  · exact .inl hr'
  · obtain ⟨hlt, rfl⟩ := List.getElem?_eq_some_iff.mp hr'
    simp only [List.length_singleton] at hlt
    exact .inr ⟨by omega, List.getElem_singleton hlt⟩

theorem mem_insert {id : Id} {p : Id × Nat} (hp : p ∈ (s.insert id).pendingRequests) :
    p ∈ s.pendingRequests ∨ p.2 = s.requests.length := by
  obtain rfl | hp := (List.mem_orderedInsert _).mp hp
  · exact .inr rfl
  · exact .inl hp

theorem not_gives_new (n : Nat) : ¬({} : Request).Gives n := by
  rintro (hn | hn) <;> cases hn

end CachelessResolver

namespace Protocol
open CompressedNames NetworkOrder

def ResolveError.failure : ResolveError → Failure
  | .code value => .resolve value
  | .server rcode => .server rcode.toNat
  | .decode e => .decode e.ctorIdx

def outcome : Except ResolveError Nat → Outcome
  | .ok n => .resolved n
  | .error e => .failed e.failure

def formulate (f : IpFamily) (id : Id) (asciiName : Text) : Question where
  id := BitVec.ofFin id
  name := asciiName
  qtype := queryType f

abbrev OutSpan : Type := Σ f : IpFamily, Addrs f

-- A request with its encoded message, the time points it was sent at, the last one first, and the
-- span it was given.
structure Lookup (hash : Text → BitVec 16) where
  family : IpFamily
  id : Id
  asciiName : Text
  message : Text
  encoded : ∃ alloc, encodeQuestion hash alloc (formulate family id asciiName) = .ok message
  sendTimes : List Int
  given : Addrs family
  out : Addrs family := given

variable {hash : Text → BitVec 16}

namespace Lookup

def sendTime (l : Lookup hash) : Int := l.sendTimes.headD 0

def request (l : Lookup hash) : PendingRequest (Address l.family) :=
  pendingRequest l.family (formulate l.family l.id l.asciiName) l.sendTime l.out

def sendAt (now : Int) (l : Lookup hash) : Lookup hash :=
  { l with sendTimes := now :: l.sendTimes }

def fill (l : Lookup hash) (out : Addrs l.family) : Lookup hash := { l with out := out }

def asked (l : Lookup hash) : Text × OutSpan := (l.asciiName, ⟨l.family, l.given⟩)

end Lookup

-- The resolver and every datagram there has been, which the network may lose, repeat and reorder.
structure Traffic (hash : Text → BitVec 16) where
  resolver : CachelessResolver := {}
  lookups : List (Lookup hash) := []
  queries : List Text := []
  responses : List Text := []

-- What the servers know: the records to answer a name, type and class with.
abbrev Zone : Type := List Text → QueryType → QueryClass → List Record → Prop

structure Zone.Serves (zone : Zone) (query response : Text) : Prop where
  short : response.length ≤ responseBufSize
  responds : ∃ asked header answers others, CarriesQuestion query asked ∧
    zone (splitIntoLabels asked.name) asked.qtype asked.qclass answers ∧
    Responds query response header answers others

def Lookup.Holds (zone : Zone) (l : Lookup hash) (n : Nat) : Prop :=
  ∃ t ∈ l.sendTimes, ∃ answers, zone (splitIntoLabels l.asciiName) (queryType l.family) 1 answers ∧
    n = min l.given.length (answers.filterMap (Record.resolved l.family t)).length ∧
    l.out = (answers.filterMap (Record.resolved l.family t)).take n ++ l.given.drop n

theorem Lookup.Holds.sendAt {zone : Zone} {l : Lookup hash} {n : Nat} {now : Int}
    (h : l.Holds zone n) : (l.sendAt now).Holds zone n := by
  obtain ⟨t, ht, hrest⟩ := h
  exact ⟨t, List.mem_cons_of_mem _ ht, hrest⟩

namespace Traffic

inductive Receives (s : Traffic hash) (response : Text) : Packet → List (Lookup hash) → Prop
  | malformed {e : ResponseDecodeError} {d : ResponseDecoder} (answer : Outcome) :
      (ResponseDecoder.ofResponse (response.take responseBufSize)).consumeHeader = (.error e, d) →
      Receives s response ⟨none, answer⟩ s.lookups
  | unknown {header : Header} {d : ResponseDecoder} (answer : Outcome) :
      (ResponseDecoder.ofResponse (response.take responseBufSize)).consumeHeader =
        (.ok header, d) →
      s.resolver.pendingRequests.find? (·.1 = header.id.toFin) = none →
      Receives s response ⟨some header.id.toFin, answer⟩ s.lookups
  | answered {header : Header} {d : ResponseDecoder} {id : Id} {key : Nat} {l : Lookup hash}
      {result : Except ResolveError Nat} {out : Addrs l.family} :
      (ResponseDecoder.ofResponse (response.take responseBufSize)).consumeHeader =
        (.ok header, d) →
      s.resolver.pendingRequests.find? (·.1 = header.id.toFin) = some (id, key) →
      s.lookups[key]? = some l → Stores l.request header d result out →
      Receives s response ⟨some header.id.toFin, outcome result⟩ (s.lookups.set key (l.fill out))

def Inner (s : CachelessResolver) : Event → Prop
  | .resolve _ servers encoded _ => s.refuses servers ∨ encoded.isSome
  | .awake .. | .received .. => False
  | .sent .. | .receiveFailed | .resumed | .dropped _ => True

inductive Step (zone : Zone) : Traffic hash → Traffic hash → Prop
  | resolve {s : Traffic hash} {resolver : CachelessResolver} {drawn : Id} {servers : Nat}
      {memory : Memory} {f : IpFamily} {asciiName message : Text} (now : Int) (out : Addrs f)
      (encoded : ∃ alloc, encodeQuestion hash alloc (formulate f drawn asciiName) = .ok message) :
      ¬s.resolver.refuses servers →
      s.resolver.Step (.resolve drawn servers none memory) resolver →
      Step zone s { s with
        resolver := resolver
        lookups := s.lookups ++ [{
          family := f
          id := drawn
          asciiName := asciiName
          message := message
          encoded := encoded
          sendTimes := [if memory.senderFrame then now else 0]
          given := out }] }
  | awake {s : Traffic hash} {resolver : CachelessResolver} {key : Nat} {memory : Memory}
      (now : Int) : s.resolver.Step (.awake key memory) resolver →
      Step zone s { s with
        resolver := resolver
        lookups := s.lookups.modify key (.sendAt now) }
  | send {s : Traffic hash} {key : Nat} {l : Lookup hash} : s.resolver.acts key .sending →
      s.lookups[key]? = some l → Step zone s { s with queries := l.message :: s.queries }
  | serve {s : Traffic hash} {query response : Text} : query ∈ s.queries →
      zone.Serves query response → Step zone s { s with responses := response :: s.responses }
  | receive {s : Traffic hash} {resolver : CachelessResolver} {response : Text} {packet : Packet}
      {lookups : List (Lookup hash)} {memory : Memory} : response ∈ s.responses →
      s.Receives response packet lookups → s.resolver.Step (.received packet memory) resolver →
      Step zone s { s with resolver := resolver, lookups := lookups }
  | inner {s : Traffic hash} {resolver : CachelessResolver} {e : Event} : Inner s.resolver e →
      s.resolver.Step e resolver → Step zone s { s with resolver := resolver }

abbrev Reaches (zone : Zone) : Traffic hash → Traffic hash → Prop :=
  Relation.ReflTransGen (Step zone)

def Message (hash : Text → BitVec 16) (message : Text) : Prop :=
  ∃ alloc question, encodeQuestion hash alloc question = .ok message

structure Inv (zone : Zone) (s : Traffic hash) : Prop where
  aligned : s.lookups.length = s.resolver.requests.length
  queries : ∀ query ∈ s.queries, Message hash query
  responses : ∀ response ∈ s.responses, ∃ query, Message hash query ∧ zone.Serves query response
  times : ∀ l ∈ s.lookups, l.sendTimes ≠ []
  unfilled : ∀ p ∈ s.resolver.pendingRequests, ∀ l, s.lookups[p.2]? = some l → l.out = l.given
  pending : ∀ p ∈ s.resolver.pendingRequests, ∀ r, s.resolver.requests[p.2]? = some r →
    ∀ n, ¬r.Gives n
  holds : ∀ (key : Nat) r, s.resolver.requests[key]? = some r → ∀ n, r.Gives n →
    ∃ l, s.lookups[key]? = some l ∧ l.Holds zone n

variable {zone : Zone} {s s' : Traffic hash} {key : Nat} {l : Lookup hash} {r : Request} {n : Nat}

theorem carriesQuestion_encodeQuestion {alloc : Nat → Bool} {question : Question} {query : Text}
    (hq : encodeQuestion hash alloc question = .ok query) : CarriesQuestion query question := by
  obtain ⟨hquery, hvalid⟩ := encodeQuestion_plain hq
  have hat : Occurs (questionOctets question) query 12 := by
    rw [hquery, ← length_encodeHeader question.header, ← List.append_nil (_ ++ _)]
    exact occurs_here _ _ _
  rw [questionOctets, List.append_assoc] at hat
  obtain ⟨hname, hfields⟩ := occurs_append.mp hat
  rw [length_nameOctets, BitVec.toNat_setWidth_of_le (by decide),
    BitVec.toNat_setWidth_of_le (by decide)] at hfields
  exact ⟨_, laid_nameOctets hvalid hname, hfields⟩

theorem carriesQuestion_unique {message : Text} {a b : Question} (h : CarriesQuestion message a)
    (h' : CarriesQuestion message b) : splitIntoLabels a.name = splitIntoLabels b.name ∧
      a.qtype = b.qtype ∧ a.qclass = b.qclass := by
  obtain ⟨size, hlaid, hfields⟩ := h
  obtain ⟨size', hlaid', hfields'⟩ := h'
  obtain ⟨rfl, hlabels⟩ := hlaid.unique hlaid'
  have heq := hfields.unique hfields' (by simp only [List.length_append, length_bigEndian])
  obtain ⟨htype, hclass⟩ := List.append_inj heq (by simp only [length_bigEndian])
  have hvalue {x y : BitVec 8} (hxy : bigEndian 2 x.toNat = bigEndian 2 y.toNat) : x = y := by
    have hmod := congrArg ofBigEndian hxy
    rw [ofBigEndian_bigEndian, ofBigEndian_bigEndian] at hmod
    have hx := x.isLt
    have hy := y.isLt
    exact BitVec.eq_of_toNat_eq (by omega)
  exact ⟨hlabels, hvalue htype, hvalue hclass⟩

theorem holds_of_stores {query response : Text} {header : Header} {d : ResponseDecoder}
    {out : Addrs l.family} (hmessage : Message hash query) (hserves : zone.Serves query response)
    (htimes : l.sendTimes ≠ []) (hunfilled : l.out = l.given)
    (hheader : (ResponseDecoder.ofResponse (response.take responseBufSize)).consumeHeader =
      (.ok header, d)) (hstores : Stores l.request header d (.ok n) out) :
    (l.fill out).Holds zone n := by
  obtain ⟨alloc, sent, hq⟩ := hmessage
  obtain ⟨hshort, asked, header', answers, others, hcarries, hanswers, hresponds⟩ := hserves
  rw [List.take_of_length_le hshort] at hheader
  obtain ⟨hlabels, hqtype, hqclass, hn, hout⟩ := own_answer hq hresponds hheader hstores
  obtain ⟨hlabels', hqtype', hqclass'⟩ :=
    carriesQuestion_unique (carriesQuestion_encodeQuestion hq) hcarries
  rw [← hlabels', ← hqtype', ← hqclass', ← hlabels, ← hqtype, ← hqclass] at hanswers
  rw [hunfilled] at hn hout
  obtain ⟨t, rest, ht⟩ := List.exists_cons_of_ne_nil htimes
  refine ⟨l.sendTime, ?_, answers, hanswers, hn, hout⟩
  rw [Lookup.sendTime, Lookup.fill, ht]
  exact List.mem_cons_self

theorem Inv.empty : Inv zone ({} : Traffic hash) :=
  ⟨rfl, nofun, nofun, nofun, nofun, nofun, fun _ _ hr => by cases hr⟩

theorem Inv.resolved (h : Inv zone s) {resolver : CachelessResolver}
    {answered : Option (Nat × Outcome)}
    (hfollows : CachelessResolver.Follows answered s.resolver resolver)
    {lookups : List (Lookup hash)} (haligned : lookups.length = s.lookups.length)
    (htimes : ∀ l ∈ lookups, l.sendTimes ≠ [])
    (hanswered : ∀ key n, answered = some (key, .resolved n) →
      ∃ l, lookups[key]? = some l ∧ l.Holds zone n)
    (hothers : ∀ (key : Nat) l', (∀ outcome, answered ≠ some (key, outcome)) →
      lookups[key]? = some l' → ∃ l, s.lookups[key]? = some l ∧
        (l.out = l.given → l'.out = l'.given))
    (hholds : ∀ (key : Nat) r l, s.resolver.requests[key]? = some r → s.lookups[key]? = some l →
      ∀ n, r.Gives n → l.Holds zone n → ∃ l', lookups[key]? = some l' ∧ l'.Holds zone n) :
    Inv zone { s with resolver := resolver, lookups := lookups } := by
  refine ⟨(haligned.trans h.aligned).trans hfollows.length.symm, h.queries, h.responses, htimes,
    ?_, ?_, ?_⟩
  · intro p hp l' hl'
    obtain ⟨hp', hne, -⟩ := hfollows.pending p hp
    obtain ⟨l, hl, hunfilled⟩ := hothers p.2 l' hne hl'
    exact hunfilled (h.unfilled p hp' l hl)
  · intro p hp r hr n hn
    obtain ⟨hp', -, hgives⟩ := hfollows.pending p hp
    obtain ⟨r', hr', hn'⟩ := hgives r hr n hn
    exact h.pending p hp' r' hr' n hn'
  · intro key r hr n hn
    obtain hkey | ⟨r', hr', hn'⟩ := hfollows.gives key r hr n hn
    · exact hanswered key n hkey
    · obtain ⟨l, hl, hold⟩ := h.holds key r' hr' n hn'
      exact hholds key r' l hr' hl n hn' hold

theorem Inv.idle (h : Inv zone s) {resolver : CachelessResolver}
    {answered : Option (Nat × Outcome)} (hnone : ∀ key n, answered ≠ some (key, .resolved n))
    (hfollows : CachelessResolver.Follows answered s.resolver resolver) :
    Inv zone { s with resolver := resolver } :=
  h.resolved hfollows rfl h.times (fun key n hsome => absurd hsome (hnone key n))
    (fun _ l _ hl => ⟨l, hl, id⟩) fun _ _ l _ hl _ _ hold => ⟨l, hl, hold⟩

theorem Inv.receive (h : Inv zone s) {response : Text} {packet : Packet} {memory : Memory}
    {lookups : List (Lookup hash)} {resolver : CachelessResolver}
    (hresponse : response ∈ s.responses) (hreceives : s.Receives response packet lookups)
    (hfollows : CachelessResolver.Follows (s.resolver.matched (.received packet memory))
      s.resolver resolver) :
    Inv zone { s with resolver := resolver, lookups := lookups } := by
  cases hreceives with
  | malformed answer hheader => exact h.idle (fun _ _ hnone => by cases hnone) hfollows
  | unknown answer hheader hfind =>
    refine h.idle (fun key n hsome => ?_) hfollows
    rw [CachelessResolver.matched, Option.bind_some, hfind] at hsome
    cases hsome
  | @answered header d id key l result out hheader hfind hl hstores =>
    obtain ⟨query, hmessage, hserves⟩ := h.responses response hresponse
    have htimes := h.times l (List.mem_of_getElem? hl)
    have hpending := List.mem_of_find?_eq_some hfind
    have hset : (s.lookups.set key (l.fill out))[key]? = some (l.fill out) :=
      List.getElem?_set_self (List.getElem?_eq_some_iff.mp hl).1
    rw [CachelessResolver.matched, Option.bind_some, hfind] at hfollows
    refine h.resolved hfollows List.length_set ?_ ?_ ?_ ?_
    · intro l' hl'
      obtain hl' | rfl := List.mem_or_eq_of_mem_set hl'
      · exact h.times l' hl'
      · exact htimes
    · intro key' n hsome
      obtain ⟨rfl, hresult⟩ := Prod.mk.inj (Option.some.inj hsome)
      cases result with
      | error e => cases hresult
      | ok k =>
        cases hresult
        exact ⟨_, hset, holds_of_stores hmessage hserves htimes (h.unfilled _ hpending l hl)
          hheader hstores⟩
    · intro key' l' hother hl'
      have hne : key ≠ key' := by
        rintro rfl
        exact hother _ rfl
      rw [List.getElem?_set_ne hne] at hl'
      exact ⟨l', hl', fun hsame => hsame⟩
    · intro key' r l' hr hl' n hn hholds
      obtain rfl | hne := eq_or_ne key key'
      · exact absurd hn (h.pending _ hpending r hr n)
      · exact ⟨l', by rwa [List.getElem?_set_ne hne], hholds⟩

theorem Inv.resolve (h : Inv zone s) {id : Id} {memory : Memory} (l : Lookup hash)
    (htimes : l.sendTimes ≠ []) (hunfilled : l.out = l.given) :
    Inv zone { s with
      resolver := s.resolver.processRequest id memory
      lookups := s.lookups ++ [l] } := by
  have hold {key : Nat} {l' : Lookup hash} (hl' : s.lookups[key]? = some l') :
      (s.lookups ++ [l])[key]? = some l' := by
    rw [List.getElem?_append_left (List.getElem?_eq_some_iff.mp hl').1, hl']
  have hinsert : Inv zone { s with
      resolver := s.resolver.insert id
      lookups := s.lookups ++ [l] } := by
    refine ⟨?_, h.queries, h.responses, ?_, ?_, ?_, ?_⟩
    · have hlen := h.aligned
      simp only [CachelessResolver.insert, List.length_append, List.length_singleton, hlen]
    · intro l' hl'
      obtain hl' | hl' := List.mem_append.mp hl'
      · exact h.times l' hl'
      · rwa [List.mem_singleton.mp hl']
    · intro p hp l' hl'
      rw [List.getElem?_append] at hl'
      split at hl'
      · rename_i hlt
        obtain hp | hnew := CachelessResolver.mem_insert hp
        · exact h.unfilled p hp l' hl'
        · rw [hnew, h.aligned] at hlt
          exact absurd hlt (Nat.lt_irrefl _)
      · rwa [List.mem_singleton.mp (List.mem_of_getElem? hl')]
    · intro p hp r hr n
      obtain hr | ⟨-, rfl⟩ := CachelessResolver.getElem?_insert hr
      · obtain hp | hnew := CachelessResolver.mem_insert hp
        · exact h.pending p hp r hr n
        · rw [hnew] at hr
          exact absurd (List.getElem?_eq_some_iff.mp hr).1 (Nat.lt_irrefl _)
      · exact CachelessResolver.not_gives_new n
    · intro key r hr n hn
      obtain hr | ⟨-, rfl⟩ := CachelessResolver.getElem?_insert hr
      · obtain ⟨l', hl', hholds⟩ := h.holds key r hr n hn
        exact ⟨l', hold hl', hholds⟩
      · exact absurd hn (CachelessResolver.not_gives_new n)
  exact hinsert.idle (fun _ _ hnone => by cases hnone)
    (CachelessResolver.follows_processRequest s.resolver id memory)

theorem getElem?_sendAt {lookups : List (Lookup hash)} {k : Nat} {now : Int} {l' : Lookup hash}
    (h : (lookups.modify key (.sendAt now))[k]? = some l') :
    ∃ l, lookups[k]? = some l ∧ (l' = l ∨ l' = l.sendAt now) := by
  rw [List.getElem?_modify] at h
  obtain ⟨l, hl, rfl⟩ := Option.map_eq_some_iff.mp h
  refine ⟨l, hl, ?_⟩
  split
  · exact .inr rfl
  · exact .inl rfl

theorem Inv.step (h : Inv zone s) (hs : Step zone s s') : Inv zone s' := by
  cases hs with
  | @resolve _ drawn servers memory f asciiName message now out encoded hrefuses hres =>
    have hnot : ¬(s.resolver.refuses servers ∨ (none : Option Failure).isSome) :=
      fun hor => hor.elim hrefuses nofun
    have happly := hres.applied
    rw [CachelessResolver.apply, if_neg hnot] at happly
    cases happly
    exact h.resolve _ (List.cons_ne_nil _ _) rfl
  | @awake _ key memory now hres =>
    obtain hfollows | ⟨_, _, _, _, hnew, -⟩ := CachelessResolver.apply_follows hres.applied
    · refine h.resolved hfollows (List.length_modify _ _ _) ?_
        (fun _ _ hnone => by cases hnone) ?_ ?_
      · intro l hl
        obtain ⟨k, hk⟩ := List.getElem?_of_mem hl
        obtain ⟨l', hl', rfl | rfl⟩ := getElem?_sendAt hk
        · exact h.times l (List.mem_of_getElem? hl')
        · exact List.cons_ne_nil _ _
      · intro key' l' _ hl'
        obtain ⟨l, hl, rfl | rfl⟩ := getElem?_sendAt hl'
        · exact ⟨l', hl, fun hsame => hsame⟩
        · exact ⟨l, hl, fun hsame => hsame⟩
      · intro key' r l hr hl n hn hholds
        rw [List.getElem?_modify, hl]
        refine ⟨_, rfl, ?_⟩
        split
        · exact hholds.sendAt
        · exact hholds
    · cases hnew
  | send hacts hl =>
    refine ⟨h.aligned, fun query hquery => ?_, h.responses, h.times, h.unfilled, h.pending, h.holds⟩
    obtain rfl | hquery := List.mem_cons.mp hquery
    · obtain ⟨alloc, hencoded⟩ := Lookup.encoded _
      exact ⟨alloc, _, hencoded⟩
    · exact h.queries query hquery
  | serve hquery hserves =>
    refine ⟨h.aligned, h.queries, fun response hresponse => ?_, h.times, h.unfilled, h.pending,
      h.holds⟩
    obtain rfl | hresponse := List.mem_cons.mp hresponse
    · exact ⟨_, h.queries _ hquery, hserves⟩
    · exact h.responses response hresponse
  | receive hresponse hreceives hres =>
    obtain hfollows | ⟨_, _, _, _, hnew, -⟩ := CachelessResolver.apply_follows hres.applied
    · exact h.receive hresponse hreceives hfollows
    · cases hnew
  | @inner _ e hinner hres =>
    obtain hfollows | ⟨drawn, servers, encoded, memory, rfl, hnew, -⟩ :=
      CachelessResolver.apply_follows hres.applied
    · refine h.idle (fun key n hsome => ?_) hfollows
      cases e with
      | received packet memory => exact hinner.elim
      | resolve | sent | awake | receiveFailed | resumed | dropped => cases hsome
    · exact absurd hinner hnew

theorem Inv.run (h : Inv zone s) (hr : Reaches zone s s') : Inv zone s' := by
  induction hr with
  | refl => exact h
  | tail _ hs ih => exact ih.step hs

theorem lookups_own (h : Reaches zone ({} : Traffic hash) s)
    (hr : s.resolver.requests[key]? = some r)
    (hn : r.result = some (.resolved n) ∨ r.returned = some (.resolved n)) :
    ∃ l, s.lookups[key]? = some l ∧ l.Holds zone n :=
  (Inv.empty.run h).holds key r hr n hn

def constantHash (_ : Text) : BitVec 16 := 0

def answeringZone : Zone := fun labels qtype qclass answers =>
  labels = [[97]] ∧ qtype = 1 ∧ qclass = 1 ∧ answers = [answeringRecord]

def askingLookup : Lookup constantHash where
  family := .v4
  id := 7
  asciiName := [97]
  message := answeredQuery
  encoded := ⟨fun _ => true, rfl⟩
  sendTimes := [0]
  given := [unsetAddress]

theorem serves_answering : answeringZone.Serves answeredQuery answering := by
  have hq : encodeQuestion constantHash (fun _ => true) answeredQuestion = .ok answeredQuery := rfl
  exact ⟨by decide, answeredQuestion, answeringHeader, [answeringRecord], [],
    carriesQuestion_encodeQuestion hq, ⟨rfl, rfl, rfl, rfl⟩, responds_answering⟩

def asking : CachelessResolver := CachelessResolver.processRequest {} 7 {}

def listening : CachelessResolver := asking.afterSend 0 none {}

def resolved : CachelessResolver :=
  (listening.receiveAnswer ⟨some 7, .resolved 1⟩).receiveServerAnswers {}

def answeredOut : Addrs .v4 := [⟨Vector.replicate 4 9, 60000000000⟩]

def carrying (resolver : CachelessResolver) (l : Lookup constantHash)
    (queries responses : List Text) : Traffic constantHash :=
  ⟨resolver, [l], queries, responses⟩

theorem receives_answering : Receives
    (carrying listening askingLookup [answeredQuery] [answering]) answering
      ⟨some 7, .resolved 1⟩ [askingLookup.fill answeredOut] := by
  have hq : encodeQuestion constantHash (fun _ => true) (formulate .v4 7 [97]) =
    .ok answeredQuery := rfl
  have hstores : Stores askingLookup.request answeringHeader _ (.ok 1) answeredOut :=
    responds_answering.stores .v4 hq (by decide) rfl
  have hheader := responds_answering.consumeHeader
  rw [← List.take_of_length_le serves_answering.short] at hheader
  have hfind : listening.pendingRequests.find? (·.1 = answeringHeader.id.toFin) = some (7, 0) := rfl
  have hl : (carrying listening askingLookup [answeredQuery] [answering]).lookups[0]? =
    some askingLookup := rfl
  exact .answered hheader hfind hl hstores

theorem resolve_asking : Step answeringZone {} (carrying asking askingLookup [] []) := by
  have hsettles : ∀ id, CachelessResolver.draws {} (.resolve 7 1 none {}) = some id →
      CachelessResolver.Settles {} id := fun _ _ =>
    CachelessResolver.settles_of_unused List.not_mem_nil
  have hrefuses : ¬CachelessResolver.refuses {} 1 := by decide
  have hasking : CachelessResolver.Step {} (.resolve 7 1 none {}) asking := ⟨hsettles, rfl⟩
  exact Step.resolve (s := {}) 0 [unsetAddress] askingLookup.encoded hrefuses hasking

theorem send_asking : Step answeringZone (carrying asking askingLookup [] [])
    (carrying asking askingLookup [answeredQuery] []) := by
  have hacts : asking.acts 0 .sending := by decide
  have hlookup : (carrying asking askingLookup [] []).lookups[0]? = some askingLookup := rfl
  exact .send hacts hlookup

theorem sent_asking : Step answeringZone (carrying asking askingLookup [answeredQuery] [])
    (carrying listening askingLookup [answeredQuery] []) :=
  .inner (e := .sent 0 none {}) trivial ⟨nofun, rfl⟩

theorem serve_answering : Step answeringZone (carrying listening askingLookup [answeredQuery] [])
    (carrying listening askingLookup [answeredQuery] [answering]) :=
  .serve List.mem_cons_self serves_answering

theorem receive_answering :
    Step answeringZone (carrying listening askingLookup [answeredQuery] [answering])
      (carrying resolved (askingLookup.fill answeredOut) [answeredQuery] [answering]) := by
  have hreceived : listening.Step (.received ⟨some 7, .resolved 1⟩ {}) resolved := ⟨nofun, rfl⟩
  exact .receive List.mem_cons_self receives_answering hreceived

theorem lookups_own_answering : ∃ (s : Traffic constantHash) (l : Lookup constantHash),
    Reaches answeringZone {} s ∧ s.lookups[0]? = some l ∧ l.Holds answeringZone 1 := by
  have hreaches := ((((Relation.ReflTransGen.single resolve_asking).tail send_asking).tail
    sent_asking).tail serve_answering).tail receive_answering
  have hrequest : resolved.requests[0]?.map (·.result) = some (some (.resolved 1)) := rfl
  obtain ⟨r, hr, hresult⟩ := Option.map_eq_some_iff.mp hrequest
  obtain ⟨l, hl, hholds⟩ := lookups_own hreaches hr (.inl hresult)
  exact ⟨_, l, hreaches, hl, hholds⟩

end Traffic

end Protocol

end Corosig.Dns
