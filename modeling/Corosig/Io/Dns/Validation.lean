import Corosig.Io.Dns.Encoder
import Corosig.Io.Dns.MemoryCache
import Corosig.Io.Dns.Resolver
import Mathlib.Data.Nat.Bitwise

namespace Corosig.Dns.Protocol
open CompressedNames Loop NetworkOrder

inductive ResolveError where
  | code (value : ResolveErrorCode)
  | server (rcode : BitVec 8)
  | decode (e : ResponseDecodeError)
  deriving DecidableEq, Repr

structure PendingRequest (IP : Type) where
  question : Question
  accepts : RData → Option IP
  sendTime : Int
  out : List (ResolvedAddress IP)
  result : Option (Except ResolveError Nat) := none

variable {IP : Type}

def noError : BitVec 8 := 0

def ticksPerSecond : Int := 1000000000

def validateResponse (fuel : Nat) (header : Header) (d : ResponseDecoder) (question : Question) :
    Option (Except ResolveError Unit × ResponseDecoder) :=
  if Header.getRcode header.flags ≠ noError then
    some (.error (.server (Header.getRcode header.flags)), d)
  else if ¬ Header.isResponse header.flags then some (.error (.code .gotRequestInstead), d)
  else if Header.truncated header.flags then some (.error (.code .questionTruncated), d)
  else if header.qdcount ≠ Header.theOnlyValidQdcount then
    some (.error (.code .invalidQdcount), d)
  else
    match d.consumeQuestionEntry fuel with
    | none => none
    | some (.error e, d) => some (.error (.decode e), d)
    | some (.ok questionEntry, d) =>
        match run LabelsIterator.step fuel questionEntry.name.begin with
        | none => none
        | some labels =>
            if labels ≠ some (splitIntoLabels question.name) ∨
                questionEntry.qclass ≠ question.qclass ∨ questionEntry.qtype ≠ question.qtype then
              some (.error (.code .questionValueMismatch), d)
            else some (.ok (), d)

def consumeResourceRecords (fuel : Nat) :
    Nat → ResponseDecoder → Option (Except ResolveError Unit × ResponseDecoder)
  | 0, d => some (.ok (), d)
  | count + 1, d =>
      match d.consumeResourceRecord fuel with
      | none => none
      | some (.error e, d) => some (.error (.decode e), d)
      | some (.ok _, d) => consumeResourceRecords fuel count d

def voidConsumeNsArRrs (fuel : Nat) (header : Header) (d : ResponseDecoder) :
    Option (Except ResolveError Unit × ResponseDecoder) :=
  match consumeResourceRecords fuel header.nscount.toNat d with
  | none => none
  | some (.error e, d) => some (.error e, d)
  | some (.ok (), d) => consumeResourceRecords fuel header.arcount.toNat d

-- n addresses are in out so far; the rest of it is what the span out still covers.
def processAnswers (fuel : Nat) (request : PendingRequest IP) :
    Nat → Nat → ResponseDecoder → List (ResolvedAddress IP) →
      Option (Except ResolveError Nat × ResponseDecoder × List (ResolvedAddress IP))
  | 0, n, d, out => some (.ok n, d, out)
  | count + 1, n, d, out =>
      match d.consumeResourceRecord fuel with
      | none => none
      | some (.error e, d) => some (.error (.decode e), d, out)
      | some (.ok rr, d) =>
          if n = out.length then processAnswers fuel request count n d out
          else
            match request.accepts rr.rdata with
            | some address =>
                processAnswers fuel request count (n + 1) d
                  (out.set n ⟨address, request.sendTime + rr.ttl.toNat * ticksPerSecond⟩)
            | none => processAnswers fuel request count n d out

def processServerAnswerImpl (fuel : Nat) (request : PendingRequest IP) (header : Header)
    (d : ResponseDecoder) :
    Option (Except ResolveError Nat × List (ResolvedAddress IP)) :=
  match validateResponse fuel header d request.question with
  | none => none
  | some (.error e, _) => some (.error e, request.out)
  | some (.ok (), d) =>
      match processAnswers fuel request header.ancount.toNat 0 d request.out with
      | none => none
      | some (.error e, _, out) => some (.error e, out)
      | some (.ok n, d, out) =>
          match voidConsumeNsArRrs fuel header d with
          | none => none
          | some (.error e, _) => some (.error e, out)
          | some (.ok (), _) => some (.ok n, out)

def processServerAnswer (fuel : Nat) (request : PendingRequest IP) (header : Header)
    (d : ResponseDecoder) : Option (PendingRequest IP) :=
  match processServerAnswerImpl fuel request header d with
  | none => none
  | some (result, out) => some { request with result := some result, out := out }

def Accepts (request : PendingRequest IP) (message : Text) : Prop :=
  ∃ header d fuel request' n,
    (ResponseDecoder.ofResponse message).consumeHeader = (.ok header, d) ∧
    processServerAnswer fuel request header d = some request' ∧ request'.result = some (.ok n)

def CarriesQuestion (message : Text) (question : Question) : Prop :=
  ∃ size, Laid message 12 size (splitIntoLabels question.name) ∧
    Occurs (bigEndian 2 question.qtype.toNat ++ bigEndian 2 question.qclass.toNat) message
      (12 + size)

structure Genuine (message : Text) (question : Question) (header : Header) : Prop where
  qr : header.flags.getLsbD 15
  rcode : header.flags.toNat % 16 = 0
  tc : ¬ header.flags.getLsbD 9
  qdcount : header.qdcount = 1
  question : CarriesQuestion message question

def OctetTyped (message : Text) : Prop :=
  ∃ size labels qtype qclass qtypeHigh qclassHigh, Laid message 12 size labels ∧
    Occurs [octet 0, qtype, octet 0, qclass] message (12 + size) ∧
    Occurs [qtypeHigh, qtype, qclassHigh, qclass] message (12 + size % 256)

theorem getBitfield_bit {field : BitVec 16} {i : Nat} (hfield : field.toNat = 2 ^ i)
    (hctz : field.ctz.toNat = i) (flags : BitVec 16) :
    Header.getBitfield field flags = 1 ↔ flags.getLsbD i := by
  have hbit : flags.toNat &&& 2 ^ i = (flags.getLsbD i).toNat * 2 ^ i := Nat.and_two_pow _ _
  rw [Header.getBitfield, BitVec.toNat_eq, BitVec.toNat_setWidth, BitVec.toNat_ushiftRight,
    BitVec.toNat_and, hfield, hctz, hbit, Nat.shiftRight_eq_div_pow,
    Nat.mul_div_cancel _ (Nat.two_pow_pos i)]
  cases flags.getLsbD i <;> decide

theorem isResponse_iff (flags : BitVec 16) : Header.isResponse flags ↔ flags.getLsbD 15 := by
  rw [Header.isResponse, decide_eq_true_iff]
  exact getBitfield_bit (by decide) (by decide) flags

theorem truncated_iff (flags : BitVec 16) : Header.truncated flags ↔ flags.getLsbD 9 := by
  rw [Header.truncated, decide_eq_true_iff]
  exact getBitfield_bit (by decide) (by decide) flags

theorem getRcode_toNat (flags : BitVec 16) :
    (Header.getRcode flags).toNat = flags.toNat % 16 := by
  have hmask : flags.toNat &&& 15 = flags.toNat % 16 := Nat.and_two_pow_sub_one_eq_mod _ 4
  have hctz : Header.rcode.ctz.toNat = 0 := by decide
  have hval : Header.rcode.toNat = 15 := rfl
  rw [Header.getRcode, Header.getBitfield, BitVec.toNat_setWidth, BitVec.toNat_ushiftRight,
    BitVec.toNat_and, hval, hmask, hctz, Nat.shiftRight_zero]
  omega

theorem consume2Octets_octets {message : Text} {data rest : Span message} {value : BitVec 16}
    (h : consume2Octets data = some (value, rest)) :
    ∃ high low, Occurs [high, low] message data.off ∧ low.val = (value.setWidth 8).toNat ∧
      2 ≤ data.size ∧ rest = data.subspan 2 := by
  obtain ⟨hsize, hvalue, hrest⟩ := consumeOctets_eq_some.mp h
  have hlen := Span.length_bytes data
  match hbytes : data.bytes with
  | [] | [_] =>
    rw [hbytes] at hlen
    simp only [List.length_cons, List.length_nil] at hlen
    omega
  | high :: low :: tail =>
    have hfront : [high, low] <+: data.bytes := hbytes ▸ List.prefix_append [high, low] tail
    refine ⟨high, low, (Span.occurs hfront).1, ?_, hsize, hrest⟩
    have hlow := low.isLt
    rw [hvalue, hbytes, readNtoh_eq, BitVec.toNat_setWidth, BitVec.toNat_ofNat]
    simp only [List.take_succ_cons, List.take_zero, ofBigEndian, List.foldl_cons, List.foldl_nil]
    omega

theorem validateResponse_ok {fuel : Nat} {header : Header} {d d' : ResponseDecoder}
    {question : Question} (h : validateResponse fuel header d question = some (.ok (), d')) :
    Header.getRcode header.flags = noError ∧ Header.isResponse header.flags ∧
      ¬ Header.truncated header.flags ∧ header.qdcount = Header.theOnlyValidQdcount ∧
      ∃ questionEntry, d.consumeQuestionEntry fuel = some (.ok questionEntry, d') ∧
        questionEntry.name.Labels (splitIntoLabels question.name) ∧
        questionEntry.qclass = question.qclass ∧ questionEntry.qtype = question.qtype := by
  unfold validateResponse at h
  split at h
  · cases h
  · rename_i hrcode
    split at h
    · cases h
    · rename_i hqr
      split at h
      · cases h
      · rename_i htc
        split at h
        · cases h
        · rename_i hqdcount
          refine ⟨not_not.mp hrcode, not_not.mp hqr, htc, not_not.mp hqdcount, ?_⟩
          split at h
          · cases h
          · cases h
          · rename_i questionEntry d'' hentry
            split at h
            · cases h
            · rename_i labels hlabels
              split at h
              · cases h
              · rename_i hsame
                cases h
                simp only [ne_eq, not_or, not_not] at hsame
                obtain ⟨rfl, hqclass, hqtype⟩ := hsame
                exact ⟨questionEntry, hentry, ⟨fuel, hlabels⟩, hqclass, hqtype⟩

variable {request : PendingRequest IP} {message : Text}

theorem processServerAnswer_ok {fuel n : Nat} {header : Header} {d : ResponseDecoder}
    {request' : PendingRequest IP} (h : processServerAnswer fuel request header d = some request')
    (hok : request'.result = some (.ok n)) :
    ∃ d', validateResponse fuel header d request.question = some (.ok (), d') := by
  unfold processServerAnswer at h
  split at h
  · cases h
  · rename_i result out himpl
    cases h
    cases hok
    unfold processServerAnswerImpl at himpl
    split at himpl
    · cases himpl
    · cases himpl
    · exact ⟨_, ‹_›⟩

theorem Accepts.checked (h : Accepts request message) :
    ∃ header d size qtypeHigh qtype qclassHigh qclass,
      (ResponseDecoder.ofResponse message).consumeHeader = (.ok header, d) ∧
      header.flags.getLsbD 15 ∧ header.flags.toNat % 16 = 0 ∧ ¬ header.flags.getLsbD 9 ∧
      header.qdcount = 1 ∧ Laid message 12 size (splitIntoLabels request.question.name) ∧
      Occurs [qtypeHigh, qtype, qclassHigh, qclass] message (12 + size % 256) ∧
      qtype.val = request.question.qtype.toNat ∧ qclass.val = request.question.qclass.toNat := by
  obtain ⟨header, d, fuel, request', n, hheader, hprocess, hok⟩ := h
  obtain ⟨d', hvalid⟩ := processServerAnswer_ok hprocess hok
  obtain ⟨hrcode, hqr, htc, hqdcount, entry, hentry, hlabels, hqclass, hqtype⟩ :=
    validateResponse_ok hvalid
  obtain ⟨hlen, rfl⟩ := ResponseDecoder.consumeHeader_ok hheader
  obtain ⟨domainName, type, class', remaining, remaining', hname, htype, hclass, rfl, -⟩ :=
    ResponseDecoder.consumeQuestionEntry_ok.mp hentry
  obtain ⟨size, labels, hlaid, hroom, -, rfl⟩ :=
    (parseDomainName_yields_iff _ _).mp ⟨fuel, hname⟩
  obtain ⟨high, low, hat, hlow, hsize, rfl⟩ := consume2Octets_octets htype
  obtain ⟨high', low', hat', hlow', -, -⟩ := consume2Octets_octets hclass
  have hoff : ((Span.suffix message 0 (Nat.zero_le _)).subspan 12).off = 12 :=
    (Span.subspan_off (by exact hlen)).trans (Nat.zero_add 12)
  have hbytes : size % 256 ≤ ((Span.suffix message 0 (Nat.zero_le _)).subspan 12).size :=
    (Nat.mod_le _ _).trans hroom
  rw [Span.subspan_off hbytes, hoff] at hat
  rw [Span.subspan_off hsize, Span.subspan_off hbytes, hoff] at hat'
  rw [Option.some.inj (yields_unique (labels_of_laid hlaid) hlabels), hoff] at hlaid
  refine ⟨header, _, size, high, low, high', low', hheader, (isResponse_iff _).mp hqr, ?_, ?_,
    hqdcount, hlaid, occurs_append.mpr ⟨hat, hat'⟩, ?_, ?_⟩
  · rw [← getRcode_toNat, hrcode]
    rfl
  · rwa [← truncated_iff]
  · rw [← hqtype, hlow]
  · rw [← hqclass, hlow']

theorem bigEndian_octet (value : BitVec 8) :
    bigEndian 2 value.toNat = [octet 0, octet value.toNat] := by
  have hhigh : value.toNat / 256 = 0 := Nat.div_eq_of_lt value.isLt
  simp only [bigEndian, hhigh, List.nil_append, List.singleton_append]

theorem accepts_genuine_iff (request : PendingRequest IP) (message : Text)
    (h : Accepts request message) :
    (∃ header d, (ResponseDecoder.ofResponse message).consumeHeader = (.ok header, d) ∧
      Genuine message request.question header) ↔ OctetTyped message := by
  obtain ⟨header, d, size, qtypeHigh, qtype, qclassHigh, qclass, hheader, hqr, hrcode, htc,
    hqdcount, hlaid, hread, hqtype, hqclass⟩ := h.checked
  have hentry : bigEndian 2 request.question.qtype.toNat ++
      bigEndian 2 request.question.qclass.toNat = [octet 0, qtype, octet 0, qclass] := by
    rw [bigEndian_octet, bigEndian_octet, ← hqtype, ← hqclass, octet_self, octet_self]
    rfl
  constructor
  · rintro ⟨-, -, -, -, -, -, -, size', hlaid', hat⟩
    obtain ⟨rfl, -⟩ := hlaid.unique hlaid'
    exact ⟨size, _, qtype, qclass, qtypeHigh, qclassHigh, hlaid, hentry ▸ hat, hread⟩
  · rintro ⟨size', labels', qtype', qclass', _, _, hlaid', hat, hread'⟩
    obtain ⟨rfl, -⟩ := hlaid.unique hlaid'
    have heq := hread.unique hread' rfl
    simp only [List.cons.injEq, and_true] at heq
    obtain ⟨-, rfl, -, rfl⟩ := heq
    exact ⟨header, d, hheader, hqr, hrcode, htc, hqdcount, size, hlaid, hentry ▸ hat⟩

def reply (qtypeHigh : Byte) : Text :=
  [0, 7, 0x80, 0, 0, 1, 0, 0, 0, 0, 0, 0, 1, 97, 0, qtypeHigh, 1, 0, 1]

def lookup : PendingRequest Ipv4Addr where
  question := { id := 7, name := [97], qtype := 1 }
  accepts
    | .ipv4 addr => some addr
    | _ => none
  sendTime := 0
  out := []

theorem laid_reply (qtypeHigh : Byte) : Laid (reply qtypeHigh) 12 3 [[97]] := by
  have hroot : Laid (reply qtypeHigh) 14 1 [] := .root ⟨[qtypeHigh, 1, 0, 1], rfl⟩
  have hlabel : Occurs (labelOctets [97]) (reply qtypeHigh) 12 := ⟨[0, qtypeHigh, 1, 0, 1], rfl⟩
  have hshort : ([97] : Text).length ≤ 63 := by decide
  exact .label (List.cons_ne_nil _ _) hshort hlabel hroot

theorem accepts_genuine_reply :
    ∃ header d, (ResponseDecoder.ofResponse (reply 0)).consumeHeader = (.ok header, d) ∧
      Genuine (reply 0) lookup.question header := by
  have haccepts : Accepts lookup (reply 0) := ⟨_, _, 20, _, 0, rfl, rfl, rfl⟩
  refine (accepts_genuine_iff lookup (reply 0) haccepts).mpr ?_
  exact ⟨3, _, 1, 1, 0, 0, laid_reply 0, by unfold Occurs; decide, by unfold Occurs; decide⟩

theorem accepts_not_genuine : ¬ ∀ (request : PendingRequest Ipv4Addr) (message : Text),
    Accepts request message →
      ∃ header d, (ResponseDecoder.ofResponse message).consumeHeader = (.ok header, d) ∧
        Genuine message request.question header := by
  intro h
  have haccepts : Accepts lookup (reply 1) := ⟨_, _, 20, _, 0, rfl, rfl, rfl⟩
  obtain ⟨_, _, -, -, -, -, -, size, hlaid, hat⟩ := h lookup (reply 1) haccepts
  obtain ⟨rfl, -⟩ := hlaid.unique (laid_reply 1)
  have hqtype : Occurs [1, 1, 0, 1] (reply 1) 15 := by unfold Occurs; decide
  exact absurd (hat.unique hqtype rfl) (by decide)

end Corosig.Dns.Protocol
