import Corosig.Io.Dns.NameLayout
import Corosig.Io.Ipv6
import Corosig.Library.NetworkOrder
import Mathlib.Data.List.Induction

namespace Corosig.Dns.Protocol
open CompressedNames Loop NetworkOrder

abbrev QueryType := BitVec 8

abbrev QueryClass := BitVec 8

structure Header where
  id : BitVec 16 := 0
  flags : BitVec 16 := 0
  qdcount : BitVec 16 := 0
  ancount : BitVec 16 := 0
  nscount : BitVec 16 := 0
  arcount : BitVec 16 := 0
  deriving DecidableEq, Repr

namespace Header

def theOnlyValidQdcount : BitVec 16 := 1

def qr : BitVec 16 := 0b1000000000000000
def opcodeField : BitVec 16 := 0b0111100000000000
def tc : BitVec 16 := 0b0000001000000000
def rd : BitVec 16 := 0b0000000100000000
def rcode : BitVec 16 := 0b0000000000001111

def setBitfield (field mask : BitVec 16) (value : BitVec 8) : BitVec 16 :=
  (mask &&& ~~~field) |||
    (value.setWidth 16 &&& ((1 <<< field.cpop.toNat) - 1)) <<< field.ctz.toNat

def getBitfield (field mask : BitVec 16) : BitVec 8 :=
  ((mask &&& field) >>> field.ctz.toNat).setWidth 8

def isResponse (flags : BitVec 16) : Bool := getBitfield qr flags = 1
def setOpcode (flags : BitVec 16) (opcode : BitVec 8) : BitVec 16 :=
  setBitfield opcodeField flags opcode
def opcode (flags : BitVec 16) : BitVec 8 := getBitfield opcodeField flags
def truncated (flags : BitVec 16) : Bool := getBitfield tc flags = 1
def setRecursionDesired (flags : BitVec 16) (v : Bool) : BitVec 16 :=
  setBitfield rd flags (if v then 1 else 0)
def recursionDesired (flags : BitVec 16) : Bool := getBitfield rd flags = 1
def getRcode (flags : BitVec 16) : BitVec 8 := getBitfield rcode flags

end Header

inductive RData where
  | canonicalName (cname : DomainName)
  | hardwareInfo (cpu os : Text)
  | mailbox (madname : DomainName)
  | mailGroup (madname : DomainName)
  | mailInfo (rmailbx emailbx : DomainName)
  | mailboxRename (newname : DomainName)
  | mailExchange (exchange : DomainName) (preference : BitVec 16)
  | null (anything : Text)
  | nameServer (nsdname : DomainName)
  | ptr (ptrdname : DomainName)
  | startOfAuthority (mname rname : DomainName)
      (serial refreshAfter retryAfter expireAfter minimumTtl : BitVec 32)
  | ipv4 (addr : Ipv4Addr)
  | ipv6 (addr : Ipv6Addr)
  | obsolete (type : BitVec 16) (raw : Text)
  | notYetSupported (type : BitVec 16) (raw : Text)
  deriving DecidableEq, Repr

structure ResourceRecord where
  name : DomainName
  rdata : RData
  ttl : BitVec 32
  deriving DecidableEq, Repr

structure DecodeQuestionEntrySuccess where
  name : DomainName
  qtype : QueryType
  qclass : QueryClass
  deriving DecidableEq, Repr

inductive RdataType where
  | a | aaaa | ns | md | mf | cname | soa | mb | mg | mr | tnull | wks | ptr | hinfo | minfo | mx
  | txt
  deriving DecidableEq, Repr

namespace RdataType

def value : RdataType → BitVec 8
  | a => 1
  | aaaa => 28
  | ns => 2
  | md => 3
  | mf => 4
  | cname => 5
  | soa => 6
  | mb => 7
  | mg => 8
  | mr => 9
  | tnull => 10
  | wks => 11
  | ptr => 12
  | hinfo => 13
  | minfo => 14
  | mx => 15
  | txt => 16

def all : List RdataType :=
  [a, aaaa, ns, md, mf, cname, soa, mb, mg, mr, tnull, wks, ptr, hinfo, minfo, mx, txt]

-- The conversion to the enumeration keeps the low octet, as its underlying type has no other.
def cast (rtype : BitVec 16) : Option RdataType := all.find? (·.value = rtype.setWidth 8)

end RdataType

structure ResponseDecoder where
  originalMessage : Text
  remainingMessage : Span originalMessage
  deriving DecidableEq, Repr

variable {message : Text}

def readNtoh (w : Nat) (octets : Text) : BitVec w :=
  octets.foldl (fun value o => value <<< 8 ||| BitVec.ofNat w o.val) 0

def consumeOctets (n w : Nat) (data : Span message) : Option (BitVec w × Span message) :=
  if data.size < n then none else some (readNtoh w (data.bytes.take n), data.subspan n)

def consume2Octets (data : Span message) : Option (BitVec 16 × Span message) :=
  consumeOctets 2 16 data

def consume4Octets (data : Span message) : Option (BitVec 32 × Span message) :=
  consumeOctets 4 32 data

-- none: the parser has not come to an end within fuel steps.
def runParseDomainName (fuel : Nat) (labelPosition : Span message) :
    Option (Except ResponseDecodeError ParseDomainNameSuccess) :=
  run NameParser.step fuel (parseDomainName labelPosition)

def parseCharacterString (stringRaw : Span message) : Option Text :=
  match stringRaw.bytes with
  | [] => none
  | len :: rest => if stringRaw.size < len.val + 1 then none else some (rest.take len.val)

abbrev Decode (α : Type) := ExceptT ResponseDecodeError Option α

def orFail {α : Type} (e : ResponseDecodeError) : Option α → Decode α
  | none => throw e
  | some x => pure x

def failingWith {α : Type} (e : ResponseDecodeError) (r : Option (Except ResponseDecodeError α)) :
    Decode α :=
  r.map fun x => x.mapError fun _ => e

def parseRdataIpv4 (rdataRaw : Span message) : Decode RData :=
  if h : rdataRaw.size = 4 then
    pure (.ipv4 ⟨rdataRaw.bytes.toArray, by simp [Span.length_bytes, h]⟩)
  else throw .resourceRecordDataBadA

def parseRdataIpv6 (rdataRaw : Span message) : Decode RData :=
  if h : rdataRaw.size = 16 then
    pure (.ipv6 ⟨rdataRaw.bytes.toArray, by simp [Span.length_bytes, h]⟩)
  else throw .resourceRecordDataBadAaaa

def parseRdataOneDomainName (fuel : Nat) (make : DomainName → RData) (e : ResponseDecodeError)
    (rdataRaw : Span message) : Decode RData := do
  let res ← failingWith e (runParseDomainName fuel rdataRaw)
  return make ⟨message, res.domainName⟩

def parseRdataSoa (fuel : Nat) (rdataRaw : Span message) : Decode RData := do
  let mname ← failingWith .resourceRecordDataBadSoa (runParseDomainName fuel rdataRaw)
  let rdataRaw := rdataRaw.subspan mname.bytesToConsume
  let rname ← failingWith .resourceRecordDataBadSoa (runParseDomainName fuel rdataRaw)
  let rdataRaw := rdataRaw.subspan rname.bytesToConsume
  let (serial, rdataRaw) ← orFail .resourceRecordDataBadSoa (consume4Octets rdataRaw)
  let (refresh, rdataRaw) ← orFail .resourceRecordDataBadSoa (consume4Octets rdataRaw)
  let (retry, rdataRaw) ← orFail .resourceRecordDataBadSoa (consume4Octets rdataRaw)
  let (expire, rdataRaw) ← orFail .resourceRecordDataBadSoa (consume4Octets rdataRaw)
  let (minimum, _) ← orFail .resourceRecordDataBadSoa (consume4Octets rdataRaw)
  return .startOfAuthority ⟨message, mname.domainName⟩ ⟨message, rname.domainName⟩
    serial refresh retry expire minimum

def parseRdataHinfo (rdataRaw : Span message) : Decode RData := do
  let cpu ← orFail .resourceRecordDataBadHinfo (parseCharacterString rdataRaw)
  let rdataRaw := rdataRaw.subspan (cpu.length + 1)
  let os ← orFail .resourceRecordDataBadHinfo (parseCharacterString rdataRaw)
  return .hardwareInfo cpu os

def parseRdataMinfo (fuel : Nat) (rdataRaw : Span message) : Decode RData := do
  let rmailbx ← failingWith .resourceRecordDataBadMinfo (runParseDomainName fuel rdataRaw)
  let rdataRaw := rdataRaw.subspan rmailbx.bytesToConsume
  let emailbx ← failingWith .resourceRecordDataBadMinfo (runParseDomainName fuel rdataRaw)
  return .mailInfo ⟨message, rmailbx.domainName⟩ ⟨message, emailbx.domainName⟩

def parseRdataMx (fuel : Nat) (rdataRaw : Span message) : Decode RData := do
  let (preference, rdataRaw) ← orFail .resourceRecordDataBadMinfo (consume2Octets rdataRaw)
  let exchange ← failingWith .resourceRecordDataBadMinfo (runParseDomainName fuel rdataRaw)
  return .mailExchange ⟨message, exchange.domainName⟩ preference

def parseRdata (fuel : Nat) (rtype : BitVec 16) (rdataRaw : Span message) : Decode RData :=
  match RdataType.cast rtype with
  | some .a => parseRdataIpv4 rdataRaw
  | some .aaaa => parseRdataIpv6 rdataRaw
  | some .ns => parseRdataOneDomainName fuel .nameServer .resourceRecordDataBadNs rdataRaw
  | some .cname => parseRdataOneDomainName fuel .canonicalName .resourceRecordDataBadCname rdataRaw
  | some .mb => parseRdataOneDomainName fuel .mailbox .resourceRecordDataBadMb rdataRaw
  | some .mg => parseRdataOneDomainName fuel .mailGroup .resourceRecordDataBadMg rdataRaw
  | some .mr => parseRdataOneDomainName fuel .mailboxRename .resourceRecordDataBadMr rdataRaw
  | some .ptr => parseRdataOneDomainName fuel .ptr .resourceRecordDataBadPtr rdataRaw
  | some .hinfo => parseRdataHinfo rdataRaw
  | some .minfo => parseRdataMinfo fuel rdataRaw
  | some .mx => parseRdataMx fuel rdataRaw
  | some .soa => parseRdataSoa fuel rdataRaw
  | some .tnull => pure (.null rdataRaw.bytes)
  | some .md => pure (.obsolete rtype rdataRaw.bytes)
  | some .mf => pure (.obsolete rtype rdataRaw.bytes)
  | some .wks => pure (.notYetSupported rtype rdataRaw.bytes)
  | some .txt => pure (.notYetSupported rtype rdataRaw.bytes)
  | none => pure (.notYetSupported rtype rdataRaw.bytes)

namespace ResponseDecoder

def ofResponse (response : Text) : ResponseDecoder :=
  ⟨response, .suffix response 0 (Nat.zero_le _)⟩

def invalid : ResponseDecoder := ⟨[], 0, 0, Nat.le_refl _⟩

def invalidate (_ : ResponseDecoder) : ResponseDecoder := invalid

def consumeHeader (d : ResponseDecoder) : Except ResponseDecodeError Header × ResponseDecoder :=
  if d.remainingMessage.size < 12 then (.error .wrongHeaderBytesCount, d)
  else
    let field (i : Nat) : BitVec 16 := readNtoh 16 ((d.remainingMessage.bytes.drop (2 * i)).take 2)
    (.ok ⟨field 0, field 1, field 2, field 3, field 4, field 5⟩,
      ⟨d.originalMessage, d.remainingMessage.subspan 12⟩)

def consumeQuestionEntry (fuel : Nat) (d : ResponseDecoder) :
    Option (Except ResponseDecodeError DecodeQuestionEntrySuccess × ResponseDecoder) :=
  match runParseDomainName fuel d.remainingMessage with
  | none => none
  | some (.error e) => some (.error e, d.invalidate)
  | some (.ok domainName) =>
      match consume2Octets (d.remainingMessage.subspan domainName.bytesToConsume) with
      | none => some (.error .noQuestionType, d.invalidate)
      | some (qtype, remaining) =>
          match consume2Octets remaining with
          | none => some (.error .noQuestionClass, d.invalidate)
          | some (qclass, remaining) =>
              some (.ok ⟨⟨d.originalMessage, domainName.domainName⟩, qtype.setWidth 8,
                qclass.setWidth 8⟩, ⟨d.originalMessage, remaining⟩)

def consumeResourceRecord (fuel : Nat) (d : ResponseDecoder) :
    Option (Except ResponseDecodeError ResourceRecord × ResponseDecoder) :=
  match runParseDomainName fuel d.remainingMessage with
  | none => none
  | some (.error e) => some (.error e, d.invalidate)
  | some (.ok domainName) =>
      match consume2Octets (d.remainingMessage.subspan domainName.bytesToConsume) with
      | none => some (.error .noResourceRecordType, d.invalidate)
      | some (rtype, remaining) =>
          match consume2Octets remaining with
          | none => some (.error .noResourceRecordClass, d.invalidate)
          | some (_, remaining) =>
              match consume4Octets remaining with
              | none => some (.error .noResourceRecordTtl, d.invalidate)
              | some (ttl, remaining) =>
                  match consume2Octets remaining with
                  | none => some (.error .noResourceRecordDataLen, d.invalidate)
                  | some (rdlen, remaining) =>
                      if remaining.size < rdlen.toNat then
                        some (.error .resourceRecordDataLenOob, d.invalidate)
                      else
                        let rdataRaw := remaining.first rdlen.toNat
                        match parseRdata fuel rtype rdataRaw with
                        | none => none
                        | some (.error e) => some (.error e, d.invalidate)
                        | some (.ok rdata) =>
                            some (.ok ⟨⟨d.originalMessage, domainName.domainName⟩, rdata, ttl⟩,
                              ⟨d.originalMessage, remaining.subspan rdlen.toNat⟩)

variable {fuel : Nat} {d d' : ResponseDecoder}

theorem consumeHeader_error {e : ResponseDecodeError} (h : d.consumeHeader = (.error e, d')) :
    d.remainingMessage.size < 12 ∧ d' = d := by
  unfold consumeHeader at h
  split at h
  · cases h
    exact ⟨‹_›, rfl⟩
  · cases h

theorem consumeHeader_ok {header : Header}
    (h : (ofResponse message).consumeHeader = (.ok header, d)) :
    12 ≤ message.length ∧
      d = ⟨message, (Span.suffix message 0 (Nat.zero_le _)).subspan 12⟩ := by
  unfold consumeHeader at h
  split at h
  · cases h
  · rename_i hsize
    cases h
    simp only [ofResponse, Span.suffix] at hsize
    exact ⟨by omega, rfl⟩

theorem consumeHeader_of_length (h : 12 ≤ message.length) :
    ∃ header, (ofResponse message).consumeHeader =
      (.ok header, ⟨message, (Span.suffix message 0 (Nat.zero_le _)).subspan 12⟩) := by
  have hsize : ¬ (Span.suffix message 0 (Nat.zero_le _)).size < 12 := Nat.not_lt.mpr h
  rw [consumeHeader, ofResponse, if_neg hsize]
  exact ⟨_, rfl⟩

theorem consumeQuestionEntry_error {e : ResponseDecodeError}
    (h : d.consumeQuestionEntry fuel = some (.error e, d')) : d' = invalid := by
  unfold consumeQuestionEntry at h
  repeat' split at h
  all_goals
    cases h
  all_goals rfl

theorem consumeQuestionEntry_ok {v : DecodeQuestionEntrySuccess} :
    d.consumeQuestionEntry fuel = some (.ok v, d') ↔
      ∃ domainName qtype qclass remaining remaining',
        runParseDomainName fuel d.remainingMessage = some (.ok domainName) ∧
        consume2Octets (d.remainingMessage.subspan domainName.bytesToConsume) =
          some (qtype, remaining) ∧
        consume2Octets remaining = some (qclass, remaining') ∧
        v = ⟨⟨d.originalMessage, domainName.domainName⟩, qtype.setWidth 8, qclass.setWidth 8⟩ ∧
        d' = ⟨d.originalMessage, remaining'⟩ := by
  constructor
  · intro h
    unfold consumeQuestionEntry at h
    split at h
    · cases h
    · cases h
    · rename_i domainName hname
      split at h
      · cases h
      · rename_i qtype remaining hqtype
        split at h
        · cases h
        · rename_i qclass remaining' hqclass
          cases h
          exact ⟨_, _, _, _, _, hname, hqtype, hqclass, rfl, rfl⟩
  · rintro ⟨domainName, qtype, qclass, remaining, remaining', hname, hqtype, hqclass, rfl, rfl⟩
    simp only [consumeQuestionEntry, hname, hqtype, hqclass]

structure Framed (fuel : Nat) (d : ResponseDecoder) (domainName : ParseDomainNameSuccess)
    (rtype : BitVec 16) (ttl : BitVec 32) (rdlen : BitVec 16) (remaining : Span d.originalMessage) :
    Prop where
  name : runParseDomainName fuel d.remainingMessage = some (.ok domainName)
  fields : ∃ remaining₁ rclass remaining₂ remaining₃,
    consume2Octets (d.remainingMessage.subspan domainName.bytesToConsume) =
      some (rtype, remaining₁) ∧
    consume2Octets remaining₁ = some (rclass, remaining₂) ∧
    consume4Octets remaining₂ = some (ttl, remaining₃) ∧
    consume2Octets remaining₃ = some (rdlen, remaining)
  fits : rdlen.toNat ≤ remaining.size

variable {domainName : ParseDomainNameSuccess} {rtype rdlen : BitVec 16} {ttl : BitVec 32}
  {remaining : Span d.originalMessage}

theorem Framed.consume (h : Framed fuel d domainName rtype ttl rdlen remaining) :
    d.consumeResourceRecord fuel =
      match parseRdata fuel rtype (remaining.first rdlen.toNat) with
      | none => none
      | some (.error e) => some (.error e, d.invalidate)
      | some (.ok rdata) => some (.ok ⟨⟨d.originalMessage, domainName.domainName⟩, rdata, ttl⟩,
          ⟨d.originalMessage, remaining.subspan rdlen.toNat⟩) := by
  obtain ⟨remaining₁, rclass, remaining₂, remaining₃, h₁, h₂, h₃, h₄⟩ := h.fields
  simp only [consumeResourceRecord, h.name, h₁, h₂, h₃, h₄, if_neg (Nat.not_lt.mpr h.fits)]

theorem consumeResourceRecord_cases {r : Except ResponseDecodeError ResourceRecord}
    (h : d.consumeResourceRecord fuel = some (r, d')) :
    (∃ e, r = .error e) ∧ d' = invalid ∨
      ∃ domainName rtype ttl rdlen remaining,
        Framed fuel d domainName rtype ttl rdlen remaining := by
  unfold consumeResourceRecord at h
  split at h
  · cases h
  · cases h
    exact .inl ⟨⟨_, rfl⟩, rfl⟩
  · rename_i domainName hname
    split at h
    · cases h
      exact .inl ⟨⟨_, rfl⟩, rfl⟩
    · rename_i h₁
      split at h
      · cases h
        exact .inl ⟨⟨_, rfl⟩, rfl⟩
      · rename_i h₂
        split at h
        · cases h
          exact .inl ⟨⟨_, rfl⟩, rfl⟩
        · rename_i h₃
          split at h
          · cases h
            exact .inl ⟨⟨_, rfl⟩, rfl⟩
          · rename_i h₄
            split at h
            · cases h
              exact .inl ⟨⟨_, rfl⟩, rfl⟩
            · rename_i hfits
              exact .inr ⟨_, _, _, _, _, hname, ⟨_, _, _, _, h₁, h₂, h₃, h₄⟩, Nat.not_lt.mp hfits⟩

theorem consumeResourceRecord_error {e : ResponseDecodeError}
    (h : d.consumeResourceRecord fuel = some (.error e, d')) : d' = invalid := by
  obtain ⟨-, hd⟩ | ⟨domainName, rtype, ttl, rdlen, remaining, hframed⟩ :=
    consumeResourceRecord_cases h
  · exact hd
  · rw [hframed.consume] at h
    split at h
    · cases h
    · cases h
      rfl
    · cases h

end ResponseDecoder

theorem decode_bind {α β : Type} {x : Decode α} {f : α → Decode β} {b : β} :
    (x >>= f) = some (.ok b) ↔ ∃ a, x = some (.ok a) ∧ f a = some (.ok b) := by
  constructor
  · intro h
    match x with
    | none => cases h
    | some (.error e) => cases h
    | some (.ok a) => exact ⟨a, rfl, h⟩
  · rintro ⟨a, rfl, h⟩
    exact h

theorem decode_pure {α : Type} {a b : α} : (pure a : Decode α) = some (.ok b) ↔ a = b := by
  constructor
  · intro h
    cases h
    rfl
  · rintro rfl
    rfl

theorem orFail_eq_ok {α : Type} {e : ResponseDecodeError} {x : Option α} {a : α} :
    orFail e x = some (.ok a) ↔ x = some a := by
  cases x with
  | none => exact ⟨fun h => (by cases h), fun h => (by cases h)⟩
  | some b => exact decode_pure.trans ⟨congrArg some, Option.some.inj⟩

theorem failingWith_eq_ok {α : Type} {e : ResponseDecodeError}
    {r : Option (Except ResponseDecodeError α)} {a : α} :
    failingWith e r = some (.ok a) ↔ r = some (.ok a) := by
  match r with
  | none => exact ⟨fun h => (by cases h), fun h => (by cases h)⟩
  | some (.error _) => exact ⟨fun h => (by cases h), fun h => (by cases h)⟩
  | some (.ok _) => exact .rfl

theorem consumeOctets_eq_some {n w : Nat} {data rest : Span message} {v : BitVec w} :
    consumeOctets n w data = some (v, rest) ↔
      n ≤ data.size ∧ v = readNtoh w (data.bytes.take n) ∧ rest = data.subspan n := by
  unfold consumeOctets
  split
  · rename_i hlt
    constructor
    · rintro ⟨⟩
    · rintro ⟨hle, -, -⟩
      omega
  · rename_i hle
    constructor
    · rintro ⟨⟩
      exact ⟨Nat.not_lt.mp hle, rfl, rfl⟩
    · rintro ⟨-, rfl, rfl⟩
      rfl

theorem readNtoh_concat (w : Nat) (octets : Text) (o : Byte) :
    readNtoh w (octets ++ [o]) = readNtoh w octets <<< 8 ||| BitVec.ofNat w o.val := by
  rw [readNtoh, List.foldl_append]
  rfl

theorem readNtoh_eq (w : Nat) (octets : Text) :
    readNtoh w octets = BitVec.ofNat w (ofBigEndian octets) := by
  induction octets using List.reverseRecOn with
  | nil => rfl
  | append_singleton octets o ih =>
    have hlt : o.val < 2 ^ 8 := o.isLt
    have hor := Nat.shiftLeft_add_eq_or_of_lt hlt (ofBigEndian octets)
    have hshift : BitVec.ofNat w (ofBigEndian octets <<< 8) =
        BitVec.ofNat w (ofBigEndian octets) <<< 8 := by
      refine BitVec.eq_of_toNat_eq ?_
      simp [Nat.shiftLeft_eq]
    rw [readNtoh_concat, ofBigEndian_concat, ih, ← Nat.shiftLeft_eq _ 8, hor, BitVec.ofNat_or,
      hshift]

theorem readNtoh_bigEndian (n : Nat) (value : BitVec (8 * n)) :
    readNtoh (8 * n) (bigEndian n value.toNat) = value := by
  have hlt : value.toNat < 256 ^ n := by
    have := value.isLt
    rwa [Nat.pow_mul] at this
  rw [readNtoh_eq, ofBigEndian_bigEndian, Nat.mod_eq_of_lt hlt, BitVec.ofNat_toNat,
    BitVec.setWidth_eq]

theorem consumeOctets_bigEndian {n : Nat} {value : BitVec (8 * n)} {data : Span message}
    (h : Occurs (bigEndian n value.toNat) message data.off) (hsize : n ≤ data.size) :
    consumeOctets n (8 * n) data = some (value, data.subspan n) := by
  have hlen := length_bigEndian n value.toNat
  obtain ⟨rest, hbytes⟩ := Span.prefix_bytes h (hlen.trans_le hsize)
  refine consumeOctets_eq_some.mpr ⟨hsize, ?_, rfl⟩
  rw [hbytes, List.take_left' hlen, readNtoh_bigEndian]

theorem consumeOctets_field {n : Nat} {value : BitVec (8 * n)} {tail : Text} {data : Span message}
    (h : Occurs (bigEndian n value.toNat ++ tail) message data.off)
    (hsize : n + tail.length ≤ data.size) :
    consumeOctets n (8 * n) data = some (value, data.subspan n) ∧
      Occurs tail message (data.subspan n).off ∧ tail.length ≤ (data.subspan n).size := by
  obtain ⟨hvalue, htail⟩ := occurs_append.mp h
  rw [length_bigEndian] at htail
  have hn : n ≤ data.size := Nat.le_of_add_right_le hsize
  refine ⟨consumeOctets_bigEndian hvalue hn, ?_, ?_⟩
  · rwa [Span.subspan_off hn]
  · simp only [Span.subspan]
    omega

theorem consume2Octets_field {value : BitVec 16} {tail : Text} {data : Span message}
    (h : Occurs (bigEndian 2 value.toNat ++ tail) message data.off)
    (hsize : 2 + tail.length ≤ data.size) :
    consume2Octets data = some (value, data.subspan 2) ∧ Occurs tail message (data.subspan 2).off ∧
      tail.length ≤ (data.subspan 2).size :=
  consumeOctets_field (n := 2) h hsize

theorem consume4Octets_field {value : BitVec 32} {tail : Text} {data : Span message}
    (h : Occurs (bigEndian 4 value.toNat ++ tail) message data.off)
    (hsize : 4 + tail.length ≤ data.size) :
    consume4Octets data = some (value, data.subspan 4) ∧ Occurs tail message (data.subspan 4).off ∧
      tail.length ≤ (data.subspan 4).size :=
  consumeOctets_field (n := 4) h hsize

namespace ResponseDecoder

variable {fuel : Nat} {d d' : ResponseDecoder} {domainName : ParseDomainNameSuccess}
  {rtype rdlen : BitVec 16}
  {ttl : BitVec 32} {remaining : Span d.originalMessage} {v : ResourceRecord}

theorem Framed.consume_ok (h : Framed fuel d domainName rtype ttl rdlen remaining) :
    d.consumeResourceRecord fuel = some (.ok v, d') ↔
      ∃ rdata, parseRdata fuel rtype (remaining.first rdlen.toNat) = some (.ok rdata) ∧
        v = ⟨⟨d.originalMessage, domainName.domainName⟩, rdata, ttl⟩ ∧
        d' = ⟨d.originalMessage, remaining.subspan rdlen.toNat⟩ := by
  rw [h.consume]
  constructor
  · intro hc
    split at hc
    · cases hc
    · cases hc
    · rename_i rdata hr
      cases hc
      exact ⟨rdata, hr, rfl, rfl⟩
  · rintro ⟨rdata, hr, rfl, rfl⟩
    rw [hr]

end ResponseDecoder

section Fuel

variable {α β : Type} {message : Text} {n m : Nat} {d d' : ResponseDecoder}

def Settled (x : Nat → Decode α) : Prop :=
  ∀ n m a, n ≤ m → x n = some (.ok a) → x m = some (.ok a)

theorem settled_const (x : Decode α) : Settled fun _ => x := fun _ _ _ _ h => h

theorem Settled.bind {x : Nat → Decode α} {f : Nat → α → Decode β} (hx : Settled x)
    (hf : ∀ a, Settled fun n => f n a) : Settled fun n => x n >>= f n := by
  intro n m b hnm h
  obtain ⟨a, ha, hb⟩ := decode_bind.mp h
  exact decode_bind.mpr ⟨a, hx n m a hnm ha, hf a n m b hnm hb⟩

theorem settled_domainName (e : ResponseDecodeError) (s : Span message) :
    Settled fun n => failingWith e (runParseDomainName n s) := by
  intro n m a hnm h
  exact failingWith_eq_ok.mpr (run_mono (failingWith_eq_ok.mp h) hnm)

theorem settled_parseRdata (rtype : BitVec 16) (s : Span message) :
    Settled fun n => parseRdata n rtype s := by
  have hone : ∀ make e, Settled fun n => parseRdataOneDomainName n make e s :=
    fun make e => (settled_domainName e s).bind fun _ => settled_const _
  unfold parseRdata
  cases RdataType.cast rtype with
  | none => exact settled_const _
  | some type =>
    cases type with
    | ns | cname | mb | mg | mr | ptr => exact hone _ _
    | minfo =>
      refine (settled_domainName _ s).bind fun rmailbx => ?_
      exact (settled_domainName _ _).bind fun _ => settled_const _
    | mx =>
      refine (settled_const _).bind fun preference => ?_
      exact (settled_domainName _ _).bind fun _ => settled_const _
    | soa =>
      refine (settled_domainName _ s).bind fun mname => ?_
      exact (settled_domainName _ _).bind fun _ => settled_const _
    | a | aaaa | hinfo | tnull | md | mf | wks | txt => exact settled_const _

theorem consumeResourceRecord_mono {rr : ResourceRecord} (hnm : n ≤ m)
    (h : d.consumeResourceRecord n = some (.ok rr, d')) :
    d.consumeResourceRecord m = some (.ok rr, d') := by
  obtain ⟨⟨e, he⟩, -⟩ | ⟨domainName, rtype, ttl, rdlen, remaining, hframed⟩ :=
    ResponseDecoder.consumeResourceRecord_cases h
  · cases he
  · obtain ⟨rdata, hrdata, rfl, rfl⟩ := hframed.consume_ok.mp h
    have hframed' : ResponseDecoder.Framed m d domainName rtype ttl rdlen remaining :=
      ⟨run_mono hframed.name hnm, hframed.fields, hframed.fits⟩
    exact hframed'.consume_ok.mpr ⟨rdata, settled_parseRdata rtype _ n m rdata hnm hrdata, rfl, rfl⟩

end Fuel

end Corosig.Dns.Protocol
