import Corosig.Io.Dns.Decoder

namespace Corosig.Dns.Protocol
open CompressedNames Loop NetworkOrder

inductive NamedType where
  | ns | cname | mb | mg | mr | ptr
  deriving DecidableEq, Repr

inductive RawType where
  | md | mf | tnull | wks | txt
  deriving DecidableEq, Repr

namespace NamedType

def rdataType : NamedType → RdataType
  | ns => .ns
  | cname => .cname
  | mb => .mb
  | mg => .mg
  | mr => .mr
  | ptr => .ptr

def rdata : NamedType → DomainName → RData
  | ns => .nameServer
  | cname => .canonicalName
  | mb => .mailbox
  | mg => .mailGroup
  | mr => .mailboxRename
  | ptr => .ptr

end NamedType

namespace RawType

def rdataType : RawType → RdataType
  | md => .md
  | mf => .mf
  | tnull => .tnull
  | wks => .wks
  | txt => .txt

def rdata : RawType → Text → RData
  | md => .obsolete 3
  | mf => .obsolete 4
  | tnull => .null
  | wks => .notYetSupported 11
  | txt => .notYetSupported 16

end RawType

inductive RecordData where
  | a (addr : Ipv4Addr)
  | aaaa (addr : Ipv6Addr)
  | named (type : NamedType) (name : List Text)
  | raw (type : RawType) (octets : Text)
  | soa (mname rname : List Text) (serial refresh retry expire minimum : BitVec 32)
  | hinfo (cpu os : Text)
  | minfo (rmailbx emailbx : List Text)
  | mx (preference : BitVec 16) (exchange : List Text)
  deriving DecidableEq, Repr

def RecordData.rdataType : RecordData → RdataType
  | a _ => .a
  | aaaa _ => .aaaa
  | named type _ => type.rdataType
  | raw type _ => type.rdataType
  | soa .. => .soa
  | hinfo .. => .hinfo
  | minfo .. => .minfo
  | mx .. => .mx

def RecordData.rtype (data : RecordData) : BitVec 16 := data.rdataType.value.setWidth 16

structure Record where
  owner : List Text
  ownerSize : Nat
  rclass : BitVec 16
  ttl : BitVec 32
  rdlength : BitVec 16
  data : RecordData
  deriving DecidableEq, Repr

def Record.size (record : Record) : Nat := record.ownerSize + 10 + record.rdlength.toNat

structure NameLaid (message : Text) (pos size : Nat) (labels : List Text) : Prop where
  laid : Laid message pos size labels
  inPlace : size ≤ fqdnMaxOctetLen
  expanded : wireLength labels ≤ fqdnMaxOctetLen

def characterString (string : Text) : Text := octet string.length :: string

inductive RdataLaid (message : Text) (pos : Nat) : Nat → RecordData → Prop where
  | a {addr : Ipv4Addr} (here : Occurs addr.toList message pos) : RdataLaid message pos 4 (.a addr)
  | aaaa {addr : Ipv6Addr} (here : Occurs addr.toList message pos) :
      RdataLaid message pos 16 (.aaaa addr)
  | named {type : NamedType} {size : Nat} {name : List Text} (here : NameLaid message pos size name) :
      RdataLaid message pos size (.named type name)
  | raw {type : RawType} {octets : Text} (here : Occurs octets message pos) :
      RdataLaid message pos octets.length (.raw type octets)
  | soa {mname rname : List Text} {size size' : Nat}
      {serial refresh retry expire minimum : BitVec 32} (hereM : NameLaid message pos size mname)
      (hereR : NameLaid message (pos + size) size' rname)
      (numbers : Occurs (bigEndian 4 serial.toNat ++ bigEndian 4 refresh.toNat ++
        bigEndian 4 retry.toNat ++ bigEndian 4 expire.toNat ++ bigEndian 4 minimum.toNat) message
        (pos + size + size')) :
      RdataLaid message pos (size + size' + 20)
        (.soa mname rname serial refresh retry expire minimum)
  | hinfo {cpu os : Text} (cpuFits : cpu.length < 256) (osFits : os.length < 256)
      (here : Occurs (characterString cpu ++ characterString os) message pos) :
      RdataLaid message pos (cpu.length + 1 + (os.length + 1)) (.hinfo cpu os)
  | minfo {rmailbx emailbx : List Text} {size size' : Nat}
      (hereR : NameLaid message pos size rmailbx)
      (hereE : NameLaid message (pos + size) size' emailbx) :
      RdataLaid message pos (size + size') (.minfo rmailbx emailbx)
  | mx {preference : BitVec 16} {exchange : List Text} {size : Nat}
      (here : Occurs (bigEndian 2 preference.toNat) message pos)
      (name : NameLaid message (pos + 2) size exchange) :
      RdataLaid message pos (2 + size) (.mx preference exchange)

structure RecordLaid (message : Text) (pos : Nat) (record : Record) : Prop where
  owner : NameLaid message pos record.ownerSize record.owner
  fields : Occurs (bigEndian 2 record.data.rtype.toNat ++ bigEndian 2 record.rclass.toNat ++
    bigEndian 4 record.ttl.toNat ++ bigEndian 2 record.rdlength.toNat) message
    (pos + record.ownerSize)
  data : RdataLaid message (pos + record.ownerSize + 10) record.rdlength.toNat record.data

def RecordsLaid (message : Text) : Nat → List Record → Prop
  | pos, [] => pos = message.length
  | pos, record :: records =>
      RecordLaid message pos record ∧ RecordsLaid message (pos + record.size) records

inductive Represents : RData → RecordData → Prop where
  | a (addr : Ipv4Addr) : Represents (.ipv4 addr) (.a addr)
  | aaaa (addr : Ipv6Addr) : Represents (.ipv6 addr) (.aaaa addr)
  | named (type : NamedType) {name : DomainName} {labels : List Text} (h : name.Labels labels) :
      Represents (type.rdata name) (.named type labels)
  | raw (type : RawType) (octets : Text) : Represents (type.rdata octets) (.raw type octets)
  | soa {mname rname : DomainName} {labels labels' : List Text} (hm : mname.Labels labels)
      (hr : rname.Labels labels') (serial refresh retry expire minimum : BitVec 32) :
      Represents (.startOfAuthority mname rname serial refresh retry expire minimum)
        (.soa labels labels' serial refresh retry expire minimum)
  | hinfo (cpu os : Text) : Represents (.hardwareInfo cpu os) (.hinfo cpu os)
  | minfo {rmailbx emailbx : DomainName} {labels labels' : List Text} (hr : rmailbx.Labels labels)
      (he : emailbx.Labels labels') : Represents (.mailInfo rmailbx emailbx) (.minfo labels labels')
  | mx {exchange : DomainName} {labels : List Text} (preference : BitVec 16)
      (h : exchange.Labels labels) :
      Represents (.mailExchange exchange preference) (.mx preference labels)

structure Matches (rr : ResourceRecord) (record : Record) : Prop where
  owner : rr.name.Labels record.owner
  ttl : rr.ttl = record.ttl
  rdata : Represents rr.rdata record.data

def ConsumesAll : ResponseDecoder → List Record → Prop
  | d, [] => d.remainingMessage.size = 0
  | d, record :: records => ∃ fuel rr d', d.consumeResourceRecord fuel = some (.ok rr, d') ∧
      Matches rr record ∧ d'.originalMessage = d.originalMessage ∧
      d'.remainingMessage.off = d.remainingMessage.off + record.size ∧ ConsumesAll d' records

variable {message : Text} {s : Span message} {size : Nat} {labels : List Text}

theorem cast_value (type : RdataType) :
    RdataType.cast (type.value.setWidth 16) = some type := by
  cases type <;> rfl

theorem parses_of_nameLaid (h : NameLaid message s.off size labels) (hroom : size ≤ s.size) :
    ∃ n, ∀ fuel, n ≤ fuel → runParseDomainName fuel s = some (.ok ⟨size, s.off⟩) := by
  have hmod : size % 256 = size := Nat.mod_eq_of_lt (Nat.lt_succ_of_le h.inPlace)
  obtain ⟨n, hn⟩ := (parseDomainName_yields_iff s ⟨size, s.off⟩).mpr
    ⟨size, labels, h.laid, hroom, h.expanded, by rw [hmod]⟩
  exact ⟨n, fun fuel hle => run_mono hn hle⟩

theorem parseCharacterString_laid {string tail : Text} (hfits : string.length < 256)
    (h : Occurs (characterString string ++ tail) message s.off)
    (hroom : string.length + 1 + tail.length ≤ s.size) :
    parseCharacterString s = some string ∧
      Occurs tail message (s.subspan (string.length + 1)).off ∧
      tail.length ≤ (s.subspan (string.length + 1)).size := by
  obtain ⟨hstring, htail⟩ := occurs_append.mp h
  have hlen : (characterString string).length = string.length + 1 := List.length_cons
  obtain ⟨rest, hbytes⟩ := Span.prefix_bytes hstring (by omega)
  refine ⟨?_, ?_, ?_⟩
  · rw [characterString, List.cons_append] at hbytes
    simp only [parseCharacterString, hbytes, octet_val hfits]
    rw [if_neg (by omega), List.take_left]
  · rwa [Span.subspan_off (by omega), ← hlen]
  · simp only [Span.subspan]
    omega

theorem parseRdata_named {fuel : Nat} {type : NamedType} {pos : Nat}
    (h : runParseDomainName fuel s = some (.ok ⟨size, pos⟩)) :
    parseRdata fuel (type.rdataType.value.setWidth 16) s = some (.ok (type.rdata ⟨message, pos⟩)) := by
  rw [parseRdata, cast_value]
  cases type
  all_goals exact decode_bind.mpr ⟨_, failingWith_eq_ok.mpr h, rfl⟩

theorem parseRdata_raw (fuel : Nat) (type : RawType) :
    parseRdata fuel (type.rdataType.value.setWidth 16) s = some (.ok (type.rdata s.bytes)) := by
  rw [parseRdata, cast_value]
  cases type <;> rfl

theorem bytes_of_occurs {octets : Text} (h : Occurs octets message s.off)
    (hsize : octets.length = s.size) : s.bytes = octets := by
  obtain ⟨rest, hbytes⟩ := Span.prefix_bytes h (Nat.le_of_eq hsize)
  have hlen := Span.length_bytes s
  rw [hbytes, List.length_append, hsize] at hlen
  have hrest : rest = [] := List.eq_nil_of_length_eq_zero (by omega)
  rw [hbytes, hrest, List.append_nil]

theorem vector_of_bytes {n : Nat} {addr : Vector Byte n}
    (here : Occurs addr.toList message s.off) (hsize : s.size = n) (h : s.bytes.toArray.size = n) :
    (⟨s.bytes.toArray, h⟩ : Vector Byte n) = addr := by
  refine Vector.toArray_inj.mp ?_
  have hbytes := bytes_of_occurs here (by rw [Vector.length_toList, hsize])
  exact congrArg List.toArray hbytes

theorem parseRdataSoa_laid {fuel m r pos pos' : Nat}
    {serial refresh retry expire minimum : BitVec 32}
    (hm : runParseDomainName fuel s = some (.ok ⟨m, pos⟩))
    (hr : runParseDomainName fuel (s.subspan m) = some (.ok ⟨r, pos'⟩))
    (numbers : Occurs (bigEndian 4 serial.toNat ++ bigEndian 4 refresh.toNat ++
      bigEndian 4 retry.toNat ++ bigEndian 4 expire.toNat ++ bigEndian 4 minimum.toNat) message
      ((s.subspan m).subspan r).off) (hroom : 20 ≤ ((s.subspan m).subspan r).size) :
    parseRdataSoa fuel s = some (.ok (.startOfAuthority ⟨message, pos⟩ ⟨message, pos'⟩
      serial refresh retry expire minimum)) := by
  rw [← List.append_nil (bigEndian 4 minimum.toNat)] at numbers
  simp only [List.append_assoc] at numbers
  obtain ⟨hserial, numbers, hroom⟩ := consume4Octets_field numbers (by
    simp only [List.length_append, length_bigEndian, List.length_nil]
    omega)
  obtain ⟨hrefresh, numbers, hroom⟩ := consume4Octets_field numbers (by
    simpa only [List.length_append, length_bigEndian] using hroom)
  obtain ⟨hretry, numbers, hroom⟩ := consume4Octets_field numbers (by
    simpa only [List.length_append, length_bigEndian] using hroom)
  obtain ⟨hexpire, numbers, hroom⟩ := consume4Octets_field numbers (by
    simpa only [List.length_append, length_bigEndian] using hroom)
  obtain ⟨hminimum, -, -⟩ := consume4Octets_field numbers (by
    simpa only [List.length_append, length_bigEndian] using hroom)
  refine decode_bind.mpr ⟨_, failingWith_eq_ok.mpr hm, ?_⟩
  refine decode_bind.mpr ⟨_, failingWith_eq_ok.mpr hr, ?_⟩
  refine decode_bind.mpr ⟨_, orFail_eq_ok.mpr hserial, ?_⟩
  refine decode_bind.mpr ⟨_, orFail_eq_ok.mpr hrefresh, ?_⟩
  refine decode_bind.mpr ⟨_, orFail_eq_ok.mpr hretry, ?_⟩
  refine decode_bind.mpr ⟨_, orFail_eq_ok.mpr hexpire, ?_⟩
  exact decode_bind.mpr ⟨_, orFail_eq_ok.mpr hminimum, rfl⟩

theorem parseRdata_laid {data : RecordData} (h : RdataLaid message s.off s.size data) :
    ∃ n rdata, Represents rdata data ∧
      ∀ fuel, n ≤ fuel → parseRdata fuel data.rtype s = some (.ok rdata) := by
  generalize hsize : s.size = size at h
  have hcut : ∀ m, m ≤ size → (s.subspan m).off = s.off + m ∧ (s.subspan m).size = size - m := by
    intro m hm
    exact ⟨Span.subspan_off (hsize ▸ hm), congrArg (· - m) hsize⟩
  cases h with
  | a here =>
    refine ⟨0, _, .a _, fun fuel _ => ?_⟩
    rw [RecordData.rtype, RecordData.rdataType, parseRdata, cast_value]
    simp only [parseRdataIpv4, dif_pos hsize, vector_of_bytes here hsize]
    rfl
  | aaaa here =>
    refine ⟨0, _, .aaaa _, fun fuel _ => ?_⟩
    rw [RecordData.rtype, RecordData.rdataType, parseRdata, cast_value]
    simp only [parseRdataIpv6, dif_pos hsize, vector_of_bytes here hsize]
    rfl
  | named here =>
    obtain ⟨n, hn⟩ := parses_of_nameLaid here (Nat.le_of_eq hsize.symm)
    exact ⟨n, _, .named _ (labels_of_laid here.laid), fun fuel hle => parseRdata_named (hn fuel hle)⟩
  | raw here =>
    refine ⟨0, _, .raw _ _, fun fuel _ => ?_⟩
    rw [← bytes_of_occurs here hsize.symm]
    exact parseRdata_raw fuel _
  | @soa _ _ m r serial refresh retry expire minimum hereM hereR numbers =>
    obtain ⟨hoff, hrest⟩ := hcut m (by omega)
    rw [← hoff] at hereR numbers
    have hoff' : ((s.subspan m).subspan r).off = (s.subspan m).off + r :=
      Span.subspan_off (by omega)
    have hroom : 20 ≤ ((s.subspan m).subspan r).size := by
      simp only [Span.subspan] at hrest ⊢
      omega
    rw [← hoff'] at numbers
    obtain ⟨n, hn⟩ := parses_of_nameLaid hereM (by omega)
    obtain ⟨n', hn'⟩ := parses_of_nameLaid hereR (by omega)
    refine ⟨max n n', _, .soa (labels_of_laid hereM.laid) (labels_of_laid hereR.laid)
      serial refresh retry expire minimum, fun fuel hle => ?_⟩
    obtain ⟨hle, hle'⟩ := Nat.max_le.mp hle
    rw [RecordData.rtype, RecordData.rdataType, parseRdata, cast_value]
    exact parseRdataSoa_laid (hn fuel hle) (hn' fuel hle') numbers hroom
  | @hinfo cpu os cpuFits osFits here =>
    have hos : (characterString os).length = os.length + 1 := List.length_cons
    obtain ⟨hcpu, htail, hroom⟩ := parseCharacterString_laid cpuFits here (by omega)
    rw [← List.append_nil (characterString os)] at htail
    obtain ⟨hos', -, -⟩ := parseCharacterString_laid osFits htail (by
      rw [List.length_nil]
      omega)
    refine ⟨0, _, .hinfo cpu os, fun fuel _ => ?_⟩
    rw [RecordData.rtype, RecordData.rdataType, parseRdata, cast_value]
    exact decode_bind.mpr ⟨_, orFail_eq_ok.mpr hcpu, decode_bind.mpr ⟨_, orFail_eq_ok.mpr hos', rfl⟩⟩
  | @minfo _ _ m e hereR hereE =>
    obtain ⟨hoff, hrest⟩ := hcut m (by omega)
    rw [← hoff] at hereE
    obtain ⟨n, hn⟩ := parses_of_nameLaid hereR (by omega)
    obtain ⟨n', hn'⟩ := parses_of_nameLaid hereE (by omega)
    refine ⟨max n n', _, .minfo (labels_of_laid hereR.laid) (labels_of_laid hereE.laid),
      fun fuel hle => ?_⟩
    obtain ⟨hle, hle'⟩ := Nat.max_le.mp hle
    rw [RecordData.rtype, RecordData.rdataType, parseRdata, cast_value]
    exact decode_bind.mpr ⟨_, failingWith_eq_ok.mpr (hn fuel hle),
      decode_bind.mpr ⟨_, failingWith_eq_ok.mpr (hn' fuel hle'), rfl⟩⟩
  | @mx preference _ n here name =>
    obtain ⟨hoff, hrest⟩ := hcut 2 (by omega)
    rw [← hoff] at name
    rw [← List.append_nil (bigEndian 2 preference.toNat)] at here
    obtain ⟨hpreference, -, -⟩ := consume2Octets_field here (by
      rw [List.length_nil]
      omega)
    obtain ⟨n', hn'⟩ := parses_of_nameLaid name (by omega)
    refine ⟨n', _, .mx preference (labels_of_laid name.laid), fun fuel hle => ?_⟩
    rw [RecordData.rtype, RecordData.rdataType, parseRdata, cast_value]
    exact decode_bind.mpr ⟨_, orFail_eq_ok.mpr hpreference,
      decode_bind.mpr ⟨_, failingWith_eq_ok.mpr (hn' fuel hle), rfl⟩⟩

theorem room_of_rdataLaid {pos : Nat} {data : RecordData} (h : RdataLaid message pos size data)
    (hpos : pos ≤ message.length) : pos + size ≤ message.length := by
  cases h with
  | a here =>
    have := here.room hpos
    rwa [Vector.length_toList] at this
  | aaaa here =>
    have := here.room hpos
    rwa [Vector.length_toList] at this
  | named here => exact here.laid.bound
  | raw here => exact here.room hpos
  | soa hereM hereR numbers =>
    have hbound := hereR.laid.bound
    have := numbers.room hbound
    simp only [List.length_append, length_bigEndian] at this
    omega
  | @hinfo cpu os _ _ here =>
    have hcpu : (characterString cpu).length = cpu.length + 1 := List.length_cons
    have hos : (characterString os).length = os.length + 1 := List.length_cons
    have := here.room hpos
    rw [List.length_append] at this
    omega
  | minfo _ hereE =>
    have := hereE.laid.bound
    omega
  | mx _ name =>
    have := name.laid.bound
    omega

theorem consumeResourceRecord_laid {d : ResponseDecoder} {record : Record}
    (h : RecordLaid d.originalMessage d.remainingMessage.off record)
    (hend : d.remainingMessage.off + d.remainingMessage.size = d.originalMessage.length) :
    ∃ fuel rr d', d.consumeResourceRecord fuel = some (.ok rr, d') ∧ Matches rr record ∧
      d'.originalMessage = d.originalMessage ∧
      d'.remainingMessage.off = d.remainingMessage.off + record.size ∧
      d'.remainingMessage.off + d'.remainingMessage.size = d'.originalMessage.length := by
  obtain ⟨message, s⟩ := d
  obtain ⟨owner, fields, data⟩ := h
  simp only at owner fields data hend
  have hfields := fields.room owner.laid.bound
  simp only [List.length_append, length_bigEndian] at hfields
  have hdata := room_of_rdataLaid data (by omega)
  have hroom : record.ownerSize + 10 + record.rdlength.toNat ≤ s.size := by omega
  obtain ⟨n, hn⟩ := parses_of_nameLaid owner (by omega)
  have hoff : (s.subspan record.ownerSize).off = s.off + record.ownerSize :=
    Span.subspan_off (by omega)
  rw [← hoff, ← List.append_nil (bigEndian 2 record.rdlength.toNat)] at fields
  simp only [List.append_assoc] at fields
  obtain ⟨htype, fields, hroom⟩ := consume2Octets_field fields (by
    simp only [List.length_append, length_bigEndian, List.length_nil, Span.subspan]
    omega)
  obtain ⟨hclass, fields, hroom⟩ := consume2Octets_field fields (by
    simpa only [List.length_append, length_bigEndian] using hroom)
  obtain ⟨httl, fields, hroom⟩ := consume4Octets_field fields (by
    simpa only [List.length_append, length_bigEndian] using hroom)
  obtain ⟨hrdlen, -, -⟩ := consume2Octets_field fields (by
    simpa only [List.length_append, length_bigEndian] using hroom)
  simp only [Span.subspan_subspan] at htype hclass httl hrdlen
  have hoff : (s.subspan (record.ownerSize + 10)).off = s.off + record.ownerSize + 10 := by
    rw [Span.subspan_off (by omega), Nat.add_assoc]
  have hsize : (s.subspan (record.ownerSize + 10)).size = s.size - (record.ownerSize + 10) := rfl
  have hfits : record.rdlength.toNat ≤ (s.subspan (record.ownerSize + 10)).size := by omega
  let rdataRaw := (s.subspan (record.ownerSize + 10)).first record.rdlength.toNat
  have hraw : rdataRaw.size = record.rdlength.toNat := Nat.min_eq_left hfits
  have hdata' : RdataLaid message rdataRaw.off rdataRaw.size record.data := by
    rw [hraw]
    exact hoff ▸ data
  obtain ⟨n', rdata, hrep, hn'⟩ := parseRdata_laid hdata'
  refine ⟨max n n', ⟨⟨message, s.off⟩, rdata, record.ttl⟩, _,
    (ResponseDecoder.Framed.consume_ok ⟨hn _ (Nat.le_max_left _ _),
      ⟨_, _, _, _, htype, hclass, httl, hrdlen⟩, hfits⟩).mpr
      ⟨rdata, hn' _ (Nat.le_max_right _ _), rfl, rfl⟩,
    ⟨labels_of_laid owner.laid, rfl, hrep⟩, rfl, ?_, ?_⟩
  · simp only [Span.subspan_subspan]
    rw [Span.subspan_off (by omega)]
    rfl
  · rw [← hend]
    simp only [Span.subspan]
    omega

theorem consumesAll_of_laid {d : ResponseDecoder} {records : List Record}
    (h : RecordsLaid d.originalMessage d.remainingMessage.off records)
    (hend : d.remainingMessage.off + d.remainingMessage.size = d.originalMessage.length) :
    ConsumesAll d records := by
  induction records generalizing d with
  | nil =>
    rw [RecordsLaid] at h
    rw [ConsumesAll]
    omega
  | cons record records ih =>
    obtain ⟨hrecord, hrest⟩ := h
    obtain ⟨fuel, rr, d', hconsume, hmatches, horiginal, hoff, hend'⟩ :=
      consumeResourceRecord_laid hrecord hend
    refine ⟨fuel, rr, d', hconsume, hmatches, horiginal, hoff, ih ?_ hend'⟩
    rw [hoff, horiginal]
    exact hrest

theorem consumesAll_of_response (message : Text) (records : List Record)
    (hheader : 12 ≤ message.length) (h : RecordsLaid message 12 records) :
    ∃ header d, (ResponseDecoder.ofResponse message).consumeHeader = (.ok header, d) ∧
      d.originalMessage = message ∧ d.remainingMessage.off = 12 ∧ ConsumesAll d records := by
  have hoff : ((Span.suffix message 0 (Nat.zero_le _)).subspan 12).off = 12 :=
    (Span.subspan_off (by exact hheader)).trans (Nat.zero_add 12)
  obtain ⟨header, hok⟩ := ResponseDecoder.consumeHeader_of_length hheader
  refine ⟨header, _, hok, rfl, hoff, consumesAll_of_laid (hoff.symm ▸ h) ?_⟩
  simp only [Span.subspan, Span.suffix]
  omega

def delegation : Text :=
  [0, 7, 0x80, 0, 0, 0, 0, 2, 0, 0, 0, 0, 1, 97, 0, 0, 2, 0, 1, 0, 0, 0, 60, 0, 4, 1, 98, 0xC0, 12,
    0xC0, 25, 0, 1, 0, 1, 0, 0, 0, 60, 0, 4, 192, 0, 2, 1]

def delegated : Record := ⟨[[97]], 3, 1, 60, 4, .named .ns [[98], [97]]⟩

def glue : Record := ⟨[[98], [97]], 2, 1, 60, 4, .a #v[192, 0, 2, 1]⟩

theorem delegated_laid : RecordsLaid delegation 12 [delegated, glue] := by
  have hroot : Laid delegation 14 1 [] := .root ⟨delegation.drop 15, rfl⟩
  have hhost : Occurs (labelOctets [97]) delegation 12 := ⟨delegation.drop 14, rfl⟩
  have hzone : Laid delegation 12 3 [[97]] := .label (List.cons_ne_nil _ _) (by simp) hhost hroot
  have hptr : Laid delegation 27 2 [[97]] := .pointer (by decide) ⟨delegation.drop 29, rfl⟩ hzone
  have hns : Occurs (labelOctets [98]) delegation 25 := ⟨delegation.drop 27, rfl⟩
  have hname : Laid delegation 25 4 [[98], [97]] :=
    .label (List.cons_ne_nil _ _) (by simp) hns hptr
  have hglue : Laid delegation 29 2 [[98], [97]] :=
    .pointer (by decide) ⟨delegation.drop 31, rfl⟩ hname
  exact ⟨⟨⟨hzone, by decide, by decide⟩, ⟨delegation.drop 25, rfl⟩,
    .named ⟨hname, by decide, by decide⟩⟩, ⟨⟨hglue, by decide, by decide⟩,
    ⟨delegation.drop 41, rfl⟩, .a ⟨[], rfl⟩⟩, rfl⟩

theorem consumesAll_of_delegation :
    ∃ header d, (ResponseDecoder.ofResponse delegation).consumeHeader = (.ok header, d) ∧
      d.originalMessage = delegation ∧ d.remainingMessage.off = 12 ∧
      ConsumesAll d [delegated, glue] :=
  consumesAll_of_response delegation [delegated, glue] (by decide) delegated_laid

end Corosig.Dns.Protocol
