import Corosig.Io.Dns.NameSize

namespace Corosig.Dns.Protocol
open CompressedNames Loop ResponseDecoder

def RdataType.wide (type : RdataType) : BitVec 16 := type.value.setWidth 16

def Unlisted (rtype : BitVec 16) : Prop := ∀ type : RdataType, rtype ≠ type.wide

def RData.owners : RData → List RdataType
  | .canonicalName _ => [.cname]
  | .hardwareInfo _ _ => [.hinfo]
  | .mailbox _ => [.mb]
  | .mailGroup _ => [.mg]
  | .mailInfo _ _ => [.minfo]
  | .mailboxRename _ => [.mr]
  | .mailExchange _ _ => [.mx]
  | .null _ => [.tnull]
  | .nameServer _ => [.ns]
  | .ptr _ => [.ptr]
  | .startOfAuthority _ _ _ _ _ _ _ => [.soa]
  | .ipv4 _ => [.a]
  | .ipv6 _ => [.aaaa]
  | .obsolete _ _ => [.md, .mf]
  | .notYetSupported _ _ => [.wks, .txt]

def Chosen (rtype : BitVec 16) (raw : Text) (rdata : RData) : Prop :=
  (∃ type ∈ rdata.owners, rtype = type.wide) ∨
    Unlisted rtype ∧ rdata = .notYetSupported rtype raw

def Unnarrowed (rtype : BitVec 16) : Prop :=
  rtype.toNat < 256 ∨
    ∀ type : RdataType, type.value = rtype.setWidth 8 → type = .wks ∨ type = .txt

variable {message : Text} {fuel : Nat} {rtype : BitVec 16} {rdataRaw : Span message}
  {rdata : RData}

theorem wide_narrow (type : RdataType) : type.wide.setWidth 8 = type.value := by
  cases type <;> decide

theorem wide_lt (type : RdataType) : type.wide.toNat < 256 := by
  cases type <;> decide

theorem cast_some {type : RdataType} (h : RdataType.cast rtype = some type) :
    type.value = rtype.setWidth 8 := by
  simpa using List.find?_some h

theorem cast_none (h : RdataType.cast rtype = none) (type : RdataType) :
    type.value ≠ rtype.setWidth 8 := by
  have hmem : type ∈ RdataType.all := by cases type <;> decide
  simpa using List.find?_eq_none.mp h type hmem

theorem eq_wide_of_lt {type : RdataType} (h : type.value = rtype.setWidth 8)
    (hlt : rtype.toNat < 256) : rtype = type.wide := by
  rw [RdataType.wide, h]
  refine BitVec.eq_of_toNat_eq ?_
  rw [BitVec.toNat_setWidth, BitVec.toNat_setWidth]
  omega

theorem unlisted_of_le (h : 256 ≤ rtype.toNat) : Unlisted rtype := by
  rintro type rfl
  have := wide_lt type
  omega

theorem parseRdataOneDomainName_ok {make : DomainName → RData} {e : ResponseDecodeError}
    (h : parseRdataOneDomainName fuel make e rdataRaw = some (.ok rdata)) :
    ∃ name, rdata = make name := by
  obtain ⟨res, -, hres⟩ := decode_bind.mp h
  exact ⟨_, (decode_pure.mp hres).symm⟩

theorem parseRdataSoa_ok (h : parseRdataSoa fuel rdataRaw = some (.ok rdata)) :
    rdata.owners = [.soa] := by
  obtain ⟨mname, -, h⟩ := decode_bind.mp h
  obtain ⟨rname, -, h⟩ := decode_bind.mp h
  obtain ⟨serial, -, h⟩ := decode_bind.mp h
  obtain ⟨refresh, -, h⟩ := decode_bind.mp h
  obtain ⟨retry, -, h⟩ := decode_bind.mp h
  obtain ⟨expire, -, h⟩ := decode_bind.mp h
  obtain ⟨minimum, -, h⟩ := decode_bind.mp h
  obtain rfl := decode_pure.mp h
  rfl

theorem parseRdataHinfo_ok (h : parseRdataHinfo rdataRaw = some (.ok rdata)) :
    rdata.owners = [.hinfo] := by
  obtain ⟨cpu, -, h⟩ := decode_bind.mp h
  obtain ⟨os, -, h⟩ := decode_bind.mp h
  obtain rfl := decode_pure.mp h
  rfl

theorem parseRdataMinfo_ok (h : parseRdataMinfo fuel rdataRaw = some (.ok rdata)) :
    rdata.owners = [.minfo] := by
  obtain ⟨rmailbx, -, h⟩ := decode_bind.mp h
  obtain ⟨emailbx, -, h⟩ := decode_bind.mp h
  obtain rfl := decode_pure.mp h
  rfl

theorem parseRdataMx_ok (h : parseRdataMx fuel rdataRaw = some (.ok rdata)) :
    rdata.owners = [.mx] := by
  obtain ⟨preference, -, h⟩ := decode_bind.mp h
  obtain ⟨exchange, -, h⟩ := decode_bind.mp h
  obtain rfl := decode_pure.mp h
  rfl

theorem parseRdata_owner {type : RdataType} (hc : RdataType.cast rtype = some type)
    (h : parseRdata fuel rtype rdataRaw = some (.ok rdata)) : type ∈ rdata.owners := by
  cases type <;> simp only [parseRdata, hc] at h
  case a =>
    unfold parseRdataIpv4 at h
    split at h <;> cases h
    simp [RData.owners]
  case aaaa =>
    unfold parseRdataIpv6 at h
    split at h <;> cases h
    simp [RData.owners]
  case soa => simp [parseRdataSoa_ok h]
  case hinfo => simp [parseRdataHinfo_ok h]
  case minfo => simp [parseRdataMinfo_ok h]
  case mx => simp [parseRdataMx_ok h]
  case ns | cname | mb | mg | mr | ptr =>
    obtain ⟨name, rfl⟩ := parseRdataOneDomainName_ok h
    simp [RData.owners]
  all_goals
    obtain rfl := decode_pure.mp h
    simp [RData.owners]

theorem parseRdata_none (hc : RdataType.cast rtype = none) :
    parseRdata fuel rtype rdataRaw = some (.ok (.notYetSupported rtype rdataRaw.bytes)) := by
  simp only [parseRdata, hc]
  rfl

theorem parseRdata_undecoded {type : RdataType} (hc : RdataType.cast rtype = some type)
    (h : type = .wks ∨ type = .txt) :
    parseRdata fuel rtype rdataRaw = some (.ok (.notYetSupported rtype rdataRaw.bytes)) := by
  obtain rfl | rfl := h
  · simp only [parseRdata, hc]
    rfl
  · simp only [parseRdata, hc]
    rfl

theorem parseRdata_undecoded_inv {type : BitVec 16} {raw : Text}
    (h : parseRdata fuel rtype rdataRaw = some (.ok (.notYetSupported type raw))) :
    type = rtype ∧ raw = rdataRaw.bytes := by
  cases hc : RdataType.cast rtype with
  | none =>
    rw [parseRdata_none hc] at h
    cases h
    exact ⟨rfl, rfl⟩
  | some owner =>
    have howner : owner = .wks ∨ owner = .txt := by
      simpa [RData.owners] using parseRdata_owner hc h
    rw [parseRdata_undecoded hc howner] at h
    cases h
    exact ⟨rfl, rfl⟩

theorem parseRdata_chosen (hu : Unnarrowed rtype)
    (h : parseRdata fuel rtype rdataRaw = some (.ok rdata)) :
    Chosen rtype rdataRaw.bytes rdata := by
  cases hc : RdataType.cast rtype with
  | none =>
    rw [parseRdata_none hc] at h
    cases h
    refine .inr ⟨?_, rfl⟩
    rintro type rfl
    exact cast_none hc type (wide_narrow type).symm
  | some type =>
    by_cases hlt : rtype.toNat < 256
    · exact .inl ⟨type, parseRdata_owner hc h, eq_wide_of_lt (cast_some hc) hlt⟩
    · have hundecoded := hu.resolve_left hlt type (cast_some hc)
      rw [parseRdata_undecoded hc hundecoded] at h
      cases h
      exact .inr ⟨unlisted_of_le (Nat.not_lt.mp hlt), rfl⟩

theorem parseRdata_unlisted (hu : Unnarrowed rtype) (h : Unlisted rtype) :
    parseRdata fuel rtype rdataRaw = some (.ok (.notYetSupported rtype rdataRaw.bytes)) := by
  cases hc : RdataType.cast rtype with
  | none => exact parseRdata_none hc
  | some type =>
    have hlt : ¬ rtype.toNat < 256 := fun hlt => h type (eq_wide_of_lt (cast_some hc) hlt)
    exact parseRdata_undecoded hc (hu.resolve_left hlt type (cast_some hc))

theorem unnarrowed_of_unlisted
    (h : Unlisted rtype → ∃ fuel, parseRdata fuel rtype rdataRaw =
      some (.ok (.notYetSupported rtype rdataRaw.bytes))) : Unnarrowed rtype := by
  refine or_iff_not_imp_left.mpr fun hlt type htype => ?_
  obtain ⟨fuel, hr⟩ := h (unlisted_of_le (Nat.not_lt.mp hlt))
  cases hc : RdataType.cast rtype with
  | none => exact absurd htype (cast_none hc type)
  | some type' =>
    have hmem := parseRdata_owner hc hr
    have hinj : ∀ x y : RdataType, x.value = y.value → x = y := by
      intro x y
      cases x <;> cases y <;> decide
    obtain rfl := hinj type type' (htype.trans (cast_some hc).symm)
    simpa [RData.owners] using hmem

structure Fields (s : Span message) (rtype : BitVec 16) (ttl : BitVec 32) (rdlen : BitVec 16)
    (remaining : Span message) : Prop where
  octets : ∃ remaining₁ rclass remaining₂ remaining₃,
    consume2Octets s = some (rtype, remaining₁) ∧
    consume2Octets remaining₁ = some (rclass, remaining₂) ∧
    consume4Octets remaining₂ = some (ttl, remaining₃) ∧
    consume2Octets remaining₃ = some (rdlen, remaining)
  fits : rdlen.toNat ≤ remaining.size

structure Recorded (d : ResponseDecoder) (size : Nat) (rtype : BitVec 16) (ttl : BitVec 32)
    (rdlen : BitVec 16) (remaining : Span d.originalMessage) : Prop where
  owner : ∃ labels, Laid d.originalMessage d.remainingMessage.off size labels ∧
    wireLength labels ≤ fqdnMaxOctetLen
  room : size ≤ d.remainingMessage.size
  fields : Fields (d.remainingMessage.subspan size) rtype ttl rdlen remaining

structure TypeDecides (d : ResponseDecoder) (rtype : BitVec 16) (ttl : BitVec 32)
    (rdlen : BitVec 16) (remaining : Span d.originalMessage) : Prop where
  chosen : ∀ fuel v d', d.consumeResourceRecord fuel = some (.ok v, d') →
    Chosen rtype (remaining.first rdlen.toNat).bytes v.rdata
  unlisted : Unlisted rtype → ∃ fuel, d.consumeResourceRecord fuel =
    some (.ok ⟨⟨d.originalMessage, d.remainingMessage.off⟩,
      .notYetSupported rtype (remaining.first rdlen.toNat).bytes, ttl⟩,
      ⟨d.originalMessage, remaining.subspan rdlen.toNat⟩)

-- Behind a name of 256 octets nothing is skipped, so the fields are read out of the name: what
-- they give has to be an alternative of the record's own type.
def Determined (d : ResponseDecoder) (rtype : BitVec 16) : Prop :=
  ¬Brimming d.originalMessage d.remainingMessage.off ∧ Unnarrowed rtype ∨
    Brimming d.originalMessage d.remainingMessage.off ∧ ¬Unlisted rtype ∧
      ∀ rtype' ttl rdlen remaining, Fields d.remainingMessage rtype' ttl rdlen remaining →
        ∀ fuel rdata, parseRdata fuel rtype' (remaining.first rdlen.toNat) = some (.ok rdata) →
          ∃ type ∈ rdata.owners, rtype = type.wide

variable {d d' : ResponseDecoder} {size : Nat} {rdlen : BitVec 16} {ttl : BitVec 32}
  {remaining : Span d.originalMessage} {v : ResourceRecord}

theorem Fields.off {s remaining : Span message} (h : Fields s rtype ttl rdlen remaining) :
    remaining.off = s.off + 10 := by
  obtain ⟨r₁, rclass, r₂, r₃, h₁, h₂, h₃, h₄⟩ := h.octets
  obtain ⟨hs₁, -, rfl⟩ := consumeOctets_eq_some.mp h₁
  obtain ⟨hs₂, -, rfl⟩ := consumeOctets_eq_some.mp h₂
  obtain ⟨hs₃, -, rfl⟩ := consumeOctets_eq_some.mp h₃
  obtain ⟨hs₄, -, rfl⟩ := consumeOctets_eq_some.mp h₄
  simp only [Span.subspan] at hs₁ hs₂ hs₃ hs₄ ⊢
  omega

theorem Framed.of_fields {name : ParseDomainNameSuccess}
    (hname : runParseDomainName fuel d.remainingMessage = some (.ok name))
    (h : Fields (d.remainingMessage.subspan name.bytesToConsume) rtype ttl rdlen remaining) :
    Framed fuel d name rtype ttl rdlen remaining :=
  ⟨hname, h.octets, h.fits⟩

theorem Recorded.name (h : Recorded d size rtype ttl rdlen remaining) :
    ∃ fuel, runParseDomainName fuel d.remainingMessage =
      some (.ok ⟨size % 256, d.remainingMessage.off⟩) := by
  obtain ⟨labels, hlaid, hfits⟩ := h.owner
  exact (parseDomainName_yields_iff _ _).mpr ⟨size, labels, hlaid, h.room, hfits, rfl⟩

theorem Recorded.size_eq (h : Recorded d size rtype ttl rdlen remaining) :
    Brimming d.originalMessage d.remainingMessage.off ∧ size = 256 ∨
      ¬Brimming d.originalMessage d.remainingMessage.off ∧ size < 256 := by
  obtain ⟨labels, hlaid, hfits⟩ := h.owner
  obtain ⟨pieces, hwalk, rfl, rfl⟩ := hlaid.walk
  by_cases hbrim : Brimming d.originalMessage d.remainingMessage.off
  · exact .inl ⟨hbrim, hbrim.extent hwalk⟩
  · exact .inr ⟨hbrim, extent_lt hwalk hfits hbrim⟩

theorem Recorded.consume_ok (h : Recorded d size rtype ttl rdlen remaining)
    (hc : d.consumeResourceRecord fuel = some (.ok v, d')) :
    ∃ rtype' ttl' rdlen' remaining' rdata,
      Fields (d.remainingMessage.subspan (size % 256)) rtype' ttl' rdlen' remaining' ∧
      parseRdata fuel rtype' (remaining'.first rdlen'.toNat) = some (.ok rdata) ∧
      v = ⟨⟨d.originalMessage, d.remainingMessage.off⟩, rdata, ttl'⟩ ∧
      d' = ⟨d.originalMessage, remaining'.subspan rdlen'.toNat⟩ := by
  obtain ⟨fuel', hname⟩ := h.name
  obtain ⟨⟨e, he⟩, -⟩ | ⟨name, rtype', ttl', rdlen', remaining', hframed⟩ :=
    consumeResourceRecord_cases hc
  · cases he
  · cases yields_unique ⟨fuel, hframed.name⟩ ⟨fuel', hname⟩
    obtain ⟨rdata, hr, hv, hd⟩ := hframed.consume_ok.mp hc
    exact ⟨rtype', ttl', rdlen', remaining', rdata, ⟨hframed.fields, hframed.fits⟩, hr, hv, hd⟩

theorem Recorded.consume (h : Recorded d size rtype ttl rdlen remaining)
    {rtype' rdlen' : BitVec 16} {ttl' : BitVec 32} {remaining' : Span d.originalMessage}
    {rdata : RData} (hfields : Fields (d.remainingMessage.subspan (size % 256)) rtype' ttl' rdlen'
      remaining')
    (hr : ∀ fuel, parseRdata fuel rtype' (remaining'.first rdlen'.toNat) = some (.ok rdata)) :
    ∃ fuel, d.consumeResourceRecord fuel =
      some (.ok ⟨⟨d.originalMessage, d.remainingMessage.off⟩, rdata, ttl'⟩,
        ⟨d.originalMessage, remaining'.subspan rdlen'.toNat⟩) := by
  obtain ⟨fuel, hname⟩ := h.name
  exact ⟨fuel, (Framed.of_fields hname hfields).consume_ok.mpr ⟨rdata, hr fuel, rfl, rfl⟩⟩

theorem Fields.unique {s remaining remaining' : Span message} {rtype' rdlen' : BitVec 16}
    {ttl' : BitVec 32} (h : Fields s rtype ttl rdlen remaining)
    (h' : Fields s rtype' ttl' rdlen' remaining') :
    rtype' = rtype ∧ ttl' = ttl ∧ rdlen' = rdlen ∧ remaining' = remaining := by
  obtain ⟨r₁, rclass, r₂, r₃, h₁, h₂, h₃, h₄⟩ := h.octets
  obtain ⟨q₁, qclass, q₂, q₃, h₁', h₂', h₃', h₄'⟩ := h'.octets
  cases h₁.symm.trans h₁'
  cases h₂.symm.trans h₂'
  cases h₃.symm.trans h₃'
  cases h₄.symm.trans h₄'
  exact ⟨rfl, rfl, rfl, rfl⟩

theorem typed_of_short (h : Recorded d size rtype ttl rdlen remaining) (hsize : size < 256) :
    TypeDecides d rtype ttl rdlen remaining ↔ Unnarrowed rtype := by
  have hfields := h.fields
  rw [← Nat.mod_eq_of_lt hsize] at hfields
  constructor
  · intro ht
    have hread : Unlisted rtype → ∃ fuel, parseRdata fuel rtype (remaining.first rdlen.toNat) =
        some (.ok (.notYetSupported rtype (remaining.first rdlen.toNat).bytes)) := by
      intro hu
      obtain ⟨fuel, hc⟩ := ht.unlisted hu
      obtain ⟨rtype', ttl', rdlen', remaining', rdata, hfields', hr, hv, -⟩ := h.consume_ok hc
      obtain ⟨rfl, -, rfl, rfl⟩ := hfields.unique hfields'
      cases hv
      exact ⟨fuel, hr⟩
    exact unnarrowed_of_unlisted hread
  · intro hu
    refine ⟨fun fuel v d' hc => ?_, fun hl => h.consume hfields fun _ => parseRdata_unlisted hu hl⟩
    obtain ⟨rtype', ttl', rdlen', remaining', rdata, hfields', hr, rfl, -⟩ := h.consume_ok hc
    obtain ⟨rfl, -, rfl, rfl⟩ := hfields.unique hfields'
    exact parseRdata_chosen hu hr

theorem listed_of_brimming (h : Recorded d 256 rtype ttl rdlen remaining)
    (ht : TypeDecides d rtype ttl rdlen remaining) : ¬Unlisted rtype := by
  intro hu
  obtain ⟨fuel, hc⟩ := ht.unlisted hu
  obtain ⟨rtype', ttl', rdlen', remaining', rdata, hfields', hr, hv, hd⟩ := h.consume_ok hc
  have hraw : (remaining'.first rdlen'.toNat).bytes.length =
      (remaining.first rdlen.toNat).bytes.length := by
    obtain ⟨-, rfl, -⟩ := ResourceRecord.mk.inj hv
    obtain ⟨-, heq⟩ := parseRdata_undecoded_inv hr
    rw [heq]
  have hoff : (remaining'.subspan rdlen'.toNat).off = (remaining.subspan rdlen.toNat).off :=
    congrArg (fun d => d.remainingMessage.off) hd.symm
  have hplace := h.fields.off
  have hplace' := hfields'.off
  have hroom := h.room
  have hfits := h.fields.fits
  have hfits' := hfields'.fits
  rw [Span.length_bytes, Span.length_bytes] at hraw
  simp only [Span.subspan, Span.first] at hraw hoff hplace hplace'
  omega

theorem typed_of_brimming (h : Recorded d 256 rtype ttl rdlen remaining) :
    TypeDecides d rtype ttl rdlen remaining ↔ ¬Unlisted rtype ∧
      ∀ rtype' ttl rdlen remaining, Fields d.remainingMessage rtype' ttl rdlen remaining →
        ∀ fuel rdata, parseRdata fuel rtype' (remaining.first rdlen.toNat) = some (.ok rdata) →
          ∃ type ∈ rdata.owners, rtype = type.wide := by
  have hwhole : d.remainingMessage.subspan (256 % 256) = d.remainingMessage := by
    simp [Span.subspan]
  constructor
  · intro ht
    have hlisted := listed_of_brimming h ht
    refine ⟨hlisted, fun rtype' ttl' rdlen' remaining' hfields fuel rdata hr => ?_⟩
    obtain ⟨fuel', hname⟩ := h.name
    rw [← hwhole] at hfields
    have hframed := Framed.of_fields (run_mono hname (Nat.le_max_left fuel' fuel)) hfields
    have hlater := settled_parseRdata _ _ _ _ rdata (Nat.le_max_right fuel' fuel) hr
    have hc := hframed.consume_ok.mpr ⟨rdata, hlater, rfl, rfl⟩
    exact (ht.chosen _ _ _ hc).resolve_right fun hu => hlisted hu.1
  · rintro ⟨hlisted, hread⟩
    refine ⟨fun fuel v d' hc => ?_, fun hu => absurd hu hlisted⟩
    obtain ⟨rtype', ttl', rdlen', remaining', rdata, hfields, hr, rfl, -⟩ := h.consume_ok hc
    rw [hwhole] at hfields
    exact .inl (hread _ _ _ _ hfields fuel rdata hr)

theorem consumeResourceRecord_typed_iff (h : Recorded d size rtype ttl rdlen remaining) :
    TypeDecides d rtype ttl rdlen remaining ↔ Determined d rtype := by
  obtain ⟨hbrim, rfl⟩ | ⟨hbrim, hsize⟩ := h.size_eq
  · rw [typed_of_brimming h, Determined]
    simp only [hbrim, not_true, false_and, true_and, false_or]
  · rw [typed_of_short h hsize, Determined]
    simp only [hbrim, not_false_eq_true, true_and, false_and, or_false]

def caaMessage : Text := [0, 1, 1, 0, 1, 0, 0, 0, 60, 0, 4, 192, 0, 2, 1]

theorem recorded_caa : Recorded (ofResponse caaMessage) 1 257 60 4 ⟨11, 4, by decide⟩ :=
  ⟨⟨[], .root ⟨caaMessage.tail, by decide⟩, by decide⟩, by decide,
    ⟨⟨⟨3, 12, by decide⟩, 1, ⟨5, 10, by decide⟩, ⟨9, 6, by decide⟩,
      by decide +kernel, by decide +kernel, by decide +kernel, by decide +kernel⟩, by decide⟩⟩

theorem consumeResourceRecord_typed_caa :
    TypeDecides (ofResponse caaMessage) 257 60 4 ⟨11, 4, by decide⟩ ↔
      Determined (ofResponse caaMessage) 257 :=
  consumeResourceRecord_typed_iff recorded_caa

theorem consumeResourceRecord_untyped : ¬ ∀ (d : ResponseDecoder) (size : Nat)
    (rtype rdlen : BitVec 16) (ttl : BitVec 32) (remaining : Span d.originalMessage),
    Recorded d size rtype ttl rdlen remaining → TypeDecides d rtype ttl rdlen remaining := by
  intro h
  have ht := (h _ _ _ _ _ _ recorded_caa).chosen 3 ⟨⟨caaMessage, 0⟩, .ipv4 #v[192, 0, 2, 1], 60⟩
    ⟨caaMessage, ⟨15, 0, by decide⟩⟩ (by decide +kernel)
  obtain ⟨type, hmem, htype⟩ | ⟨-, hraw⟩ := ht
  · obtain rfl := List.mem_singleton.mp hmem
    cases htype
  · cases hraw

end Corosig.Dns.Protocol
