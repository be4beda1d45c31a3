import Corosig.Io.Dns.Decoder

namespace Corosig.Dns
open CompressedNames Loop NameParser Protocol

variable {message : Text} {s : Span message} {r : ParseDomainNameSuccess} {pos size : Nat}
  {pieces : List Piece}

def Brimming (message : Text) (pos : Nat) : Prop :=
  ∃ (labels : List Text) (offset : Nat) (rest : List Piece),
    Walk message pos (labels.map .label ++ .pointer offset :: rest) ∧
    (labels.flatMap labelOctets).length = 254

theorem Brimming.extent (h : Brimming message pos) (hwalk : Walk message pos pieces) :
    CompressedNames.extent pieces = 256 := by
  obtain ⟨labels, offset, rest, hbrim, hlen⟩ := h
  rw [hwalk.unique hbrim, extent_labels, hlen]
  rfl

theorem walk_of_yields (h : Yields NameParser.step (parseDomainName s) (.ok r)) :
    ∃ pieces, Walk message s.off pieces ∧ extent pieces ≤ s.size ∧
      wireLength (labelsOf pieces) ≤ fqdnMaxOctetLen ∧ r = ⟨extent pieces % 256, s.off⟩ := by
  obtain ⟨size, labels, hlaid, hsize, hfits, rfl⟩ := (parseDomainName_yields_iff s r).mp h
  obtain ⟨pieces, hwalk, rfl, rfl⟩ := hlaid.walk
  exact ⟨pieces, hwalk, hsize, hfits, rfl⟩

theorem self_of_yields (h : Yields NameParser.step (parseDomainName s) (.ok r)) :
    r.domainName = s.off := by
  obtain ⟨pieces, -, -, -, rfl⟩ := walk_of_yields h
  rfl

theorem extent_lt (hwalk : Walk message pos pieces)
    (hfits : wireLength (labelsOf pieces) ≤ fqdnMaxOctetLen) (h : ¬Brimming message pos) :
    extent pieces < 256 := by
  rw [fqdnMaxOctetLen] at hfits
  rcases hwalk.extent_le with hle | ⟨labels, offset, rest, rfl, hle⟩
  · omega
  · have hlen : (labels.flatMap labelOctets).length ≠ 254 :=
      fun hlen => h ⟨labels, offset, rest, hwalk, hlen⟩
    rw [extent_labels]
    simp only [extent]
    omega

structure Resumes (s : Span message) (r : ParseDomainNameSuccess) (size : Nat) : Prop where
  consumed : r.bytesToConsume = size
  question (fuel : Nat) (v : DecodeQuestionEntrySuccess) (d : ResponseDecoder) :
    ResponseDecoder.consumeQuestionEntry fuel ⟨message, s⟩ = some (.ok v, d) →
    ∃ qtype qclass rest, consume2Octets (s.subspan size) = some (qtype, rest) ∧
      consume2Octets rest = some (qclass, s.subspan (size + 4)) ∧
      v = ⟨⟨message, s.off⟩, qtype.setWidth 8, qclass.setWidth 8⟩ ∧
      d = ⟨message, s.subspan (size + 4)⟩
  record (fuel : Nat) (v : ResourceRecord) (d : ResponseDecoder) :
    ResponseDecoder.consumeResourceRecord fuel ⟨message, s⟩ = some (.ok v, d) →
    ∃ rtype ttl rdlen rest rest', consume2Octets (s.subspan size) = some (rtype, rest) ∧
      consume4Octets (s.subspan (size + 4)) = some (ttl, rest') ∧
      consume2Octets (s.subspan (size + 8)) = some (rdlen, s.subspan (size + 10)) ∧
      parseRdata fuel rtype ((s.subspan (size + 10)).first rdlen.toNat) = some (.ok v.rdata) ∧
      v.name = ⟨message, s.off⟩ ∧ v.ttl = ttl ∧
      d = ⟨message, s.subspan (size + 10 + rdlen.toNat)⟩
  soa (fuel : Nat) (rdata : RData) : parseRdataSoa fuel s = some (.ok rdata) →
    ∃ rname serial refresh retry expire minimum rest,
      rdata = .startOfAuthority ⟨message, s.off⟩ ⟨message, s.off + size⟩
        serial refresh retry expire minimum ∧
      Yields NameParser.step (parseDomainName (s.subspan size)) (.ok rname) ∧
      consume4Octets (s.subspan (size + rname.bytesToConsume)) = some (serial, rest)
  minfo (fuel : Nat) (rdata : RData) : parseRdataMinfo fuel s = some (.ok rdata) →
    rdata = .mailInfo ⟨message, s.off⟩ ⟨message, s.off + size⟩

theorem parsed_unique {fuel : Nat} {q : ParseDomainNameSuccess}
    (h : Yields NameParser.step (parseDomainName s) (.ok r))
    (hq : runParseDomainName fuel s = some (.ok q)) : q = r := by
  cases yields_unique ⟨fuel, hq⟩ h
  rfl

theorem rest_of_consume2 {data rest : Span message} {v : BitVec 16}
    (h : consume2Octets data = some (v, rest)) : rest = data.subspan 2 :=
  (consumeOctets_eq_some.mp h).2.2

theorem rest_of_consume4 {data rest : Span message} {v : BitVec 32}
    (h : consume4Octets data = some (v, rest)) : rest = data.subspan 4 :=
  (consumeOctets_eq_some.mp h).2.2

theorem question_resumes {fuel : Nat} {v : DecodeQuestionEntrySuccess} {d : ResponseDecoder}
    (hr : Yields NameParser.step (parseDomainName s) (.ok r))
    (h : ResponseDecoder.consumeQuestionEntry fuel ⟨message, s⟩ = some (.ok v, d)) :
    ∃ qtype qclass rest, consume2Octets (s.subspan r.bytesToConsume) = some (qtype, rest) ∧
      consume2Octets rest = some (qclass, s.subspan (r.bytesToConsume + 4)) ∧
      v = ⟨⟨message, s.off⟩, qtype.setWidth 8, qclass.setWidth 8⟩ ∧
      d = ⟨message, s.subspan (r.bytesToConsume + 4)⟩ := by
  obtain ⟨q, qtype, qclass, rest, rest', hname, hqtype, hqclass, rfl, rfl⟩ :=
    ResponseDecoder.consumeQuestionEntry_ok.mp h
  obtain rfl := parsed_unique hr hname
  have hrest : rest' = s.subspan (q.bytesToConsume + 4) := by
    rw [rest_of_consume2 hqclass, rest_of_consume2 hqtype, Span.subspan_subspan,
      Span.subspan_subspan]
  rw [← hrest, ← self_of_yields hr]
  exact ⟨qtype, qclass, rest, hqtype, hqclass, rfl, rfl⟩

theorem record_resumes {fuel : Nat} {v : ResourceRecord} {d : ResponseDecoder}
    (hr : Yields NameParser.step (parseDomainName s) (.ok r))
    (h : ResponseDecoder.consumeResourceRecord fuel ⟨message, s⟩ = some (.ok v, d)) :
    ∃ rtype ttl rdlen rest rest',
      consume2Octets (s.subspan r.bytesToConsume) = some (rtype, rest) ∧
      consume4Octets (s.subspan (r.bytesToConsume + 4)) = some (ttl, rest') ∧
      consume2Octets (s.subspan (r.bytesToConsume + 8)) =
        some (rdlen, s.subspan (r.bytesToConsume + 10)) ∧
      parseRdata fuel rtype ((s.subspan (r.bytesToConsume + 10)).first rdlen.toNat) =
        some (.ok v.rdata) ∧
      v.name = ⟨message, s.off⟩ ∧ v.ttl = ttl ∧
      d = ⟨message, s.subspan (r.bytesToConsume + 10 + rdlen.toNat)⟩ := by
  obtain ⟨⟨e, he⟩, -⟩ | ⟨q, rtype, ttl, rdlen, remaining, hframed⟩ :=
    ResponseDecoder.consumeResourceRecord_cases h
  · cases he
  obtain rfl := parsed_unique hr hframed.name
  obtain ⟨rest₁, rclass, rest₂, rest₃, h₁, h₂, h₃, h₄⟩ := hframed.fields
  have hrest₂ : rest₂ = s.subspan (q.bytesToConsume + 4) := by
    rw [rest_of_consume2 h₂, rest_of_consume2 h₁, Span.subspan_subspan, Span.subspan_subspan]
  have hrest₃ : rest₃ = s.subspan (q.bytesToConsume + 8) := by
    rw [rest_of_consume4 h₃, hrest₂, Span.subspan_subspan]
  have hremaining : remaining = s.subspan (q.bytesToConsume + 10) := by
    rw [rest_of_consume2 h₄, hrest₃, Span.subspan_subspan]
  obtain ⟨rdata, hrdata, rfl, rfl⟩ := hframed.consume_ok.mp h
  rw [hrest₂] at h₃
  rw [hrest₃, hremaining] at h₄
  rw [hremaining] at hrdata
  refine ⟨rtype, ttl, rdlen, rest₁, rest₃, h₁, h₃, h₄, hrdata,
    congrArg (DomainName.mk _) (self_of_yields hr), rfl, ?_⟩
  rw [hremaining, Span.subspan_subspan]

theorem soa_resumes {fuel : Nat} {rdata : RData}
    (hr : Yields NameParser.step (parseDomainName s) (.ok r))
    (hroom : r.bytesToConsume ≤ s.size) (h : parseRdataSoa fuel s = some (.ok rdata)) :
    ∃ rname serial refresh retry expire minimum rest,
      rdata = .startOfAuthority ⟨message, s.off⟩ ⟨message, s.off + r.bytesToConsume⟩
        serial refresh retry expire minimum ∧
      Yields NameParser.step (parseDomainName (s.subspan r.bytesToConsume)) (.ok rname) ∧
      consume4Octets (s.subspan (r.bytesToConsume + rname.bytesToConsume)) =
        some (serial, rest) := by
  obtain ⟨q, hq, h⟩ := decode_bind.mp h
  obtain rfl := parsed_unique hr (failingWith_eq_ok.mp hq)
  obtain ⟨rname, hrname, h⟩ := decode_bind.mp h
  have hname : Yields NameParser.step (parseDomainName (s.subspan q.bytesToConsume)) (.ok rname) :=
    ⟨fuel, failingWith_eq_ok.mp hrname⟩
  obtain ⟨⟨serial, rest⟩, hserial, h⟩ := decode_bind.mp h
  obtain ⟨⟨refresh, rest₁⟩, -, h⟩ := decode_bind.mp h
  obtain ⟨⟨retry, rest₂⟩, -, h⟩ := decode_bind.mp h
  obtain ⟨⟨expire, rest₃⟩, -, h⟩ := decode_bind.mp h
  obtain ⟨⟨minimum, rest₄⟩, -, h⟩ := decode_bind.mp h
  have hoff : rname.domainName = s.off + q.bytesToConsume := by
    rw [self_of_yields hname, Span.subspan_off hroom]
  have hread := orFail_eq_ok.mp hserial
  rw [Span.subspan_subspan] at hread
  refine ⟨rname, serial, refresh, retry, expire, minimum, rest, ?_, hname, hread⟩
  rw [← decode_pure.mp h, self_of_yields hr, hoff]

theorem minfo_resumes {fuel : Nat} {rdata : RData}
    (hr : Yields NameParser.step (parseDomainName s) (.ok r))
    (hroom : r.bytesToConsume ≤ s.size) (h : parseRdataMinfo fuel s = some (.ok rdata)) :
    rdata = .mailInfo ⟨message, s.off⟩ ⟨message, s.off + r.bytesToConsume⟩ := by
  obtain ⟨q, hq, h⟩ := decode_bind.mp h
  obtain rfl := parsed_unique hr (failingWith_eq_ok.mp hq)
  obtain ⟨emailbx, hemailbx, h⟩ := decode_bind.mp h
  have hoff := self_of_yields ⟨fuel, failingWith_eq_ok.mp hemailbx⟩
  rw [Span.subspan_off hroom] at hoff
  rw [← decode_pure.mp h, self_of_yields hr, hoff]

theorem resumes_of_consumed (hr : Yields NameParser.step (parseDomainName s) (.ok r))
    (hroom : r.bytesToConsume ≤ s.size) :
    Resumes s r r.bytesToConsume where
  consumed := rfl
  question _ _ _ := question_resumes hr
  record _ _ _ := record_resumes hr
  soa _ _ := soa_resumes hr hroom
  minfo _ _ := minfo_resumes hr hroom

theorem resumes_iff (hr : Yields NameParser.step (parseDomainName s) (.ok r)) :
    (∃ pieces, Walk message s.off pieces ∧ Resumes s r (extent pieces)) ↔
      ¬Brimming message s.off := by
  obtain ⟨pieces, hwalk, hroom, hfits, rfl⟩ := walk_of_yields hr
  constructor
  · rintro ⟨pieces', hwalk', hresumes⟩ hbrim
    have hextent := hbrim.extent hwalk'
    have hconsumed := hresumes.consumed
    simp only [hextent] at hconsumed
    omega
  · intro hbrim
    have hlt := extent_lt hwalk hfits hbrim
    have hmod : extent pieces % 256 = extent pieces := Nat.mod_eq_of_lt hlt
    refine ⟨pieces, hwalk, ?_⟩
    have hresumes := resumes_of_consumed hr (hmod.trans_le hroom)
    simp only [hmod] at hresumes ⊢
    exact hresumes

def pointedMessage : Text := [1, 97, 0, 1, 98, 0xC0, 0]

def pointedName : Span pointedMessage := ⟨3, 4, by decide⟩

theorem resumes_iff_pointed :
    (∃ pieces, Walk pointedMessage 3 pieces ∧ Resumes pointedName ⟨4, 3⟩ (extent pieces)) ↔
      ¬Brimming pointedMessage 3 :=
  resumes_iff (s := pointedName) ⟨7, by decide +kernel⟩

def brimLabels : List Text :=
  [List.replicate 63 97, List.replicate 63 97, List.replicate 63 97, List.replicate 61 97]

def brimMessage : Text := octet 0 :: brimLabels.flatMap labelOctets ++ pointerOctets 0

def brimName : Span brimMessage := ⟨1, 256, by decide +kernel⟩

theorem not_resumes_brimming :
    Yields NameParser.step (parseDomainName brimName) (.ok ⟨0, 1⟩) ∧
      ¬∃ pieces, Walk brimMessage 1 pieces ∧ Resumes brimName ⟨0, 1⟩ (extent pieces) := by
  refine ⟨⟨11, by decide +kernel⟩, ?_⟩
  rintro ⟨pieces, hwalk, hresumes⟩
  exact absurd hresumes.consumed (Nat.ne_of_lt hwalk.extent_pos)

end Corosig.Dns
