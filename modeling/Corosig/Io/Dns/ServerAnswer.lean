import Corosig.Io.Dns.Answers
import Corosig.Io.Dns.QuestionRoundTrip
import Corosig.Io.Dns.Records

namespace Corosig.Dns.Protocol
open CompressedNames Loop NetworkOrder

namespace Encoder

variable {hash : Text → BitVec 16} {alloc : Nat → Bool} {e e' : Encoder}

theorem encodeLabels_plain {sv : Text} (after : Text) {labels : List Text}
    (hsplit : sv.splitOnP (· = dot) = labels)
    (hlong : ∀ node ∈ e.buckets, (sv ++ after).length < node.str.length)
    (h : encodeLabels hash alloc labels (sv ++ after) e = (.ok (), e')) :
    e'.output = e.output ++ nameOctets labels := by
  induction labels generalizing e sv with
  | nil =>
    cases h
    rfl
  | cons label labels ih =>
    rw [encodeLabels, writeLabel] at h
    obtain rfl | hne := eq_or_ne label []
    · rw [if_pos rfl] at h
      cases h
    obtain hlt | hshort := Nat.lt_or_ge 63 label.length
    · rw [if_neg hne, if_pos hlt] at h
      cases h
    have hnone : e.find ⟨hash (sv ++ after), e.output.length % 2 ^ 16, sv ++ after⟩ = none :=
      find_none hlong
    simp only [if_neg hne, if_neg (Nat.not_lt.mpr hshort), hnone] at h
    have hname (output : Text) : output ++ labelOctets label ++ nameOctets labels =
        output ++ nameOctets (label :: labels) := by
      simp only [nameOctets, List.flatMap_cons, List.append_assoc]
    rw [← hname]
    obtain ⟨rfl, rfl⟩ | ⟨rest, rfl, hrest⟩ := splitOnP_cases hsplit
    · rw [encodeLabels] at h
      cases h
      split <;> rfl
    · have hdrop : (label ++ dot :: rest ++ after).drop (label.length + 1) = rest ++ after := by
        rw [← List.drop_drop, List.append_assoc, List.drop_left]
        rfl
      rw [hdrop] at h
      have hlen : (rest ++ after).length < (label ++ dot :: rest ++ after).length := by
        simp only [List.length_append, List.length_cons]
        omega
      have hout := ih hrest (fun node hn => ?_) h
      · rw [hout]
        split <;> rfl
      · have hbuckets : node.str = label ++ dot :: rest ++ after ∨ node ∈ e.buckets := by
          split at hn
          · exact (mem_insert hn).imp_left (congrArg Node.str)
          · exact .inr hn
        obtain hstr | hn := hbuckets
        · rwa [hstr]
        · exact hlen.trans (hlong node hn)

theorem encodeDomainName_plain {output name : Text}
    (h : (⟨output, []⟩ : Encoder).encodeDomainName hash alloc name = (.ok (), e')) :
    e'.output = output ++ nameOctets (splitIntoLabels name) := by
  rw [encodeDomainName] at h
  split at h
  · cases h
  · obtain hnil | hne := eq_or_ne (removeSuffix name) []
    · rw [splitIntoLabels, hnil] at h ⊢
      cases h
      rfl
    · rw [splitIntoLabels_eq hne] at h ⊢
      obtain ⟨after, hafter⟩ : ∃ after, name = removeSuffix name ++ after := by
        obtain ⟨-, hname⟩ | hname := removeSuffix_cases name
        · exact ⟨[], by rw [hname, List.append_nil]⟩
        · exact ⟨_, hname⟩
      have hlabels : encodeLabels hash alloc ((removeSuffix name).splitOnP (· = dot))
          (removeSuffix name ++ after) ⟨output, []⟩ = (.ok (), e') := by
        rw [← hafter]
        exact h
      exact encodeLabels_plain after rfl (fun node hn => by cases hn) hlabels

end Encoder

variable {hash : Text → BitVec 16} {alloc : Nat → Bool} {question : Question} {query : Text}

def questionOctets (question : Question) : Text :=
  nameOctets (splitIntoLabels question.name) ++ bigEndian 2 (question.qtype.setWidth 16).toNat ++
    bigEndian 2 (question.qclass.setWidth 16).toNat

theorem encodeQuestion_plain (h : encodeQuestion hash alloc question = .ok query) :
    query = encodeHeader question.header ++ questionOctets question ∧
      Valid (splitIntoLabels question.name) := by
  rw [encodeQuestion] at h
  split at h
  · cases h
  · rename_i e he
    cases h
    refine ⟨?_, (Encoder.valid_of_encodeDomainName he).1⟩
    rw [Encoder.encodeDomainName_plain he, writeHton_bigEndian, writeHton_bigEndian, questionOctets]
    simp only [List.append_assoc]

theorem consumeQuestionEntry_laid {d : ResponseDecoder} {labels : List Text} {size : Nat}
    {qtype qclass : BitVec 16}
    (hname : NameLaid d.originalMessage d.remainingMessage.off size labels)
    (hfields : Occurs (bigEndian 2 qtype.toNat ++ bigEndian 2 qclass.toNat) d.originalMessage
      (d.remainingMessage.off + size))
    (hend : d.remainingMessage.off + d.remainingMessage.size = d.originalMessage.length) :
    ∃ fuel v d', d.consumeQuestionEntry fuel = some (.ok v, d') ∧ v.name.Labels labels ∧
      v.qtype = qtype.setWidth 8 ∧ v.qclass = qclass.setWidth 8 ∧
      d'.originalMessage = d.originalMessage ∧
      d'.remainingMessage.off = d.remainingMessage.off + size + 4 ∧
      d'.remainingMessage.off + d'.remainingMessage.size = d'.originalMessage.length := by
  obtain ⟨message, s⟩ := d
  dsimp only at hname hfields hend
  have hroom := hfields.room hname.laid.bound
  simp only [List.length_append, length_bigEndian] at hroom
  obtain ⟨n, hn⟩ := parses_of_nameLaid hname (by omega)
  have hoff : (s.subspan size).off = s.off + size := Span.subspan_off (by omega)
  rw [← hoff, ← List.append_nil (bigEndian 2 qclass.toNat)] at hfields
  obtain ⟨htype, hfields, hleft⟩ := consume2Octets_field hfields (by
    simp only [List.length_append, length_bigEndian, List.length_nil, Span.subspan]
    omega)
  obtain ⟨hclass, -, -⟩ := consume2Octets_field hfields (by
    simpa only [List.length_append, length_bigEndian] using hleft)
  refine ⟨n, _, _, ResponseDecoder.consumeQuestionEntry_ok.mpr
    ⟨_, _, _, _, _, hn n (Nat.le_refl n), htype, hclass, rfl, rfl⟩, labels_of_laid hname.laid, rfl,
    rfl, rfl, ?_, ?_⟩
  · simp only [Span.subspan_subspan]
    rw [Span.subspan_off (by omega)]
    rfl
  · simp only [Span.subspan_subspan]
    rw [Span.subspan_off (by omega), ← hend]
    simp only [Span.subspan]
    omega

theorem consumeQuestionEntry_mono {d d' : ResponseDecoder} {v : DecodeQuestionEntrySuccess}
    {n m : Nat} (hnm : n ≤ m) (h : d.consumeQuestionEntry n = some (.ok v, d')) :
    d.consumeQuestionEntry m = some (.ok v, d') := by
  obtain ⟨_, _, _, _, _, hname, htype, hclass, rfl, rfl⟩ :=
    ResponseDecoder.consumeQuestionEntry_ok.mp h
  exact ResponseDecoder.consumeQuestionEntry_ok.mpr
    ⟨_, _, _, _, _, run_mono hname hnm, htype, hclass, rfl, rfl⟩

theorem reads_of_laid {d : ResponseDecoder} {records others : List Record}
    (h : RecordsLaid d.originalMessage d.remainingMessage.off (records ++ others))
    (hend : d.remainingMessage.off + d.remainingMessage.size = d.originalMessage.length) :
    ∃ rrs d', Reads d rrs d' ∧ List.Forall₂ Matches rrs records ∧
      RecordsLaid d'.originalMessage d'.remainingMessage.off others ∧
      d'.remainingMessage.off + d'.remainingMessage.size = d'.originalMessage.length := by
  induction records generalizing d with
  | nil => exact ⟨[], d, ⟨0, .nil d⟩, .nil, h, hend⟩
  | cons record records ih =>
    obtain ⟨hrecord, hrest⟩ := h
    obtain ⟨n, rr, d₁, hconsume, hmatches, horiginal, hoff, hend₁⟩ :=
      consumeResourceRecord_laid hrecord hend
    rw [← hoff, ← horiginal] at hrest
    obtain ⟨rrs, d', ⟨m, hreads⟩, hall, hlaid, hend'⟩ := ih hrest hend₁
    refine ⟨rr :: rrs, d', ⟨max n m, ?_⟩, .cons hmatches hall, hlaid, hend'⟩
    exact .cons (consumeResourceRecord_mono (Nat.le_max_left n m) hconsume)
      (hreads.mono (Nat.le_max_right n m))

def RecordData.address : (f : IpFamily) → RecordData → Option (Address f)
  | .v4, .a addr => some addr
  | .v6, .aaaa addr => some addr
  | _, _ => none

def Record.resolved (f : IpFamily) (sendTime : Int) (record : Record) :
    Option (ResolvedAddress (Address f)) :=
  (record.data.address f).map (⟨·, sendTime + record.ttl.toNat * ticksPerSecond⟩)

theorem Represents.accepts {rdata : RData} {data : RecordData} (h : Represents rdata data)
    (f : IpFamily) : accepts f rdata = data.address f := by
  cases h with
  | named type h => cases type <;> cases f <;> rfl
  | raw type octets => cases type <;> cases f <;> rfl
  | _ => cases f <;> rfl

theorem addresses_of_matches {f : IpFamily} {sendTime : Int} {rrs : List ResourceRecord}
    {records : List Record} (h : List.Forall₂ Matches rrs records) :
    addresses f sendTime rrs = records.filterMap (Record.resolved f sendTime) := by
  induction h with
  | nil => rfl
  | cons hmatches _ ih =>
    rw [addresses] at ih ⊢
    rw [List.filterMap_cons, List.filterMap_cons, ih, hmatches.rdata.accepts, hmatches.ttl]
    rfl

-- What a server that follows the format sends back for the query: the question as it came, and
-- its records laid out in any way, with or without compression.
structure Responds (query response : Text) (header : Header) (answers others : List Record) :
    Prop where
  id : header.id = readNtoh 16 (query.take 2)
  qr : header.flags.getLsbD 15
  rcode : header.flags.toNat % 16 = 0
  tc : ¬ header.flags.getLsbD 9
  qdcount : header.qdcount = 1
  ancount : answers.length = header.ancount.toNat
  counts : others.length = header.nscount.toNat + header.arcount.toNat
  question : encodeHeader header ++ query.drop 12 <+: response
  records : RecordsLaid response query.length (answers ++ others)

variable {response : Text} {header : Header} {answers others : List Record}

theorem Responds.validates (h : Responds query response header answers others)
    {d d' : ResponseDecoder} {n : Nat} {v : DecodeQuestionEntrySuccess}
    (hentry : d.consumeQuestionEntry n = some (.ok v, d'))
    (hlabels : v.name.Labels (splitIntoLabels question.name)) (hqtype : v.qtype = question.qtype)
    (hqclass : v.qclass = question.qclass) : Validates header d question d' := by
  obtain ⟨k, hlabels⟩ := hlabels
  have hentry' := consumeQuestionEntry_mono (Nat.le_max_left n k) hentry
  have hrcode : Header.getRcode header.flags = noError := by
    apply BitVec.eq_of_toNat_eq
    rw [getRcode_toNat, h.rcode]
    rfl
  have hqdcount : header.qdcount = Header.theOnlyValidQdcount := h.qdcount
  refine ⟨max n k, ?_⟩
  rw [validateResponse, if_neg (not_not.mpr hrcode),
    if_neg (not_not.mpr ((isResponse_iff header.flags).mpr h.qr)),
    if_neg (mt (truncated_iff header.flags).mp h.tc), if_neg (not_not.mpr hqdcount), hentry']
  simp only [run_mono hlabels (Nat.le_max_right n k)]
  exact if_neg (by
    rintro (hne | hne | hne)
    · exact hne rfl
    · exact hne hqclass
    · exact hne hqtype)

theorem Responds.consumeHeader (h : Responds query response header answers others) :
    (ResponseDecoder.ofResponse response).consumeHeader =
      (.ok header, ⟨response, (Span.suffix response 0 (Nat.zero_le _)).subspan 12⟩) := by
  obtain ⟨tail, hresponse⟩ := h.question
  have hheader := consumeHeader_encodeHeader header (query.drop 12 ++ tail)
  rwa [← List.append_assoc, hresponse] at hheader

theorem Responds.long (h : Responds query response header answers others) :
    12 ≤ response.length := by
  obtain ⟨tail, hresponse⟩ := h.question
  rw [← hresponse, List.length_append, List.length_append, length_encodeHeader]
  omega

theorem drop_encodeQuestion (hq : encodeQuestion hash alloc question = .ok query) :
    query.drop 12 = questionOctets question := by
  rw [(encodeQuestion_plain hq).1]
  exact List.drop_left' (length_encodeHeader _)

theorem length_encodeQuestion (hq : encodeQuestion hash alloc question = .ok query) :
    query.length = 12 + wireLength (splitIntoLabels question.name) + 4 := by
  rw [(encodeQuestion_plain hq).1, questionOctets]
  simp only [List.length_append, length_encodeHeader, length_nameOctets, length_bigEndian]
  omega

theorem Responds.header_id (h : Responds query response header answers others)
    (hq : encodeQuestion hash alloc question = .ok query) : header.id = question.id := by
  have htake : query.take 2 = writeHton question.id := by
    rw [(encodeQuestion_plain hq).1]
    rfl
  rw [h.id, htake, readNtoh_writeHton]

theorem Responds.echoes (h : Responds query response header answers others)
    (hq : encodeQuestion hash alloc question = .ok query) :
    Laid response 12 (wireLength (splitIntoLabels question.name)) (splitIntoLabels question.name) ∧
      Occurs (bigEndian 2 (question.qtype.setWidth 16).toNat ++
        bigEndian 2 (question.qclass.setWidth 16).toNat) response
          (12 + wireLength (splitIntoLabels question.name)) := by
  obtain ⟨tail, hresponse⟩ := h.question
  have hat : Occurs (questionOctets question) response 12 := by
    rw [← hresponse, drop_encodeQuestion hq, ← length_encodeHeader header]
    exact occurs_here _ _ _
  rw [questionOctets, List.append_assoc] at hat
  obtain ⟨hname, hfields⟩ := occurs_append.mp hat
  rw [length_nameOctets] at hfields
  exact ⟨laid_nameOctets (encodeQuestion_plain hq).2 hname, hfields⟩

theorem Responds.decodes (h : Responds query response header answers others)
    (hq : encodeQuestion hash alloc question = .ok query)
    (hfits : wireLength (splitIntoLabels question.name) ≤ fqdnMaxOctetLen) :
    ∃ n v d₁ rrs d₂ rrs' d₃,
      (⟨response, (Span.suffix response 0 (Nat.zero_le _)).subspan 12⟩ :
        ResponseDecoder).consumeQuestionEntry n = some (.ok v, d₁) ∧
      v.name.Labels (splitIntoLabels question.name) ∧ v.qtype = question.qtype ∧
      v.qclass = question.qclass ∧ Reads d₁ rrs d₂ ∧ List.Forall₂ Matches rrs answers ∧
      Reads d₂ rrs' d₃ ∧ List.Forall₂ Matches rrs' others := by
  have hlong := h.long
  have hoff : ((Span.suffix response 0 (Nat.zero_le _)).subspan 12).off = 12 :=
    (Span.subspan_off hlong).trans (Nat.zero_add 12)
  have hend : ((Span.suffix response 0 (Nat.zero_le _)).subspan 12).off +
      ((Span.suffix response 0 (Nat.zero_le _)).subspan 12).size = response.length := by
    simp only [Span.subspan, Span.suffix]
    omega
  obtain ⟨hname, hfields⟩ := h.echoes hq
  have hlaid : NameLaid response 12 (wireLength (splitIntoLabels question.name))
      (splitIntoLabels question.name) := ⟨hname, hfits, hfits⟩
  rw [← hoff] at hlaid hfields
  obtain ⟨n, v, d₁, hentry, hlabels, hqtype, hqclass, horiginal, hoff₁, hend₁⟩ :=
    consumeQuestionEntry_laid (d := ⟨response, (Span.suffix response 0 (Nat.zero_le _)).subspan 12⟩)
      hlaid hfields hend
  have hrecords := h.records
  dsimp only at horiginal hoff₁
  rw [length_encodeQuestion hq, ← hoff, ← hoff₁, ← horiginal] at hrecords
  obtain ⟨rrs, d₂, hreads, hmatches, hrest, hend₂⟩ := reads_of_laid hrecords hend₁
  rw [← List.append_nil others] at hrest
  obtain ⟨rrs', d₃, hreads', hmatches', -⟩ := reads_of_laid hrest hend₂
  exact ⟨n, v, d₁, rrs, d₂, rrs', d₃, hentry, hlabels,
    hqtype.trans (BitVec.setWidth_setWidth_of_le _ (show 8 ≤ 16 by decide)),
    hqclass.trans (BitVec.setWidth_setWidth_of_le _ (show 8 ≤ 16 by decide)), hreads, hmatches,
    hreads', hmatches'⟩

theorem Responds.stores (h : Responds query response header answers others) (f : IpFamily)
    (hq : encodeQuestion hash alloc question = .ok query)
    (hfits : wireLength (splitIntoLabels question.name) ≤ fqdnMaxOctetLen) {sendTime : Int}
    {out : List (ResolvedAddress (Address f))} {n : Nat}
    (hn : n = min out.length (answers.filterMap (Record.resolved f sendTime)).length) :
    Stores (pendingRequest f question sendTime out) header
      ⟨response, (Span.suffix response 0 (Nat.zero_le _)).subspan 12⟩ (.ok n)
      ((answers.filterMap (Record.resolved f sendTime)).take n ++ out.drop n) := by
  obtain ⟨k, v, d₁, rrs, d₂, rrs', d₃, hentry, hlabels, hqtype, hqclass, hreads, hmatches,
    hreads', hmatches'⟩ := h.decodes hq hfits
  refine (stores_ok_iff f question sendTime out _ header _ _).mpr
    ⟨d₁, d₂, d₃, rrs, rrs', h.validates hentry hlabels hqtype hqclass, hreads,
      hmatches.length_eq.trans h.ancount, hreads', hmatches'.length_eq.trans h.counts, ?_, ?_⟩
  · rw [addresses_of_matches hmatches]
    exact hn
  · rw [addresses_of_matches hmatches]

theorem answer_resolves (f : IpFamily) (hq : encodeQuestion hash alloc question = .ok query)
    (hname : question.name.length ≤ 253 ∨ question.name.length = 254 ∧ endsWithDot question.name)
    (h : Responds query response header answers others) (sendTime : Int)
    (out : List (ResolvedAddress (Address f))) :
    ∃ d n, (ResponseDecoder.ofResponse response).consumeHeader = (.ok header, d) ∧
      header.id = question.id ∧
      n = min out.length (answers.filterMap (Record.resolved f sendTime)).length ∧
      Stores (pendingRequest f question sendTime out) header d (.ok n)
        ((answers.filterMap (Record.resolved f sendTime)).take n ++ out.drop n) :=
  ⟨_, _, h.consumeHeader, h.header_id hq, rfl,
    h.stores f hq ((wireLength_splitIntoLabels question.name).mpr hname) rfl⟩

theorem Reads.unique {d d₁ d₂ : ResponseDecoder} {rrs rrs' : List ResourceRecord}
    (h : Reads d rrs d₁) (h' : Reads d rrs' d₂) (hlen : rrs.length = rrs'.length) :
    rrs = rrs' ∧ d₁ = d₂ := by
  obtain ⟨n, h⟩ := h
  obtain ⟨m, h'⟩ := h'
  replace h := h.mono (Nat.le_max_left n m)
  replace h' := h'.mono (Nat.le_max_right n m)
  induction h generalizing rrs' with
  | nil d =>
    obtain rfl := List.eq_nil_of_length_eq_zero hlen.symm
    cases h'
    exact ⟨rfl, rfl⟩
  | cons hrr _ ih =>
    cases h' with
    | nil => cases hlen
    | cons hrr' hrest =>
      cases hrr.symm.trans hrr'
      obtain ⟨rfl, rfl⟩ := ih (Nat.succ.inj hlen) hrest
      exact ⟨rfl, rfl⟩

theorem consumeQuestionEntry_unique {d d₁ d₂ : ResponseDecoder} {n m : Nat}
    {v w : DecodeQuestionEntrySuccess} (hv : d.consumeQuestionEntry n = some (.ok v, d₁))
    (hw : d.consumeQuestionEntry m = some (.ok w, d₂)) : v = w ∧ d₁ = d₂ := by
  have hv' := consumeQuestionEntry_mono (Nat.le_max_left n m) hv
  have hw' := consumeQuestionEntry_mono (Nat.le_max_right n m) hw
  cases hv'.symm.trans hw'
  exact ⟨rfl, rfl⟩

theorem own_answer {asked : Question} {f : IpFamily} {sendTime : Int}
    {out out' : List (ResolvedAddress (Address f))} {header' : Header} {d : ResponseDecoder}
    {n : Nat} (hq : encodeQuestion hash alloc asked = .ok query)
    (h : Responds query response header answers others)
    (hheader : (ResponseDecoder.ofResponse response).consumeHeader = (.ok header', d))
    (hstores : Stores (pendingRequest f question sendTime out) header' d (.ok n) out') :
    splitIntoLabels question.name = splitIntoLabels asked.name ∧ question.qtype = asked.qtype ∧
      question.qclass = asked.qclass ∧
      n = min out.length (answers.filterMap (Record.resolved f sendTime)).length ∧
      out' = (answers.filterMap (Record.resolved f sendTime)).take n ++ out.drop n := by
  cases h.consumeHeader.symm.trans hheader
  obtain ⟨d₁, d₂, d₃, rrs, rrs', ⟨k, hvalid⟩, hreads, hlen, -, -, hn, hout⟩ :=
    (stores_ok_iff f question sendTime out out' header _ n).mp hstores
  obtain ⟨-, -, -, -, entry, hentry, hlabels, hqclass, hqtype⟩ := validateResponse_ok hvalid
  have hfits : wireLength (splitIntoLabels asked.name) ≤ fqdnMaxOctetLen := by
    obtain ⟨_, _, _, _, _, hname, -⟩ := ResponseDecoder.consumeQuestionEntry_ok.mp hentry
    obtain ⟨size, labels, hlaid, -, hwire, -⟩ := (parseDomainName_yields_iff _ _).mp ⟨k, hname⟩
    have hoff : ((Span.suffix response 0 (Nat.zero_le _)).subspan 12).off = 12 :=
      (Span.subspan_off h.long).trans (Nat.zero_add 12)
    rw [hoff] at hlaid
    obtain ⟨-, rfl⟩ := hlaid.unique (h.echoes hq).1
    exact hwire
  obtain ⟨m, v, d₁', rrs₀, d₂', _, _, hentry', hlabels', hqtype', hqclass', hreads', hmatches, -⟩ :=
    h.decodes hq hfits
  obtain ⟨rfl, rfl⟩ := consumeQuestionEntry_unique hentry hentry'
  have hsame : splitIntoLabels question.name = splitIntoLabels asked.name :=
    Option.some.inj (yields_unique hlabels hlabels')
  obtain ⟨rfl, rfl⟩ := hreads.unique hreads' (hlen.trans (hmatches.length_eq.trans h.ancount).symm)
  rw [addresses_of_matches hmatches] at hn hout
  exact ⟨hsame, hqtype.symm.trans hqtype', hqclass.symm.trans hqclass', hn, hout⟩

def answeredQuestion : Question := { id := 7, name := [97], qtype := 1 }

def answeredQuery : Text := [0, 7, 1, 0, 0, 1, 0, 0, 0, 0, 0, 0, 1, 97, 0, 0, 1, 0, 1]

def answeringRecord : Record := ⟨[[97]], 2, 1, 60, 4, .a (Vector.replicate 4 9)⟩

def answeringHeader : Header := { id := 7, flags := 0x8180, qdcount := 1, ancount := 1 }

def answering : Text :=
  [0, 7, 0x81, 0x80, 0, 1, 0, 1, 0, 0, 0, 0, 1, 97, 0, 0, 1, 0, 1, 0xC0, 12, 0, 1, 0, 1, 0, 0, 0,
    60, 0, 4, 9, 9, 9, 9]

theorem responds_answering :
    Responds answeredQuery answering answeringHeader [answeringRecord] [] := by
  have hroot : Laid answering 14 1 [] := .root ⟨answering.drop 15, rfl⟩
  have hlabel : Occurs (labelOctets [97]) answering 12 := ⟨answering.drop 14, rfl⟩
  have hname : Laid answering 12 3 [[97]] := .label (List.cons_ne_nil _ _) (by simp) hlabel hroot
  have howner : Laid answering 19 2 [[97]] := .pointer (by decide) ⟨answering.drop 21, rfl⟩ hname
  have hrecord : RecordLaid answering 19 answeringRecord :=
    ⟨⟨howner, by decide, by decide⟩, ⟨answering.drop 31, rfl⟩, .a ⟨[], rfl⟩⟩
  exact ⟨rfl, by decide, rfl, by decide, rfl, rfl, rfl, ⟨answering.drop 19, rfl⟩, hrecord, rfl⟩

def unsetAddress : ResolvedAddress (Address .v4) := ⟨Vector.replicate 4 0, 0⟩

theorem answer_resolves_answering :
    ∃ d, (ResponseDecoder.ofResponse answering).consumeHeader = (.ok answeringHeader, d) ∧
      Stores (pendingRequest .v4 answeredQuestion 0 [unsetAddress]) answeringHeader d (.ok 1)
        [⟨Vector.replicate 4 9, 60000000000⟩] := by
  have hq : encodeQuestion (fun _ => 0) (fun _ => true) answeredQuestion = .ok answeredQuery := rfl
  obtain ⟨d, n, hheader, -, rfl, hstores⟩ :=
    answer_resolves .v4 hq (.inl (by decide)) responds_answering 0 [unsetAddress]
  exact ⟨d, hheader, hstores⟩

end Corosig.Dns.Protocol
