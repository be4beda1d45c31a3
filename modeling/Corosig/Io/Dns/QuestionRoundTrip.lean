import Corosig.Io.Dns.Compression

namespace Corosig.Dns.Protocol
open CompressedNames Loop NetworkOrder

theorem flags_of_question {opcode : BitVec 8} (h : opcode < 16) (recursionDesired : Bool) :
    Header.opcode (Header.setRecursionDesired (Header.setOpcode 0 opcode) recursionDesired) =
        opcode ∧
      Header.recursionDesired
        (Header.setRecursionDesired (Header.setOpcode 0 opcode) recursionDesired) =
          recursionDesired := by
  have hall : ∀ n < 16, ∀ rd : Bool,
      Header.opcode (Header.setRecursionDesired (Header.setOpcode 0 (BitVec.ofNat 8 n)) rd) =
          BitVec.ofNat 8 n ∧
        Header.recursionDesired
          (Header.setRecursionDesired (Header.setOpcode 0 (BitVec.ofNat 8 n)) rd) = rd := by
    decide +kernel
  have hn := hall opcode.toNat (BitVec.lt_def.mp h) recursionDesired
  rwa [BitVec.ofNat_toNat, BitVec.setWidth_eq] at hn

theorem wireLength_splitIntoLabels (name : Text) :
    wireLength (splitIntoLabels name) ≤ fqdnMaxOctetLen ↔
      name.length ≤ 253 ∨ name.length = 254 ∧ endsWithDot name := by
  have hwire : wireLength (splitIntoLabels name) ≤ fqdnMaxOctetLen ↔
      (removeSuffix name).length ≤ 253 := by
    cases hsv : removeSuffix name with
    | nil =>
      have hnil : splitIntoLabels name = [] := by
        rw [splitIntoLabels, hsv]
      rw [hnil]
      decide
    | cons c rest =>
      rw [splitIntoLabels_eq (by simp [hsv]), wireLength_splitOnP, hsv, fqdnMaxOctetLen]
      omega
  rw [hwire]
  obtain ⟨hdot, h⟩ | h := removeSuffix_cases name
  · rw [h]
    exact ⟨.inl, fun hor => hor.resolve_right fun hc => hdot hc.2⟩
  · have hdot : endsWithDot name := by
      rw [h]
      simp [endsWithDot]
    have hlen : name.length = (removeSuffix name).length + 1 := by
      rw [h, removeSuffix_of_dot, List.length_append, List.length_singleton]
    simp only [hdot, and_true]
    omega

namespace Encoder

variable {hash : Text → BitVec 16} {alloc : Nat → Bool} {e e' : Encoder}

theorem find_none {node : Node} (h : ∀ bucket ∈ e.buckets, node.str.length < bucket.str.length) :
    e.find node = none := by
  cases hf : e.find node with
  | none => rfl
  | some found =>
    obtain ⟨hmem, hstr⟩ := find_some hf
    exact absurd (h found hmem) (by rw [hstr]; exact Nat.lt_irrefl _)

theorem encodeLabels_valid {sv : Text} (after : Text) {labels : List Text}
    (hsplit : sv.splitOnP (· = dot) = labels)
    (hlong : ∀ node ∈ e.buckets, (sv ++ after).length < node.str.length)
    (h : encodeLabels hash alloc labels (sv ++ after) e = (.ok (), e')) : Valid labels := by
  induction labels generalizing e sv with
  | nil => exact fun label hl => (by cases hl)
  | cons label labels ih =>
    rw [encodeLabels, writeLabel] at h
    obtain rfl | hne := eq_or_ne label []
    · rw [if_pos rfl] at h
      cases h
    obtain hlt | hshort := Nat.lt_or_ge 63 label.length
    · rw [if_neg hne, if_pos hlt] at h
      cases h
    have hnone : e.find ⟨hash (sv ++ after), e.output.length % 2 ^ 16, sv ++ after⟩ = none :=
      find_none hlong
    simp only [if_neg hne, if_neg (Nat.not_lt.mpr hshort), hnone] at h
    refine List.forall_mem_cons.mpr ⟨⟨hne, hshort⟩, ?_⟩
    obtain ⟨rfl, rfl⟩ | ⟨rest, rfl, hrest⟩ := splitOnP_cases hsplit
    · exact fun label hl => (by cases hl)
    · have hdrop : (label ++ dot :: rest ++ after).drop (label.length + 1) = rest ++ after := by
        rw [← List.drop_drop, List.append_assoc, List.drop_left]
        rfl
      rw [hdrop] at h
      refine ih hrest (fun node hn => ?_) h
      have hlen : (rest ++ after).length < (label ++ dot :: rest ++ after).length := by
        simp only [List.length_append, List.length_cons]
        omega
      have hbuckets : node.str = label ++ dot :: rest ++ after ∨ node ∈ e.buckets := by
        split at hn
        · exact (mem_insert hn).imp_left (congrArg Node.str)
        · exact .inr hn
      obtain hstr | hn := hbuckets
      · rwa [hstr]
      · exact hlen.trans (hlong node hn)

theorem valid_of_encodeDomainName {output name : Text}
    (h : (⟨output, []⟩ : Encoder).encodeDomainName hash alloc name = (.ok (), e')) :
    Valid (splitIntoLabels name) ∧ name.length ≤ fqdnMaxOctetLen := by
  rw [encodeDomainName] at h
  split at h
  · cases h
  · rename_i hlen
    refine ⟨?_, Nat.not_lt.mp hlen⟩
    obtain hnil | hne := eq_or_ne (removeSuffix name) []
    · rw [splitIntoLabels, hnil]
      exact fun label hl => (by cases hl)
    · rw [splitIntoLabels_eq hne] at h ⊢
      obtain ⟨after, hafter⟩ : ∃ after, name = removeSuffix name ++ after := by
        obtain ⟨-, hname⟩ | hname := removeSuffix_cases name
        · exact ⟨[], by rw [hname, List.append_nil]⟩
        · exact ⟨_, hname⟩
      have hlabels : encodeLabels hash alloc ((removeSuffix name).splitOnP (· = dot))
          (removeSuffix name ++ after) ⟨output, []⟩ = (.ok (), e') := by
        rw [← hafter]
        exact h
      exact encodeLabels_valid after rfl (fun node hn => (by cases hn)) hlabels

end Encoder

variable {hash : Text → BitVec 16} {alloc : Nat → Bool} {q : Question} {bytes : Text}

theorem readNtoh_writeHton (value : BitVec 16) : readNtoh 16 (writeHton value) = value := by
  rw [writeHton_bigEndian]
  exact readNtoh_bigEndian 2 value

theorem length_encodeHeader (header : Header) : (encodeHeader header).length = 12 := rfl

theorem consumeHeader_encodeHeader (header : Header) (rest : Text) :
    (ResponseDecoder.ofResponse (encodeHeader header ++ rest)).consumeHeader =
      (.ok header, ⟨encodeHeader header ++ rest,
        (Span.suffix (encodeHeader header ++ rest) 0 (Nat.zero_le _)).subspan 12⟩) := by
  have hbytes : (Span.suffix (encodeHeader header ++ rest) 0 (Nat.zero_le _)).bytes =
      encodeHeader header ++ rest := List.take_length
  have hsize : ¬ (Span.suffix (encodeHeader header ++ rest) 0 (Nat.zero_le _)).size < 12 := by
    simp only [Span.suffix, List.length_append, length_encodeHeader]
    omega
  have hfield : ∀ i value, ((encodeHeader header ++ rest).drop (2 * i)).take 2 = writeHton value →
      readNtoh 16 (((encodeHeader header ++ rest).drop (2 * i)).take 2) = value := by
    intro i value h
    rw [h, readNtoh_writeHton]
  rw [ResponseDecoder.consumeHeader]
  simp only [ResponseDecoder.ofResponse, hbytes]
  rw [if_neg hsize, hfield 0 header.id rfl, hfield 1 header.flags rfl, hfield 2 header.qdcount rfl,
    hfield 3 header.ancount rfl, hfield 4 header.nscount rfl, hfield 5 header.arcount rfl]

def RoundTrips (q : Question) (bytes : Text) : Prop :=
  ∃ header d fuel v d', (ResponseDecoder.ofResponse bytes).consumeHeader = (.ok header, d) ∧
    header.id = q.id ∧ Header.opcode header.flags = q.opcode ∧
    Header.recursionDesired header.flags = q.recursionDesired ∧ header.qdcount = 1 ∧
    header.ancount = 0 ∧ header.nscount = 0 ∧ header.arcount = 0 ∧
    d.consumeQuestionEntry fuel = some (.ok v, d') ∧ v.name.Labels (splitIntoLabels q.name) ∧
    v.qtype = q.qtype ∧ v.qclass = q.qclass ∧ d'.remainingMessage.size = 0

theorem encodeQuestion_laid (h : encodeQuestion hash alloc q = .ok bytes) :
    ∃ written, bytes = encodeHeader q.header ++ written ++ writeHton (q.qtype.setWidth 16) ++
        writeHton (q.qclass.setWidth 16) ∧
      written.length ≤ wireLength (splitIntoLabels q.name) ∧
      Laid bytes 12 written.length (splitIntoLabels q.name) := by
  rw [encodeQuestion] at h
  split at h
  · cases h
  · rename_i e he
    cases h
    obtain ⟨hvalid, hlen⟩ := Encoder.valid_of_encodeDomainName he
    have hstart : Encoder.Sound ⟨encodeHeader q.header, []⟩ := fun _ hn => (by cases hn)
    obtain ⟨e', written, he', hout, -, hlaid, hle⟩ :=
      Encoder.encodeLabels_laid hash alloc hvalid rfl (hstart.halfway _ q.name)
    rw [Encoder.encodeDomainName, if_neg (Nat.not_lt.mpr hlen), he'] at he
    cases he
    refine ⟨written, by rw [hout], hle, ?_⟩
    exact (hlaid.append _).append _

theorem encodeQuestion_ok (hash : Text → BitVec 16) (alloc : Nat → Bool)
    (hvalid : Valid (splitIntoLabels q.name)) (hlen : q.name.length ≤ fqdnMaxOctetLen) :
    ∃ bytes, encodeQuestion hash alloc q = .ok bytes := by
  have hstart : Encoder.Sound ⟨encodeHeader q.header, []⟩ := fun _ hn => (by cases hn)
  obtain ⟨e, written, he, -⟩ :=
    Encoder.encodeLabels_laid hash alloc hvalid rfl (hstart.halfway _ q.name)
  have hname : (⟨encodeHeader q.header, []⟩ : Encoder).encodeDomainName hash alloc q.name =
      (.ok (), e) := by
    rw [Encoder.encodeDomainName, if_neg (Nat.not_lt.mpr hlen), he]
  exact ⟨e.output ++ writeHton (q.qtype.setWidth 16) ++ writeHton (q.qclass.setWidth 16), by
    rw [encodeQuestion, hname]⟩

theorem roundTrips_of_fits (hopcode : q.opcode < 16) (h : encodeQuestion hash alloc q = .ok bytes)
    (hfits : wireLength (splitIntoLabels q.name) ≤ fqdnMaxOctetLen) : RoundTrips q bytes := by
  obtain ⟨written, hbytes, hlen, hlaid⟩ := encodeQuestion_laid h
  obtain ⟨hop, hrd⟩ := flags_of_question hopcode q.recursionDesired
  have hheader := consumeHeader_encodeHeader q.header
    (written ++ writeHton (q.qtype.setWidth 16) ++ writeHton (q.qclass.setWidth 16))
  rw [← List.append_assoc, ← List.append_assoc, ← hbytes] at hheader
  have hlength : bytes.length = 12 + written.length + 4 := by
    rw [hbytes]
    simp only [List.length_append, length_encodeHeader, writeHton, List.length_cons,
      List.length_nil]
  have hsize : written.length % 256 = written.length :=
    Nat.mod_eq_of_lt ((hlen.trans hfits).trans_lt (by decide))
  let data := (Span.suffix bytes 0 (Nat.zero_le _)).subspan 12
  have hoff : data.off = 12 := by
    simp only [data, Span.subspan, Span.suffix]
    omega
  have hroom : data.size = written.length + 4 := by
    simp only [data, Span.subspan, Span.suffix]
    omega
  obtain ⟨fuel, hname⟩ := (parseDomainName_yields_iff data ⟨written.length, 12⟩).mpr
    ⟨written.length, _, hoff.symm ▸ hlaid, by omega, hfits, by rw [hsize, hoff]⟩
  have hfields : Occurs (bigEndian 2 (q.qtype.setWidth 16).toNat ++
      (bigEndian 2 (q.qclass.setWidth 16).toNat ++ [])) bytes
      (data.subspan written.length).off := by
    have hat := occurs_here (encodeHeader q.header ++ written)
      (writeHton (q.qtype.setWidth 16) ++ (writeHton (q.qclass.setWidth 16) ++ [])) []
    rw [List.length_append, length_encodeHeader, ← hoff, ← Span.subspan_off (by omega)] at hat
    simpa only [hbytes, ← writeHton_bigEndian, List.append_nil, List.append_assoc] using hat
  obtain ⟨hqtype, hfields, hleft⟩ := consume2Octets_field hfields (by
    simp only [List.length_append, length_bigEndian, List.length_nil, Span.subspan]
    omega)
  obtain ⟨hqclass, -, -⟩ := consume2Octets_field hfields (by
    simpa only [List.length_append, length_bigEndian] using hleft)
  refine ⟨q.header, ⟨bytes, data⟩, fuel, _, _, hheader, rfl, hop, hrd, rfl, rfl, rfl, rfl,
    ResponseDecoder.consumeQuestionEntry_ok.mpr
      ⟨_, _, _, _, _, hname, hqtype, hqclass, rfl, rfl⟩, labels_of_laid hlaid, ?_, ?_, ?_⟩
  · exact BitVec.setWidth_setWidth_of_le _ (show 8 ≤ 16 by decide)
  · exact BitVec.setWidth_setWidth_of_le _ (show 8 ≤ 16 by decide)
  · simp only [Span.subspan, hroom]
    omega

theorem fits_of_roundTrips (h : RoundTrips q bytes) :
    wireLength (splitIntoLabels q.name) ≤ fqdnMaxOctetLen := by
  obtain ⟨header, d, fuel, v, d', -, -, -, -, -, -, -, -, hentry, hlabels, -⟩ := h
  obtain ⟨domainName, qtype, qclass, remaining, remaining', hname, -, -, rfl, -⟩ :=
    ResponseDecoder.consumeQuestionEntry_ok.mp hentry
  obtain ⟨size, labels, hlaid, -, hwire, rfl⟩ :=
    (parseDomainName_yields_iff _ _).mp ⟨fuel, hname⟩
  have hsame := yields_unique hlabels (labels_of_laid hlaid)
  rw [Option.some.inj hsame]
  exact hwire

theorem encodeQuestion_roundTrips_iff (hash : Text → BitVec 16) (alloc : Nat → Bool) (q : Question)
    (bytes : Text) (hopcode : q.opcode < 16) (h : encodeQuestion hash alloc q = .ok bytes) :
    RoundTrips q bytes ↔ q.name.length ≤ 253 ∨ q.name.length = 254 ∧ endsWithDot q.name :=
  calc RoundTrips q bytes
    _ ↔ wireLength (splitIntoLabels q.name) ≤ fqdnMaxOctetLen :=
      ⟨fits_of_roundTrips, roundTrips_of_fits hopcode h⟩
    _ ↔ q.name.length ≤ 253 ∨ q.name.length = 254 ∧ endsWithDot q.name :=
      wireLength_splitIntoLabels q.name

theorem encodeQuestion_roundTrips_host : ∃ bytes,
    encodeQuestion (fun _ => 0) (fun _ => true) { id := 7, name := Encoder.hostName } = .ok bytes ∧
      RoundTrips { id := 7, name := Encoder.hostName } bytes := by
  refine ⟨_, rfl, (encodeQuestion_roundTrips_iff (fun _ => 0) (fun _ => true)
    { id := 7, name := Encoder.hostName } _ (by decide) rfl).mpr ?_⟩
  exact .inl (by decide)

def longLabel (n : Nat) : Text := List.replicate n 97

def longName : Text :=
  longLabel 63 ++ dot :: longLabel 63 ++ dot :: longLabel 63 ++ dot :: longLabel 62

theorem encodeQuestion_not_roundTrips : ¬ ∀ (hash : Text → BitVec 16) (alloc : Nat → Bool)
    (q : Question) (bytes : Text), q.opcode < 16 → encodeQuestion hash alloc q = .ok bytes →
    RoundTrips q bytes := by
  intro h
  let q : Question := { id := 7, name := longName }
  have hvalid : Valid (splitIntoLabels longName) := by
    unfold Valid
    decide +kernel
  obtain ⟨bytes, hbytes⟩ :=
    encodeQuestion_ok (q := q) (fun _ => 0) (fun _ => false) hvalid (by decide +kernel)
  have hfits := fits_of_roundTrips (h _ _ q bytes (by decide) hbytes)
  exact absurd hfits (by decide +kernel)

end Corosig.Dns.Protocol
