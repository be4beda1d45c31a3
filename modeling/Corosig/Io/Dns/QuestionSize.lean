import Corosig.Io.Dns.EncoderRuns

namespace Corosig.Dns.Protocol
open CompressedNames

variable {hash : Text → BitVec 16} {alloc : Nat → Bool} {e : Encoder} {q : Question}

namespace Encoder

theorem length_encodeLabels (labels : List Text) (remainingName : Text) (e : Encoder) :
    (encodeLabels hash alloc labels remainingName e).2.output.length ≤
      e.output.length + wireLength labels := by
  induction labels generalizing remainingName e with
  | nil =>
    rw [encodeLabels, put, List.length_append]
    exact Nat.le_refl _
  | cons label labels ih =>
    have hw := wrote_writeLabel hash alloc e label remainingName
    have hroot := wireLength_pos labels
    rw [encodeLabels, wireLength]
    generalize e.writeLabel hash alloc label remainingName = w at hw ⊢
    cases hw with
    | refused err _ => exact Nat.le_add_right _ _
    | found node hne _ _ _ =>
      have hlabel := List.length_pos_iff.mpr hne
      have hpointer : (encodeCompressionPtr node.offset).length = 2 := rfl
      simp only [put, List.length_append, hpointer]
      omega
    | written e' _ _ _ hout _ _ =>
      have hlen : e'.output.length = e.output.length + (label.length + 1) := by
        rw [hout, List.length_append, labelOctets, List.length_cons]
      refine (ih (remainingName.drop (label.length + 1)) e').trans ?_
      omega

theorem wireLength_splitIntoLabels_le (name : Text) :
    wireLength (splitIntoLabels name) ≤ name.length + 2 := by
  have hname : (removeSuffix name).length ≤ name.length := by
    obtain ⟨-, h⟩ | h := removeSuffix_cases name
    · rw [h]
    · rw [h, removeSuffix_of_dot, List.length_append]
      exact Nat.le_add_right _ _
  by_cases hsv : removeSuffix name = []
  · rw [splitIntoLabels, hsv, wireLength]
    omega
  · rw [splitIntoLabels_eq hsv, wireLength_splitOnP]
    omega

theorem length_encodeDomainName (e : Encoder) (name : Text) :
    (e.encodeDomainName hash alloc name).2.output.length ≤
      e.output.length + (fqdnMaxOctetLen + 2) := by
  rw [encodeDomainName]
  split
  · exact Nat.le_add_right _ _
  · rename_i hlen
    have hwire := wireLength_splitIntoLabels_le name
    exact (length_encodeLabels _ _ _).trans (by omega)

end Encoder

section Writing

variable (hash : Text → BitVec 16) (alloc : Nat → Bool)

def writtenOctets (q : Question) : Text :=
  match (⟨encodeHeader q.header, []⟩ : Encoder).encodeDomainName hash alloc q.name with
  | (.error _, e) => e.output
  | (.ok (), e) => e.output ++ writeHton (q.qtype.setWidth 16) ++
      writeHton (q.qclass.setWidth 16)

theorem encodeQuestion_written (q : Question) :
    encodeQuestion hash alloc q =
      (encodeQuestion hash alloc q).map fun _ => writtenOctets hash alloc q := by
  rw [encodeQuestion, writtenOctets]
  generalize (⟨encodeHeader q.header, []⟩ : Encoder).encodeDomainName hash alloc q.name = r
  rcases r with ⟨err | ⟨⟩, e⟩
  · rfl
  · rfl

theorem length_writtenOctets (q : Question) :
    (writtenOctets hash alloc q).length ≤ 12 + (fqdnMaxOctetLen + 2) + 4 := by
  have h : ((⟨encodeHeader q.header, []⟩ : Encoder).encodeDomainName hash alloc
      q.name).2.output.length ≤ _ := Encoder.length_encodeDomainName _ q.name
  have hheader : (encodeHeader q.header).length = 12 := rfl
  rw [hheader] at h
  rw [writtenOctets]
  generalize (⟨encodeHeader q.header, []⟩ : Encoder).encodeDomainName hash alloc q.name = r at h ⊢
  rcases r with ⟨err | ⟨⟩, e⟩
  · exact h.trans (Nat.le_add_right _ _)
  · have hname : e.output.length ≤ 12 + (fqdnMaxOctetLen + 2) := h
    have hfields : ∀ value, (writeHton value).length = 2 := fun _ => rfl
    simp only [List.length_append, hfields]
    omega

variable {size : Nat}

-- A bare iterator checks nothing: a write through it at the end of the array is a fault.
def writeThrough : Text → Nat → Vector Byte size → Option (Vector Byte size)
  | [], _, buf => some buf
  | c :: octets, it, buf =>
      if h : it < size then writeThrough octets (it + 1) (buf.set it c h) else none

theorem writeThrough_fits (octets before : Text) (buf : Vector Byte size)
    (hbefore : buf.toList.take before.length = before)
    (hroom : before.length + octets.length ≤ size) :
    ∃ buf', writeThrough octets before.length buf = some buf' ∧
      buf'.toList = before ++ octets ++ buf.toList.drop (before.length + octets.length) := by
  induction octets generalizing before buf with
  | nil =>
    refine ⟨buf, rfl, ?_⟩
    nth_rewrite 1 [← List.take_append_drop before.length buf.toList]
    rw [hbefore, List.append_nil, List.length_nil, Nat.add_zero]
  | cons c octets ih =>
    rw [List.length_cons] at hroom
    have hit : before.length < size := by omega
    have hset : (buf.set before.length c hit).toList = buf.toList.set before.length c := by
      rw [← Vector.toList_toArray, Vector.toArray_set, Array.toList_set, Vector.toList_toArray]
    have hnext : (buf.set before.length c hit).toList.take (before ++ [c]).length =
        before ++ [c] := by
      have hlen : before.length < (buf.toList.set before.length c).length := by
        rw [List.length_set, Vector.length_toList]
        exact hit
      rw [hset, List.length_append, List.length_singleton, List.take_add_one,
        List.getElem?_eq_getElem hlen, List.getElem_set_self, List.take_set_of_le (Nat.le_refl _),
        hbefore]
      rfl
    obtain ⟨buf', hrun, hlist⟩ := ih (before ++ [c]) (buf.set before.length c hit) hnext (by
      rw [List.length_append, List.length_singleton]
      omega)
    rw [List.length_append, List.length_singleton] at hrun hlist
    refine ⟨buf', ?_, ?_⟩
    · rw [writeThrough, dif_pos hit]
      exact hrun
    · rw [hlist, hset, List.drop_set_of_lt (by omega), List.append_assoc before [c] octets,
        List.length_cons, Nat.add_assoc before.length 1, Nat.add_comm 1]
      rfl

-- process_request's call: encode_buf.begin() goes in, and the end of what was written comes out.
def encodeInto (encodeBuf : Vector Byte 512) (q : Question) :
    Option (Vector Byte 512 × Except QuestionEncodeError Nat) :=
  (writeThrough (writtenOctets hash alloc q) 0 encodeBuf).map fun buf =>
    (buf, (encodeQuestion hash alloc q).map List.length)

theorem encodeInto_inside (encodeBuf : Vector Byte 512) (q : Question) :
    (writtenOctets hash alloc q).length ≤ 273 ∧
      encodeQuestion hash alloc q =
        (encodeQuestion hash alloc q).map (fun _ => writtenOctets hash alloc q) ∧
      ∃ buf, encodeInto hash alloc encodeBuf q =
          some (buf, (encodeQuestion hash alloc q).map List.length) ∧
        buf.toList = writtenOctets hash alloc q ++
          encodeBuf.toList.drop (writtenOctets hash alloc q).length := by
  have hlen : (writtenOctets hash alloc q).length ≤ 273 := length_writtenOctets hash alloc q
  refine ⟨hlen, encodeQuestion_written hash alloc q, ?_⟩
  obtain ⟨buf, hrun, hlist⟩ :=
    writeThrough_fits (writtenOctets hash alloc q) [] encodeBuf rfl (by
      rw [List.length_nil]
      omega)
  rw [List.length_nil, Nat.zero_add] at hlist
  refine ⟨buf, ?_, hlist⟩
  rw [encodeInto]
  exact congrArg _ hrun

end Writing

end Corosig.Dns.Protocol
