import Corosig.Io.Dns.Encoder

namespace Corosig.Dns.Protocol
open CompressedNames Loop NetworkOrder

theorem octet_congr {n m : Nat} (h : n % 256 = m % 256) : octet n = octet m := Fin.ext h

theorem writeHton_eq (value : BitVec 16) :
    writeHton value = [octet (value.toNat / 256), octet value.toNat] := by
  have hmask : ∀ n : Nat, n &&& 255 = n % 256 := fun n => Nat.and_two_pow_sub_one_eq_mod n 8
  have hbyte : (0xFF : BitVec 16).toNat = 255 := rfl
  rw [writeHton, BitVec.toNat_and, BitVec.toNat_and, BitVec.toNat_ushiftRight,
    Nat.shiftRight_eq_div_pow, hbyte, hmask, hmask, octet_congr (Nat.mod_mod _ _),
    octet_congr (Nat.mod_mod _ _)]

theorem writeHton_bigEndian (value : BitVec 16) : writeHton value = bigEndian 2 value.toNat := by
  rw [writeHton_eq]
  rfl

theorem encodeCompressionPtr_eq {offset : Nat} (h : offset ≤ 0x3FFF) :
    encodeCompressionPtr offset = pointerOctets offset := by
  have hor : 0xC000 ||| offset = 0xC000 + offset := by
    have := Nat.shiftLeft_add_eq_or_of_lt (show offset < 2 ^ 14 by omega) 3
    simpa using this.symm
  have hval : (BitVec.ofNat 16 markerBits ||| BitVec.ofNat 16 offset).toNat =
      0xC000 + offset := by
    have hmarker : (BitVec.ofNat 16 markerBits).toNat = 0xC000 := rfl
    rw [BitVec.toNat_or, hmarker, BitVec.toNat_ofNat, Nat.mod_eq_of_lt (by omega)]
    exact hor
  have hhi : (0xC000 + offset) / 256 = 0xC0 + offset / 256 := by omega
  have hlo : octet (0xC000 + offset) = octet offset := octet_congr (by omega)
  rw [encodeCompressionPtr, writeHton_eq, hval, pointerOctets, hhi, hlo]

namespace Encoder

def Recorded (message : Text) (node : Node) : Prop :=
  node.offset ≤ 0x3FFF ∧ ∃ size, Laid message node.offset size (splitIntoLabels node.str)

-- A node entered for a name that failed stands on octets that were never completed; its string
-- has a label that is empty or too long.
def Trusted (message : Text) (node : Node) : Prop :=
  Valid (splitIntoLabels node.str) → Recorded message node

def Sound (e : Encoder) : Prop := ∀ node ∈ e.buckets, Trusted e.output node

-- While a name is being written, the nodes entered for it stand on the labels still to come. They
-- belong to longer remainders, so none of them is found for what is left.
def Halfway (e : Encoder) (labels : List Text) (remainingName : Text) : Prop :=
  ∀ node ∈ e.buckets, Trusted e.output node ∨
    remainingName.length < node.str.length ∧ ∀ message size, e.output <+: message →
      Laid message e.output.length size labels → Recorded message node

variable {hash : Text → BitVec 16} {alloc : Nat → Bool} {e : Encoder} {node found : Node}
  {label remainingName name : Text} {labels : List Text}

theorem Recorded.extend {message message' : Text} (h : Recorded message node)
    (hp : message <+: message') : Recorded message' node := by
  obtain ⟨hsmall, size, hlaid⟩ := h
  obtain ⟨extra, rfl⟩ := hp
  exact ⟨hsmall, size, hlaid.append extra⟩

theorem Trusted.extend {message message' : Text} (h : Trusted message node)
    (hp : message <+: message') : Trusted message' node :=
  fun hvalid => (h hvalid).extend hp

theorem find_some (h : e.find node = some found) :
    found ∈ e.buckets ∧ found.str = node.str := by
  obtain ⟨hget, hsame⟩ := Option.filter_eq_some_iff.mp h
  obtain ⟨-, hstr⟩ := of_decide_eq_true hsame
  exact ⟨List.mem_of_getElem? hget, hstr⟩

theorem mem_insert {node' : Node} (h : node' ∈ (e.insert node).buckets) :
    node' = node ∨ node' ∈ e.buckets :=
  (List.mem_insertIdx (List.takeWhile_prefix _).length_le).mp h

theorem Sound.halfway (h : Sound e) (labels : List Text) (remainingName : Text) :
    Halfway e labels remainingName :=
  fun node hn => .inl (h node hn)

theorem Halfway.finish (h : Halfway e labels remainingName) {written : Text}
    (hlaid : Laid (e.output ++ written) e.output.length written.length labels) :
    Sound (e.put written) := by
  intro node hn
  obtain hr | ⟨-, hr⟩ := h node hn
  · exact hr.extend (List.prefix_append _ _)
  · exact fun _ => hr _ _ (List.prefix_append _ _) hlaid

theorem Halfway.next {e' : Encoder} (h : Halfway e (label :: labels) remainingName)
    (hne : label ≠ []) (hshort : label.length ≤ 63)
    (hsplit : splitIntoLabels remainingName = label :: labels)
    (hout : e'.output = e.output ++ labelOctets label)
    (hentered : ∀ node ∈ e'.buckets, node ∈ e.buckets ∨
      node.str = remainingName ∧ node.offset = e.output.length ∧ node.offset ≤ 0x3FFF) :
    Halfway e' labels (remainingName.drop (label.length + 1)) := by
  have hlong : (remainingName.drop (label.length + 1)).length < remainingName.length := by
    have hpos : remainingName ≠ [] := by
      rintro rfl
      cases hsplit
    have := List.length_pos_iff.mpr hpos
    rw [List.length_drop]
    omega
  have hlaid : ∀ message size, e'.output <+: message →
      Laid message e'.output.length size labels →
      Laid message e.output.length (label.length + 1 + size) (label :: labels) := by
    rw [hout]
    rintro _ size ⟨after, rfl⟩ hrest
    rw [List.length_append, labelOctets, List.length_cons] at hrest
    exact .label hne hshort (occurs_here _ _ _) hrest
  have hfront : e.output <+: e'.output := hout ▸ List.prefix_append _ _
  intro node hn
  obtain hn | ⟨hstr, hoff, hsmall⟩ := hentered node hn
  · obtain hr | ⟨hlen, hr⟩ := h node hn
    · exact .inl (hr.extend hfront)
    · exact .inr ⟨hlong.trans hlen, fun message size hp hrest =>
        hr message _ (hfront.trans hp) (hlaid message size hp hrest)⟩
  · refine .inr ⟨hstr ▸ hlong, fun message size hp hrest =>
      ⟨hsmall, label.length + 1 + size, ?_⟩⟩
    rw [hoff, hstr, hsplit]
    exact hlaid message size hp hrest

variable (hash : Text → BitVec 16) (alloc : Nat → Bool)

theorem writeLabel_cases (h : Halfway e (label :: labels) remainingName)
    (hvalid : Valid (label :: labels)) (hsplit : splitIntoLabels remainingName = label :: labels) :
    (∃ offset size, e.writeLabel hash alloc label remainingName =
        (.ok true, e.put (pointerOctets offset)) ∧ offset ≤ 0x3FFF ∧
        Laid e.output offset size (label :: labels)) ∨
      ∃ e', e.writeLabel hash alloc label remainingName = (.ok false, e') ∧
        e'.output = e.output ++ labelOctets label ∧
        Halfway e' labels (remainingName.drop (label.length + 1)) := by
  obtain ⟨hne, hshort⟩ := hvalid label List.mem_cons_self
  simp only [writeLabel, if_neg hne, if_neg (Nat.not_lt.mpr hshort)]
  split
  · rename_i found hfound
    obtain ⟨hmem, hstr⟩ := find_some hfound
    obtain htrusted | ⟨hlen, -⟩ := h found hmem
    · obtain ⟨hsmall, size, hlaid⟩ := htrusted (by rw [hstr, hsplit]; exact hvalid)
      rw [hstr, hsplit] at hlaid
      exact .inl ⟨found.offset, size, by rw [encodeCompressionPtr_eq hsmall], hsmall, hlaid⟩
    · exact absurd hlen (by rw [hstr]; exact Nat.lt_irrefl _)
  · refine .inr ⟨_, rfl, ?_, h.next hne hshort hsplit ?_ ?_⟩
    · split <;> rfl
    · split <;> rfl
    · intro node hn
      split at hn
      · rename_i hroom
        obtain rfl | hn := mem_insert hn
        · have hsmall : e.output.length ≤ 0x3FFF := hroom.1
          have hmod : e.output.length % 2 ^ 16 = e.output.length := Nat.mod_eq_of_lt (by omega)
          exact .inr ⟨rfl, hmod, hmod.symm ▸ hsmall⟩
        · exact .inl hn
      · exact .inl hn

theorem encodeLabels_laid (hvalid : Valid labels) (hsplit : splitIntoLabels remainingName = labels)
    (h : Halfway e labels remainingName) :
    ∃ e' written, encodeLabels hash alloc labels remainingName e = (.ok (), e') ∧
      e'.output = e.output ++ written ∧ Sound e' ∧
      Laid e'.output e.output.length written.length labels ∧
      written.length ≤ wireLength labels := by
  induction labels generalizing e remainingName with
  | nil =>
    have hlaid : Laid (e.output ++ [octet 0]) e.output.length 1 [] := by
      have := occurs_here e.output [octet 0] []
      rw [List.append_nil] at this
      exact .root this
    exact ⟨_, [octet 0], rfl, rfl, h.finish hlaid, hlaid, Nat.le_refl 1⟩
  | cons label labels ih =>
    obtain ⟨⟨hne, hshort⟩, hrest⟩ := List.forall_mem_cons.mp hvalid
    have hlen := List.length_pos_iff.mpr hne
    obtain ⟨offset, size, hw, hsmall, hold⟩ | ⟨e', hw, hout, hhalf⟩ :=
      writeLabel_cases hash alloc h hvalid hsplit
    · have hlaid : Laid (e.output ++ pointerOctets offset) e.output.length 2 (label :: labels) := by
        have := occurs_here e.output (pointerOctets offset) []
        rw [List.append_nil] at this
        exact .pointer hsmall this (hold.append _)
      refine ⟨_, pointerOctets offset, ?_, rfl, h.finish hlaid, hlaid, ?_⟩
      · rw [encodeLabels, hw]
      · have := wireLength_pos labels
        rw [wireLength, pointerOctets, List.length_cons, List.length_singleton]
        omega
    · have hsplit' := splitIntoLabels_drop hsplit (Valid.ne_emptyLabel hrest)
      obtain ⟨e'', written, he, hout', hsound, hlaid, hwire⟩ := ih hrest hsplit' hhalf
      have hall : e''.output = e.output ++ (labelOctets label ++ written) := by
        rw [hout', hout, List.append_assoc]
      refine ⟨e'', labelOctets label ++ written, ?_, hall, hsound, ?_, ?_⟩
      · rw [encodeLabels, hw]
        exact he
      · rw [hout, List.length_append, labelOctets, List.length_cons] at hlaid
        rw [List.length_append, labelOctets, List.length_cons]
        refine .label hne hshort ?_ hlaid
        rw [hall, ← List.append_assoc]
        exact occurs_here _ _ _
      · rw [wireLength, List.length_append, labelOctets, List.length_cons]
        omega

theorem encodeDomainName_laid (hvalid : Valid (splitIntoLabels name))
    (hwire : wireLength (splitIntoLabels name) ≤ fqdnMaxOctetLen) (h : Sound e) :
    ∃ e' written, e.encodeDomainName hash alloc name = (.ok (), e') ∧
      e'.output = e.output ++ written ∧ Sound e' ∧
      Laid e'.output e.output.length written.length (splitIntoLabels name) ∧
      written.length ≤ fqdnMaxOctetLen := by
  have hlen : name.length ≤ fqdnMaxOctetLen := (length_splitIntoLabels name).trans hwire
  obtain ⟨e', written, he, hout, hsound, hlaid, hle⟩ :=
    encodeLabels_laid hash alloc hvalid rfl (h.halfway _ name)
  refine ⟨e', written, ?_, hout, hsound, hlaid, hle.trans hwire⟩
  rw [encodeDomainName, if_neg (Nat.not_lt.mpr hlen), he]

theorem encodeNames_append (before after : List Text) {e' : Encoder}
    (h : e.encodeNames hash alloc before = (.ok (), e')) :
    e.encodeNames hash alloc (before ++ after) = e'.encodeNames hash alloc after := by
  induction before generalizing e with
  | nil =>
    cases h
    rfl
  | cons name before ih =>
    rw [List.cons_append, encodeNames]
    rw [encodeNames] at h
    split at h
    · cases h
    · exact ih h

def Fits (name : Text) : Prop :=
  Valid (splitIntoLabels name) ∧ wireLength (splitIntoLabels name) ≤ fqdnMaxOctetLen

theorem encodeNames_sound {names : List Text} (hfits : ∀ name ∈ names, Fits name)
    (h : Sound e) :
    ∃ e', e.encodeNames hash alloc names = (.ok (), e') ∧ Sound e' ∧
      e.output <+: e'.output := by
  induction names generalizing e with
  | nil => exact ⟨e, rfl, h, List.prefix_rfl⟩
  | cons name names ih =>
    obtain ⟨⟨hvalid, hwire⟩, hrest⟩ := List.forall_mem_cons.mp hfits
    obtain ⟨e₁, written, he₁, hout, hsound, -, -⟩ :=
      encodeDomainName_laid hash alloc hvalid hwire h
    obtain ⟨e₂, he₂, hsound₂, hfront⟩ := ih hrest hsound
    refine ⟨e₂, ?_, hsound₂, .trans ?_ hfront⟩
    · rw [encodeNames, he₁]
      exact he₂
    · exact hout ▸ List.prefix_append _ _

theorem encodeNames_decodes (output : Text) (names : List Text)
    (hfits : ∀ name ∈ names, Fits name) :
    ∃ e, (⟨output, []⟩ : Encoder).encodeNames hash alloc names = (.ok (), e) ∧
      ∀ before name after, names = before ++ name :: after → ∃ e₁ e₂,
        (⟨output, []⟩ : Encoder).encodeNames hash alloc before = (.ok (), e₁) ∧
        e₁.encodeDomainName hash alloc name = (.ok (), e₂) ∧
        e₂.encodeNames hash alloc after = (.ok (), e) ∧
        ∃ written, e₂.output = e₁.output ++ written ∧
          Decodes e.output e₁.output.length written.length (splitIntoLabels name) := by
  have hstart : Sound ⟨output, []⟩ := fun _ hn => (by cases hn)
  obtain ⟨e, he, -, -⟩ := encodeNames_sound hash alloc hfits hstart
  refine ⟨e, he, ?_⟩
  rintro before name after rfl
  rw [List.forall_mem_append, List.forall_mem_cons] at hfits
  obtain ⟨hbefore, ⟨hvalid, hwire⟩, hafter⟩ := hfits
  obtain ⟨e₁, he₁, hsound₁, -⟩ := encodeNames_sound hash alloc hbefore hstart
  obtain ⟨e₂, written, he₂, hout, hsound₂, hlaid, hlen⟩ :=
    encodeDomainName_laid hash alloc hvalid hwire hsound₁
  obtain ⟨e₃, he₃, -, hfront⟩ := encodeNames_sound hash alloc hafter hsound₂
  have hrun : e₂.encodeNames hash alloc after = (.ok (), e) := by
    rw [← he, encodeNames_append hash alloc before (name :: after) he₁, encodeNames, he₂]
  obtain rfl : e₃ = e := by
    rw [he₃] at hrun
    exact (Prod.mk.inj hrun).2
  refine ⟨e₁, e₂, he₁, he₂, hrun, written, hout, ?_⟩
  obtain ⟨extra, hextra⟩ := hfront
  exact decodes_of_laid (hextra ▸ hlaid.append extra) (Nat.lt_succ_of_le hlen) hwire

def hostName : Text := [97, 46, 98]

def domainName : Text := [98]

theorem encodeNames_decodes_shared : ∃ e pos written,
    (⟨[], []⟩ : Encoder).encodeNames (fun _ => 0) (fun _ => true) [hostName, domainName] =
      (.ok (), e) ∧ Decodes e.output pos (written : Text).length (splitIntoLabels domainName) := by
  have hfits : ∀ name ∈ [hostName, domainName], Fits name := by
    simp only [Fits, Valid]
    decide
  obtain ⟨e, he, hall⟩ :=
    encodeNames_decodes (fun _ => 0) (fun _ => true) [] [hostName, domainName] hfits
  obtain ⟨e₁, _, -, -, -, written, -, hd⟩ := hall [hostName] domainName [] rfl
  exact ⟨e, e₁.output.length, written, he, hd⟩

end Encoder

end Corosig.Dns.Protocol
