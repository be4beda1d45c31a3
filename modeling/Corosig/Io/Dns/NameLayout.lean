import Corosig.Io.Dns.Name
import Corosig.Library.CompressedNames

namespace Corosig.Dns
open CompressedNames Loop Orbit Relation

variable {message : Text}

theorem decodeCompressionPtr_eq (hi lo : Byte) (rest : Text) :
    decodeCompressionPtr (hi :: lo :: rest) =
      if 0xC0 ≤ hi.val then some ((hi.val - 0xC0) * 256 + lo.val) else none := by
  have hmarker : (hi.val <<< 8 ||| lo.val) &&& markerBits = markerBits ↔ 0xC0 ≤ hi.val := by
    have hhi : ∀ hi : Byte, (hi.val <<< 8) &&& markerBits = markerBits ↔ 0xC0 ≤ hi.val := by
      decide +kernel
    have hlo : ∀ lo : Byte, lo.val &&& markerBits = 0 := by decide +kernel
    rw [Nat.and_or_distrib_right, hlo, Nat.or_zero, hhi]
  have hoffset : (hi.val <<< 8 ||| lo.val) &&& maxValue = hi.val % 64 * 256 + lo.val := by
    have hhi : ∀ hi : Byte, (hi.val <<< 8) &&& maxValue = (hi.val % 64) <<< 8 := by
      decide +kernel
    have hlo : ∀ lo : Byte, lo.val &&& maxValue = lo.val := by decide +kernel
    rw [Nat.and_or_distrib_right, hlo, hhi, ← Nat.shiftLeft_add_eq_or_of_lt lo.isLt,
      Nat.shiftLeft_eq]
  simp only [decodeCompressionPtr, hmarker, hoffset]
  split
  · have hmod : hi.val % 64 = hi.val - 0xC0 := by
      have := hi.isLt
      omega
    rw [hmod]
  · rfl

theorem decodeCompressionPtr_pointer {offset : Nat} (h : offset ≤ 0x3FFF) (rest : Text) :
    decodeCompressionPtr (pointerOctets offset ++ rest) = some offset := by
  have hhi : (octet (0xC0 + offset / 256)).val = 0xC0 + offset / 256 := octet_val (by omega)
  have hlo : (octet offset).val = offset % 256 := rfl
  rw [pointerOctets, List.cons_append, List.cons_append, decodeCompressionPtr_eq, hhi, hlo,
    if_pos (Nat.le_add_right _ _), Nat.add_sub_cancel_left, Nat.div_add_mod']

theorem decodeCompressionPtr_short {len : Nat} (h : len ≤ 63) (rest : Text) :
    decodeCompressionPtr (octet len :: rest) = none := by
  cases rest with
  | nil => rfl
  | cons lo rest =>
    rw [decodeCompressionPtr_eq, octet_val (by omega), if_neg (by omega)]

theorem decodeCompressionPtr_some {input : Text} {offset : Nat}
    (h : decodeCompressionPtr input = some offset) :
    offset ≤ 0x3FFF ∧ pointerOctets offset <+: input := by
  match input with
  | [] => cases h
  | [_] => cases h
  | hi :: lo :: rest =>
    rw [decodeCompressionPtr_eq] at h
    split at h
    · rename_i hhi
      cases h
      have hlt := hi.isLt
      have hlt' := lo.isLt
      refine ⟨by omega, rest, ?_⟩
      have h₁ : octet (0xC0 + ((hi.val - 0xC0) * 256 + lo.val) / 256) = hi := by
        refine Fin.ext ?_
        rw [octet_val (by omega)]
        omega
      have h₂ : octet ((hi.val - 0xC0) * 256 + lo.val) = lo := by
        refine Fin.ext ?_
        simp only [octet]
        omega
      rw [pointerOctets, h₁, h₂]
      rfl
    · cases h

theorem decodeLabel_label {label : Text} (h : label.length ≤ 63) (rest : Text) :
    decodeLabel (labelOctets label ++ rest) = .ok label := by
  have hlen : (octet label.length).val = label.length := octet_val (by omega)
  simp only [labelOctets, List.cons_append, decodeLabel, hlen, List.length_cons,
    List.length_append]
  rw [if_neg (by omega), if_neg (by omega), List.take_left]

theorem decodeLabel_ok {input label : Text} (h : decodeLabel input = .ok label) :
    label.length ≤ 63 ∧ labelOctets label <+: input := by
  unfold decodeLabel at h
  split at h
  · cases h
  · rename_i len rest
    split at h
    · cases h
    · split at h
      · cases h
      · rename_i hbig hoob
        cases h
        rw [List.length_cons] at hoob
        have hlen : (rest.take len.val).length = len.val := by
          rw [List.length_take]
          omega
        refine ⟨by omega, rest.drop len.val, ?_⟩
        rw [labelOctets, hlen, octet_self, List.cons_append, List.take_append_drop]

def Span.first (s : Span message) (n : Nat) : Span message where
  off := s.off
  size := min n s.size
  inside := by
    have := s.inside
    omega

theorem Span.subspan_off {s : Span message} {n : Nat} (h : n ≤ s.size) :
    (s.subspan n).off = s.off + n :=
  congrArg (s.off + ·) (Nat.min_eq_left h)

theorem Span.subspan_subspan (s : Span message) (n m : Nat) :
    (s.subspan n).subspan m = s.subspan (n + m) := by
  simp only [Span.subspan, Span.mk.injEq]
  omega

theorem Span.length_bytes (s : Span message) : s.bytes.length = s.size := by
  have := s.inside
  rw [Span.bytes, List.length_take, List.length_drop]
  omega

theorem Span.prefix_bytes {octets : Text} {s : Span message} (h : Occurs octets message s.off)
    (hsize : octets.length ≤ s.size) : ∃ rest, s.bytes = octets ++ rest := by
  obtain ⟨rest, hrest⟩ := h
  refine ⟨rest.take (s.size - octets.length), ?_⟩
  rw [Span.bytes, ← hrest, List.take_append, List.take_of_length_le hsize]

theorem Span.occurs {octets : Text} {s : Span message} (h : octets <+: s.bytes) :
    Occurs octets message s.off ∧ octets.length ≤ s.size := by
  refine ⟨h.trans (List.take_prefix _ _), ?_⟩
  have hlen := h.length_le
  rw [Span.bytes, List.length_take] at hlen
  omega

theorem target_pointer {s : Span message} {offset : Nat} (hsmall : offset ≤ 0x3FFF)
    (h : Occurs (pointerOctets offset) message s.off) (hsize : 2 ≤ s.size)
    (hlt : offset < message.length) :
    Follows target s (.suffix message offset (Nat.le_of_lt hlt)) := by
  obtain ⟨rest, hbytes⟩ := Span.prefix_bytes h hsize
  simp only [Follows, target, hbytes, decodeCompressionPtr_pointer hsmall]
  rw [dif_neg (by omega)]

theorem not_enters_of_laid {pos size : Nat} {labels : List Text} (h : Laid message pos size labels)
    {s : Span message} (hoff : s.off = pos) (hroom : size ≤ s.size) : ¬ EntersCycle target s := by
  induction h generalizing s with
  | root here =>
    have here' : Occurs [octet 0] message s.off := hoff ▸ here
    obtain ⟨rest, hbytes⟩ := Span.prefix_bytes here' hroom
    refine not_enters_of_stops .refl (target_none ?_)
    rw [hbytes]
    exact decodeCompressionPtr_short (Nat.zero_le _) rest
  | @label _ _ label _ _ short here _ _ =>
    have hlen : (labelOctets label).length ≤ s.size := by
      rw [labelOctets, List.length_cons]
      omega
    obtain ⟨rest, hbytes⟩ := Span.prefix_bytes (hoff ▸ here) hlen
    refine not_enters_of_stops .refl (target_none ?_)
    rw [hbytes]
    exact decodeCompressionPtr_short short _
  | pointer small here rest ih =>
    have hbound := rest.bound
    have hpos := rest.size_pos
    have hfollows := target_pointer (s := s) small (hoff ▸ here) hroom (by omega)
    intro hcycle
    obtain ⟨t, ht, hnext⟩ := hcycle.next
    obtain rfl := hfollows.unique ht
    refine ih rfl ?_ hnext
    simp only [Span.suffix]
    omega

namespace NameParser

variable {p : NameParser message} {first pos size offset : Nat} {l : Text}
  {labels : List Text}

structure Standing (p : NameParser message) (first pos size : Nat) : Prop where
  phase : p.phase = .pointers first
  off : p.labelPosition.off = pos
  room : size ≤ p.labelPosition.size
  fresh : ∀ u, TransGen (Follows target) p.labelPosition u → u.off ≠ first

theorem not_first {s u : Span message} (h : TransGen (Follows target) s u) : u.off ≠ 0xFFFF := by
  obtain ⟨v, -, hvu⟩ := TransGen.tail'_iff.mp h
  obtain ⟨-, hptr, -, -⟩ := follows_target hvu
  have hle := decodeCompressionPtr_le hptr
  simp only [maxValue] at hle
  omega

theorem step_label (hphase : p.phase = .label) (hsize : p.labelPosition.size ≠ 0) :
    step p = .more { p with phase := .pointers 0xFFFF } := by
  simp only [step, hphase, if_neg hsize]

theorem Standing.root (h : Standing p first pos 1) (here : Occurs [octet 0] message pos)
    (hfits : p.domainNameLen + 1 ≤ fqdnMaxOctetLen) :
    step p = .done (.ok ⟨p.consume 1, p.domainNameStart⟩) := by
  have here' : Occurs (labelOctets []) message p.labelPosition.off := h.off ▸ here
  obtain ⟨rest, hbytes⟩ := Span.prefix_bytes here' h.room
  have hptr : decodeCompressionPtr p.labelPosition.bytes = none := by
    rw [hbytes]
    exact decodeCompressionPtr_short (Nat.zero_le _) rest
  have hlabel : decodeLabel p.labelPosition.bytes = .ok [] := by
    rw [hbytes]
    have hshort : ([] : Text).length ≤ 63 := Nat.zero_le _
    exact decodeLabel_label hshort rest
  simp only [step, h.phase, hptr, hlabel, takeLabel, List.length_nil, Nat.zero_add,
    if_neg (Nat.not_lt.mpr hfits), ne_eq, not_true, if_false]

theorem Standing.label (h : Standing p first pos (l.length + 1 + size)) (hne : l ≠ [])
    (hshort : l.length ≤ 63) (here : Occurs (labelOctets l) message pos)
    (hsize : 0 < size) (hfits : p.domainNameLen + (l.length + 1) ≤ fqdnMaxOctetLen) :
    ∃ q, Reaches step p q ∧ Standing q 0xFFFF (pos + (l.length + 1)) size ∧
      q.domainNameLen = p.domainNameLen + (l.length + 1) ∧
      q.domainNameStart = p.domainNameStart ∧
      q.consume size = p.consume (l.length + 1 + size) := by
  have hroom := h.room
  have hlen : (labelOctets l).length ≤ p.labelPosition.size := by
    rw [labelOctets, List.length_cons]
    omega
  obtain ⟨rest, hbytes⟩ := Span.prefix_bytes (h.off ▸ here) hlen
  have hptr : decodeCompressionPtr p.labelPosition.bytes = none := by
    rw [hbytes]
    exact decodeCompressionPtr_short hshort _
  have hlabel : decodeLabel p.labelPosition.bytes = .ok l := by
    rw [hbytes]
    exact decodeLabel_label hshort rest
  have hstep : step p = p.takeLabel l := by
    simp only [step, h.phase, hptr, hlabel]
  rw [takeLabel, if_neg (Nat.not_lt.mpr hfits), if_pos hne] at hstep
  refine ⟨_, .head hstep (.single (step_label rfl ?_)), ⟨rfl, ?_, ?_, fun u hu => not_first hu⟩,
    rfl, rfl, ?_⟩
  · simp only [Span.subspan]
    omega
  · simp only [Span.subspan, h.off]
    omega
  · simp only [Span.subspan]
    omega
  · simp only [consume]
    split
    · omega
    · rfl

theorem Standing.pointer (h : Standing p first pos 2) (hsmall : offset ≤ 0x3FFF)
    (here : Occurs (pointerOctets offset) message pos)
    (rest : Laid message offset size labels) :
    ∃ q first', step p = .more q ∧ Standing q first' offset size ∧
      q.domainNameLen = p.domainNameLen ∧ q.domainNameStart = p.domainNameStart ∧
      q.consume size = p.consume 2 := by
  have hbound := rest.bound
  have hpos := rest.size_pos
  have hlt : offset < message.length := by omega
  have here' : Occurs (pointerOctets offset) message p.labelPosition.off := h.off ▸ here
  have hfollows := target_pointer hsmall here' h.room hlt
  obtain ⟨-, hptr, hin, -⟩ := follows_target hfollows
  have hfirst : offset ≠ first := h.fresh _ (.single hfollows)
  have hstep : step p = .more (p.jump first offset (Nat.le_of_lt hlt)) := by
    simp only [Span.suffix] at hptr hin
    simp only [step, h.phase, hptr, dif_neg hin, if_neg hfirst]
  refine ⟨_, _, hstep, ⟨rfl, rfl, ?_, fun u hu => ?_⟩, rfl, rfl, rfl⟩
  · simp only [jump, Span.suffix]
    omega
  · have hcycle : ¬ ((true : Bool) ∧
        OnCycle target (Span.suffix message offset (Nat.le_of_lt hlt))) := by
      rintro ⟨-, hc⟩
      refine not_enters_of_laid rest rfl ?_ hc.enters
      simp only [Span.suffix]
      omega
    split
    · exact firstOf_avoids hfollows hcycle hu
    · exact h.fresh u (.head hfollows hu)

theorem Standing.yields (h : Laid message pos size labels) (hp : Standing p first pos size)
    (hfits : p.domainNameLen + wireLength labels ≤ fqdnMaxOctetLen) :
    Yields step p (.ok ⟨p.consume size, p.domainNameStart⟩) := by
  induction h generalizing p first with
  | root here => exact (yields_done (hp.root here hfits)).mpr rfl
  | label nonempty short here rest ih =>
    rw [wireLength] at hfits
    have hpos := wireLength_pos
    obtain ⟨q, hq, hstand, hlen, hstart, hconsume⟩ :=
      hp.label nonempty short here rest.size_pos (by omega)
    rw [← hconsume, ← hstart]
    exact (yields_reaches hq).mpr (ih hstand (by omega))
  | pointer small here rest ih =>
    obtain ⟨q, first', hq, hstand, hlen, hstart, hconsume⟩ := hp.pointer small here rest
    rw [← hconsume, ← hstart]
    exact (yields_more hq).mpr (ih hstand (by omega))

theorem step_pointers (hphase : p.phase = .pointers first) :
    (∃ e, step p = .done (.error e)) ∨
      (∃ offset, ∃ hle : offset ≤ message.length, offset ≤ 0x3FFF ∧
        pointerOctets offset <+: p.labelPosition.bytes ∧
        step p = .more (p.jump first offset hle)) ∨
      ∃ l, l.length ≤ 63 ∧ labelOctets l <+: p.labelPosition.bytes ∧
        p.domainNameLen + (l.length + 1) ≤ fqdnMaxOctetLen ∧
        (l = [] ∧ step p = .done (.ok ⟨p.consume 1, p.domainNameStart⟩) ∨
          l ≠ [] ∧ step p = .more { p with
            labelPosition := p.labelPosition.subspan (l.length + 1)
            bytesToConsume := p.consume (l.length + 1)
            domainNameLen := p.domainNameLen + (l.length + 1)
            phase := .label }) := by
  cases hptr : decodeCompressionPtr p.labelPosition.bytes with
  | some offset =>
    obtain ⟨hsmall, hfront⟩ := decodeCompressionPtr_some hptr
    simp only [step, hphase, hptr]
    split
    · exact .inl ⟨_, rfl⟩
    · split
      · exact .inl ⟨_, rfl⟩
      · exact .inr (.inl ⟨offset, by omega, hsmall, hfront, rfl⟩)
  | none =>
    cases hlabel : decodeLabel p.labelPosition.bytes with
    | error e => exact .inl ⟨e, by simp only [step, hphase, hptr, hlabel]⟩
    | ok l =>
      obtain ⟨hshort, hfront⟩ := decodeLabel_ok hlabel
      simp only [step, hphase, hptr, hlabel, takeLabel]
      split
      · exact .inl ⟨_, rfl⟩
      · rename_i hfits
        refine .inr (.inr ⟨l, hshort, hfront, Nat.not_lt.mp hfits, ?_⟩)
        split
        · exact .inr ⟨‹_›, rfl⟩
        · rename_i hnil
          rw [not_not] at hnil
          subst hnil
          exact .inl ⟨rfl, rfl⟩

def taken (p : NameParser message) : List Text :=
  match p.phase with
  | .label => []
  | .pointers _ =>
      match decodeCompressionPtr p.labelPosition.bytes with
      | some _ => []
      | none =>
          match decodeLabel p.labelPosition.bytes with
          | .error _ => []
          | .ok label => [label]

def walked : Nat → NameParser message → List Text
  | 0, _ => []
  | n + 1, p =>
      match p.step with
      | .more q => p.taken ++ walked n q
      | .done _ => []

theorem walked_more {q : NameParser message} (h : step p = .more q) (n : Nat) :
    walked (n + 1) p = p.taken ++ walked n q := by
  rw [walked, h]

theorem taken_pointer (hphase : p.phase = .pointers first)
    (h : pointerOctets offset <+: p.labelPosition.bytes) (hsmall : offset ≤ 0x3FFF) :
    p.taken = [] := by
  obtain ⟨rest, hbytes⟩ := h
  simp only [taken, hphase, ← hbytes, decodeCompressionPtr_pointer hsmall]

theorem taken_label (hphase : p.phase = .pointers first)
    (h : labelOctets l <+: p.labelPosition.bytes) (hshort : l.length ≤ 63) : p.taken = [l] := by
  obtain ⟨rest, hbytes⟩ := h
  have hptr : decodeCompressionPtr (labelOctets l ++ rest) = none :=
    decodeCompressionPtr_short hshort _
  simp only [taken, hphase, ← hbytes, hptr, decodeLabel_label hshort]

theorem laid_of_run {n : Nat} {r : ParseDomainNameSuccess} (h : run step n p = some (.ok r)) :
    ∃ size, Laid message p.labelPosition.off size (walked n p) ∧ size ≤ p.labelPosition.size ∧
      p.domainNameLen + wireLength (walked n p) ≤ fqdnMaxOctetLen ∧
      r = ⟨p.consume size, p.domainNameStart⟩ := by
  induction n generalizing p with
  | zero => cases h
  | succ n ih =>
    cases hphase : p.phase with
    | label =>
      by_cases hsize : p.labelPosition.size = 0
      · have hdone : step p = .done (.error .noRootLabel) := by
          simp only [step, hphase, if_pos hsize]
        rw [run_done hdone] at h
        cases h
      · have htaken : p.taken = [] := by rw [taken, hphase]
        rw [run_more (step_label hphase hsize)] at h
        rw [walked_more (step_label hphase hsize), htaken, List.nil_append]
        exact ih h
    | pointers first =>
      obtain ⟨e, hs⟩ | ⟨offset, hle, hsmall, hfront, hs⟩ | ⟨l, hshort, hfront, hfits, hs⟩ :=
        step_pointers hphase
      · rw [run_done hs] at h
        cases h
      · obtain ⟨here, hroom⟩ := Span.occurs hfront
        rw [run_more hs] at h
        obtain ⟨size, hlaid, -, hwire, rfl⟩ := ih h
        rw [walked_more hs, taken_pointer hphase hfront hsmall, List.nil_append]
        exact ⟨2, .pointer hsmall here hlaid, hroom, hwire, rfl⟩
      · obtain ⟨here, hroom⟩ := Span.occurs hfront
        obtain ⟨rfl, hs⟩ | ⟨hne, hs⟩ := hs
        · rw [run_done hs] at h
          cases h
          rw [walked, hs]
          exact ⟨1, .root here, hroom, hfits, rfl⟩
        · rw [labelOctets, List.length_cons] at hroom
          rw [run_more hs] at h
          obtain ⟨size, hlaid, hsize, hwire, rfl⟩ := ih h
          rw [walked_more hs, taken_label hphase hfront hshort, List.singleton_append]
          generalize walked n _ = labels at hlaid hwire ⊢
          simp only [Span.subspan] at hlaid hsize hwire
          rw [Nat.min_eq_left hroom] at hlaid
          refine ⟨_, .label hne hshort here hlaid, by omega, ?_, ?_⟩
          · rw [wireLength]
            omega
          · simp only [consume]
            split
            · congr 1
              omega
            · rfl

end NameParser

theorem parseDomainName_yields_iff (s : Span message) (r : ParseDomainNameSuccess) :
    Yields NameParser.step (parseDomainName s) (.ok r) ↔
      ∃ size labels, Laid message s.off size labels ∧ size ≤ s.size ∧
        wireLength labels ≤ fqdnMaxOctetLen ∧ r = ⟨size % 256, s.off⟩ := by
  have hconsume (size : Nat) : (parseDomainName s).consume size = size % 256 := by
    simp [parseDomainName, NameParser.consume]
  constructor
  · rintro ⟨n, hn⟩
    obtain ⟨size, hlaid, hsize, hfits, rfl⟩ := NameParser.laid_of_run hn
    generalize NameParser.walked n (parseDomainName s) = labels at hlaid hfits
    rw [hconsume]
    simp only [parseDomainName, Nat.zero_add] at hfits
    exact ⟨size, labels, hlaid, hsize, hfits, rfl⟩
  · rintro ⟨size, labels, hlaid, hsize, hfits, rfl⟩
    have hne : (parseDomainName s).labelPosition.size ≠ 0 := by
      have := hlaid.size_pos
      simp only [parseDomainName]
      omega
    rw [yields_more (NameParser.step_label rfl hne), ← hconsume]
    refine NameParser.Standing.yields hlaid ⟨rfl, rfl, hsize, fun u hu => NameParser.not_first hu⟩ ?_
    simp only [parseDomainName, Nat.zero_add]
    exact hfits

structure DomainName where
  originalMessage : Text
  selfStart : Nat
  deriving DecidableEq, Repr

structure LabelsIterator (message : Text) where
  labelStart : Nat
  labels : List Text := []
  deriving DecidableEq, Repr

-- A turn of the loop of adwance or, past it, operator* and operator++. The octets read are those of
-- the message; a position outside of it is not a name the parser has accepted.
def LabelsIterator.step (it : LabelsIterator message) :
    Next (LabelsIterator message) (Option (List Text)) :=
  match decodeCompressionPtr ((message.drop it.labelStart).take 2) with
  | some ptr => .more { it with labelStart := ptr }
  | none =>
      match message.drop it.labelStart with
      | [] => .done none
      | len :: rest =>
          if len = octet 0 then .done (some it.labels)
          else .more ⟨it.labelStart + (len.val + 1), it.labels ++ [rest.take len.val]⟩

def DomainName.begin (name : DomainName) : LabelsIterator name.originalMessage :=
  { labelStart := name.selfStart }

def DomainName.Labels (name : DomainName) (labels : List Text) : Prop :=
  Yields LabelsIterator.step name.begin (some labels)

theorem LabelsIterator.step_label (it : LabelsIterator message) {l : Text}
    (hshort : l.length ≤ 63) (here : Occurs (labelOctets l) message it.labelStart) :
    it.step = if l = [] then .done (some it.labels)
      else .more ⟨it.labelStart + (l.length + 1), it.labels ++ [l]⟩ := by
  obtain ⟨rest, hrest⟩ := here
  rw [labelOctets, List.cons_append] at hrest
  have hlen : (octet l.length).val = l.length := octet_val (by omega)
  have hzero : octet l.length = octet 0 ↔ l = [] := by
    rw [Fin.ext_iff, hlen, octet_val (by decide), List.length_eq_zero_iff]
  simp only [LabelsIterator.step, ← hrest, List.take_succ_cons, decodeCompressionPtr_short hshort,
    hzero, hlen, List.take_left]

theorem LabelsIterator.step_pointer (it : LabelsIterator message) {offset : Nat}
    (hsmall : offset ≤ 0x3FFF) (here : Occurs (pointerOctets offset) message it.labelStart) :
    it.step = .more { it with labelStart := offset } := by
  obtain ⟨rest, hrest⟩ := here
  have htake : (pointerOctets offset ++ rest).take 2 = pointerOctets offset ++ [] := rfl
  simp only [LabelsIterator.step, ← hrest, htake, decodeCompressionPtr_pointer hsmall]

theorem iterates_laid {pos size : Nat} {labels : List Text} (h : Laid message pos size labels)
    (before : List Text) :
    Yields LabelsIterator.step (⟨pos, before⟩ : LabelsIterator message)
      (some (before ++ labels)) := by
  induction h generalizing before with
  | @root pos here =>
    have here' : Occurs (labelOctets []) message pos := here
    refine (yields_done (LabelsIterator.step_label ⟨pos, before⟩ (Nat.zero_le _) here')).mpr ?_
    rw [List.append_nil]
  | @label pos _ l labels hne hshort here _ ih =>
    have hstep := LabelsIterator.step_label ⟨pos, before⟩ hshort here
    rw [if_neg hne] at hstep
    rw [yields_more hstep]
    simpa using ih (before ++ [l])
  | @pointer pos _ _ _ small here _ ih =>
    exact (yields_more (LabelsIterator.step_pointer ⟨pos, before⟩ small here)).mpr (ih before)

theorem labels_of_laid {pos size : Nat} {labels : List Text} (h : Laid message pos size labels) :
    DomainName.Labels ⟨message, pos⟩ labels :=
  iterates_laid h []

def Decodes (message : Text) (pos size : Nat) (labels : List Text) : Prop :=
  ∃ hle : pos ≤ message.length, Yields NameParser.step
      (parseDomainName (.suffix message pos hle)) (.ok ⟨size, pos⟩) ∧
    DomainName.Labels ⟨message, pos⟩ labels

theorem decodes_of_laid {pos size : Nat} {labels : List Text} (h : Laid message pos size labels)
    (hsize : size < 256) (hwire : wireLength labels ≤ fqdnMaxOctetLen) :
    Decodes message pos size labels := by
  have hbound := h.bound
  refine ⟨by omega, (parseDomainName_yields_iff _ _).mpr ⟨size, labels, h, ?_, hwire, ?_⟩,
    labels_of_laid h⟩
  · simp only [Span.suffix]
    omega
  · rw [Nat.mod_eq_of_lt hsize]
    rfl

end Corosig.Dns
