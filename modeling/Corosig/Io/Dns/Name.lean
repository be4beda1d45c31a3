import Corosig.Io.Dns.Ascii
import Corosig.Library.Loop
import Corosig.Library.Orbit

namespace Corosig.Dns
open Loop Orbit Relation

inductive ResponseDecodeError where
  | wrongHeaderBytesCount
  | compressionPtrOob
  | compressionPtrInfiniteLoop
  | labelNoLen
  | labelLenOob
  | labelLenTooBig
  | nameLenTooBig
  | noRootLabel
  | noQuestionType
  | noQuestionClass
  | noResourceRecordType
  | noResourceRecordClass
  | noResourceRecordTtl
  | noResourceRecordDataLen
  | resourceRecordDataLenOob
  | resourceRecordDataBadA
  | resourceRecordDataBadAaaa
  | resourceRecordDataBadNs
  | resourceRecordDataBadCname
  | resourceRecordDataBadSoa
  | resourceRecordDataBadMb
  | resourceRecordDataBadMg
  | resourceRecordDataBadMr
  | resourceRecordDataBadPtr
  | resourceRecordDataBadHinfo
  | resourceRecordDataBadMinfo
  deriving DecidableEq, Repr

structure Span (message : Text) where
  off : Nat
  size : Nat
  inside : off + size ≤ message.length
  deriving DecidableEq, Repr

structure ParseDomainNameSuccess where
  bytesToConsume : Nat
  domainName : Nat
  deriving DecidableEq, Repr

inductive Phase where
  | label
  | pointers (first : Nat)
  deriving DecidableEq, Repr

structure NameParser (message : Text) where
  domainNameStart : Nat
  labelPosition : Span message
  firstPtr : Bool := true
  bytesToConsume : Nat := 0
  domainNameLen : Nat := 0
  phase : Phase := .label
  deriving DecidableEq, Repr

def markerBits : Nat := 0xC000

def maxValue : Nat := 0x3FFF

variable {message : Text}

namespace Span

def bytes (s : Span message) : Text := (message.drop s.off).take s.size

def subspan (s : Span message) (n : Nat) : Span message where
  off := s.off + min n s.size
  size := s.size - n
  inside := by
    have := s.inside
    omega

def suffix (message : Text) (off : Nat) (h : off ≤ message.length) : Span message where
  off := off
  size := message.length - off
  inside := by omega

end Span

def decodeCompressionPtr : Text → Option Nat
  | hi :: lo :: _ =>
      let offset := hi.val <<< 8 ||| lo.val
      if offset &&& markerBits = markerBits then some (offset &&& maxValue) else none
  | _ => none

def decodeLabel (input : Text) : Except ResponseDecodeError Text :=
  match input with
  | [] => .error .labelNoLen
  | len :: rest =>
      if 63 < len.val then .error .labelLenTooBig
      else if input.length < len.val + 1 then .error .labelLenOob
      else .ok (rest.take len.val)

namespace NameParser

def consume (p : NameParser message) (n : Nat) : Nat :=
  if p.firstPtr then (p.bytesToConsume + n) % 256 else p.bytesToConsume

def jump (p : NameParser message) (first ptr : Nat) (h : ptr ≤ message.length) :
    NameParser message where
  domainNameStart := p.domainNameStart
  labelPosition := .suffix message ptr h
  firstPtr := false
  bytesToConsume := p.consume 2
  domainNameLen := p.domainNameLen
  phase := .pointers (if p.firstPtr then ptr else first)

def takeLabel (p : NameParser message) (label : Text) :
    Next (NameParser message) (Except ResponseDecodeError ParseDomainNameSuccess) :=
  let labelSizeWithLen := label.length + 1
  let domainNameLen := p.domainNameLen + labelSizeWithLen
  if fqdnMaxOctetLen < domainNameLen then .done (.error .nameLenTooBig)
  else
    let bytesToConsume := p.consume labelSizeWithLen
    if label ≠ [] then
      .more { p with
        labelPosition := p.labelPosition.subspan labelSizeWithLen
        bytesToConsume := bytesToConsume
        domainNameLen := domainNameLen
        phase := .label }
    else .done (.ok { bytesToConsume := bytesToConsume, domainName := p.domainNameStart })

def step (p : NameParser message) :
    Next (NameParser message) (Except ResponseDecodeError ParseDomainNameSuccess) :=
  match p.phase with
  | .label =>
      if p.labelPosition.size = 0 then .done (.error .noRootLabel)
      else .more { p with phase := .pointers 0xFFFF }
  | .pointers first =>
      match decodeCompressionPtr p.labelPosition.bytes with
      | some ptr =>
          if h : message.length - 1 < ptr then .done (.error .compressionPtrOob)
          else if ptr = first then .done (.error .compressionPtrInfiniteLoop)
          else .more (p.jump first ptr (by omega))
      | none =>
          match decodeLabel p.labelPosition.bytes with
          | .error e => .done (.error e)
          | .ok label => p.takeLabel label

end NameParser

def parseDomainName (labelPosition : Span message) : NameParser message :=
  { domainNameStart := labelPosition.off, labelPosition := labelPosition }

def target (s : Span message) : Option (Span message) :=
  match decodeCompressionPtr s.bytes with
  | some ptr => if h : message.length - 1 < ptr then none else some (.suffix message ptr (by omega))
  | none => none

structure Cursor (message : Text) where
  labelPosition : Span message
  firstPtr : Bool
  domainNameLen : Nat

def Cursor.Escapes (a : Cursor message) : Prop :=
  ∀ t, target a.labelPosition = some t → EntersCycle target t → a.firstPtr ∧ OnCycle target t

inductive NextLabel (a : Cursor message) : Cursor message → Prop where
  | mk (s : Span message) (label : Text) (path : ReflTransGen (Follows target) a.labelPosition s)
      (noPtr : decodeCompressionPtr s.bytes = none) (decoded : decodeLabel s.bytes = .ok label)
      (nonempty : label ≠ []) (fits : a.domainNameLen + (label.length + 1) ≤ fqdnMaxOctetLen) :
      NextLabel a {
        labelPosition := s.subspan (label.length + 1)
        firstPtr := a.firstPtr && (target a.labelPosition).isNone
        domainNameLen := a.domainNameLen + (label.length + 1) }

def Escapes (labelPosition : Span message) : Prop :=
  ∀ b, ReflTransGen NextLabel ⟨labelPosition, true, 0⟩ b → b.Escapes

theorem decodeCompressionPtr_le {input : Text} {ptr : Nat}
    (h : decodeCompressionPtr input = some ptr) : ptr ≤ maxValue := by
  unfold decodeCompressionPtr at h
  split at h
  · simp only at h
    split at h
    · cases h
      exact Nat.and_le_right
    · cases h
  · cases h

theorem follows_target {s t : Span message} (h : Follows target s t) :
    ∃ hle : t.off ≤ message.length, decodeCompressionPtr s.bytes = some t.off ∧
      ¬ message.length - 1 < t.off ∧ t = .suffix message t.off hle := by
  unfold Follows target at h
  split at h
  · rename_i ptr hptr
    split at h
    · cases h
    · rename_i hin
      cases h
      exact ⟨by simp only [Span.suffix]; omega, hptr, hin, rfl⟩
  · cases h

theorem target_none {s : Span message} (h : decodeCompressionPtr s.bytes = none) :
    target s = none := by
  simp [target, h]

theorem bytes_eq_nil {s : Span message} (h : s.size = 0) : s.bytes = [] := by
  simp [Span.bytes, h]

theorem target_eq_of_off {s s' t t' : Span message} (h : Follows target s t)
    (h' : Follows target s' t') (heq : t.off = t'.off) : t = t' := by
  obtain ⟨hle, -, -, ht⟩ := follows_target h
  obtain ⟨hle', -, -, ht'⟩ := follows_target h'
  calc t = .suffix message t.off hle := ht
    _ = .suffix message t'.off hle' := by simp only [heq]
    _ = t' := ht'.symm

theorem enters_or_stops_target (s : Span message) :
    EntersCycle target s ∨ ∃ c, ReflTransGen (Follows target) s c ∧ target c = none := by
  refine enters_or_stops (fun i : Fin (message.length + 1) =>
    Span.suffix message i (Nat.lt_succ_iff.mp i.2)) ?_ s
  intro a b hab
  obtain ⟨hle, -, -, hb⟩ := follows_target hab
  exact ⟨⟨b.off, Nat.lt_succ_iff.mpr hle⟩, hb.symm⟩

def firstOf (firstPtr : Bool) (t : Span message) : Nat := if firstPtr then t.off else 0xFFFF

theorem firstOf_avoids {s t : Span message} {firstPtr : Bool} (h : Follows target s t)
    (hc : ¬ (firstPtr ∧ OnCycle target t)) {u : Span message}
    (hu : TransGen (Follows target) t u) : u.off ≠ firstOf firstPtr t := by
  obtain ⟨v, -, hvu⟩ := TransGen.tail'_iff.mp hu
  obtain ⟨-, hptr, -, -⟩ := follows_target hvu
  have hle := decodeCompressionPtr_le hptr
  cases firstPtr with
  | false =>
    simp only [firstOf, maxValue] at hle ⊢
    simp only [Bool.false_eq_true, if_false]
    omega
  | true =>
    intro heq
    obtain rfl := target_eq_of_off hvu h heq
    exact hc ⟨rfl, hu⟩

namespace NameParser

structure Starts (p : NameParser message) (a : Cursor message) : Prop where
  phase : p.phase = .label
  labelPosition : p.labelPosition = a.labelPosition
  firstPtr : p.firstPtr = a.firstPtr
  domainNameLen : p.domainNameLen = a.domainNameLen

structure Chases (p : NameParser message) (first : Nat) (a : Cursor message) : Prop where
  phase : p.phase = .pointers first
  labelPosition : p.labelPosition = a.labelPosition
  firstPtr : p.firstPtr = a.firstPtr
  domainNameLen : p.domainNameLen = a.domainNameLen

variable {p q : NameParser message} {a b : Cursor message} {first n : Nat} {s t : Span message}

theorem Starts.step (h : Starts p a) (hs : a.labelPosition.size ≠ 0) :
    ∃ q, NameParser.step p = .more q ∧ Chases q 0xFFFF a := by
  have hne : p.labelPosition.size ≠ 0 := h.labelPosition ▸ hs
  refine ⟨{ p with phase := .pointers 0xFFFF }, ?_, rfl, h.labelPosition, h.firstPtr,
    h.domainNameLen⟩
  simp [NameParser.step, h.phase, hne]

theorem Starts.halts_of_empty (h : Starts p a) (hs : a.labelPosition.size = 0) :
    Halts NameParser.step p := by
  have hnil : p.labelPosition.size = 0 := h.labelPosition ▸ hs
  have hdone : NameParser.step p = .done (.error .noRootLabel) := by
    simp [NameParser.step, h.phase, hnil]
  exact halts_done hdone

theorem Chases.jump (h : Chases p first a) (ht : Follows target a.labelPosition t) :
    if t.off = first then Halts NameParser.step p
    else ∃ q, NameParser.step p = .more q ∧
      Chases q (if a.firstPtr then t.off else first) ⟨t, false, a.domainNameLen⟩ := by
  obtain ⟨hle, hptr, hin, heq⟩ := follows_target ht
  have hstep : NameParser.step p =
      if t.off = first then .done (.error .compressionPtrInfiniteLoop)
      else .more (p.jump first t.off hle) := by
    simp only [NameParser.step, h.phase, h.labelPosition, hptr, dif_neg hin]
  split
  · rename_i hfirst
    rw [if_pos hfirst] at hstep
    exact halts_done hstep
  · rename_i hfirst
    rw [if_neg hfirst] at hstep
    refine ⟨_, hstep, ?_, heq.symm, rfl, h.domainNameLen⟩
    simp only [NameParser.jump, h.firstPtr]

theorem Chases.stop (h : Chases p first a) (ht : target a.labelPosition = none) :
    Halts NameParser.step p ∨ ∃ label, decodeCompressionPtr a.labelPosition.bytes = none ∧
      decodeLabel a.labelPosition.bytes = .ok label ∧ label ≠ [] ∧
      a.domainNameLen + (label.length + 1) ≤ fqdnMaxOctetLen := by
  cases hp : decodeCompressionPtr a.labelPosition.bytes with
  | some ptr =>
    left
    by_cases hin : message.length - 1 < ptr
    · have hdone : NameParser.step p = .done (.error .compressionPtrOob) := by
        simp only [NameParser.step, h.phase, h.labelPosition, hp, dif_pos hin]
      exact halts_done hdone
    · simp [target, hp, hin] at ht
  | none =>
    cases hl : decodeLabel a.labelPosition.bytes with
    | error e =>
      left
      have hdone : NameParser.step p = .done (.error e) := by
        simp only [NameParser.step, h.phase, h.labelPosition, hp, hl]
      exact halts_done hdone
    | ok label =>
      have hstep : NameParser.step p = p.takeLabel label := by
        simp only [NameParser.step, h.phase, h.labelPosition, hp, hl]
      by_cases hfits : a.domainNameLen + (label.length + 1) ≤ fqdnMaxOctetLen
      · by_cases hne : label = []
        · left
          rw [← h.domainNameLen] at hfits
          rw [takeLabel, if_neg (Nat.not_lt.mpr hfits), if_neg (not_not.mpr hne)] at hstep
          exact halts_done hstep
        · exact .inr ⟨label, rfl, rfl, hne, hfits⟩
      · left
        rw [← h.domainNameLen] at hfits
        rw [takeLabel, if_pos (Nat.lt_of_not_le hfits)] at hstep
        exact halts_done hstep

theorem Chases.label (h : Chases p first a) {label : Text}
    (hp : decodeCompressionPtr a.labelPosition.bytes = none)
    (hl : decodeLabel a.labelPosition.bytes = .ok label) (hne : label ≠ [])
    (hfits : a.domainNameLen + (label.length + 1) ≤ fqdnMaxOctetLen) :
    ∃ q, NameParser.step p = .more q ∧ Starts q
      ⟨a.labelPosition.subspan (label.length + 1), a.firstPtr,
        a.domainNameLen + (label.length + 1)⟩ := by
  have hstep : NameParser.step p = p.takeLabel label := by
    simp only [NameParser.step, h.phase, h.labelPosition, hp, hl]
  have hlen : ¬ fqdnMaxOctetLen < p.domainNameLen + (label.length + 1) := by
    rw [h.domainNameLen]
    omega
  rw [takeLabel, if_neg hlen, if_pos hne] at hstep
  refine ⟨_, hstep, rfl, ?_, h.firstPtr, ?_⟩
  · simp only [h.labelPosition]
  · simp only [h.domainNameLen]

theorem Chases.walk (h : Chases p first ⟨s, false, n⟩) (hc : ReflTransGen (Follows target) s t) :
    Halts NameParser.step p ∨
      ∃ q, Reaches NameParser.step p q ∧ Chases q first ⟨t, false, n⟩ := by
  induction hc using ReflTransGen.head_induction_on generalizing p with
  | refl => exact .inr ⟨p, .refl, h⟩
  | head hst _ ih =>
    have hj := h.jump hst
    split at hj
    · exact .inl hj
    · obtain ⟨q, hq, hchases⟩ := hj
      rcases ih hchases with hhalts | ⟨r, hr, hchases⟩
      · exact .inl ((halts_more hq).mpr hhalts)
      · exact .inr ⟨r, .head hq hr, hchases⟩

theorem Chases.reaches (h : Chases p first ⟨s, false, n⟩)
    (hc : ReflTransGen (Follows target) s t)
    (hfirst : ∀ u, TransGen (Follows target) s u → u.off ≠ first) :
    ∃ q, Reaches NameParser.step p q ∧ Chases q first ⟨t, false, n⟩ := by
  induction hc using ReflTransGen.head_induction_on generalizing p with
  | refl => exact ⟨p, .refl, h⟩
  | head hsu _ ih =>
    have hj := h.jump hsu
    rw [if_neg (hfirst _ (.single hsu))] at hj
    obtain ⟨q, hq, hchases⟩ := hj
    obtain ⟨r, hr, hchases⟩ := ih hchases fun u hu => hfirst u (.head hsu hu)
    exact ⟨r, .head hq hr, hchases⟩

theorem Chases.diverges (h : Chases p first ⟨s, false, n⟩) (hs : EntersCycle target s)
    (hfirst : ∀ u, TransGen (Follows target) s u → u.off ≠ first) : ¬ Halts NameParser.step p := by
  let I (p : NameParser message) : Prop := ∃ s, Chases p first ⟨s, false, n⟩ ∧
    EntersCycle target s ∧ ∀ u, TransGen (Follows target) s u → u.off ≠ first
  refine not_halts_of_forever (I := I) ?_ ⟨s, h, hs, hfirst⟩
  rintro p ⟨s, h, hs, hfirst⟩
  obtain ⟨t, hst, ht⟩ := hs.next
  have hj := h.jump hst
  rw [if_neg (hfirst t (.single hst))] at hj
  obtain ⟨q, hq, hchases⟩ := hj
  exact ⟨q, hq, t, hchases, ht, fun u hu => hfirst u (.head hst hu)⟩

theorem Starts.jump (h : Starts p a) (ht : Follows target a.labelPosition t) :
    ∃ q, Reaches NameParser.step p q ∧
      Chases q (firstOf a.firstPtr t) ⟨t, false, a.domainNameLen⟩ := by
  obtain ⟨-, hptr, -, -⟩ := follows_target ht
  have hne : a.labelPosition.size ≠ 0 := by
    intro hs
    rw [bytes_eq_nil hs] at hptr
    cases hptr
  have hlt : t.off ≠ 0xFFFF := by
    have hle := decodeCompressionPtr_le hptr
    simp only [maxValue] at hle
    omega
  obtain ⟨q, hq, hchases⟩ := h.step hne
  have hj := hchases.jump ht
  rw [if_neg hlt] at hj
  obtain ⟨r, hr, hchases⟩ := hj
  exact ⟨r, .head hq (.single hr), hchases⟩

theorem Starts.next (h : Starts p a) (hab : NextLabel a b) :
    ∃ q, Reaches NameParser.step p q ∧ Starts q b := by
  obtain ⟨s, label, hpath, hptr, hl, hlabel, hfits⟩ := hab
  have hstop := target_none hptr
  rcases ReflTransGen.cases_head hpath with rfl | ⟨t, ht, hts⟩
  · have hne : a.labelPosition.size ≠ 0 := by
      intro hs
      rw [bytes_eq_nil hs] at hl
      cases hl
    obtain ⟨q, hq, hchases⟩ := h.step hne
    obtain ⟨r, hr, hstarts⟩ := hchases.label hptr hl hlabel hfits
    refine ⟨r, .head hq (.single hr), ?_⟩
    rwa [hstop, Option.isNone_none, Bool.and_true]
  · have hc : ¬ (a.firstPtr ∧ OnCycle target t) :=
      fun hc => not_enters_of_stops hts hstop hc.2.enters
    obtain ⟨q, hq, hchases⟩ := h.jump ht
    obtain ⟨r, hr, hchases⟩ := hchases.reaches hts fun u hu => firstOf_avoids ht hc hu
    obtain ⟨v, hv, hstarts⟩ := hchases.label hptr hl hlabel hfits
    refine ⟨v, (hq.trans hr).tail hv, ?_⟩
    have hsome : target a.labelPosition = some t := ht
    rwa [hsome, Option.isNone_some, Bool.and_false]

theorem Starts.escapes_of_halts (h : Starts p a) (hp : Halts NameParser.step p) : a.Escapes := by
  intro t ht hcycle
  by_contra hc
  obtain ⟨q, hq, hchases⟩ := h.jump ht
  exact hchases.diverges hcycle (fun u hu => firstOf_avoids ht hc hu)
    ((halts_reaches hq).mp hp)

theorem Starts.reaches (h : Starts p a) (hab : ReflTransGen NextLabel a b) :
    ∃ q, Reaches NameParser.step p q ∧ Starts q b := by
  induction hab with
  | refl => exact ⟨p, .refl, h⟩
  | tail _ hbc ih =>
    obtain ⟨q, hq, hstarts⟩ := ih
    obtain ⟨r, hr, hstarts⟩ := hstarts.next hbc
    exact ⟨r, hq.trans hr, hstarts⟩

theorem Starts.halts_of_escape (h : Starts p a) (ha : a.Escapes)
    (hnext : ∀ b q, NextLabel a b → Starts q b → Halts NameParser.step q) :
    Halts NameParser.step p := by
  by_cases hs : a.labelPosition.size = 0
  · exact h.halts_of_empty hs
  cases ht : target a.labelPosition with
  | none =>
    obtain ⟨q, hq, hchases⟩ := h.step hs
    refine (halts_more hq).mpr ?_
    rcases hchases.stop ht with hhalts | ⟨label, hptr, hl, hne, hfits⟩
    · exact hhalts
    · obtain ⟨r, hr, hstarts⟩ := hchases.label hptr hl hne hfits
      refine (halts_more hr).mpr (hnext _ r ⟨_, label, .refl, hptr, hl, hne, hfits⟩ ?_)
      rwa [ht, Option.isNone_none, Bool.and_true]
  | some t =>
    obtain ⟨q, hq, hchases⟩ := h.jump ht
    refine (halts_reaches hq).mpr ?_
    rcases enters_or_stops_target t with hcycle | ⟨c, htc, hstop⟩
    · -- the chain comes back to the first target, where the comparison stops it
      obtain ⟨hfirst, hon⟩ := ha t ht hcycle
      obtain ⟨u, htu, hut⟩ := TransGen.tail'_iff.mp hon
      rcases hchases.walk htu with hhalts | ⟨r, hr, hchases⟩
      · exact hhalts
      · have hj := hchases.jump hut
        rw [if_pos (by rw [firstOf, if_pos hfirst])] at hj
        exact (halts_reaches hr).mpr hj
    · rcases hchases.walk htc with hhalts | ⟨r, hr, hchases⟩
      · exact hhalts
      · refine (halts_reaches hr).mpr ?_
        rcases hchases.stop hstop with hhalts | ⟨label, hptr, hl, hne, hfits⟩
        · exact hhalts
        · obtain ⟨v, hv, hstarts⟩ := hchases.label hptr hl hne hfits
          refine (halts_more hv).mpr (hnext _ v ⟨c, label, .head ht htc, hptr, hl, hne, hfits⟩ ?_)
          rwa [ht, Option.isNone_some, Bool.and_false]

theorem fits_of_nextLabel (h : NextLabel a b) :
    a.domainNameLen < b.domainNameLen ∧ b.domainNameLen ≤ fqdnMaxOctetLen := by
  obtain ⟨s, label, -, -, -, -, hfits⟩ := h
  exact ⟨Nat.lt_add_of_pos_right (Nat.succ_pos _), hfits⟩

theorem Starts.halts (h : Starts p a) (he : ∀ b, ReflTransGen NextLabel a b → b.Escapes) :
    Halts NameParser.step p := by
  induction hm : fqdnMaxOctetLen - a.domainNameLen using Nat.strong_induction_on
    generalizing p a with
  | _ m ih =>
    refine h.halts_of_escape (he a .refl) fun b q hab hq => ?_
    have hlen := fits_of_nextLabel hab
    exact ih _ (by omega) hq (fun c hbc => he c (.head hab hbc)) rfl

end NameParser

theorem starts_parseDomainName (labelPosition : Span message) :
    NameParser.Starts (parseDomainName labelPosition) ⟨labelPosition, true, 0⟩ :=
  ⟨rfl, rfl, rfl, rfl⟩

theorem parseDomainName_halts_iff (labelPosition : Span message) :
    Halts NameParser.step (parseDomainName labelPosition) ↔ Escapes labelPosition := by
  have hstart := starts_parseDomainName labelPosition
  constructor
  · intro hp b hb
    obtain ⟨q, hq, hstarts⟩ := hstart.reaches hb
    exact hstarts.escapes_of_halts ((halts_reaches hq).mp hp)
  · exact hstart.halts

def loopMessage : Text := [0xC0, 2, 0xC0, 4, 0xC0, 4]

theorem parseDomainName_endless : ¬ ∀ (message : Text) (labelPosition : Span message),
    Halts NameParser.step (parseDomainName labelPosition) := by
  intro h
  have hp := h loopMessage ⟨0, 6, by decide⟩
  have hesc := (starts_parseDomainName _).escapes_of_halts hp
  let t : Span loopMessage := ⟨2, 4, by decide⟩
  let u : Span loopMessage := ⟨4, 2, by decide⟩
  have htu : target t = some u := by decide +kernel
  have huu : target u = some u := by decide +kernel
  obtain ⟨-, hon⟩ := hesc t (by decide +kernel) ⟨u, .single htu, .single huu⟩
  obtain ⟨v, htv, hvt⟩ := TransGen.head'_iff.mp hon
  obtain rfl : u = v := Follows.unique htu htv
  have hstay : ∀ v, ReflTransGen (Follows target) u v → v = u := by
    intro v hv
    induction hv with
    | refl => rfl
    | tail _ hvw ih => exact Follows.unique (ih ▸ hvw) huu
  exact absurd (hstay t hvt) (by decide)

end Corosig.Dns
