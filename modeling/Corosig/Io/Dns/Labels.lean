import Corosig.Io.Dns.NameSize

namespace Corosig.Dns
open CompressedNames Loop

variable {message : Text} {s : Span message} {r : ParseDomainNameSuccess} {pos : Nat}
  {pieces : List Piece} {memory : Nat → Byte} {octets : Text}

def Holds (memory : Nat → Byte) (message : Text) : Prop :=
  ∀ i o, message[i]? = some o → memory i = o

def fetch (memory : Nat → Byte) (pos n : Nat) : Text := (List.range' pos n).map memory

-- LabelsIterator as it runs over memory, with the offsets it has read from.
structure LabelsReader where
  labelStart : Nat
  labels : List Text := []
  reads : List Nat := []
  deriving DecidableEq, Repr

-- A turn of the loop of adwance, which looks at two octets; past it, the test for the root and,
-- for a label, operator* and operator++.
def LabelsReader.step (memory : Nat → Byte) (it : LabelsReader) :
    Next LabelsReader (List Text × List Nat) :=
  let reads := it.reads ++ List.range' it.labelStart 2
  match decodeCompressionPtr (fetch memory it.labelStart 2) with
  | some ptr => .more { it with labelStart := ptr, reads := reads }
  | none =>
      let len := (memory it.labelStart).val
      let reads := reads ++ List.range' it.labelStart (len + 1)
      if len = 0 then .done (it.labels, reads)
      else .more {
        labelStart := it.labelStart + (len + 1)
        labels := it.labels ++ [fetch memory (it.labelStart + 1) len]
        reads := reads }

theorem Holds.fetch (hm : Holds memory message) (h : Occurs octets message pos) :
    Dns.fetch memory pos octets.length = octets := by
  refine List.ext_getElem (by simp [Dns.fetch]) fun i _ hi => ?_
  obtain ⟨rest, hrest⟩ := h
  have hget : message[pos + i]? = some octets[i] := by
    rw [← List.getElem?_drop, ← hrest, List.getElem?_append_left hi, List.getElem?_eq_getElem hi]
  simpa [Dns.fetch] using hm _ _ hget

theorem fetch_succ (memory : Nat → Byte) (pos n : Nat) :
    fetch memory pos (n + 1) = memory pos :: fetch memory (pos + 1) n := rfl

namespace LabelsReader

variable {l : Text} {offset : Nat}

theorem step_label (it : LabelsReader) (hm : Holds memory message) (hshort : l.length ≤ 63)
    (here : Occurs (labelOctets l) message it.labelStart) :
    it.step memory =
      let reads := it.reads ++ List.range' it.labelStart 2 ++
        List.range' it.labelStart (l.length + 1)
      if l.length = 0 then .done (it.labels, reads)
      else .more ⟨it.labelStart + (l.length + 1), it.labels ++ [l], reads⟩ := by
  have hfetch := hm.fetch here
  rw [labelOctets, List.length_cons, fetch_succ, List.cons.injEq] at hfetch
  obtain ⟨hlen, hlabel⟩ := hfetch
  have hval : (memory it.labelStart).val = l.length := by
    rw [hlen]
    exact octet_val (by omega)
  simp only [step, fetch_succ, hlen, decodeCompressionPtr_short hshort]
  rw [← hlen, hval, hlabel]

theorem step_pointer (it : LabelsReader) (hm : Holds memory message) (hsmall : offset ≤ 0x3FFF)
    (here : Occurs (pointerOctets offset) message it.labelStart) :
    it.step memory =
      .more ⟨offset, it.labels, it.reads ++ List.range' it.labelStart 2⟩ := by
  have hfetch : fetch memory it.labelStart 2 = pointerOctets offset := hm.fetch here
  have hptr := decodeCompressionPtr_pointer hsmall []
  rw [List.append_nil] at hptr
  simp only [step, hfetch, hptr]

theorem reads_walk (hm : Holds memory message) (h : Walk message pos pieces) (before : List Text)
    (first : List Nat) :
    ∃ reads, Yields (step memory) ⟨pos, before, first⟩
        (before ++ labelsOf pieces, first ++ reads) ∧
      rootOf pos pieces + 1 ∈ reads ∧
      ∀ i ∈ reads, i < message.length ∨ i = rootOf pos pieces + 1 := by
  induction h generalizing before first with
  | @root pos here =>
    have hroom := here.bound (List.cons_ne_nil _ _)
    have hstep := step_label (l := []) ⟨pos, before, first⟩ hm (Nat.zero_le _) here
    refine ⟨List.range' pos 2 ++ List.range' pos 1, (yields_done hstep).mpr ?_, ?_, fun i hi => ?_⟩
    · rw [← List.append_assoc]
      exact congrArg (·, _) (List.append_nil before)
    · simp
    · rw [List.length_singleton] at hroom
      simp only [List.mem_append, List.mem_range'_1] at hi
      simp only [rootOf_cons, Piece.after, rootOf_nil]
      omega
  | @next pos piece pieces goesOn proper here _ ih =>
    cases piece with
    | root => exact absurd rfl goesOn
    | label l =>
      have hroom := here.bound (List.cons_ne_nil _ _)
      have hpos := List.length_pos_iff.mpr proper.1
      have hstep := step_label ⟨pos, before, first⟩ hm proper.2 here
      simp only [if_neg (Nat.ne_of_gt hpos)] at hstep
      obtain ⟨reads, hrun, hroot, hreads⟩ := ih (before ++ [l])
        (first ++ List.range' pos 2 ++ List.range' pos (l.length + 1))
      refine ⟨List.range' pos 2 ++ List.range' pos (l.length + 1) ++ reads,
        (yields_more hstep).mpr ?_, List.mem_append_right _ hroot, fun i hi => ?_⟩
      · simpa using hrun
      · rw [rootOf_cons]
        rcases List.mem_append.mp hi with hi | hi
        · have hoctets : (Piece.label l).octets.length = l.length + 1 := rfl
          simp only [List.mem_append, List.mem_range'_1] at hi
          omega
        · exact hreads i hi
    | pointer offset =>
      have hroom : pos + 2 ≤ message.length := here.bound (List.cons_ne_nil _ _)
      have hstep := step_pointer ⟨pos, before, first⟩ hm proper here
      obtain ⟨reads, hrun, hroot, hreads⟩ := ih before (first ++ List.range' pos 2)
      refine ⟨List.range' pos 2 ++ reads, (yields_more hstep).mpr ?_,
        List.mem_append_right _ hroot, fun i hi => ?_⟩
      · simpa using hrun
      · rw [rootOf_cons]
        rcases List.mem_append.mp hi with hi | hi
        · have hi := List.mem_range'_1.mp hi
          omega
        · exact hreads i hi

end LabelsReader

theorem labels_walked {n : Nat}
    (h : run NameParser.step n (parseDomainName s) = some (.ok r)) :
    (∀ label ∈ NameParser.walked n (parseDomainName s), label ≠ []) ∧
      ∀ memory, Holds memory message → ∃ reads,
        Yields (LabelsReader.step memory) { labelStart := r.domainName }
          (NameParser.walked n (parseDomainName s), reads) := by
  obtain ⟨size, hlaid, -, -, rfl⟩ := NameParser.laid_of_run h
  obtain ⟨pieces, hwalk, -, hlabels⟩ := hlaid.walk
  rw [← hlabels]
  refine ⟨fun label hl => (hwalk.proper label hl).1, fun memory hm => ?_⟩
  obtain ⟨reads, hrun, -⟩ := LabelsReader.reads_walk hm hwalk [] []
  exact ⟨reads, hrun⟩

def EndsMessage (message : Text) (pos : Nat) : Prop :=
  ∃ pieces, Walk message pos pieces ∧ rootOf pos pieces + 1 = message.length

def ReadsInside (message : Text) (pos : Nat) : Prop :=
  ∀ memory, Holds memory message → ∃ labels reads,
    Yields (LabelsReader.step memory) { labelStart := pos } (labels, reads) ∧
      ∀ i ∈ reads, i < message.length

theorem holds_getD (message : Text) : Holds (fun i => message.getD i 0) message := by
  intro i o h
  simp [h]

theorem readsInside_iff (h : Yields NameParser.step (parseDomainName s) (.ok r)) :
    ReadsInside message r.domainName ↔ ¬EndsMessage message r.domainName := by
  obtain ⟨pieces, hwalk, -, -, rfl⟩ := walk_of_yields h
  constructor
  · rintro hinside ⟨pieces', hwalk', hend⟩
    have hm := holds_getD message
    obtain ⟨labels, reads, hrun, hreads⟩ := hinside _ hm
    obtain ⟨reads', hrun', hroot, -⟩ := LabelsReader.reads_walk hm hwalk' [] []
    cases yields_unique hrun hrun'
    exact absurd (hreads _ hroot) (by omega)
  · intro hend memory hm
    obtain ⟨reads, hrun, -, hreads⟩ := LabelsReader.reads_walk hm hwalk [] []
    refine ⟨_, reads, hrun, fun i hi => ?_⟩
    have hlt := hwalk.rootOf_lt
    have hne : rootOf s.off pieces + 1 ≠ message.length := fun hlast => hend ⟨pieces, hwalk, hlast⟩
    rcases hreads i hi with hin | rfl
    · exact hin
    · omega

def nameMessage : Text := [1, 97, 0]

def wholeName : Span nameMessage := .suffix nameMessage 0 (Nat.zero_le _)

theorem labels_walked_name :
    (∀ label ∈ NameParser.walked 4 (parseDomainName wholeName), label ≠ []) ∧
      ∀ memory, Holds memory nameMessage → ∃ reads,
        Yields (LabelsReader.step memory) { labelStart := 0 }
          (NameParser.walked 4 (parseDomainName wholeName), reads) :=
  labels_walked (r := ⟨3, 0⟩) (by decide +kernel)

theorem readsInside_iff_name : ReadsInside nameMessage 0 ↔ ¬EndsMessage nameMessage 0 :=
  readsInside_iff (s := wholeName) (r := ⟨3, 0⟩) ⟨4, by decide +kernel⟩

theorem not_readsInside_name :
    Yields NameParser.step (parseDomainName wholeName) (.ok ⟨3, 0⟩) ∧
      Yields (LabelsReader.step fun i => nameMessage.getD i 0) { labelStart := 0 }
        ([[97]], [0, 1, 0, 1, 2, 3, 2]) ∧
      ¬ReadsInside nameMessage 0 := by
  have hrun : Yields (LabelsReader.step fun i => nameMessage.getD i 0) { labelStart := 0 }
      ([[97]], [0, 1, 0, 1, 2, 3, 2]) := ⟨2, by decide +kernel⟩
  refine ⟨⟨4, by decide +kernel⟩, hrun, fun hinside => ?_⟩
  obtain ⟨labels, reads, hrun', hreads⟩ := hinside _ (holds_getD nameMessage)
  cases yields_unique hrun hrun'
  exact absurd (hreads 3 (by decide)) (by decide)

end Corosig.Dns
