import Corosig.Io.Dns.Decoder
import Mathlib.Order.Lattice

namespace Corosig.Dns.Protocol
open CompressedNames

inductive QuestionEncodeError where
  | tooLongDomainName
  | tooLongDomainNameLabel
  | emptyLabel
  deriving DecidableEq, Repr

structure Question where
  id : BitVec 16
  opcode : BitVec 8 := 0
  recursionDesired : Bool := true
  name : Text
  qtype : QueryType := 255
  qclass : QueryClass := 1
  deriving DecidableEq, Repr

structure Node where
  hash : BitVec 16
  offset : Nat
  str : Text
  deriving DecidableEq, Repr

structure Encoder where
  output : Text
  buckets : List Node := []
  deriving DecidableEq, Repr

def dot : Byte := octet 46

def endsWithDot (sv : Text) : Bool := sv.getLast? = some dot

def removeSuffix (sv : Text) : Text := if endsWithDot sv then sv.dropLast else sv

-- Splitting the empty view yields no label at all, not an empty one.
def splitIntoLabels (sv : Text) : List Text :=
  match removeSuffix sv with
  | [] => []
  | c :: rest => (c :: rest).splitOnP (· = dot)

def writeHton (value : BitVec 16) : Text :=
  [octet ((value >>> 8) &&& 0xFF).toNat, octet (value &&& 0xFF).toNat]

def encodeHeader (header : Header) : Text :=
  writeHton header.id ++ writeHton header.flags ++ writeHton header.qdcount ++
    writeHton header.ancount ++ writeHton header.nscount ++ writeHton header.arcount

def encodeCompressionPtr (offset : Nat) : Text :=
  writeHton (BitVec.ofNat 16 markerBits ||| BitVec.ofNat 16 offset)

namespace Node

def less (lhs rhs : Node) : Bool :=
  lhs.hash < rhs.hash ∨ lhs.hash = rhs.hash ∧ lhs.str < rhs.str

def same (lhs rhs : Node) : Bool := lhs.hash = rhs.hash ∧ lhs.str = rhs.str

end Node

namespace Encoder

def put (e : Encoder) (octets : Text) : Encoder := { e with output := e.output ++ octets }

def insert (e : Encoder) (node : Node) : Encoder :=
  let upperBound := (e.buckets.takeWhile fun bucket => !node.less bucket).length
  { e with buckets := e.buckets.insertIdx upperBound node }

def find (e : Encoder) (node : Node) : Option Node :=
  let lowerBound := (e.buckets.takeWhile fun bucket => bucket.less node).length
  e.buckets[lowerBound]?.filter (·.same node)

variable (hash : Text → BitVec 16) (alloc : Nat → Bool)

-- alloc tells whether the insertion tried at this point of the output finds memory.
def writeLabel (label remainingName : Text) (e : Encoder) :
    Except QuestionEncodeError Bool × Encoder :=
  if label = [] then (.error .emptyLabel, e)
  else if 63 < label.length then (.error .tooLongDomainNameLabel, e)
  else
    let written := e.output.length
    let node : Node := ⟨hash remainingName, written % 2 ^ 16, remainingName⟩
    match e.find node with
    | some found => (.ok true, e.put (encodeCompressionPtr found.offset))
    | none =>
        let e := if written ≤ maxValue ∧ alloc written then e.insert node else e
        (.ok false, e.put (octet label.length :: label))

def encodeLabels : List Text → Text → Encoder → Except QuestionEncodeError Unit × Encoder
  | [], _, e => (.ok (), e.put [octet 0])
  | label :: labels, remainingName, e =>
      match e.writeLabel hash alloc label remainingName with
      | (.error err, e) => (.error err, e)
      | (.ok true, e) => (.ok (), e)
      | (.ok false, e) => encodeLabels labels (remainingName.drop (label.length + 1)) e

def encodeDomainName (e : Encoder) (name : Text) : Except QuestionEncodeError Unit × Encoder :=
  if fqdnMaxOctetLen < name.length then (.error .tooLongDomainName, e)
  else encodeLabels hash alloc (splitIntoLabels name) name e

def encodeNames : List Text → Encoder → Except QuestionEncodeError Unit × Encoder
  | [], e => (.ok (), e)
  | name :: names, e =>
      match e.encodeDomainName hash alloc name with
      | (.error err, e) => (.error err, e)
      | (.ok (), e) => encodeNames names e

end Encoder

def Question.header (q : Question) : Header where
  id := q.id
  flags := Header.setRecursionDesired (Header.setOpcode 0 q.opcode) q.recursionDesired
  qdcount := 1

def encodeQuestion (hash : Text → BitVec 16) (alloc : Nat → Bool) (q : Question) :
    Except QuestionEncodeError Text :=
  match (⟨encodeHeader q.header, []⟩ : Encoder).encodeDomainName hash alloc q.name with
  | (.error err, _) => .error err
  | (.ok (), e) => .ok (e.output ++ writeHton (q.qtype.setWidth 16) ++
      writeHton (q.qclass.setWidth 16))

def Valid (labels : List Text) : Prop := ∀ label ∈ labels, label ≠ [] ∧ label.length ≤ 63

theorem Valid.ne_emptyLabel {labels : List Text} (h : Valid labels) : labels ≠ [[]] := by
  rintro rfl
  exact (h [] List.mem_cons_self).1 rfl

theorem splitOnP_cases {sv l : Text} {ls : List Text} (h : sv.splitOnP (· = dot) = l :: ls) :
    ls = [] ∧ sv = l ∨ ∃ rest, sv = l ++ dot :: rest ∧ rest.splitOnP (· = dot) = ls := by
  induction sv generalizing l with
  | nil =>
    rw [List.splitOnP_nil] at h
    cases h
    exact .inl ⟨rfl, rfl⟩
  | cons c sv ih =>
    rw [List.splitOnP_cons_eq_if_modifyHead] at h
    split at h
    · rename_i hc
      cases h
      obtain rfl := of_decide_eq_true hc
      exact .inr ⟨sv, rfl, rfl⟩
    · cases hs : sv.splitOnP (· = dot) with
      | nil => exact absurd hs (List.splitOnP_ne_nil _ _)
      | cons l' ls' =>
        rw [hs, List.modifyHead_cons] at h
        cases h
        obtain ⟨rfl, rfl⟩ | ⟨rest, rfl, hrest⟩ := ih hs
        · exact .inl ⟨rfl, rfl⟩
        · exact .inr ⟨rest, rfl, hrest⟩

theorem wireLength_splitOnP (sv : Text) :
    wireLength (sv.splitOnP (· = dot)) = sv.length + 2 := by
  induction sv with
  | nil => rfl
  | cons c sv ih =>
    rw [List.splitOnP_cons_eq_if_modifyHead]
    split
    · rw [wireLength, ih, List.length_nil, List.length_cons]
      omega
    · cases hs : sv.splitOnP (· = dot) with
      | nil => exact absurd hs (List.splitOnP_ne_nil _ _)
      | cons l ls =>
        rw [hs, wireLength] at ih
        rw [List.modifyHead_cons, wireLength, List.length_cons, List.length_cons]
        omega

theorem removeSuffix_of_dot (sv : Text) : removeSuffix (sv ++ [dot]) = sv := by
  simp [removeSuffix, endsWithDot]

theorem removeSuffix_of_not {sv : Text} (h : ¬ endsWithDot sv) : removeSuffix sv = sv := if_neg h

theorem removeSuffix_cases (name : Text) :
    ¬ endsWithDot name ∧ removeSuffix name = name ∨ name = removeSuffix name ++ [dot] := by
  by_cases h : endsWithDot name
  · right
    obtain ⟨sv, rfl⟩ := List.getLast?_eq_some_iff.mp (of_decide_eq_true h)
    rw [removeSuffix_of_dot]
  · exact .inl ⟨h, removeSuffix_of_not h⟩

theorem splitIntoLabels_eq {name : Text} (h : removeSuffix name ≠ []) :
    splitIntoLabels name = (removeSuffix name).splitOnP (· = dot) := by
  unfold splitIntoLabels
  split
  · exact absurd ‹_› h
  · rename_i hsv
    rw [hsv]

theorem length_splitIntoLabels (name : Text) : name.length ≤ wireLength (splitIntoLabels name) := by
  have hname : name.length ≤ (removeSuffix name).length + 1 := by
    obtain ⟨-, h⟩ | h := removeSuffix_cases name
    · rw [h]
      exact Nat.le_succ _
    · rw [h, removeSuffix_of_dot, List.length_append, List.length_singleton]
  cases hsv : removeSuffix name with
  | nil =>
    rw [hsv] at hname
    exact hname.trans (wireLength_pos _)
  | cons c rest =>
    rw [splitIntoLabels_eq (by simp [hsv]), wireLength_splitOnP]
    omega

theorem splitIntoLabels_drop {name l : Text} {ls : List Text} (h : splitIntoLabels name = l :: ls)
    (hls : ls ≠ [[]]) : splitIntoLabels (name.drop (l.length + 1)) = ls := by
  have hsv : removeSuffix name ≠ [] := by
    intro hnil
    rw [splitIntoLabels, hnil] at h
    cases h
  rw [splitIntoLabels_eq hsv] at h
  obtain ⟨rfl, hl⟩ | ⟨rest, hl, hrest⟩ := splitOnP_cases h
  · have hdrop : name.drop (l.length + 1) = [] := by
      obtain ⟨-, hname⟩ | hname := removeSuffix_cases name
      · rw [List.drop_eq_nil_iff, ← hname, hl]
        exact Nat.le_succ _
      · rw [List.drop_eq_nil_iff, hname, hl, List.length_append, List.length_singleton]
    rw [hdrop]
    rfl
  · have hne : rest ≠ [] := by
      rintro rfl
      rw [List.splitOnP_nil] at hrest
      exact hls hrest.symm
    have hcut : ∀ after : Text,
        (l ++ dot :: rest ++ after).drop (l.length + 1) = rest ++ after := by
      intro after
      rw [← List.drop_drop, List.append_assoc, List.drop_left]
      rfl
    obtain ⟨hdot, hname⟩ | hname := removeSuffix_cases name
    · rw [hname] at hl
      have hrest' : ¬ endsWithDot rest := by
        rw [hl] at hdot
        simpa [endsWithDot, List.getLast?_append, List.getLast?_cons,
          List.getLast?_eq_some_getLast hne] using hdot
      have hdrop : name.drop (l.length + 1) = rest := by
        have := hcut []
        rwa [List.append_nil, List.append_nil, ← hl] at this
      rw [hdrop, splitIntoLabels_eq (by rwa [removeSuffix_of_not hrest']),
        removeSuffix_of_not hrest', hrest]
    · rw [hl] at hname
      rw [hname, hcut, splitIntoLabels_eq (by rwa [removeSuffix_of_dot]), removeSuffix_of_dot,
        hrest]

end Corosig.Dns.Protocol
