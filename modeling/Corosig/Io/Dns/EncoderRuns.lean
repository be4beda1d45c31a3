import Corosig.Io.Dns.Compression
import Corosig.Library.SortedKeys
import Mathlib.Data.List.Lex
import Mathlib.Data.Prod.Lex

namespace Corosig.Dns.Protocol
open CompressedNames Loop SortedKeys

namespace Node

variable {lhs rhs : Node}

def key (node : Node) : Nat ×ₗ Text := toLex (node.hash.toNat, node.str)

theorem less_iff : lhs.less rhs = true ↔ lhs.key < rhs.key := by
  rw [less, decide_eq_true_iff, key, key, Prod.Lex.toLex_lt_toLex, BitVec.lt_def,
    BitVec.toNat_inj]

theorem key_inj : lhs.key = rhs.key ↔ lhs.hash = rhs.hash ∧ lhs.str = rhs.str := by
  rw [key, key, toLex_inj, Prod.mk.injEq, BitVec.toNat_inj]

theorem same_iff : lhs.same rhs = true ↔ lhs.key = rhs.key := by
  rw [same, decide_eq_true_iff, key_inj]

end Node

namespace Encoder

variable {hash : Text → BitVec 16} {alloc : Nat → Bool} {e : Encoder} {node bucket : Node}
  {label remainingName name : Text} {labels : List Text}

structure Ordered (hash : Text → BitVec 16) (e : Encoder) : Prop where
  increasing : Increasing Node.key e.buckets
  hashed : ∀ node ∈ e.buckets, node.hash = hash node.str

theorem find_of_mem (ho : Ordered hash e) (hb : bucket ∈ e.buckets) (hk : bucket.key = node.key) :
    e.find node = some bucket := by
  have hless : (fun b : Node => b.less node) = fun b => decide (b.key < node.key) := by
    funext b
    rw [Bool.eq_iff_iff, Node.less_iff, decide_eq_true_iff]
  have hbound : (e.buckets.takeWhile fun b => b.less node).length =
      lowerBound linear Node.key e.buckets bucket.key := by
    rw [hless, lowerBound_eq linear ho.increasing, hk]
  rw [find, hbound, getElem_lowerBound ho.increasing hb, Option.filter_some,
    if_pos (Node.same_iff.mpr hk)]

theorem find_isSome (ho : Ordered hash e) (r : Text) (offset : Nat) :
    (∃ found, e.find ⟨hash r, offset, r⟩ = some found) ↔ ∃ bucket ∈ e.buckets, bucket.str = r := by
  constructor
  · rintro ⟨found, hfound⟩
    obtain ⟨hmem, hstr⟩ := find_some hfound
    exact ⟨found, hmem, hstr⟩
  · rintro ⟨bucket, hmem, rfl⟩
    exact ⟨bucket, find_of_mem ho hmem (Node.key_inj.mpr ⟨ho.hashed bucket hmem, rfl⟩)⟩

theorem Ordered.put (ho : Ordered hash e) (octets : Text) : Ordered hash (e.put octets) :=
  ⟨ho.increasing, ho.hashed⟩

theorem Ordered.insert (ho : Ordered hash e) (hnew : e.find node = none)
    (hhash : node.hash = hash node.str) : Ordered hash (e.insert node) := by
  have hapart : ∀ b ∈ e.buckets, b.key ≠ node.key := by
    intro b hb hk
    cases hnew.symm.trans (find_of_mem ho hb hk)
  obtain ⟨ls, us, hsplit, -, hls, hus⟩ := lowerBound_split linear ho.increasing node.key
  have hright : ∀ u ∈ us, node.key < u.key := by
    intro u hu
    have hmem : u ∈ e.buckets := by
      rw [hsplit]
      exact List.mem_append_right _ hu
    exact lt_of_le_of_ne (not_lt.mp (hus u hu)) (hapart u hmem).symm
  have hstays : us.takeWhile (fun b => !node.less b) = [] := by
    cases us with
    | nil => rfl
    | cons u us =>
      rw [List.takeWhile_cons, Node.less_iff.mpr (hright u List.mem_cons_self)]
      rfl
  have hbound : (e.buckets.takeWhile fun b => !node.less b).length = ls.length := by
    have hfront : ∀ b ∈ ls, (!node.less b) = true := by
      intro b hb
      rw [Bool.not_eq_true', ← Bool.not_eq_true, Node.less_iff]
      exact not_lt.mpr (hls b hb).le
    rw [hsplit, List.takeWhile_append_of_pos hfront, hstays, List.append_nil]
  have hbuckets : (e.insert node).buckets = ls ++ node :: us := by
    rw [Encoder.insert]
    simp only [hbound]
    rw [hsplit, insertIdx_length_append]
  refine ⟨?_, fun b hb => ?_⟩
  · rw [hbuckets, increasing_append, increasing_cons]
    have hold := ho.increasing
    rw [hsplit, increasing_append] at hold
    obtain ⟨hl, hu, hlu⟩ := hold
    refine ⟨hl, ⟨hright, hu⟩, fun l hl' b hb => ?_⟩
    rcases List.mem_cons.mp hb with rfl | hb
    · exact hls l hl'
    · exact hlu l hl' b hb
  · obtain rfl | hb := mem_insert hb
    · exact hhash
    · exact ho.hashed b hb

-- The remainders that a call looks up: those that start at a label before the first one that is
-- empty or too long.
def lookedUp : List Text → Text → List Text
  | [], _ => []
  | label :: labels, remainingName =>
      if label = [] ∨ 63 < label.length then []
      else remainingName :: lookedUp labels (remainingName.drop (label.length + 1))

theorem length_of_lookedUp {r : Text} (h : r ∈ lookedUp labels remainingName) :
    r.length ≤ remainingName.length := by
  induction labels generalizing remainingName with
  | nil => cases h
  | cons label labels ih =>
    rw [lookedUp] at h
    split at h
    · cases h
    · rcases List.mem_cons.mp h with rfl | h
      · exact Nat.le_refl _
      · have hle := ih h
        rw [List.length_drop] at hle
        omega

def Aligned (labels : List Text) (remainingName : Text) : Prop :=
  splitIntoLabels remainingName = labels ∨ labels = [[]]

theorem Aligned.of_label (h : Aligned (label :: labels) remainingName) (hne : label ≠ []) :
    splitIntoLabels remainingName = label :: labels ∧
      Aligned labels (remainingName.drop (label.length + 1)) ∧
      (remainingName.drop (label.length + 1)).length < remainingName.length := by
  have hsplit : splitIntoLabels remainingName = label :: labels := by
    rcases h with hsplit | hlast
    · exact hsplit
    · cases hlast
      exact absurd rfl hne
  refine ⟨hsplit, ?_, ?_⟩
  · by_cases hlast : labels = [[]]
    · exact .inr hlast
    · exact .inl (splitIntoLabels_drop hsplit hlast)
  · have hpos : remainingName ≠ [] := by
      rintro rfl
      cases hsplit
    have := List.length_pos_iff.mpr hpos
    rw [List.length_drop]
    omega

variable (hash : Text → BitVec 16) (alloc : Nat → Bool)

inductive Wrote (e : Encoder) (label remainingName : Text) :
    Except QuestionEncodeError Bool × Encoder → Prop where
  | refused (err : QuestionEncodeError) : label = [] ∨ 63 < label.length →
      Wrote e label remainingName (.error err, e)
  | found (node : Node) : label ≠ [] → label.length ≤ 63 → node ∈ e.buckets →
      node.str = remainingName →
      Wrote e label remainingName (.ok true, e.put (encodeCompressionPtr node.offset))
  | written (e' : Encoder) : label ≠ [] → label.length ≤ 63 →
      (Ordered hash e → Ordered hash e' ∧ ∀ bucket ∈ e.buckets, bucket.str ≠ remainingName) →
      e'.output = e.output ++ labelOctets label →
      (∀ bucket ∈ e'.buckets, bucket ∈ e.buckets ∨ bucket.str = remainingName) →
      (∀ bucket ∈ e.buckets, bucket ∈ e'.buckets) → Wrote e label remainingName (.ok false, e')

theorem wrote_writeLabel (e : Encoder) (label remainingName : Text) :
    Wrote hash e label remainingName (e.writeLabel hash alloc label remainingName) := by
  rw [writeLabel]
  split
  · exact .refused _ (.inl ‹_›)
  split
  · exact .refused _ (.inr ‹_›)
  rename_i hne hshort
  dsimp only
  split
  · rename_i found hfound
    obtain ⟨hmem, hstr⟩ := find_some hfound
    exact .found found hne (Nat.not_lt.mp hshort) hmem hstr
  · rename_i hnew
    have hunseen (ho : Ordered hash e) : ∀ bucket ∈ e.buckets, bucket.str ≠ remainingName := by
      intro bucket hb hstr
      obtain ⟨found, hfound⟩ :=
        (find_isSome ho remainingName (e.output.length % 2 ^ 16)).mpr ⟨bucket, hb, hstr⟩
      cases hnew.symm.trans hfound
    refine .written _ hne (Nat.not_lt.mp hshort) (fun ho => ⟨?_, hunseen ho⟩) ?_ ?_ ?_
    · split
      · exact (ho.insert hnew rfl).put _
      · exact ho.put _
    · split <;> rfl
    · intro bucket hb
      split at hb
      · obtain rfl | hb := mem_insert hb
        · exact .inr rfl
        · exact .inl hb
      · exact .inl hb
    · intro bucket hb
      split
      · exact (List.mem_insertIdx (List.takeWhile_prefix _).length_le).mpr (.inr hb)
      · exact hb

theorem encodeLabels_ordered (labels : List Text) (remainingName : Text) (ho : Ordered hash e) :
    Ordered hash (encodeLabels hash alloc labels remainingName e).2 := by
  induction labels generalizing e remainingName with
  | nil => exact ho.put _
  | cons label labels ih =>
    have hw := wrote_writeLabel hash alloc e label remainingName
    rw [encodeLabels]
    generalize e.writeLabel hash alloc label remainingName = q at hw ⊢
    cases hw with
    | refused err _ => exact ho
    | found node => exact ho.put _
    | written e' _ _ hord => exact ih _ (hord ho).1

theorem Sound.put (h : Sound e) (octets : Text) : Sound (e.put octets) :=
  fun node hn => (h node hn).extend (List.prefix_append _ _)

theorem invalid_rest (hinvalid : ¬Valid (label :: labels)) (hne : label ≠ [])
    (hshort : label.length ≤ 63) : ¬Valid labels :=
  fun hvalid => hinvalid (List.forall_mem_cons.mpr ⟨⟨hne, hshort⟩, hvalid⟩)

theorem encodeLabels_sound (hinvalid : ¬Valid labels) (halign : Aligned labels remainingName)
    (h : Sound e) : Sound (encodeLabels hash alloc labels remainingName e).2 := by
  induction labels generalizing e remainingName with
  | nil => exact absurd (by rintro label ⟨⟩) hinvalid
  | cons label labels ih =>
    have hw := wrote_writeLabel hash alloc e label remainingName
    rw [encodeLabels]
    generalize e.writeLabel hash alloc label remainingName = q at hw ⊢
    cases hw with
    | refused err _ => exact h
    | found node => exact h.put _
    | written e' hne hshort _ hout hback _ =>
      obtain ⟨hsplit, hrest, -⟩ := halign.of_label hne
      refine ih (invalid_rest hinvalid hne hshort) hrest fun bucket hb => ?_
      obtain hold | hstr := hback bucket hb
      · exact (h bucket hold).extend (hout ▸ List.prefix_append _ _)
      · intro hvalid
        rw [hstr, hsplit] at hvalid
        exact absurd hvalid hinvalid

theorem encodeLabels_ok_iff (hinvalid : ¬Valid labels) (halign : Aligned labels remainingName)
    (ho : Ordered hash e) :
    (encodeLabels hash alloc labels remainingName e).1 = .ok () ↔
      ∃ bucket ∈ e.buckets, bucket.str ∈ lookedUp labels remainingName := by
  induction labels generalizing e remainingName with
  | nil => exact absurd (by rintro label ⟨⟩) hinvalid
  | cons label labels ih =>
    have hw := wrote_writeLabel hash alloc e label remainingName
    rw [encodeLabels, lookedUp]
    generalize e.writeLabel hash alloc label remainingName = q at hw ⊢
    cases hw with
    | refused err hbad =>
      rw [if_pos hbad]
      refine iff_of_false (by rintro ⟨⟩) ?_
      rintro ⟨bucket, -, ⟨⟩⟩
    | found node hne hshort hmem hstr =>
      have hgood : ¬(label = [] ∨ 63 < label.length) :=
        not_or.mpr ⟨hne, Nat.not_lt.mpr hshort⟩
      rw [if_neg hgood]
      exact iff_of_true rfl ⟨node, hmem, hstr ▸ List.mem_cons_self⟩
    | written e' hne hshort hord _ hback hkept =>
      have hgood : ¬(label = [] ∨ 63 < label.length) :=
        not_or.mpr ⟨hne, Nat.not_lt.mpr hshort⟩
      obtain ⟨-, hrest, hlong⟩ := halign.of_label hne
      obtain ⟨ho', hunseen⟩ := hord ho
      rw [if_neg hgood]
      refine (ih (invalid_rest hinvalid hne hshort) hrest ho').trans ?_
      constructor
      · rintro ⟨bucket, hb, hlook⟩
        obtain hold | hstr := hback bucket hb
        · exact ⟨bucket, hold, List.mem_cons_of_mem _ hlook⟩
        · have hle := length_of_lookedUp hlook
          rw [hstr] at hle
          omega
      · rintro ⟨bucket, hb, hlook⟩
        rcases List.mem_cons.mp hlook with hstr | hlook
        · exact absurd hstr (hunseen bucket hb)
        · exact ⟨bucket, hkept bucket hb, hlook⟩

structure Consistent (hash : Text → BitVec 16) (e : Encoder) : Prop where
  sound : Sound e
  ordered : Ordered hash e

theorem consistent_start (output : Text) : Consistent hash ⟨output, []⟩ :=
  ⟨by rintro node ⟨⟩, increasing_nil, by rintro node ⟨⟩⟩

theorem aligned_splitIntoLabels (name : Text) : Aligned (splitIntoLabels name) name := .inl rfl

theorem encodeDomainName_consistent (h : Consistent hash e) (name : Text) :
    Consistent hash (e.encodeDomainName hash alloc name).2 := by
  rw [encodeDomainName]
  split
  · exact h
  refine ⟨?_, encodeLabels_ordered hash alloc _ _ h.ordered⟩
  by_cases hvalid : Valid (splitIntoLabels name)
  · obtain ⟨e', written, he, -, hsound, -⟩ :=
      encodeLabels_laid hash alloc hvalid rfl (h.sound.halfway _ name)
    rwa [he]
  · exact encodeLabels_sound hash alloc hvalid (aligned_splitIntoLabels name) h.sound

-- The calls go on where the one before stopped, failed or not.
def encodeCalls : List Text → Encoder → Encoder
  | [], e => e
  | name :: names, e => encodeCalls names (e.encodeDomainName hash alloc name).2

theorem encodeCalls_consistent (names : List Text) (h : Consistent hash e) :
    Consistent hash (e.encodeCalls hash alloc names) := by
  induction names generalizing e with
  | nil => exact h
  | cons name names ih => exact ih (encodeDomainName_consistent hash alloc h name)

def DecodesOwn (e : Encoder) (name : Text) : Prop :=
  ∀ e', e.encodeDomainName hash alloc name = (.ok (), e') →
    ∃ written, e'.output = e.output ++ written ∧ ∀ message, e'.output <+: message →
      Decodes message e.output.length written.length (splitIntoLabels name)

theorem laid_of_decodes {message : Text} {pos size : Nat} (h : Decodes message pos size labels) :
    ∃ n, Laid message pos n labels ∧ wireLength labels ≤ fqdnMaxOctetLen := by
  obtain ⟨hle, hparse, hlabels⟩ := h
  obtain ⟨n, labels', hlaid, -, hwire, -⟩ := (parseDomainName_yields_iff _ _).mp hparse
  cases yields_unique (labels_of_laid hlaid) hlabels
  exact ⟨n, hlaid, hwire⟩

theorem fits_of_decodes {message : Text} {pos size : Nat}
    (h : Decodes message pos size (splitIntoLabels name)) : Fits name := by
  obtain ⟨n, hlaid, hwire⟩ := laid_of_decodes h
  obtain ⟨pieces, hwalk, -, hlabels⟩ := hlaid.walk
  exact ⟨hlabels ▸ hwalk.proper, hwire⟩

theorem decodesOwn_of_fits (h : Consistent hash e) (hfits : Fits name) :
    DecodesOwn hash alloc e name := by
  intro e' he'
  obtain ⟨e₁, written, he, hout, -, hlaid, hlen⟩ :=
    encodeDomainName_laid hash alloc hfits.1 hfits.2 h.sound
  cases he.symm.trans he'
  refine ⟨written, hout, ?_⟩
  rintro message ⟨extra, rfl⟩
  exact decodes_of_laid (hlaid.append extra) (Nat.lt_succ_of_le hlen) hfits.2

theorem decodesOwn_iff_refused (hfits : ¬Fits name) :
    DecodesOwn hash alloc e name ↔ (e.encodeDomainName hash alloc name).1 ≠ .ok () := by
  rcases hrun : e.encodeDomainName hash alloc name with ⟨r, e'⟩
  constructor
  · rintro hown rfl
    obtain ⟨written, -, hdecodes⟩ := hown e' hrun
    exact hfits (fits_of_decodes (hdecodes _ List.prefix_rfl))
  · intro hne e₁ he₁
    exact absurd (congrArg Prod.fst (hrun.symm.trans he₁)) hne

theorem decodesOwn_iff (output : Text) (before : List Text) (name : Text) :
    DecodesOwn hash alloc (encodeCalls hash alloc before ⟨output, []⟩) name ↔
      fqdnMaxOctetLen < name.length ∨ Fits name ∨
        ¬Valid (splitIntoLabels name) ∧
          ∀ bucket ∈ (encodeCalls hash alloc before ⟨output, []⟩).buckets,
            bucket.str ∉ lookedUp (splitIntoLabels name) name := by
  have h := encodeCalls_consistent hash alloc before (consistent_start hash output)
  generalize encodeCalls hash alloc before ⟨output, []⟩ = e at h ⊢
  by_cases hfits : Fits name
  · exact iff_of_true (decodesOwn_of_fits hash alloc h hfits) (.inr (.inl hfits))
  rw [decodesOwn_iff_refused hash alloc hfits, or_iff_right hfits, encodeDomainName]
  split
  · rename_i hlong
    exact iff_of_true (by rintro ⟨⟩) (.inl hlong)
  rename_i hlong
  rw [or_iff_right hlong]
  by_cases hvalid : Valid (splitIntoLabels name)
  · obtain ⟨e', written, he, -⟩ :=
      encodeLabels_laid hash alloc hvalid rfl (h.sound.halfway _ name)
    rw [he]
    exact iff_of_false (fun hne => hne rfl) fun hbad => hbad.1 hvalid
  · have hok := encodeLabels_ok_iff hash alloc hvalid (aligned_splitIntoLabels name) h.ordered
    rw [and_iff_right hvalid, ne_eq, hok]
    simp only [not_exists, not_and]

def doubleDotted : Text := [97, 46, 46]

theorem not_decodesOwn_retried :
    let hash : Text → BitVec 16 := fun _ => 0
    let alloc : Nat → Bool := fun _ => true
    let e := encodeCalls hash alloc [doubleDotted] ⟨[], []⟩
    (encodeDomainName hash alloc ⟨[], []⟩ doubleDotted).1 = .error .emptyLabel ∧
      (e.encodeDomainName hash alloc doubleDotted).1 = .ok () ∧
      (e.encodeDomainName hash alloc doubleDotted).2.output = [1, 97, 0xC0, 0] ∧
      ¬DecodesOwn hash alloc e doubleDotted := by
  refine ⟨by decide, by decide, by decide, ?_⟩
  have hfits : ¬Fits doubleDotted := by
    intro hfits
    exact (hfits.1 [] (by decide)).1 rfl
  rw [decodesOwn_iff_refused _ _ hfits]
  exact fun hne => hne (by decide)

end Encoder

end Corosig.Dns.Protocol
