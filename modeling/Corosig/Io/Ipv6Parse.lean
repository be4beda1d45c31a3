import Corosig.Io.Ipv6

namespace Corosig
open Delimited Dns

namespace Ipv6Addr

def letterF : Byte := 102

def parseMappedIpv4 (addr : Text) : Option Ipv6Addr :=
  if addr.length < compressor.length + 5 ∨ ¬compressor <+: addr then none
  else
    let addr := addr.drop compressor.length
    if (addr.take 4).any fun c => c ≠ letterF ∧ c ≠ 70 then none
    else
      let addr := addr.drop 4
      if ¬[colon] <+: addr then none
      else
        match Ipv4Addr.parse (addr.drop 1) with
        | none => none
        | some ipv4 =>
            let result := ((Vector.replicate 16 (0 : Byte)).set 10 255).set 11 255
            some (Vector.ofFn fun i => if h : 12 ≤ i.val then ipv4[i.val - 12] else result[i])

def parse (expansionBuf : ExpansionBuf) (addr : Text) : Option Ipv6Addr :=
  match parseRegular expansionBuf addr with
  | some result => some result
  | none => parseMappedIpv4 addr

def mappedIpv4 (ipv4 : Ipv4Addr) : Ipv6Addr :=
  (Vector.replicate 10 (0 : Byte) ++ (#v[255, 255] : Vector Byte 2)) ++ (ipv4 : Vector Byte 4)

variable {addr text rest front back : Text} {group : BitVec 16}
  {groups fronts backs : List (BitVec 16)}
  {expansionBuf : ExpansionBuf} {left n m : Nat} {c : Byte}

theorem hexDigit_rightUnique : Relator.RightUnique HexDigit := by
  intro c n m h h'
  rw [← hexCharToNum_eq_some] at h h'
  exact Option.some.inj (h.symm.trans h')

theorem hexGroup_rightUnique : Relator.RightUnique HexGroup := by
  intro text group group' h h'
  obtain ⟨digits, hdigits, hvalue⟩ := h.value
  obtain ⟨digits', hdigits', hvalue'⟩ := h'.value
  obtain rfl := hexDigit_rightUnique.forall₂ hdigits hdigits'
  refine BitVec.eq_of_toNat_eq ?_
  rw [hvalue, hvalue']

theorem HexGroup.no_colon (h : HexGroup text group) : colon ∉ text :=
  fun hmem => not_isHex_colon (h.isHex colon hmem)

theorem Groups.eq_nil (h : Groups text []) : text = [] := by
  obtain ⟨texts, rfl, hall⟩ := h
  rw [List.forall₂_nil_right_iff.mp hall]
  rfl

theorem Groups.uncons (h : Groups text (group :: groups)) :
    ∃ first, HexGroup first group ∧ (text = first ∧ groups = [] ∨
      ∃ rest, text = first ++ colon :: rest ∧ Groups rest groups ∧ rest ≠ []) := by
  obtain ⟨texts, rfl, hall⟩ := h
  obtain ⟨first, texts, hfirst, hrest, rfl⟩ := List.forall₂_cons_right_iff.mp hall
  refine ⟨first, hfirst, ?_⟩
  cases hrest with
  | nil => exact .inl ⟨List.intercalate_singleton .., rfl⟩
  | @cons second group' texts groups hsecond hrest =>
    refine .inr ⟨[colon].intercalate (second :: texts), ?_, ⟨_, rfl, .cons hsecond hrest⟩, ?_⟩
    · rw [List.intercalate_cons_cons, List.append_assoc]
      rfl
    · obtain ⟨c, second, rfl⟩ := List.exists_cons_of_ne_nil hsecond.nonempty
      cases texts with
      | nil => simp
      | cons third texts => simp [List.intercalate_cons_cons]

theorem Groups.ne_nil (h : Groups text (group :: groups)) : text ≠ [] := by
  obtain ⟨first, hfirst, ⟨rfl, -⟩ | ⟨rest, rfl, -⟩⟩ := h.uncons
  · exact hfirst.nonempty
  · simp

theorem Groups.unique {groups' : List (BitVec 16)} (h : Groups text groups)
    (h' : Groups text groups') : groups = groups' := by
  cases groups with
  | nil =>
    cases groups' with
    | nil => rfl
    | cons group' groups' => exact absurd h.eq_nil h'.ne_nil
  | cons group groups =>
    cases groups' with
    | nil => exact absurd h'.eq_nil h.ne_nil
    | cons group' groups' =>
      obtain ⟨texts, rfl, hall⟩ := h
      obtain ⟨texts', heq, hall'⟩ := h'
      have hno : ∀ {texts : List Text} {groups}, List.Forall₂ HexGroup texts groups →
          ∀ text ∈ texts, colon ∉ text := by
        intro texts groups hall text htext
        obtain ⟨group, hgroup⟩ := hexGroup_mem hall htext
        exact hgroup.no_colon
      have hsome : ∀ {texts : List Text} {group groups},
          List.Forall₂ HexGroup texts (group :: groups) → texts ≠ [] := by
        rintro texts group groups hall rfl
        cases hall
      have hsame : texts = texts' := by
        rw [← List.splitOn_intercalate colon (hno hall) (hsome hall), heq,
          List.splitOn_intercalate colon (hno hall') (hsome hall')]
      subst hsame
      exact hexGroup_rightUnique.forall₂ hall hall'

theorem Groups.not_prefix (h : Groups text groups) : ¬[colon] <+: text := by
  cases groups with
  | nil => simp [h.eq_nil]
  | cons group groups =>
    obtain ⟨first, hfirst, hsplit⟩ := h.uncons
    obtain ⟨c, first, rfl⟩ := List.exists_cons_of_ne_nil hfirst.nonempty
    have hhead : c ≠ colon := by
      rintro rfl
      exact hfirst.no_colon List.mem_cons_self
    obtain ⟨rfl, -⟩ | ⟨rest, rfl, -⟩ := hsplit
    · simpa [eq_comm] using hhead
    · simpa [eq_comm] using hhead

structure HexRun (text : Text) : Prop where
  nonempty : text ≠ []
  short : text.length ≤ 4
  hex : ∀ c ∈ text, IsHex c

theorem HexGroup.run (h : HexGroup text group) : HexRun text := ⟨h.nonempty, h.short, h.isHex⟩

theorem HexRun.not_prefix (h : HexRun text) (rest : Text) : ¬[colon] <+: text ++ rest := by
  obtain ⟨c, text, rfl⟩ := List.exists_cons_of_ne_nil h.nonempty
  intro hprefix
  have hhex := h.hex c List.mem_cons_self
  rw [← (List.cons_prefix_cons.mp hprefix).1] at hhex
  exact not_isHex_colon hhex

theorem parseIpv6GroupFrom_append {start : BitVec 16} (hleft : left ≤ 4)
    (hhex : ∀ c ∈ text, IsHex c) (hshort : text.length ≤ left)
    (hstop : ∀ c ∈ rest.head?, ¬IsHex c) (hsome : left = 4 → text ≠ []) :
    ∃ group, parseIpv6GroupFrom left start (text ++ rest) = some (group, rest) := by
  induction left generalizing text start with
  | zero =>
    obtain rfl := List.eq_nil_of_length_eq_zero (Nat.le_zero.mp hshort)
    exact ⟨start, rfl⟩
  | succ left ih =>
    cases text with
    | nil =>
      cases rest with
      | nil => exact ⟨start, rfl⟩
      | cons c rest =>
        have hnone : hexCharToNum c = none := by
          have hno := hstop c rfl
          rwa [isHex_iff, Option.not_isSome_iff_eq_none] at hno
        refine ⟨start, ?_⟩
        rw [List.nil_append, parseIpv6GroupFrom, hnone]
        exact if_neg fun hfour => hsome hfour rfl
    | cons c text =>
      obtain ⟨hc, htext⟩ := List.forall_mem_cons.mp hhex
      obtain ⟨addValue, hvalue⟩ := Option.isSome_iff_exists.mp (isHex_iff.mp hc)
      rw [List.cons_append, parseIpv6GroupFrom, hvalue]
      exact ih (by omega) htext (Nat.le_of_succ_le_succ hshort) (by omega)

theorem HexRun.parse (h : HexRun text) (hstop : ∀ c ∈ rest.head?, ¬IsHex c) :
    ∃ group, parseIpv6Group (text ++ rest) = some (group, rest) :=
  parseIpv6GroupFrom_append (Nat.le_refl 4) h.hex h.short hstop fun _ => h.nonempty

theorem parseIpv6Group_append (h : HexGroup text group) (hstop : ∀ c ∈ rest.head?, ¬IsHex c) :
    parseIpv6Group (text ++ rest) = some (group, rest) := by
  obtain ⟨group', hparsed⟩ := h.run.parse hstop
  obtain ⟨text', hsplit, hgroup, -⟩ := parseIpv6Group_spec hparsed (by simp [h.nonempty])
  obtain rfl := List.append_cancel_right hsplit
  rw [hexGroup_rightUnique hgroup h] at hparsed
  exact hparsed

theorem not_isHex_head_nil : ∀ c ∈ ([] : Text).head?, ¬IsHex c := by
  rintro c ⟨⟩

theorem not_isHex_head_colon (rest : Text) : ∀ c ∈ (colon :: rest).head?, ¬IsHex c := by
  rintro c hc
  cases hc
  exact not_isHex_colon

theorem HexRun.parseBackGroupsFrom (h : HexRun text) (hstop : ∀ c ∈ rest.head?, ¬IsHex c)
    (left : Nat) (buf : ExpansionBuf) :
    ∃ buf', parseBackGroupsFrom (left + 1) (colon :: (text ++ rest)) buf =
      parseBackGroupsFrom left rest buf' := by
  obtain ⟨group, hparsed⟩ := h.parse hstop
  have hcompressor : ¬compressor <+: colon :: (text ++ rest) := by
    intro hprefix
    exact h.not_prefix rest (List.cons_prefix_cons.mp hprefix).2
  have hne : text ++ rest ≠ [] := by simp [h.nonempty]
  rw [Ipv6Addr.parseBackGroupsFrom, if_neg (by simp [hcompressor]), if_neg hne, hparsed]
  exact ⟨_, rfl⟩

theorem parseBackGroupsFrom_append (h : Groups back backs) (hlen : backs.length < left)
    (buf : ExpansionBuf) :
    ∃ buf', parseBackGroupsFrom left (colon :: back) buf = some (left - backs.length, buf') := by
  induction backs generalizing left back buf with
  | nil =>
    obtain rfl := h.eq_nil
    cases left with
    | zero => exact absurd hlen (Nat.not_lt_zero _)
    | succ left => exact ⟨buf, rfl⟩
  | cons group backs ih =>
    cases left with
    | zero => exact absurd hlen (Nat.not_lt_zero _)
    | succ left =>
      have hcount : left + 1 - (group :: backs).length = left - backs.length := by simp
      rw [hcount]
      obtain ⟨first, hfirst, ⟨rfl, rfl⟩ | ⟨rest, rfl, hrest, -⟩⟩ := h.uncons
      · obtain ⟨buf', hnext⟩ := hfirst.run.parseBackGroupsFrom not_isHex_head_nil left buf
        rw [List.append_nil] at hnext
        rw [hnext]
        exact ⟨buf', parseBackGroupsFrom_nil left buf'⟩
      · obtain ⟨buf', hnext⟩ := hfirst.run.parseBackGroupsFrom (not_isHex_head_colon rest) left buf
        rw [hnext]
        exact ih hrest (by simpa using hlen) buf'

theorem slot_lt (left : Nat) : 8 - (left + 1) < 8 := by omega

theorem parseFrontGroupsFrom_append (h : HexGroup text group)
    (hstop : ∀ c ∈ rest.head?, ¬IsHex c) (buf : ExpansionBuf) :
    parseFrontGroupsFrom (left + 1) (text ++ rest) buf =
      if compressor <+: rest then
        some (⟨true, 8 - left, rest.drop 1⟩, buf.set (8 - (left + 1)) group (slot_lt left))
      else
        parseFrontGroupsFrom left (rest.drop 1)
          (buf.set (8 - (left + 1)) group (slot_lt left)) := by
  have hparsed := parseIpv6Group_append h hstop
  obtain ⟨c, text, rfl⟩ := List.exists_cons_of_ne_nil h.nonempty
  rw [List.cons_append, parseFrontGroupsFrom, ← List.cons_append, hparsed]

theorem parseFrontGroupsFrom_next (h : HexGroup text group) (hrest : ¬[colon] <+: rest)
    (buf : ExpansionBuf) :
    parseFrontGroupsFrom (left + 1) (text ++ colon :: rest) buf =
      parseFrontGroupsFrom left rest (buf.set (8 - (left + 1)) group (slot_lt left)) := by
  have hcompressor : ¬compressor <+: colon :: rest := by
    intro hprefix
    exact hrest (List.cons_prefix_cons.mp hprefix).2
  rw [parseFrontGroupsFrom_append h (not_isHex_head_colon rest), if_neg hcompressor]
  rfl

theorem parseFrontGroupsFrom_compressed (h : Groups front fronts) (hne : fronts ≠ [])
    (hlen : fronts.length ≤ left) (hleft : left ≤ 8) (back : Text) (buf : ExpansionBuf) :
    ∃ buf', parseFrontGroupsFrom left (front ++ compressor ++ back) buf =
      some (⟨true, 8 - left + fronts.length, colon :: back⟩, buf') := by
  induction fronts generalizing left front buf with
  | nil => exact absurd rfl hne
  | cons group fronts ih =>
    cases left with
    | zero => exact absurd hlen (Nat.not_succ_le_zero _)
    | succ left =>
      have hcount : 8 - (left + 1) + (group :: fronts).length = 8 - left + fronts.length := by
        rw [List.length_cons]
        omega
      rw [hcount]
      obtain ⟨first, hfirst, ⟨rfl, rfl⟩ | ⟨rest, rfl, hrest, hsome⟩⟩ := h.uncons
      · have hstop : ∀ c ∈ (compressor ++ back).head?, ¬IsHex c :=
          not_isHex_head_colon (colon :: back)
        rw [List.append_assoc, parseFrontGroupsFrom_append hfirst hstop,
          if_pos (List.prefix_append compressor back)]
        exact ⟨_, rfl⟩
      · have hnext : ¬[colon] <+: rest ++ compressor ++ back := by
          intro hprefix
          obtain ⟨c, rest, rfl⟩ := List.exists_cons_of_ne_nil hsome
          exact hrest.not_prefix (by simpa using hprefix)
        have hfronts : fronts ≠ [] := by
          rintro rfl
          exact hsome hrest.eq_nil
        rw [List.append_assoc, List.append_assoc, List.cons_append,
          ← List.append_assoc rest, parseFrontGroupsFrom_next hfirst hnext]
        exact ih hrest hfronts (Nat.le_of_succ_le_succ hlen) (by omega) _

theorem parseFrontGroupsFrom_whole (h : Groups text groups) (hlen : groups.length = left)
    (hleft : left ≤ 8) (buf : ExpansionBuf) :
    ∃ buf', parseFrontGroupsFrom left text buf = some (⟨false, 8, []⟩, buf') := by
  induction groups generalizing left text buf with
  | nil =>
    obtain rfl := h.eq_nil
    subst hlen
    exact ⟨buf, rfl⟩
  | cons group groups ih =>
    subst hlen
    obtain ⟨first, hfirst, ⟨rfl, rfl⟩ | ⟨rest, rfl, hrest, -⟩⟩ := h.uncons
    · rw [List.length_singleton, ← List.append_nil text,
        parseFrontGroupsFrom_append hfirst not_isHex_head_nil]
      exact ⟨_, rfl⟩
    · rw [List.length_cons, parseFrontGroupsFrom_next hfirst hrest.not_prefix]
      exact ih hrest rfl (Nat.le_of_succ_le hleft) _

theorem ipv6ParseFrontGroups_compressed (h : Groups front fronts) (hlen : fronts.length ≤ 8)
    (back : Text) (expansionBuf : ExpansionBuf) :
    ∃ buf, ipv6ParseFrontGroups (front ++ compressor ++ back) expansionBuf =
      some (⟨true, fronts.length, colon :: back⟩, buf) := by
  rw [ipv6ParseFrontGroups]
  cases fronts with
  | nil =>
    rw [h.eq_nil, if_pos (by simp)]
    exact ⟨expansionBuf, rfl⟩
  | cons group fronts =>
    have hne : ¬compressor <+: front ++ compressor ++ back := by
      obtain ⟨c, front', rfl⟩ := List.exists_cons_of_ne_nil h.ne_nil
      intro hprefix
      have hhead := (List.cons_prefix_cons.mp hprefix).1
      exact h.not_prefix (by simp [hhead])
    rw [if_neg hne]
    simpa using parseFrontGroupsFrom_compressed h (List.cons_ne_nil _ _) hlen (Nat.le_refl 8) back
      expansionBuf

theorem parseRegular_compressed (hfront : Groups front fronts) (hback : Groups back backs)
    (hlen : fronts.length + backs.length < 8) {groups : ExpansionBuf}
    (hgroups : groups.toList =
      fronts ++ List.replicate (8 - fronts.length - backs.length) 0 ++ backs) :
    parseRegular expansionBuf (front ++ compressor ++ back) = some (fromGroups groups) := by
  have hform := RegularForm.compressed hfront hback hlen
  rw [← hgroups] at hform
  have hw := wellSeparated_of_denotes ⟨groups, hform, rfl⟩
  obtain ⟨buf, hread⟩ := ipv6ParseFrontGroups_compressed hfront (by omega) back expansionBuf
  obtain ⟨fronts', after, -, hlist, hcompressed, -⟩ := ipv6ParseFrontGroups_spec hw hread
  obtain ⟨front', back', haddr, hrest, hfronts⟩ := hcompressed rfl
  obtain rfl := (List.cons.inj hrest).2
  obtain rfl := List.append_cancel_right (List.append_cancel_right haddr)
  obtain rfl := hfront.unique hfronts
  obtain ⟨buf', hback'⟩ :=
    parseBackGroupsFrom_append hback (show _ < 8 - fronts.length by omega) buf
  have hsep : WellSeparated (colon :: back) := hw.suffix ⟨front ++ [colon], by simp [compressor]⟩
  obtain ⟨backs', hbacks, -, hwrites⟩ := parseBackGroupsFrom_spec (Nat.sub_le 8 _) hsep hback'
  obtain rfl := hback.unique hbacks
  rw [Nat.sub_sub_self (by omega)] at hwrites
  obtain ⟨after', hlist', hcount⟩ := hwrites.lengths (by omega)
  rw [hlist, List.take_left] at hlist'
  have hzeros : 8 - fronts.length - backs.length = after'.length := by omega
  rw [hzeros, List.append_assoc, ← toList_filled hlist'] at hgroups
  obtain rfl := Vector.toList_inj.mp hgroups
  simp only [parseRegular, hread, hback', hzeros, if_true]
  exact if_neg (by omega)

theorem parseRegular_full {groups : ExpansionBuf} (h : Groups addr groups.toList) :
    parseRegular expansionBuf addr = some (fromGroups groups) := by
  have hlen : groups.toList.length = 8 := groups.length_toList
  have hw := wellSeparated_of_denotes ⟨groups, .full h hlen, rfl⟩
  have hcompressor : ¬compressor <+: addr := fun hprefix =>
    h.not_prefix ((List.prefix_append [colon] [colon]).trans hprefix)
  obtain ⟨buf, hread⟩ : ∃ buf, ipv6ParseFrontGroups addr expansionBuf =
      some (⟨false, 8, []⟩, buf) := by
    rw [ipv6ParseFrontGroups, if_neg hcompressor]
    exact parseFrontGroupsFrom_whole h hlen (Nat.le_refl 8) expansionBuf
  obtain ⟨fronts, after, -, hlist, -, hwhole⟩ := ipv6ParseFrontGroups_spec hw hread
  obtain rfl := h.unique (hwhole rfl rfl)
  have hafter : after = [] := by
    have hcount := congrArg List.length hlist
    rw [List.length_append, hlen, Vector.length_toList] at hcount
    exact List.eq_nil_of_length_eq_zero (by omega)
  rw [hafter, List.append_nil] at hlist
  obtain rfl := Vector.toList_inj.mp hlist
  simp [parseRegular, hread]

theorem parseRegular_complete {groups : ExpansionBuf} (h : RegularForm addr groups.toList) :
    parseRegular expansionBuf addr = some (fromGroups groups) := by
  generalize hgroups : groups.toList = list at h
  cases h with
  | full hall _ =>
    subst hgroups
    exact parseRegular_full hall
  | compressed hfront hback hlen => exact parseRegular_compressed hfront hback hlen hgroups

def MappedPrefix (ffff : Text) : Prop := lowercase ffff = [letterF, letterF, letterF, letterF]

theorem MappedPrefix.length_eq {ffff : Text} (h : MappedPrefix ffff) : ffff.length = 4 := by
  have hlen := congrArg List.length h
  simpa [lowercase] using hlen

theorem MappedPrefix.letter {ffff : Text} (h : MappedPrefix ffff) (hc : c ∈ ffff) :
    toLower c = letterF := by
  have hmem : toLower c ∈ lowercase ffff := List.mem_map_of_mem hc
  rw [h] at hmem
  simpa using hmem

theorem MappedPrefix.run {ffff : Text} (h : MappedPrefix ffff) : HexRun ffff := by
  have hlen := h.length_eq
  refine ⟨?_, hlen.le, fun c hc => ⟨15, ?_⟩⟩
  · rintro rfl
    cases hlen
  · rw [HexDigit, h.letter hc]
    rfl

theorem decimal_run {value : Byte} (h : Ipv4Addr.Decimal text value) : HexRun text := by
  refine ⟨h.nonempty, h.short.trans (by decide), fun c hc => ?_⟩
  have hdigit : 48 ≤ c ∧ c ≤ 57 := h.digits c hc
  rw [isHex_iff, hexCharToNum, if_pos hdigit]
  rfl

theorem dotted_split {ipv4 : Ipv4Addr} (h : Ipv4Addr.Dotted addr ipv4) :
    ∃ first rest, HexRun first ∧ addr = first ++ Ipv4Addr.dot :: rest := by
  obtain ⟨groups, rfl, hall⟩ := h
  have hlen := hall.length_eq.trans ipv4.length_toList
  match groups, hall with
  | first :: second :: groups, hall =>
    obtain ⟨value, values, hfirst, -, -⟩ := List.forall₂_cons_left_iff.mp hall
    refine ⟨first, [Ipv4Addr.dot].intercalate (second :: groups), decimal_run hfirst, ?_⟩
    rw [List.intercalate_cons_cons, List.append_assoc]
    rfl

theorem parseRegular_mapped {ffff : Text} {ipv4 : Ipv4Addr} (h : MappedPrefix ffff)
    (hdotted : Ipv4Addr.Dotted addr ipv4) :
    parseRegular expansionBuf (compressor ++ ffff ++ colon :: addr) = none := by
  obtain ⟨first, rest, hfirst, rfl⟩ := dotted_split hdotted
  have hdot : ∀ c ∈ (Ipv4Addr.dot :: rest).head?, ¬IsHex c := by
    rintro c hc
    cases hc
    rw [isHex_iff]
    decide
  have hread : ipv6ParseFrontGroups (compressor ++ ffff ++ colon :: (first ++ Ipv4Addr.dot :: rest))
      expansionBuf = some (⟨true, 0, colon :: (ffff ++ colon :: (first ++ Ipv4Addr.dot :: rest))⟩,
        expansionBuf) := by
    rw [ipv6ParseFrontGroups, List.append_assoc, if_pos (List.prefix_append compressor _)]
    rfl
  obtain ⟨buf, hprefix⟩ := h.run.parseBackGroupsFrom
    (not_isHex_head_colon (first ++ Ipv4Addr.dot :: rest)) 7 expansionBuf
  obtain ⟨buf', hgroup⟩ := hfirst.parseBackGroupsFrom hdot 6 buf
  have hrejected : parseBackGroupsFrom 6 (Ipv4Addr.dot :: rest) buf' = none := by
    rw [parseBackGroupsFrom, if_pos (.inl (by decide))]
  simp only [parseRegular, hread, if_true, Nat.sub_zero, hprefix, hgroup, hrejected]

theorem mapped_front : ∀ i (_ : i < 12),
    (((Vector.replicate 16 (0 : Byte)).set 10 255).set 11 255)[i] =
      (Vector.replicate 10 (0 : Byte) ++ (#v[255, 255] : Vector Byte 2))[i] := by
  decide

theorem parseMappedIpv4_mapped {ffff : Text} {ipv4 : Ipv4Addr} (h : MappedPrefix ffff)
    (hparsed : Ipv4Addr.parse addr = some ipv4) :
    parseMappedIpv4 (compressor ++ ffff ++ colon :: addr) = some (mappedIpv4 ipv4) := by
  have hletter : ∀ c : Byte, toLower c = letterF → ¬(c ≠ letterF ∧ c ≠ 70) := by
    decide +kernel
  have hletters : ¬(ffff.any fun c => c ≠ letterF ∧ c ≠ 70) = true := by
    rw [List.any_eq_true]
    rintro ⟨c, hc, hbad⟩
    exact hletter c (h.letter hc) (of_decide_eq_true hbad)
  have hsize : ¬((compressor ++ ffff ++ colon :: addr).length < compressor.length + 5 ∨
      ¬compressor <+: compressor ++ ffff ++ colon :: addr) := by
    rw [not_or, not_not, not_lt]
    refine ⟨?_, (List.append_assoc ..).symm ▸ List.prefix_append compressor _⟩
    simp only [List.length_append, List.length_cons, h.length_eq]
    omega
  have hcut :
      (compressor ++ ffff ++ colon :: addr).drop compressor.length = ffff ++ colon :: addr := by
    rw [List.append_assoc, List.drop_left]
  have htake : (ffff ++ colon :: addr).take 4 = ffff := by
    rw [← h.length_eq, List.take_left]
  have hdrop : (ffff ++ colon :: addr).drop 4 = colon :: addr := by
    rw [← h.length_eq, List.drop_left]
  have hcolon : ¬¬[colon] <+: colon :: addr := not_not.mpr (List.prefix_append [colon] addr)
  simp only [parseMappedIpv4, if_neg hsize, hcut, htake, if_neg hletters, hdrop, if_neg hcolon,
    List.drop_succ_cons, List.drop_zero, hparsed]
  refine congrArg some (Vector.ext fun i hi => ?_)
  rw [Vector.getElem_ofFn, mappedIpv4, Vector.getElem_append]
  by_cases hi' : i < 12
  · rw [dif_pos hi', dif_neg (Nat.not_le.mpr hi')]
    exact mapped_front i hi'
  · rw [dif_neg hi', dif_pos (Nat.not_lt.mp hi')]

theorem parse_renderings :
    (∀ expansionBuf addr (groups : ExpansionBuf), RegularForm addr groups.toList →
      parse expansionBuf addr = some (fromGroups groups)) ∧
    ∀ expansionBuf ffff addr ipv4, MappedPrefix ffff → Ipv4Addr.parse addr = some ipv4 →
      parse expansionBuf (compressor ++ ffff ++ colon :: addr) = some (mappedIpv4 ipv4) := by
  constructor
  · intro expansionBuf addr groups h
    rw [parse, parseRegular_complete h]
  · intro expansionBuf ffff addr ipv4 h hparsed
    rw [parse, parseRegular_mapped h (Ipv4Addr.dotted_of_parse hparsed)]
    exact parseMappedIpv4_mapped h hparsed

theorem parse_renderings_instances :
    parse (Vector.replicate 8 7) [102, 101, 56, 48, 58, 58, 49] =
      some (fromGroups #v[0xfe80, 0, 0, 0, 0, 0, 0, 1]) ∧
    parse (Vector.replicate 8 7)
        [58, 58, 70, 102, 70, 102, 58, 49, 46, 50, 46, 51, 46, 52] =
      some (mappedIpv4 #v[1, 2, 3, 4]) := by
  refine ⟨parse_renderings.1 _ _ _ ?_, parse_renderings.2 _ [70, 102, 70, 102] _ _ ?_ ?_⟩
  · have hfront : HexGroup [102, 101, 56, 48] 0xfe80 :=
      ⟨by decide, by decide, [15, 14, 8, 0], by simp [HexDigit]; decide, by decide⟩
    have hback : HexGroup [49] 1 :=
      ⟨by decide, by decide, [1], by simp [HexDigit]; decide, by decide⟩
    exact .compressed (groups_single hfront) (groups_single hback) (by decide)
  · rfl
  · decide

end Ipv6Addr

end Corosig
