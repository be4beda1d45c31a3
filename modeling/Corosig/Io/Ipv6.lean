import Corosig.Io.Ipv4
import Corosig.Library.Delimited

namespace Corosig
open Delimited Dns

abbrev Ipv6Addr := Vector Byte 16

namespace Ipv6Addr

abbrev ExpansionBuf := Vector (BitVec 16) 8

def colon : Byte := 58

def compressor : Text := [colon, colon]

def hexCharToNum (c : Byte) : Option Nat :=
  if 48 ≤ c ∧ c ≤ 57 then some (c.val - 48)
  else if 97 ≤ c ∧ c ≤ 102 then some (c.val - 97 + 10)
  else if 65 ≤ c ∧ c ≤ 70 then some (c.val - 65 + 10)
  else none

-- left of the four turns of the loop are still to come.
def parseIpv6GroupFrom : (left : Nat) → BitVec 16 → Text → Option (BitVec 16 × Text)
  | 0, group, groupStr => some (group, groupStr)
  | _ + 1, group, [] => some (group, [])
  | left + 1, group, c :: rest =>
      match hexCharToNum c with
      | none => if left + 1 = 4 then none else some (group, c :: rest)
      | some addValue => parseIpv6GroupFrom left (group * 16 + BitVec.ofNat 16 addValue) rest

def parseIpv6Group (groupStr : Text) : Option (BitVec 16 × Text) := parseIpv6GroupFrom 4 0 groupStr

structure ParseFrontGroupsSuccess where
  hasMetCompressor : Bool := false
  groups : Nat := 0
  addr : Text
  deriving DecidableEq, Repr

-- left is 8 - front_groups, so the group goes to the slot front_groups.
def parseFrontGroupsFrom : (left : Nat) → Text → ExpansionBuf →
    Option (ParseFrontGroupsSuccess × ExpansionBuf)
  | 0, addr, expansionBuf => some ({ groups := 8, addr := addr }, expansionBuf)
  | left + 1, [], expansionBuf => some ({ groups := 8 - (left + 1), addr := [] }, expansionBuf)
  | left + 1, c :: rest, expansionBuf =>
      match parseIpv6Group (c :: rest) with
      | none => none
      | some (group, addr) =>
          let expansionBuf := expansionBuf.set (8 - (left + 1)) group
          if compressor <+: addr then
            some ({ hasMetCompressor := true, groups := 8 - left, addr := addr.drop 1 }, expansionBuf)
          else parseFrontGroupsFrom left (addr.drop 1) expansionBuf

def ipv6ParseFrontGroups (addr : Text) (expansionBuf : ExpansionBuf) :
    Option (ParseFrontGroupsSuccess × ExpansionBuf) :=
  if compressor <+: addr then
    some ({ hasMetCompressor := true, addr := addr.drop 1 }, expansionBuf)
  else parseFrontGroupsFrom 8 addr expansionBuf

-- left is 8 - front_groups - back_groups; the result is what of it is left in the end.
def parseBackGroupsFrom : (left : Nat) → Text → ExpansionBuf → Option (Nat × ExpansionBuf)
  | left, [], expansionBuf => some (left, expansionBuf)
  | 0, _ :: _, _ => none
  | left + 1, c :: addr, expansionBuf =>
      if c ≠ colon ∨ compressor <+: c :: addr then none
      else if addr = [] then some (left + 1, expansionBuf)
      else
        match parseIpv6Group addr with
        | none => none
        | some (group, addr) => parseBackGroupsFrom left addr (expansionBuf.set (8 - (left + 1)) group)

def shiftRight (expansionBuf : ExpansionBuf) (first n : Nat) : ExpansionBuf :=
  Vector.ofFn fun i => if first + n ≤ i.val then expansionBuf[i.val - n] else expansionBuf[i]

def fillN (expansionBuf : ExpansionBuf) (first n : Nat) (value : BitVec 16) : ExpansionBuf :=
  Vector.ofFn fun i => if first ≤ i.val ∧ i.val < first + n then value else expansionBuf[i]

def fromGroups (groups : ExpansionBuf) : Ipv6Addr :=
  Vector.ofFn fun i =>
    let group := groups[i.val / 2]
    if i.val % 2 = 0 then Fin.ofNat 256 (group >>> 8).toNat else Fin.ofNat 256 group.toNat

-- expansionBuf is what the uninitialised array happens to hold.
def parseRegular (expansionBuf : ExpansionBuf) (addr : Text) : Option Ipv6Addr :=
  match ipv6ParseFrontGroups addr expansionBuf with
  | none => none
  | some (frontRes, expansionBuf) =>
      if frontRes.hasMetCompressor then
        match parseBackGroupsFrom (8 - frontRes.groups) frontRes.addr expansionBuf with
        | none => none
        | some (expandedZeroGroups, expansionBuf) =>
            let shifted := shiftRight expansionBuf frontRes.groups expandedZeroGroups
            let filled := fillN shifted frontRes.groups expandedZeroGroups 0
            if expandedZeroGroups = 0 then none else some (fromGroups filled)
      else if frontRes.groups ≠ 8 ∨ frontRes.addr ≠ [] then none
      else some (fromGroups expansionBuf)

def hexDigits : Text := [48, 49, 50, 51, 52, 53, 54, 55, 56, 57, 97, 98, 99, 100, 101, 102]

def HexDigit (c : Byte) (n : Nat) : Prop := hexDigits[n]? = some (toLower c)

structure HexGroup (text : Text) (group : BitVec 16) : Prop where
  nonempty : text ≠ []
  short : text.length ≤ 4
  value : ∃ digits, List.Forall₂ HexDigit text digits ∧
    group.toNat = Nat.ofDigits 16 digits.reverse

def Groups (text : Text) (groups : List (BitVec 16)) : Prop :=
  ∃ texts, text = [colon].intercalate texts ∧ List.Forall₂ HexGroup texts groups

inductive RegularForm : Text → List (BitVec 16) → Prop
  | full {text : Text} {groups : List (BitVec 16)} : Groups text groups → groups.length = 8 →
      RegularForm text groups
  | compressed {front back : Text} {fronts backs : List (BitVec 16)} : Groups front fronts →
      Groups back backs → fronts.length + backs.length < 8 →
      RegularForm (front ++ compressor ++ back)
        (fronts ++ List.replicate (8 - fronts.length - backs.length) 0 ++ backs)

def Denotes (addr : Text) (address : Ipv6Addr) : Prop :=
  ∃ groups : ExpansionBuf, RegularForm addr groups.toList ∧ address = fromGroups groups

def IsHex (c : Byte) : Prop := ∃ n, HexDigit c n

structure WellSeparated (addr : Text) : Prop where
  plain : ∀ c ∈ addr, c = colon ∨ IsHex c
  short : ∀ run, run <:+: addr → (∀ c ∈ run, IsHex c) → run.length ≤ 4
  closed : ∀ front c, addr = front ++ [c, colon] → ¬IsHex c

variable {addr text rest front back : Text} {group : BitVec 16} {groups : List (BitVec 16)}
  {expansionBuf expansionBuf' : ExpansionBuf} {left left' n : Nat} {c : Byte}

theorem hexCharToNum_eq_some : hexCharToNum c = some n ↔ HexDigit c n := by
  have hforward : ∀ c : Byte, ∀ n ∈ hexCharToNum c, HexDigit c n := by
    unfold HexDigit
    decide +kernel
  have hback : ∀ c : Byte, hexCharToNum c = none → toLower c ∉ hexDigits := by decide +kernel
  have hdistinct : hexDigits.Nodup := by decide
  refine ⟨hforward c n, fun h => ?_⟩
  cases hparsed : hexCharToNum c with
  | none => exact absurd (List.mem_of_getElem? h) (hback c hparsed)
  | some m =>
    obtain ⟨hn, hget⟩ := List.getElem?_eq_some_iff.mp h
    obtain ⟨hm, hget'⟩ := List.getElem?_eq_some_iff.mp (hforward c m hparsed)
    rw [List.getElem_inj hdistinct |>.mp (hget.trans hget'.symm)]

theorem isHex_iff : IsHex c ↔ (hexCharToNum c).isSome := by
  simp only [IsHex, Option.isSome_iff_exists, hexCharToNum_eq_some]

theorem HexGroup.isHex (h : HexGroup text group) : ∀ c ∈ text, IsHex c := by
  obtain ⟨digits, hdigits, -⟩ := h.value
  clear h
  induction hdigits with
  | nil => exact fun c hc => absurd hc List.not_mem_nil
  | cons hfirst _ ih => exact List.forall_mem_cons.mpr ⟨⟨_, hfirst⟩, ih⟩

theorem not_isHex_colon : ¬IsHex colon := by
  rw [isHex_iff]
  decide

theorem WellSeparated.suffix (h : WellSeparated addr) (hs : rest <:+ addr) :
    WellSeparated rest := by
  obtain ⟨front, rfl⟩ := hs
  refine ⟨fun c hc => h.plain c (List.mem_append_right front hc), fun run hrun => ?_, ?_⟩
  · exact h.short run (hrun.trans (List.suffix_append front rest).isInfix)
  · rintro front' c rfl
    exact h.closed (front ++ front') c (List.append_assoc ..).symm

structure GroupRead (left : Nat) (start : BitVec 16) (addr text rest : Text)
    (group : BitVec 16) : Prop where
  split : addr = text ++ rest
  short : text.length ≤ left
  stop : text.length = left ∨ ∀ c ∈ rest.head?, ¬IsHex c
  value : ∃ digits, List.Forall₂ HexDigit text digits ∧
    (left ≤ 4 → start.toNat < 16 ^ (4 - left) →
      group.toNat = start.toNat * 16 ^ text.length + Nat.ofDigits 16 digits.reverse)

theorem GroupRead.cons {addValue : Nat} {start : BitVec 16} (hc : HexDigit c addValue)
    (h : GroupRead left (start * 16 + BitVec.ofNat 16 addValue) addr text rest group) :
    GroupRead (left + 1) start (c :: addr) (c :: text) rest group := by
  obtain ⟨digits, hdigits, hvalue⟩ := h.value
  refine ⟨congrArg (c :: ·) h.split, Nat.succ_le_succ h.short,
    h.stop.imp_left (congrArg (· + 1)), addValue :: digits, .cons hc hdigits, fun hleft hstart => ?_⟩
  have hadd : addValue < 16 := (List.getElem?_eq_some_iff.mp hc).1
  have hpow : 16 ^ (4 - left) = 16 ^ (4 - (left + 1)) * 16 := by
    rw [← Nat.pow_succ]
    congr 1
    omega
  have hmax : 16 ^ (4 - left) ≤ 16 ^ 4 := Nat.pow_le_pow_right (by decide) (Nat.sub_le 4 left)
  have hnext : (start * 16 + BitVec.ofNat 16 addValue).toNat = start.toNat * 16 + addValue := by
    have hbase : (16 : BitVec 16).toNat = 16 := rfl
    rw [BitVec.toNat_add, BitVec.toNat_mul, BitVec.toNat_ofNat, hbase]
    norm_num at hmax ⊢
    omega
  have hlen : digits.length = text.length := hdigits.length_eq.symm
  rw [hvalue (by omega) (by omega), hnext, List.reverse_cons, Nat.ofDigits_append,
    List.length_reverse, Nat.ofDigits_singleton, hlen, List.length_cons, Nat.pow_succ]
  ring

theorem parseIpv6GroupFrom_spec {start : BitVec 16}
    (h : parseIpv6GroupFrom left start addr = some (group, rest)) :
    ∃ text, GroupRead left start addr text rest group := by
  induction left generalizing start addr with
  | zero =>
    cases h
    exact ⟨[], rfl, Nat.zero_le _, .inl rfl, [], .nil, fun _ _ => by simp⟩
  | succ left ih =>
    cases addr with
    | nil =>
      cases h
      exact ⟨[], rfl, Nat.zero_le _, .inr (by simp), [], .nil, fun _ _ => by simp⟩
    | cons c addr =>
      rw [parseIpv6GroupFrom] at h
      split at h
      · rename_i hnone
        split at h
        · cases h
        · cases h
          refine ⟨[], rfl, Nat.zero_le _, .inr ?_, [], .nil, fun _ _ => by simp⟩
          rintro c' hc'
          cases hc'
          rw [isHex_iff, hnone]
          exact Bool.false_ne_true
      · rename_i addValue hsome
        obtain ⟨text, hread⟩ := ih h
        exact ⟨c :: text, hread.cons (hexCharToNum_eq_some.mp hsome)⟩

theorem parseIpv6Group_spec (h : parseIpv6Group addr = some (group, rest)) (hne : addr ≠ []) :
    ∃ text, addr = text ++ rest ∧ HexGroup text group ∧
      (text.length = 4 ∨ ∀ c ∈ rest.head?, ¬IsHex c) := by
  obtain ⟨text, hread⟩ := parseIpv6GroupFrom_spec h
  obtain ⟨digits, hdigits, hvalue⟩ := hread.value
  have hsome : text ≠ [] := by
    rintro rfl
    obtain ⟨c, addr, rfl⟩ := List.exists_cons_of_ne_nil hne
    obtain rfl : c :: addr = rest := hread.split
    have hstop := hread.stop.resolve_left (by decide) c rfl
    rw [isHex_iff, Option.not_isSome_iff_eq_none] at hstop
    rw [parseIpv6Group, parseIpv6GroupFrom] at h
    simp [hstop] at h
  refine ⟨text, hread.split, ⟨hsome, hread.short, digits, hdigits, ?_⟩, hread.stop⟩
  rw [hvalue (Nat.le_refl 4) (by decide)]
  simp

theorem groups_nil : Groups [] [] := ⟨[], rfl, .nil⟩

theorem groups_single (h : HexGroup text group) : Groups text [group] :=
  ⟨[text], by simp, .cons h .nil⟩

theorem Groups.cons (h : HexGroup text group) (hrest : Groups rest groups) (hne : rest ≠ []) :
    Groups (text ++ colon :: rest) (group :: groups) := by
  obtain ⟨texts, rfl, hall⟩ := hrest
  refine ⟨text :: texts, ?_, .cons h hall⟩
  cases texts with
  | nil => exact absurd rfl hne
  | cons second texts => rw [List.intercalate_cons_cons, List.append_assoc]; rfl

theorem WellSeparated.behind (h : WellSeparated (text ++ rest)) (hgroup : HexGroup text group)
    (hstop : text.length = 4 ∨ ∀ c ∈ rest.head?, ¬IsHex c) :
    rest = [] ∨ ∃ after, rest = colon :: after ∧ after ≠ [] := by
  cases rest with
  | nil => exact .inl rfl
  | cons c after =>
    have hcolon : c = colon := by
      refine (h.plain c (by simp)).resolve_right fun hhex => ?_
      have hfour := hstop.resolve_right fun hno => hno c rfl hhex
      have hrun := h.short (text ++ [c]) ⟨[], after, by simp⟩ fun c' hc' => by
        rcases List.mem_append.mp hc' with hc' | hc'
        · exact hgroup.isHex c' hc'
        · exact List.mem_singleton.mp hc' ▸ hhex
      rw [List.length_append, hfour] at hrun
      exact Nat.not_succ_le_self 4 hrun
    refine .inr ⟨after, congrArg (· :: after) hcolon, ?_⟩
    rintro rfl
    obtain ⟨front, last, rfl⟩ := List.eq_nil_or_concat' text |>.resolve_left hgroup.nonempty
    refine h.closed front last ?_ (hgroup.isHex last (by simp))
    rw [hcolon, List.append_assoc, List.singleton_append]

def Writes (buf buf' : ExpansionBuf) (first : Nat) (groups : List (BitVec 16)) : Prop :=
  ∃ after, buf'.toList = buf.toList.take first ++ groups ++ after

theorem writes_nil (buf : ExpansionBuf) (first : Nat) : Writes buf buf first [] :=
  ⟨buf.toList.drop first, by rw [List.append_nil, List.take_append_drop]⟩

theorem Writes.cons {buf buf' : ExpansionBuf} {first : Nat} (hfirst : first < 8)
    (h : Writes (buf.set first group) buf' (first + 1) groups) :
    Writes buf buf' first (group :: groups) := by
  obtain ⟨after, hafter⟩ := h
  refine ⟨after, ?_⟩
  have htake : (buf.set first group).toList.take (first + 1) = buf.toList.take first ++ [group] := by
    have hlen : first < buf.toList.length := hfirst.trans_eq buf.length_toList.symm
    rw [Vector.toList_set, List.take_succ_eq_append_getElem (by rwa [List.length_set]),
      List.getElem_set_self, List.take_set_of_le (Nat.le_refl first)]
  rw [hafter, htake, List.append_assoc (buf.toList.take first)]
  rfl

theorem parseBackGroupsFrom_nil (left : Nat) (expansionBuf : ExpansionBuf) :
    parseBackGroupsFrom left [] expansionBuf = some (left, expansionBuf) := by
  cases left <;> rfl

theorem parseBackGroupsFrom_spec (hleft : left ≤ 8) (hw : WellSeparated (colon :: back))
    (h : parseBackGroupsFrom left (colon :: back) expansionBuf = some (left', expansionBuf')) :
    ∃ groups, Groups back groups ∧ left' + groups.length = left ∧
      Writes expansionBuf expansionBuf' (8 - left) groups := by
  induction left generalizing back expansionBuf with
  | zero => cases h
  | succ left ih =>
    rw [parseBackGroupsFrom] at h
    split at h
    · cases h
    split at h
    · rename_i hnil
      cases h
      exact ⟨[], hnil ▸ groups_nil, rfl, writes_nil _ _⟩
    · rename_i hne
      split at h
      · cases h
      · rename_i group rest hparsed
        obtain ⟨text, rfl, hgroup, hstop⟩ := parseIpv6Group_spec hparsed hne
        have hslot : 8 - (left + 1) + 1 = 8 - left := by omega
        have hfirst : 8 - (left + 1) < 8 := by omega
        obtain rfl | ⟨after, rfl, hafter⟩ :=
          (hw.suffix (List.suffix_cons colon _)).behind hgroup hstop
        · rw [parseBackGroupsFrom_nil] at h
          cases h
          refine ⟨[group], ?_, rfl, (writes_nil _ _).cons hfirst⟩
          rw [List.append_nil]
          exact groups_single hgroup
        · have hrest : WellSeparated (colon :: after) :=
            hw.suffix ⟨colon :: text, List.cons_append⟩
          obtain ⟨groups, hgroups, hcount, hwrites⟩ := ih (by omega) hrest h
          rw [← hslot] at hwrites
          refine ⟨group :: groups, hgroups.cons hgroup hafter, ?_, hwrites.cons hfirst⟩
          rw [List.length_cons, ← hcount, Nat.add_assoc]

structure FrontRead (left : Nat) (addr : Text) (expansionBuf expansionBuf' : ExpansionBuf)
    (frontRes : ParseFrontGroupsSuccess) (groups : List (BitVec 16)) : Prop where
  count : frontRes.groups + left = 8 + groups.length
  writes : Writes expansionBuf expansionBuf' (8 - left) groups
  compressed : frontRes.hasMetCompressor = true → ∃ front back, addr = front ++ compressor ++ back ∧
    frontRes.addr = colon :: back ∧ front ≠ [] ∧ Groups front groups
  whole : frontRes.hasMetCompressor = false → frontRes.addr = [] → Groups addr groups

theorem parseFrontGroupsFrom_nil (left : Nat) (expansionBuf : ExpansionBuf) :
    parseFrontGroupsFrom left [] expansionBuf =
      some ({ groups := 8 - left, addr := [] }, expansionBuf) := by
  cases left <;> rfl

theorem parseFrontGroupsFrom_spec {frontRes : ParseFrontGroupsSuccess} (hleft : left ≤ 8)
    (hw : WellSeparated addr)
    (h : parseFrontGroupsFrom left addr expansionBuf = some (frontRes, expansionBuf')) :
    ∃ groups, FrontRead left addr expansionBuf expansionBuf' frontRes groups := by
  induction left generalizing addr expansionBuf with
  | zero =>
    cases h
    refine ⟨[], rfl, writes_nil _ _, by rintro ⟨⟩, fun _ hend => ?_⟩
    obtain rfl : addr = [] := hend
    exact groups_nil
  | succ left ih =>
    cases addr with
    | nil =>
      cases h
      exact ⟨[], by simp only [List.length_nil]; omega, writes_nil _ _, by rintro ⟨⟩,
        fun _ _ => groups_nil⟩
    | cons c addr =>
      rw [parseFrontGroupsFrom] at h
      split at h
      · cases h
      · rename_i group rest hparsed
        obtain ⟨text, heq, hgroup, hstop⟩ := parseIpv6Group_spec hparsed (List.cons_ne_nil c addr)
        rw [heq] at hw ⊢
        have hslot : 8 - (left + 1) + 1 = 8 - left := by omega
        have hfirst : 8 - (left + 1) < 8 := by omega
        have hone : Writes expansionBuf (expansionBuf.set (8 - (left + 1)) group) (8 - (left + 1))
            [group] := (writes_nil _ _).cons hfirst
        split at h
        · rename_i hcompressor
          obtain ⟨back, rfl⟩ := hcompressor
          cases h
          exact ⟨[group], by simp only [List.length_singleton]; omega, hone,
            fun _ => ⟨text, back, (List.append_assoc ..).symm, rfl, hgroup.nonempty,
              groups_single hgroup⟩, by rintro ⟨⟩⟩
        · obtain rfl | ⟨after, rfl, hafter⟩ := hw.behind hgroup hstop
          · rw [List.drop_nil, parseFrontGroupsFrom_nil] at h
            cases h
            refine ⟨[group], by simp only [List.length_singleton]; omega, hone, by rintro ⟨⟩,
              fun _ _ => ?_⟩
            rw [List.append_nil]
            exact groups_single hgroup
          · have hrest : WellSeparated after :=
              hw.suffix ⟨text ++ [colon], List.append_assoc ..⟩
            obtain ⟨groups, hcount, hwrites, hcompressed, hwhole⟩ := ih (by omega) hrest h
            rw [← hslot] at hwrites
            refine ⟨group :: groups, ?_, hwrites.cons hfirst, fun hmet => ?_, fun hmet hend => ?_⟩
            · rw [List.length_cons]
              omega
            · obtain ⟨front, back, rfl, haddr, hne, hgroups⟩ := hcompressed hmet
              refine ⟨text ++ colon :: front, back, ?_, haddr, by simp, hgroups.cons hgroup hne⟩
              simp only [List.append_assoc, List.cons_append]
            · exact (hwhole hmet hend).cons hgroup hafter

theorem toList_filled {fronts backs after : List (BitVec 16)}
    (h : expansionBuf.toList = fronts ++ (backs ++ after)) :
    (fillN (shiftRight expansionBuf fronts.length after.length) fronts.length after.length 0).toList =
      fronts ++ (List.replicate after.length 0 ++ backs) := by
  have hlen : fronts.length + (backs.length + after.length) = 8 := by
    rw [← List.length_append, ← List.length_append, ← h, Vector.length_toList]
  have hall : (fronts ++ (backs ++ after)).length = 8 := by
    rw [← h, Vector.length_toList]
  have hget : ∀ i (hi : i < 8) (hi' : i < (fronts ++ (backs ++ after)).length),
      expansionBuf[i] = (fronts ++ (backs ++ after))[i] := by
    intro i hi _
    simp only [← h, Vector.getElem_toList]
  refine List.ext_getElem (by simp; omega) fun i hi _ => ?_
  rw [Vector.length_toList] at hi
  simp only [Vector.getElem_toList, fillN, shiftRight, Vector.getElem_ofFn, Fin.getElem_fin]
  rw [List.getElem_append]
  by_cases hfront : i < fronts.length
  · rw [if_neg (by omega), if_neg (by omega), dif_pos hfront, hget i hi (hall ▸ hi),
      List.getElem_append_left hfront]
  rw [dif_neg hfront, List.getElem_append]
  by_cases hzero : i < fronts.length + after.length
  · rw [if_pos (by omega), dif_pos (by simp; omega), List.getElem_replicate]
  · rw [if_neg (by omega), if_pos (by omega), dif_neg (by simp; omega), hget _ (by omega) (by omega),
      List.getElem_append_right (by omega), List.getElem_append_left (by omega)]
    congr 1
    simp only [List.length_replicate]
    omega
theorem Writes.lengths {buf buf' : ExpansionBuf} {first : Nat}
    (h : Writes buf buf' first groups) (hfirst : first ≤ 8) :
    ∃ after, buf'.toList = buf.toList.take first ++ (groups ++ after) ∧
      first + groups.length + after.length = 8 := by
  obtain ⟨after, hafter⟩ := h
  refine ⟨after, by rw [hafter, List.append_assoc], ?_⟩
  have hcount := congrArg List.length hafter
  simp only [Vector.length_toList, List.length_append, List.length_take] at hcount
  omega

theorem ipv6ParseFrontGroups_spec {frontRes : ParseFrontGroupsSuccess} (hw : WellSeparated addr)
    (h : ipv6ParseFrontGroups addr expansionBuf = some (frontRes, expansionBuf')) :
    ∃ fronts after, frontRes.groups = fronts.length ∧ expansionBuf'.toList = fronts ++ after ∧
      (frontRes.hasMetCompressor = true → ∃ front back, addr = front ++ compressor ++ back ∧
        frontRes.addr = colon :: back ∧ Groups front fronts) ∧
      (frontRes.hasMetCompressor = false → frontRes.addr = [] → Groups addr fronts) := by
  rw [ipv6ParseFrontGroups] at h
  split at h
  · rename_i hcompressor
    obtain ⟨back, rfl⟩ := hcompressor
    cases h
    exact ⟨[], expansionBuf.toList, rfl, rfl, fun _ => ⟨[], back, rfl, rfl, groups_nil⟩, by rintro ⟨⟩⟩
  · obtain ⟨fronts, hcount, hwrites, hcompressed, hwhole⟩ :=
      parseFrontGroupsFrom_spec (Nat.le_refl 8) hw h
    obtain ⟨after, hlist, -⟩ := hwrites.lengths (Nat.zero_le 8)
    refine ⟨fronts, after, by omega, hlist, fun hmet => ?_, hwhole⟩
    obtain ⟨front, back, haddr, hrest, -, hgroups⟩ := hcompressed hmet
    exact ⟨front, back, haddr, hrest, hgroups⟩

theorem parseRegular_denotes {address : Ipv6Addr} (hw : WellSeparated addr)
    (h : parseRegular expansionBuf addr = some address) : Denotes addr address := by
  rw [parseRegular] at h
  split at h
  · cases h
  · rename_i frontRes buf hfront
    obtain ⟨fronts, after, hcount, hlist, hcompressed, hwhole⟩ := ipv6ParseFrontGroups_spec hw hfront
    have hfits : fronts.length ≤ 8 := by
      have hlen := congrArg List.length hlist
      rw [Vector.length_toList, List.length_append] at hlen
      omega
    split at h
    · rename_i hmet
      obtain ⟨front, back, rfl, haddr, hfronts⟩ := hcompressed hmet
      rw [haddr, hcount] at h
      split at h
      · cases h
      · rename_i zeros buf' hback
        have hrest : WellSeparated (colon :: back) :=
          hw.suffix ⟨front ++ [colon], by simp [compressor]⟩
        obtain ⟨backs, hbacks, hleft, hwrites⟩ :=
          parseBackGroupsFrom_spec (Nat.sub_le 8 _) hrest hback
        rw [Nat.sub_sub_self hfits] at hwrites
        obtain ⟨after', hlist', hlen⟩ := hwrites.lengths hfits
        rw [hlist, List.take_left] at hlist'
        have hzeros : zeros = after'.length := by omega
        subst hzeros
        split at h
        · cases h
        · rename_i hsome
          refine ⟨_, ?_, (Option.some.inj h).symm⟩
          rw [toList_filled hlist', ← List.append_assoc]
          have hform := RegularForm.compressed hfronts hbacks (by omega)
          rwa [show 8 - fronts.length - backs.length = after'.length by omega] at hform
    · rename_i hmet
      split at h
      · cases h
      · rename_i hdone
        rw [not_or, not_not, not_not] at hdone
        have hafter : after = [] := by
          have hlen := congrArg List.length hlist
          rw [Vector.length_toList, List.length_append] at hlen
          exact List.eq_nil_of_length_eq_zero (by omega)
        rw [hafter, List.append_nil] at hlist
        refine ⟨buf, ?_, (Option.some.inj h).symm⟩
        rw [hlist]
        exact .full (hwhole (by simpa using hmet) hdone.2) (hcount ▸ hdone.1)

theorem hexGroup_mem {texts : List Text} (h : List.Forall₂ HexGroup texts groups)
    (htext : text ∈ texts) : ∃ group, HexGroup text group := by
  induction h with
  | nil => cases htext
  | cons hfirst _ ih =>
    rcases List.mem_cons.mp htext with rfl | htext
    · exact ⟨_, hfirst⟩
    · exact ih htext

theorem Groups.plain (h : Groups text groups) : ∀ c ∈ text, c = colon ∨ IsHex c := by
  obtain ⟨texts, rfl, hall⟩ := h
  intro c hc
  refine (mem_intercalate hc).imp_right ?_
  rintro ⟨text, htext, hmem⟩
  obtain ⟨group, hgroup⟩ := hexGroup_mem hall htext
  exact hgroup.isHex c hmem

theorem Groups.run_le {run : Text} (h : Groups text groups) (hrun : run <:+: text)
    (hno : colon ∉ run) : run.length ≤ 4 := by
  obtain ⟨texts, rfl, hall⟩ := h
  rcases infix_of_intercalate hrun hno with rfl | ⟨text, htext, hin⟩
  · exact Nat.zero_le 4
  · obtain ⟨group, hgroup⟩ := hexGroup_mem hall htext
    exact hin.length_le.trans hgroup.short

theorem Groups.last_isHex (h : Groups text groups) (hne : text ≠ []) :
    ∃ c ∈ text.getLast?, IsHex c := by
  obtain ⟨texts, rfl, hall⟩ := h
  induction hall with
  | nil => exact absurd rfl hne
  | @cons first group texts groups hgroup hrest ih =>
    cases hrest with
    | nil =>
      rw [List.intercalate_singleton]
      refine ⟨first.getLast hgroup.nonempty, List.getLast?_eq_some_getLast hgroup.nonempty, ?_⟩
      exact hgroup.isHex _ (List.getLast_mem _)
    | @cons second group' texts groups hsecond hrest =>
      have hsome : [colon].intercalate (second :: texts) ≠ [] := by
        cases texts with
        | nil =>
          rw [List.intercalate_singleton]
          exact hsecond.nonempty
        | cons third texts =>
          rw [List.intercalate_cons_cons]
          simp [hsecond.nonempty]
      obtain ⟨c, hc, hhex⟩ := ih hsome
      refine ⟨c, ?_, hhex⟩
      rw [List.intercalate_cons_cons, List.getLast?_append_of_ne_nil _ hsome]
      exact hc

theorem RegularForm.plain (h : RegularForm text groups) : ∀ c ∈ text, c = colon ∨ IsHex c := by
  cases h with
  | full hgroups _ => exact hgroups.plain
  | @compressed front back fronts backs hfront hback _ =>
    intro c hc
    rcases List.mem_append.mp hc with hc | hc
    · rcases List.mem_append.mp hc with hc | hc
      · exact hfront.plain c hc
      · exact .inl (by simpa [compressor] using hc)
    · exact hback.plain c hc

theorem RegularForm.run_le {run : Text} (h : RegularForm text groups) (hrun : run <:+: text)
    (hno : colon ∉ run) : run.length ≤ 4 := by
  cases h with
  | full hgroups _ => exact hgroups.run_le hrun hno
  | @compressed front back fronts backs hfront hback _ =>
    rw [List.append_assoc] at hrun
    rcases infix_of_cut hrun hno with hin | hrun
    · exact hfront.run_le hin hno
    · have hrun : run <:+: [] ++ colon :: back := hrun
      rcases infix_of_cut hrun hno with hin | hin
      · rw [List.infix_nil.mp hin]
        exact Nat.zero_le 4
      · exact hback.run_le hin hno

theorem RegularForm.closed (h : RegularForm text groups) {front : Text} {c : Byte}
    (heq : text = front ++ [c, colon]) : ¬IsHex c := by
  have hlast : text.getLast? = some colon := by
    rw [heq, List.append_cons, List.getLast?_concat]
  have hend : ∀ {text groups}, Groups text groups → text ≠ [] → text.getLast? ≠ some colon := by
    intro text groups hgroups hne hcolon
    obtain ⟨c, hc, hhex⟩ := hgroups.last_isHex hne
    rw [hcolon] at hc
    cases hc
    exact not_isHex_colon hhex
  cases h with
  | full hgroups _ =>
    refine absurd hlast (hend hgroups ?_)
    rintro rfl
    cases hlast
  | @compressed front' back fronts backs hfront hback _ =>
    rcases List.eq_nil_or_concat' back with rfl | ⟨init, c', rfl⟩
    · rw [List.append_nil] at heq
      have hpair := (List.append_inj' heq rfl).2
      cases hpair
      exact not_isHex_colon
    · refine absurd ?_ (hend hback (by simp))
      rwa [List.getLast?_append_of_ne_nil _ (by simp)] at hlast

theorem wellSeparated_of_denotes {address : Ipv6Addr} (h : Denotes addr address) :
    WellSeparated addr := by
  obtain ⟨groups, hform, -⟩ := h
  refine ⟨hform.plain, fun run hrun hhex => hform.run_le hrun fun hcolon => ?_,
    fun front c heq => hform.closed heq⟩
  exact not_isHex_colon (hhex colon hcolon)

theorem parseRegular_sound_iff (expansionBuf : ExpansionBuf) (addr : Text) (address : Ipv6Addr)
    (h : parseRegular expansionBuf addr = some address) :
    Denotes addr address ↔ WellSeparated addr :=
  ⟨wellSeparated_of_denotes, fun hw => parseRegular_denotes hw h⟩

def loopback : Ipv6Addr := fromGroups #v[0, 0, 0, 0, 0, 0, 0, 1]

theorem parseRegular_sound_loopback :
    parseRegular (Vector.replicate 8 7) [58, 58, 49] = some loopback ∧
      (Denotes [58, 58, 49] loopback ↔ WellSeparated [58, 58, 49]) :=
  have h : parseRegular (Vector.replicate 8 7) [58, 58, 49] = some loopback := by decide +kernel
  ⟨h, parseRegular_sound_iff _ _ _ h⟩

theorem parseRegular_unsound :
    (parseRegular (Vector.replicate 8 0)
      [49, 120, 50, 120, 51, 120, 52, 120, 53, 120, 54, 120, 55, 120, 56]).isSome ∧
    parseRegular (Vector.replicate 8 0) [58, 58, 49, 58] = some loopback ∧
    ¬∀ expansionBuf addr address, parseRegular expansionBuf addr = some address →
      Denotes addr address := by
  have htrailing : parseRegular (Vector.replicate 8 0) [58, 58, 49, 58] = some loopback := by
    decide +kernel
  refine ⟨by decide +kernel, htrailing, fun hall => ?_⟩
  have hsep := wellSeparated_of_denotes (hall _ _ _ htrailing)
  refine hsep.closed [58, 58] 49 rfl ?_
  rw [isHex_iff]
  decide

end Ipv6Addr

end Corosig
