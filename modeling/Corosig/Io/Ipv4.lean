import Corosig.Io.Dns.Ascii
import Mathlib.Data.List.Forall2
import Mathlib.Data.Nat.Digits.Defs

namespace Corosig
open Dns

abbrev Ipv4Addr := Vector Byte 4

namespace Ipv4Addr

def dot : Byte := 46

-- Splitting the empty view yields no group at all, not an empty one.
def splitGroups (addr : Text) : List Text :=
  match addr with
  | [] => []
  | c :: rest => (c :: rest).splitOn dot

def parseDigits (groupResult : Nat) : Text → Option Nat
  | [] => some groupResult
  | c :: rest =>
      if c < 48 ∨ 57 < c then none else parseDigits (groupResult * 10 + (c.val - 48)) rest

def parseGroup (group : Text) : Option Byte :=
  if group = [] ∨ 3 < group.length then none
  else
    match parseDigits 0 group with
    | none => none
    | some groupResult => if 255 < groupResult then none else some (Fin.ofNat 256 groupResult)

def parseGroups (result : List Byte) : List Text → Option (List Byte)
  | [] => if result.length ≠ 4 then none else some result
  | group :: rest =>
      if result.length = 4 then none
      else
        match parseGroup group with
        | none => none
        | some value => parseGroups (result ++ [value]) rest

def fromBytes (value : List Byte) : Option Ipv4Addr :=
  if h : value.length = 4 then some ⟨value.toArray, h⟩ else none

def parse (addr : Text) : Option Ipv4Addr := (parseGroups [] (splitGroups addr)).bind fromBytes

def IsDigit (c : Byte) : Prop := 48 ≤ c ∧ c ≤ 57

structure Decimal (group : Text) (value : Byte) : Prop where
  nonempty : group ≠ []
  short : group.length ≤ 3
  digits : ∀ c ∈ group, IsDigit c
  value : Nat.ofDigits 10 (group.reverse.map fun c => c.val - 48) = value.val

def Dotted (addr : Text) (value : Ipv4Addr) : Prop :=
  ∃ groups, addr = [dot].intercalate groups ∧ List.Forall₂ Decimal groups value.toList

variable {addr group : Text} {groups : List Text} {value : Byte} {result bytes : List Byte}
  {n : Nat}

theorem isDigit_iff (c : Byte) : IsDigit c ↔ ¬(c < 48 ∨ 57 < c) := by
  rw [IsDigit, not_or, not_lt, not_lt]

theorem parseDigits_eq_some {groupResult : Nat} : parseDigits n group = some groupResult ↔
    (∀ c ∈ group, IsDigit c) ∧ groupResult = n * 10 ^ group.length +
      Nat.ofDigits 10 (group.reverse.map fun c => c.val - 48) := by
  induction group generalizing n with
  | nil => simp [parseDigits, eq_comm]
  | cons c rest ih =>
    rw [parseDigits, List.forall_mem_cons, isDigit_iff]
    split
    · rename_i hbad
      exact iff_of_false (by rintro ⟨⟩) fun h => h.1.1 hbad
    · rename_i hgood
      have hvalue : (n * 10 + (c.val - 48)) * 10 ^ rest.length = n * 10 ^ (rest.length + 1) +
          10 ^ rest.length * (c.val - 48) := by
        rw [Nat.pow_succ]
        ring
      rw [ih, and_iff_right hgood, List.reverse_cons, List.map_append, Nat.ofDigits_append, hvalue,
        List.length_map, List.length_reverse, List.map_singleton, Nat.ofDigits_singleton,
        List.length_cons, Nat.add_assoc, Nat.add_comm (10 ^ rest.length * _)]

theorem parseGroup_eq_some : parseGroup group = some value ↔ Decimal group value := by
  rw [parseGroup]
  split
  · rename_i hbad
    refine iff_of_false (by rintro ⟨⟩) fun h => ?_
    rcases hbad with hnil | hlong
    · exact h.nonempty hnil
    · exact absurd h.short (Nat.not_le.mpr hlong)
  · rename_i hgood
    rw [not_or, not_lt] at hgood
    obtain ⟨hne, hshort⟩ := hgood
    have hread : ∀ groupResult, parseDigits 0 group = some groupResult ↔
        (∀ c ∈ group, IsDigit c) ∧
          groupResult = Nat.ofDigits 10 (group.reverse.map fun c => c.val - 48) := by
      intro groupResult
      rw [parseDigits_eq_some, Nat.zero_mul, Nat.zero_add]
    constructor
    · intro h
      split at h
      · cases h
      · rename_i groupResult hparsed
        split at h
        · cases h
        · rename_i hfits
          cases h
          obtain ⟨hdigits, rfl⟩ := (hread _).mp hparsed
          exact ⟨hne, hshort, hdigits, (Nat.mod_eq_of_lt (by omega)).symm⟩
    · intro h
      rw [(hread _).mpr ⟨h.digits, h.value.symm⟩]
      have hfits : ¬255 < value.val := by omega
      simp only [if_neg hfits, Fin.ofNat_val_eq_self]

theorem parseGroups_eq_some (hlen : result.length ≤ 4) : parseGroups result groups = some bytes ↔
    bytes.length = 4 ∧ ∃ values, bytes = result ++ values ∧ List.Forall₂ Decimal groups values := by
  induction groups generalizing result with
  | nil =>
    rw [parseGroups]
    split
    · rename_i hshort
      refine iff_of_false (by rintro ⟨⟩) ?_
      rintro ⟨hfour, values, rfl, hnone⟩
      cases hnone
      rw [List.append_nil] at hfour
      exact hshort hfour
    · rename_i hfour
      rw [not_not] at hfour
      constructor
      · rintro ⟨⟩
        exact ⟨hfour, [], (List.append_nil _).symm, .nil⟩
      · rintro ⟨-, values, rfl, hnone⟩
        cases hnone
        rw [List.append_nil]
  | cons group rest ih =>
    rw [parseGroups]
    split
    · rename_i hfull
      refine iff_of_false (by rintro ⟨⟩) ?_
      rintro ⟨hfour, values, rfl, hsome⟩
      obtain ⟨value, values, -, -, rfl⟩ := List.forall₂_cons_left_iff.mp hsome
      rw [List.length_append, List.length_cons] at hfour
      omega
    · rename_i hroom
      cases hparsed : parseGroup group with
      | none =>
        refine iff_of_false (by rintro ⟨⟩) ?_
        rintro ⟨-, values, rfl, hsome⟩
        obtain ⟨value, values, hgroup, -, rfl⟩ := List.forall₂_cons_left_iff.mp hsome
        rw [parseGroup_eq_some.mpr hgroup] at hparsed
        cases hparsed
      | some value =>
        have hgroup := parseGroup_eq_some.mp hparsed
        have hlen' : (result ++ [value]).length ≤ 4 := by
          rw [List.length_append, List.length_singleton]
          omega
        refine (ih hlen').trans (and_congr_right fun _ => ?_)
        constructor
        · rintro ⟨values, rfl, hrest⟩
          exact ⟨value :: values, List.append_assoc .., .cons hgroup hrest⟩
        · rintro ⟨values, rfl, hsome⟩
          obtain ⟨value', values, hgroup', hrest, rfl⟩ := List.forall₂_cons_left_iff.mp hsome
          rw [parseGroup_eq_some.mpr hgroup'] at hparsed
          cases hparsed
          exact ⟨values, List.append_cons .., hrest⟩

theorem Decimal.no_dot (h : Decimal group value) : dot ∉ group := fun hmem => by
  have hdigit := h.digits dot hmem
  revert hdigit
  unfold IsDigit
  decide

theorem decimal_mem (h : List.Forall₂ Decimal groups bytes) (hgroup : group ∈ groups) :
    ∃ value, Decimal group value := by
  induction h with
  | nil => cases hgroup
  | cons hfirst _ ih =>
    rcases List.mem_cons.mp hgroup with rfl | hgroup
    · exact ⟨_, hfirst⟩
    · exact ih hgroup

theorem splitGroups_intercalate (hno : ∀ group ∈ groups, dot ∉ group)
    (hne : [dot].intercalate groups ≠ []) : splitGroups ([dot].intercalate groups) = groups := by
  have hsome : groups ≠ [] := by
    rintro rfl
    exact hne rfl
  have hsplit := List.splitOn_intercalate dot hno hsome
  unfold splitGroups
  split
  · rename_i hnil
    exact absurd hnil hne
  · rename_i heq
    rwa [heq] at hsplit

theorem intercalate_splitGroups (addr : Text) : [dot].intercalate (splitGroups addr) = addr := by
  unfold splitGroups
  split
  · rfl
  · exact List.intercalate_splitOn dot

theorem fromBytes_eq_some {address : Ipv4Addr} :
    fromBytes bytes = some address ↔ address.toList = bytes := by
  unfold fromBytes
  split
  · rename_i hfour
    constructor
    · rintro ⟨⟩
      rfl
    · rintro rfl
      rfl
  · rename_i hlen
    refine iff_of_false (by rintro ⟨⟩) ?_
    rintro rfl
    exact hlen address.length_toList

theorem parseGroups_splitGroups (addr : Text) : parseGroups [] (splitGroups addr) = some bytes ↔
    bytes.length = 4 ∧ List.Forall₂ Decimal (splitGroups addr) bytes := by
  have hzero : ([] : List Byte).length ≤ 4 := Nat.zero_le 4
  rw [parseGroups_eq_some hzero]
  simp

theorem dotted_of_parse {address : Ipv4Addr} (h : parse addr = some address) :
    Dotted addr address := by
  obtain ⟨bytes, hparsed, hbytes⟩ := Option.bind_eq_some_iff.mp h
  obtain rfl := fromBytes_eq_some.mp hbytes
  exact ⟨splitGroups addr, (intercalate_splitGroups addr).symm,
    ((parseGroups_splitGroups addr).mp hparsed).2⟩

theorem parse_eq_some_iff (addr : Text) (address : Ipv4Addr) :
    parse addr = some address ↔ Dotted addr address := by
  have hfour : address.toList.length = 4 := address.length_toList
  refine ⟨dotted_of_parse, ?_⟩
  rintro ⟨groups, rfl, hdecimal⟩
  have hno : ∀ group ∈ groups, dot ∉ group := by
    intro group hgroup
    obtain ⟨value, h⟩ := decimal_mem hdecimal hgroup
    exact h.no_dot
  have hne : [dot].intercalate groups ≠ [] := by
    intro hnil
    have hlen := hdecimal.length_eq.trans hfour
    match groups, hdecimal with
    | group :: second :: rest, _ =>
      rw [List.intercalate_cons_cons] at hnil
      simp at hnil
  rw [parse, Option.bind_eq_some_iff]
  refine ⟨address.toList, (parseGroups_splitGroups _).mpr ⟨hfour, ?_⟩, fromBytes_eq_some.mpr rfl⟩
  rwa [splitGroups_intercalate hno hne]

end Ipv4Addr

end Corosig
