import Mathlib.Algebra.GroupWithZero.Nat
import Mathlib.Data.Fin.Basic
import Mathlib.Order.Fin.Basic

namespace Corosig.Dns

abbrev Byte := Fin 256

abbrev Text := List Byte

instance neZeroByte : NeZero 256 := ⟨by decide⟩

def fqdnMaxOctetLen : Nat := 255

def toLower (c : Byte) : Byte := if 65 ≤ c ∧ c ≤ 90 then c + 32 else c

def lowercase (s : Text) : Text := s.map toLower

theorem toLower_toLower : ∀ c : Byte, toLower (toLower c) = toLower c := by
  decide +kernel

theorem lowercase_lowercase (s : Text) : lowercase (lowercase s) = lowercase s := by
  simp [lowercase, toLower_toLower]

theorem length_lowercase (s : Text) : (lowercase s).length = s.length := List.length_map _

end Corosig.Dns
