import Corosig.Library.CompressedNames
import Mathlib.Algebra.Group.Nat.Defs

namespace NetworkOrder
open CompressedNames

def bigEndian : Nat → Nat → List Octet
  | 0, _ => []
  | n + 1, value => bigEndian n (value / 256) ++ [octet value]

def ofBigEndian (octets : List Octet) : Nat := octets.foldl (fun value o => value * 256 + o.val) 0

theorem length_bigEndian (n value : Nat) : (bigEndian n value).length = n := by
  induction n generalizing value with
  | zero => rfl
  | succ n ih => rw [bigEndian, List.length_append, ih, List.length_singleton]

theorem ofBigEndian_concat (octets : List Octet) (o : Octet) :
    ofBigEndian (octets ++ [o]) = ofBigEndian octets * 256 + o.val := by
  rw [ofBigEndian, List.foldl_append]
  rfl

theorem ofBigEndian_bigEndian (n value : Nat) :
    ofBigEndian (bigEndian n value) = value % 256 ^ n := by
  induction n generalizing value with
  | zero => rw [Nat.pow_zero, Nat.mod_one]; rfl
  | succ n ih =>
    have hval : (octet value).val = value % 256 := rfl
    rw [bigEndian, ofBigEndian_concat, ih, hval, Nat.pow_succ', Nat.mod_mul, Nat.mul_comm,
      Nat.add_comm]

end NetworkOrder
