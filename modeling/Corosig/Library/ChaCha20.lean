import Mathlib.Algebra.GroupWithZero.Nat
import Mathlib.Logic.Function.Iterate

namespace ChaCha20

abbrev Word := BitVec 32

abbrev Octet := BitVec 8

def quarterRound (a b c d : Word) : Word × Word × Word × Word :=
  let a := a + b
  let d := (d ^^^ a).rotateLeft 16
  let c := c + d
  let b := (b ^^^ c).rotateLeft 12
  let a := a + b
  let d := (d ^^^ a).rotateLeft 8
  let c := c + d
  let b := (b ^^^ c).rotateLeft 7
  (a, b, c, d)

abbrev State := Vector Word 16

scoped instance neZeroBytes : NeZero 4 := ⟨by decide⟩

scoped instance neZeroWords : NeZero 16 := ⟨by decide⟩

def write (s : State) (i : Fin 16) (word : Word) : State := s.set i word i.isLt

def put (x y z w : Fin 16) (words : Word × Word × Word × Word) (s : State) : State :=
  write (write (write (write s x words.1) y words.2.1) z words.2.2.1) w words.2.2.2

def quarterRoundAt (x y z w : Fin 16) (s : State) : State :=
  put x y z w (quarterRound (s.get x) (s.get y) (s.get z) (s.get w)) s

def columnRound (s : State) : State :=
  quarterRoundAt 3 7 11 15 (quarterRoundAt 2 6 10 14
    (quarterRoundAt 1 5 9 13 (quarterRoundAt 0 4 8 12 s)))

def diagonalRound (s : State) : State :=
  quarterRoundAt 3 4 9 14 (quarterRoundAt 2 7 8 13
    (quarterRoundAt 1 6 11 12 (quarterRoundAt 0 5 10 15 s)))

def innerBlock (s : State) : State := diagonalRound (columnRound s)

def permute (s : State) : State := Vector.zipWith (· + ·) (innerBlock^[10] s) s

def littleEndian (word : Word) : Vector Octet 4 := Vector.ofFn fun i => word.extractLsb' (8 * i) 8

def ofLittleEndian (octets : Vector Octet 4) : Word :=
  octets.get 3 ++ octets.get 2 ++ octets.get 1 ++ octets.get 0

def layOut (store : Word → Vector Octet 4) (s : State) : Vector Octet 64 :=
  Vector.ofFn fun i => (store s[i.val / 4])[i.val % 4]

def readWords (load : Vector Octet 4 → Word) (octets : Vector Octet 32) : Vector Word 8 :=
  Vector.ofFn fun i => load (Vector.ofFn fun j => octets[4 * i.val + j.val])

def constants : Vector Word 4 :=
  Vector.ofFn fun
    | 0 => 0x61707865
    | 1 => 0x3320646e
    | 2 => 0x79622d32
    | 3 => 0x6b206574

def initialState (key : Vector Octet 32) (counter : Word) (nonce : Vector Word 3) : State :=
  constants ++ readWords ofLittleEndian key ++ #v[counter] ++ nonce

def block (key : Vector Octet 32) (counter : Word) (nonce : Vector Word 3) : Vector Octet 64 :=
  layOut littleEndian (permute (initialState key counter nonce))

def octetAt (blocks : Nat → Vector Octet 64) (k : Nat) : Octet :=
  (blocks (k / 64)).get ⟨k % 64, Nat.mod_lt _ (by decide)⟩

def keystreamAt (key : Vector Octet 32) (counter : Word) (nonce : Vector Word 3) : Nat → Octet :=
  octetAt fun i => block key (counter + BitVec.ofNat 32 i) nonce

def keystream (key : Vector Octet 32) (counter : Word) (nonce : Vector Word 3) (n : Nat) :
    List Octet := (List.range n).map (keystreamAt key counter nonce)

theorem littleEndian_ofLittleEndian (octets : Vector Octet 4) :
    littleEndian (ofLittleEndian octets) = octets := by
  ext i hi j hj
  simp only [littleEndian, ofLittleEndian, Vector.getElem_ofFn, BitVec.getElem_extractLsb',
    BitVec.getLsbD_append]
  obtain rfl | rfl | rfl | rfl : i = 0 ∨ i = 1 ∨ i = 2 ∨ i = 3 := by omega
  · rw [if_pos (by omega), BitVec.getLsbD_eq_getElem (by omega)]
    congr 1
    omega
  · rw [if_neg (by omega), if_pos (by omega), BitVec.getLsbD_eq_getElem (by omega)]
    congr 1
    omega
  · rw [if_neg (by omega), if_neg (by omega), if_pos (by omega),
      BitVec.getLsbD_eq_getElem (by omega)]
    congr 1
    omega
  · rw [if_neg (by omega), if_neg (by omega), if_neg (by omega),
      BitVec.getLsbD_eq_getElem (by omega)]
    congr 1
    omega

theorem layOut_map (store : Word → Vector Octet 4) (f : Word → Word) (s : State) :
    layOut store (s.map f) = layOut (store ∘ f) s := by
  simp only [layOut, Vector.getElem_map, Function.comp_apply]

section Put

variable {x y z w : Fin 16} (h : [x, y, z, w].Nodup) (a b c d v : Word) (s : State)

theorem get_write (i j : Fin 16) : (write s i v).get j = if i = j then v else s.get j := by
  simp only [← Fin.val_inj]
  exact Vector.getElem_set _ _

theorem write_write (i : Fin 16) : write (write s i a) i b = write s i b :=
  Vector.set_set a i.isLt

theorem write_comm {i j : Fin 16} (hij : i ≠ j) :
    write (write s i a) j b = write (write s j b) i a :=
  Vector.set_comm _ _ (Fin.val_ne_of_ne hij)

theorem put_self (x y z w : Fin 16) (s : State) :
    put x y z w (s.get x, s.get y, s.get z, s.get w) s = s := by
  have hself (i : Fin 16) : write s i (s.get i) = s := Vector.set_getElem_self _
  simp only [put, hself]

include h

theorem get_put :
    (put x y z w (a, b, c, d) s).get x = a ∧ (put x y z w (a, b, c, d) s).get y = b ∧
    (put x y z w (a, b, c, d) s).get z = c ∧ (put x y z w (a, b, c, d) s).get w = d := by
  simp only [List.nodup_cons, List.mem_cons, List.not_mem_nil, or_false, not_or] at h
  obtain ⟨⟨hxy, hxz, hxw⟩, ⟨hyz, hyw⟩, hzw, -⟩ := h
  simp [put, get_write, hxy, hxz, hxw, hyz, hyw, hzw, Ne.symm]

theorem write_put :
    write (put x y z w (a, b, c, d) s) x v = put x y z w (v, b, c, d) s ∧
    write (put x y z w (a, b, c, d) s) y v = put x y z w (a, v, c, d) s ∧
    write (put x y z w (a, b, c, d) s) z v = put x y z w (a, b, v, d) s ∧
    write (put x y z w (a, b, c, d) s) w v = put x y z w (a, b, c, v) s := by
  simp only [List.nodup_cons, List.mem_cons, List.not_mem_nil, or_false, not_or] at h
  obtain ⟨⟨hxy, hxz, hxw⟩, ⟨hyz, hyw⟩, hzw, -⟩ := h
  refine ⟨?_, ?_, ?_, ?_⟩
  · rw [put, write_comm _ _ _ (Ne.symm hxw), write_comm _ _ _ (Ne.symm hxz),
      write_comm _ _ _ (Ne.symm hxy), write_write]
    rfl
  · rw [put, write_comm _ _ _ (Ne.symm hyw), write_comm _ _ _ (Ne.symm hyz), write_write]
    rfl
  · rw [put, write_comm _ _ _ (Ne.symm hzw), write_write]
    rfl
  · rw [put, write_write]
    rfl

end Put

end ChaCha20
