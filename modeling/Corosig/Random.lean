import Corosig.Library.BlockStream
import Corosig.Library.ChaCha20
import Mathlib.Algebra.GroupWithZero.Nat
import Mathlib.Data.List.Basic
import Mathlib.Data.Prod.Basic

namespace Corosig
open ChaCha20 BlockStream

inductive Endian
  | little
  | big
  deriving DecidableEq, Repr

namespace Endian

def octets : Endian → Word → Vector Octet 4
  | little, word => littleEndian word
  | big, word => (littleEndian word).reverse

def ofOctets : Endian → Vector Octet 4 → Word
  | little, octets => ofLittleEndian octets
  | big, octets => ofLittleEndian octets.reverse

variable (host : Endian)

def byteswap (value : Word) : Word := host.ofOctets (host.octets value).reverse

def htole (value : Word) : Word :=
  match host with
  | little => value
  | big => big.byteswap value

def asBytes (words : State) : Vector Octet 64 := layOut host.octets words

theorem octets_htole (value : Word) : host.octets (host.htole value) = littleEndian value := by
  cases host with
  | little => rfl
  | big => simp only [octets, htole, byteswap, ofOctets, Vector.reverse_reverse,
      littleEndian_ofLittleEndian]

theorem asBytes_htole (words : State) :
    host.asBytes (words.map host.htole) = layOut littleEndian words := by
  rw [asBytes, layOut_map, ← funext host.octets_htole]
  rfl

end Endian

def chacha20QuarterRound (s : State) (a b c d : Fin 16) : State :=
  let s := write s a (s.get a + s.get b)
  let s := write s d (s.get d ^^^ s.get a)
  let s := write s d (s.get d <<< 16 ||| s.get d >>> 16)
  let s := write s c (s.get c + s.get d)
  let s := write s b (s.get b ^^^ s.get c)
  let s := write s b (s.get b <<< 12 ||| s.get b >>> 20)
  let s := write s a (s.get a + s.get b)
  let s := write s d (s.get d ^^^ s.get a)
  let s := write s d (s.get d <<< 8 ||| s.get d >>> 24)
  let s := write s c (s.get c + s.get d)
  let s := write s b (s.get b ^^^ s.get c)
  write s b (s.get b <<< 7 ||| s.get b >>> 25)

theorem chacha20QuarterRound_eq {a b c d : Fin 16} (h : [a, b, c, d].Nodup) (s : State) :
    chacha20QuarterRound s a b c d = quarterRoundAt a b c d s := by
  have hget := fun w x y z => get_put h w x y z s
  have hwrite := fun w x y z v => write_put h w x y z v s
  conv => lhs; rw [← put_self a b c d s]
  simp only [chacha20QuarterRound, hget, hwrite]
  rfl

def doubleRound (s : State) : State :=
  let s := chacha20QuarterRound s 0 4 8 12
  let s := chacha20QuarterRound s 1 5 9 13
  let s := chacha20QuarterRound s 2 6 10 14
  let s := chacha20QuarterRound s 3 7 11 15
  let s := chacha20QuarterRound s 0 5 10 15
  let s := chacha20QuarterRound s 1 6 11 12
  let s := chacha20QuarterRound s 2 7 8 13
  chacha20QuarterRound s 3 4 9 14

theorem doubleRound_eq : doubleRound = innerBlock := by
  funext s
  simp (disch := decide) only [doubleRound, chacha20QuarterRound_eq]
  rfl

structure ChaCha20RandomGenerator where
  state : State
  workingState : State
  pos : BitVec 8
  pos_le : pos.toNat ≤ 64

namespace ChaCha20RandomGenerator

def constant : Vector Word 4 := #v[0x61707865, 0x3320646e, 0x79622d32, 0x6b206574]

-- The constructor leaves m_working_state uninitialised: workingState is what is found there.
def construct (host : Endian) (seed : Vector Octet 32) (nonce : Vector Word 3)
    (blockCounter : Word) (workingState : State) : ChaCha20RandomGenerator where
  state := constant ++ readWords host.ofOctets seed ++
    #v[blockCounter, nonce.get 0, nonce.get 1, nonce.get 2]
  workingState := workingState
  pos := 64
  pos_le := Nat.le_refl 64

variable (host : Endian)

def incrementCounter (state : State) : State :=
  let state := write state 12 (state.get 12 + 1)
  if state.get 12 = 0 then write state 13 (state.get 13 + 1) else state

-- Each of the sixteen turns of the second loop changes the words of its own index only.
def refillState (gen : ChaCha20RandomGenerator) : ChaCha20RandomGenerator :=
  let workingState := doubleRound^[10] gen.state
  let workingState := Vector.zipWith (· + ·) workingState gen.state
  let state := workingState
  let workingState := workingState.map host.htole
  { state := incrementCounter state, workingState := workingState, pos := 0,
    pos_le := Nat.zero_le 64 }

def refilled (gen : ChaCha20RandomGenerator) : ChaCha20RandomGenerator :=
  if gen.pos = 64 then gen.refillState host else gen

-- m_pos += to_copy, a sum in size_t that is cut to the eight bits of m_pos.
def advance (gen : ChaCha20RandomGenerator) (toCopy : Nat) (h : gen.pos.toNat + toCopy ≤ 64) :
    ChaCha20RandomGenerator where
  state := gen.state
  workingState := gen.workingState
  pos := BitVec.ofNat 8 (gen.pos.toNat + toCopy)
  pos_le := Nat.le_trans (Nat.mod_le _ _) h

theorem refilled_lt (gen : ChaCha20RandomGenerator) : (gen.refilled host).pos.toNat < 64 := by
  unfold refilled
  split
  case isTrue => exact Nat.zero_lt_succ 63
  case isFalse hne =>
    have hle := gen.pos_le
    have hne : gen.pos.toNat ≠ 64 := fun h => hne (BitVec.eq_of_toNat_eq h)
    omega

def toCopy (gen : ChaCha20RandomGenerator) (len : Nat) : Nat := min len (64 - gen.pos.toNat)

theorem pos_add_toCopy_le (gen : ChaCha20RandomGenerator) (len : Nat) :
    gen.pos.toNat + gen.toCopy len ≤ 64 := by
  have hle := gen.pos_le
  unfold toCopy
  omega

theorem sub_toCopy_lt {gen : ChaCha20RandomGenerator} {len : Nat} (hlen : len ≠ 0)
    (hlt : gen.pos.toNat < 64) : len - gen.toCopy len < len := by
  unfold toCopy
  omega

def generateBytes (gen : ChaCha20RandomGenerator) (len : Nat) :
    List Octet × ChaCha20RandomGenerator :=
  if len = 0 then ([], gen)
  else
    let gen' := gen.refilled host
    let n := gen'.toCopy len
    let copied := ((host.asBytes gen'.workingState).toList.drop gen'.pos.toNat).take n
    let rest := generateBytes (gen'.advance n (gen'.pos_add_toCopy_le len)) (len - n)
    (copied ++ rest.1, rest.2)
termination_by len
decreasing_by exact sub_toCopy_lt ‹_› (gen.refilled_lt host)

def generateCalls (gen : ChaCha20RandomGenerator) :
    List Nat → List Octet × ChaCha20RandomGenerator
  | [] => ([], gen)
  | len :: sizes =>
      let rest := (gen.generateBytes host len).2.generateCalls sizes
      ((gen.generateBytes host len).1 ++ rest.1, rest.2)

def words (gen : ChaCha20RandomGenerator) : State × State := (gen.state, gen.workingState)

def source : Source (State × State) Octet 64 where
  refill words := (refillState host ⟨words.1, words.2, 0, Nat.zero_le 64⟩).words
  block words := host.asBytes words.2

def toReader (gen : ChaCha20RandomGenerator) : Reader (State × State) 64 :=
  ⟨gen.words, gen.pos.toNat, gen.pos_le⟩

theorem toReader_injective : Function.Injective toReader := by
  intro gen gen' h
  obtain ⟨hwords, hpos⟩ := Reader.mk.inj h
  obtain ⟨hstate, hworking⟩ := Prod.mk.inj hwords
  cases gen
  cases gen'
  cases hstate
  cases hworking
  cases BitVec.eq_of_toNat_eq hpos
  rfl

theorem toReader_refilled (gen : ChaCha20RandomGenerator) :
    (gen.refilled host).toReader = gen.toReader.ready (source host) := by
  unfold refilled
  split
  case isTrue hfull =>
    rw [Reader.ready_full (congrArg BitVec.toNat hfull)]
    rfl
  case isFalse hne =>
    have hlt := gen.refilled_lt host
    rw [refilled, if_neg hne] at hlt
    exact (Reader.ready_eq hlt).symm

theorem toReader_advance (gen : ChaCha20RandomGenerator) {n : Nat} (h : gen.pos.toNat + n ≤ 64) :
    (gen.advance n h).toReader = ⟨gen.words, gen.pos.toNat + n, h⟩ := by
  have hmod : (gen.pos.toNat + n) % 2 ^ 8 = gen.pos.toNat + n := Nat.mod_eq_of_lt (by omega)
  simp only [toReader, advance, words, BitVec.toNat_ofNat, hmod]

theorem read_generateBytes (gen : ChaCha20RandomGenerator) (len : Nat) :
    Prod.map id toReader (gen.generateBytes host len) = gen.toReader.read (source host) len := by
  fun_induction generateBytes host gen len with
  | case1 gen => rfl
  | case2 gen len hlen gen' n copied rest ih =>
    have hcopy : gen'.toReader.pos + n ≤ 64 := gen'.pos_add_toCopy_le len
    have hlen' : len = n + (len - n) := by
      simp only [n, toCopy]
      omega
    rw [← Reader.read_ready (Nat.pos_of_ne_zero hlen), ← toReader_refilled, hlen',
      Reader.read_add, Reader.read_within hcopy]
    rw [toReader_advance] at ih
    obtain ⟨hbytes, hgen⟩ := Prod.ext_iff.mp ih
    exact Prod.ext (congrArg (copied ++ ·) hbytes) hgen

theorem readEach_generateCalls (gen : ChaCha20RandomGenerator) (sizes : List Nat) :
    Prod.map id toReader (gen.generateCalls host sizes) =
      gen.toReader.readEach (source host) sizes := by
  induction sizes generalizing gen with
  | nil => rfl
  | cons len sizes ih =>
    have hlen := gen.read_generateBytes host len
    obtain ⟨hbytes, hgen⟩ := Prod.ext_iff.mp (ih (gen.generateBytes host len).2)
    rw [Reader.readEach, ← hlen, generateCalls]
    exact Prod.ext (congrArg (_ ++ ·) hbytes) hgen

theorem generateCalls_eq_generateBytes (gen : ChaCha20RandomGenerator) (sizes : List Nat) :
    gen.generateCalls host sizes = gen.generateBytes host sizes.sum := by
  apply Function.injective_id.prodMap toReader_injective
  rw [readEach_generateCalls, read_generateBytes, Reader.readEach_eq]

def blockBytes (gen : ChaCha20RandomGenerator) (n : Nat) : List Octet :=
  (List.range n).flatMap fun i => (host.asBytes ((refillState host)^[i] gen).workingState).toList

theorem iterate_refill_words (gen : ChaCha20RandomGenerator) (i : Nat) :
    (source host).refill^[i] gen.words = ((refillState host)^[i] gen).words := by
  have hsemi : Function.Semiconj words (refillState host) (source host).refill := fun _ => rfl
  exact ((hsemi.iterate_right i).eq gen).symm

theorem contents_words (gen : ChaCha20RandomGenerator) (n : Nat) :
    (source host).contents gen.words n = gen.blockBytes host n := by
  refine List.flatMap_congr fun i _ => ?_
  rw [iterate_refill_words]
  rfl

def blocks (n : Nat) : Nat := (n + 63) / 64

theorem generateBytes_fst (gen : ChaCha20RandomGenerator) (len : Nat) :
    (gen.generateBytes host len).1 =
      ((gen.blockBytes host (blocks (gen.pos.toNat + len))).drop gen.pos.toNat).take len := by
  have hfst := congrArg Prod.fst (gen.read_generateBytes host len)
  rw [← contents_words]
  refine hfst.trans (Reader.read_eq_contents (r := gen.toReader) ?_)
  simp only [toReader, blocks]
  omega

theorem asBytes_refillState (gen : ChaCha20RandomGenerator) :
    host.asBytes (gen.refillState host).workingState =
      layOut littleEndian (permute gen.state) := by
  simp only [refillState, doubleRound_eq]
  exact host.asBytes_htole _

def nextState (state : State) : State := incrementCounter (permute state)

theorem state_refillState (gen : ChaCha20RandomGenerator) :
    (gen.refillState host).state = nextState gen.state := by
  simp only [refillState, doubleRound_eq]
  rfl

theorem state_iterate_refillState (gen : ChaCha20RandomGenerator) (i : Nat) :
    ((refillState host)^[i] gen).state = nextState^[i] gen.state :=
  (Function.Semiconj.iterate_right (state_refillState host) i).eq gen

theorem asBytes_iterate_refillState (gen : ChaCha20RandomGenerator) (i : Nat) :
    host.asBytes ((refillState host)^[i + 1] gen).workingState =
      layOut littleEndian (permute (nextState^[i] gen.state)) := by
  rw [Function.iterate_succ_apply', asBytes_refillState, state_iterate_refillState]

theorem generateCalls_split (gen : ChaCha20RandomGenerator) (sizes : List Nat) :
    gen.generateCalls host sizes = gen.generateBytes host sizes.sum ∧
    (gen.generateBytes host sizes.sum).1 =
      ((gen.blockBytes host (blocks (gen.pos.toNat + sizes.sum))).drop gen.pos.toNat).take
        sizes.sum ∧
    ∀ i, host.asBytes ((refillState host)^[i + 1] gen).workingState =
      layOut littleEndian (permute (nextState^[i] gen.state)) :=
  ⟨gen.generateCalls_eq_generateBytes host sizes, gen.generateBytes_fst host sizes.sum,
    gen.asBytes_iterate_refillState host⟩

theorem constant_eq : constant = constants := by decide

theorem state_construct (seed : Vector Octet 32) (nonce : Vector Word 3)
    (blockCounter : Word) (workingState : State) :
    (construct .little seed nonce blockCounter workingState).state =
      initialState seed blockCounter nonce := by
  have hnonce : #v[nonce.get 0, nonce.get 1, nonce.get 2] = nonce := by
    refine Vector.ext fun i hi => ?_
    match i, hi with
    | 0, _ => rfl
    | 1, _ => rfl
    | 2, _ => rfl
  have htail : #v[blockCounter, nonce.get 0, nonce.get 1, nonce.get 2] =
      #v[blockCounter] ++ #v[nonce.get 0, nonce.get 1, nonce.get 2] := rfl
  have hload : Endian.little.ofOctets = ofLittleEndian := rfl
  rw [construct, initialState, constant_eq, hload, htail, hnonce]
  exact Vector.append_assoc_symm

def deliveredAt (state : State) : Nat → Octet :=
  octetAt fun i => layOut littleEndian (permute (nextState^[i] state))

theorem upcoming_toReader {gen : ChaCha20RandomGenerator} (hfull : gen.pos = 64) (k : Nat) :
    gen.toReader.upcoming (source host) k = deliveredAt gen.state k := by
  have hpos : gen.toReader.pos = 64 := congrArg BitVec.toNat hfull
  have hblock : (source host).block ((source host).refill^[k / 64 + 1] gen.words) =
      layOut littleEndian (permute (nextState^[k / 64] gen.state)) := by
    rw [iterate_refill_words, ← asBytes_iterate_refillState host]
    rfl
  simp only [Reader.upcoming, hpos, Nat.add_div_left k (Nat.zero_lt_succ 63), Nat.add_mod_left]
  exact congrArg (Vector.get · _) hblock

theorem generateCalls_fst {gen : ChaCha20RandomGenerator} (hfull : gen.pos = 64)
    (sizes : List Nat) :
    (gen.generateCalls host sizes).1 = (List.range sizes.sum).map (deliveredAt gen.state) := by
  have hfst := congrArg Prod.fst (gen.readEach_generateCalls host sizes)
  rw [Reader.readEach_eq, Reader.read_fst, funext (upcoming_toReader host hfull)] at hfst
  exact hfst

def DeliversKeystream (sizes : List Nat) (seed : Vector Octet 32) (nonce : Vector Word 3)
    (blockCounter : Word) (workingState : State) : Prop :=
  blocks sizes.sum < 2 ^ 32 - blockCounter.toNat →
    ((construct .little seed nonce blockCounter workingState).generateCalls .little sizes).1 =
      keystream seed blockCounter nonce sizes.sum

theorem deliversKeystream_iff_bytes (sizes : List Nat) (seed : Vector Octet 32)
    (nonce : Vector Word 3) (blockCounter : Word) (workingState : State) :
    DeliversKeystream sizes seed nonce blockCounter workingState ↔
      (blocks sizes.sum < 2 ^ 32 - blockCounter.toNat → ∀ k < sizes.sum,
        deliveredAt (initialState seed blockCounter nonce) k =
          keystreamAt seed blockCounter nonce k) := by
  rw [DeliversKeystream, generateCalls_fst .little rfl, state_construct, keystream,
    List.map_inj_left]
  simp only [List.mem_range]

theorem deliveredAt_first (seed : Vector Octet 32) (nonce : Vector Word 3) (blockCounter : Word)
    {k : Nat} (hk : k < 64) :
    deliveredAt (initialState seed blockCounter nonce) k =
      keystreamAt seed blockCounter nonce k := by
  simp only [deliveredAt, keystreamAt, octetAt, block, Nat.div_eq_of_lt hk,
    Function.iterate_zero_apply, BitVec.add_zero]

example : (block (Vector.replicate 32 0) 1 (Vector.replicate 3 0)).toList.take 4 =
    [0x9f, 0x07, 0xe7, 0xbe] := by decide +kernel

theorem deliveredAt_second :
    deliveredAt (initialState (Vector.replicate 32 0) 0 (Vector.replicate 3 0)) 64 = 0xfa ∧
    keystreamAt (Vector.replicate 32 0) 0 (Vector.replicate 3 0) 64 = 0x9f := by
  constructor
  · decide +kernel
  · decide +kernel

theorem not_deliversKeystream {sizes : List Nat} (hsum : 64 < sizes.sum)
    (hblocks : blocks sizes.sum < 2 ^ 32) (workingState : State) :
    ¬DeliversKeystream sizes (Vector.replicate 32 0) (Vector.replicate 3 0) 0 workingState := by
  rw [deliversKeystream_iff_bytes]
  intro h
  obtain ⟨hdelivered, hkeystream⟩ := deliveredAt_second
  have hbyte := h hblocks 64 hsum
  rw [hdelivered, hkeystream] at hbyte
  cases hbyte

theorem deliversKeystream_iff (sizes : List Nat) :
    (∀ seed nonce blockCounter workingState,
      DeliversKeystream sizes seed nonce blockCounter workingState) ↔
    sizes.sum ≤ 64 ∨ 2 ^ 32 ≤ blocks sizes.sum := by
  constructor
  · intro h
    by_contra hlong
    obtain ⟨hsum, hblocks⟩ := not_or.mp hlong
    exact not_deliversKeystream (Nat.lt_of_not_le hsum) (Nat.lt_of_not_le hblocks)
      (Vector.replicate 16 0) (h _ _ _ _)
  · intro hshort seed nonce blockCounter workingState
    rw [deliversKeystream_iff_bytes]
    intro hblocks k hk
    refine deliveredAt_first seed nonce blockCounter ?_
    omega

theorem deliversKeystream_fails_two_blocks :
    ¬DeliversKeystream [128] (Vector.replicate 32 0) (Vector.replicate 3 0) 0
      (Vector.replicate 16 0) :=
  not_deliversKeystream (by decide) (by decide) _

end ChaCha20RandomGenerator

end Corosig
