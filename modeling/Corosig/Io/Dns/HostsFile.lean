import Corosig.Io.Dns.Ascii
import Corosig.Library.Loop
import Mathlib.Data.List.Basic

namespace Corosig.Dns
open Loop

inductive ParserState where
  | atIp
  | atName
  | skippingLine
  deriving DecidableEq, Repr

inductive Stop where
  | fault
  | failed (errno : Nat)
  deriving DecidableEq, Repr

inductive ReadResult where
  | complete
  | interrupted (n : Nat)
  | failed (errno : Nat)
  deriving DecidableEq, Repr

structure HostsFile (IP : Type) where
  reads : Nat → ReadResult
  parse : Text → Option IP
  name : Text
  name_le : name.length ≤ fqdnMaxOctetLen

structure HostsFileParser (IP : Type) where
  input : Text
  reads : Nat := 0
  unusedFrontBuffer : Nat := 0
  usedBuffer : Text := []
  state : ParserState := .atIp
  addr : Option IP := none
  out : Nat
  returned : List IP := []
  deriving DecidableEq, Repr

def bufferSize : Nat := 511

def newline : Byte := 10

def isBlank (c : Byte) : Bool := c = 32 ∨ c = 9

-- The string literal passed to find_first_of ends in a NUL character, which is looked for as well.
def isStop (c : Byte) : Bool := c = 32 ∨ c = 9 ∨ c = 35 ∨ c = newline ∨ c = 0

namespace HostsFileParser

variable {IP : Type}

def freeBuffer (p : HostsFileParser IP) : Except Stop Nat :=
  if p.unusedFrontBuffer + p.usedBuffer.length ≤ bufferSize then
    .ok (bufferSize - (p.unusedFrontBuffer + p.usedBuffer.length))
  else .error .fault

def received (p : HostsFileParser IP) (n : Nat) : HostsFileParser IP :=
  { p with input := p.input.drop n, usedBuffer := p.usedBuffer ++ p.input.take n }

def readToFreeBuffer (f : HostsFile IP) (p : HostsFileParser IP) :
    Except Stop (HostsFileParser IP) := do
  let free ← p.freeBuffer
  if free = 0 then
    return p
  else
    let q := { p with reads := p.reads + 1 }
    match f.reads p.reads with
    | .complete => return q.received free
    | .interrupted n => return q.received (min (n + 1) free)
    | .failed errno => throw (.failed errno)

def shiftBufferToLeft (p : HostsFileParser IP) : HostsFileParser IP :=
  { p with unusedFrontBuffer := 0 }

def adwance (p : HostsFileParser IP) (n : Nat) : Except Stop (HostsFileParser IP) :=
  if n ≤ p.usedBuffer.length then
    .ok { p with
      usedBuffer := p.usedBuffer.drop n, unusedFrontBuffer := p.unusedFrontBuffer + n }
  else .error .fault

def deref (text : Text) (it : Nat) : Except Stop Byte :=
  match text[it]? with
  | some c => .ok c
  | none => .error .fault

def skipWs (p : HostsFileParser IP) : Except Stop (HostsFileParser IP) :=
  p.adwance (p.usedBuffer.takeWhile isBlank).length

def findNextWs (p : HostsFileParser IP) : Nat := p.usedBuffer.findIdx isStop

def skipLine (p : HostsFileParser IP) : Except Stop (HostsFileParser IP) :=
  let it := p.usedBuffer.findIdx (· = newline)
  let p := if it < p.usedBuffer.length then { p with state := .atIp } else p
  p.adwance (min bufferSize (p.unusedFrontBuffer + it + 1))

def atIp (f : HostsFile IP) (p : HostsFileParser IP) : Except Stop (HostsFileParser IP) := do
  let p ← { p with addr := none }.skipWs
  let it := p.findNextWs
  let usedBuf := p.usedBuffer
  let p ← p.adwance it
  if it = usedBuf.length then
    return { p with state := .skippingLine }
  else
    let c ← deref usedBuf it
    if c = 35 ∨ c = newline then
      return { p with state := .skippingLine }
    else
      let addr := f.parse (usedBuf.take it)
      return { p with addr := addr, state := if addr.isSome then .atName else .skippingLine }

def collect (f : HostsFile IP) (p : HostsFileParser IP) (domainName : Text) :
    Except Stop (HostsFileParser IP) :=
  if domainName = lowercase f.name then
    match p.addr with
    | some addr => .ok { p with out := p.out - 1, returned := p.returned ++ [addr] }
    | none => .error .fault
  else .ok p

def atName (f : HostsFile IP) (p : HostsFileParser IP) : Except Stop (HostsFileParser IP) := do
  let p ← p.skipWs
  let it := p.findNextWs
  let usedBuf := p.usedBuffer
  let p ← p.adwance it
  if it = usedBuf.length then
    return { p with state := .skippingLine }
  else
    let c ← deref usedBuf it
    if c = 35 then
      return { p with state := .skippingLine }
    else
      let p ← p.collect f (lowercase (usedBuf.take it))
      return if c = newline then { p with state := .skippingLine } else p

def dispatch (f : HostsFile IP) (p : HostsFileParser IP) : Except Stop (HostsFileParser IP) :=
  match p.state with
  | .atIp => p.atIp f
  | .atName => p.atName f
  | .skippingLine => p.skipLine

def iterate (f : HostsFile IP) (p : HostsFileParser IP) :
    Next (HostsFileParser IP) (Except Stop (List IP)) :=
  if p.out ≠ 0 ∧ p.usedBuffer ≠ [] then
    match p.shiftBufferToLeft.readToFreeBuffer f >>= dispatch f with
    | .ok p => .more p
    | .error e => .done (.error e)
  else
    .done (.ok p.returned)

def opened (f : HostsFile IP) (content : Text) (out : Nat) : Except Stop (HostsFileParser IP) :=
  readToFreeBuffer f { input := content, out := out }

variable {f : HostsFile IP} {p q : HostsFileParser IP} {n : Nat}

def Fits (p : HostsFileParser IP) : Prop :=
  p.unusedFrontBuffer + p.usedBuffer.length ≤ bufferSize

def Ready (p : HostsFileParser IP) : Prop := p.state = .atName → p.addr.isSome

def tail (p : HostsFileParser IP) : Text := p.usedBuffer ++ p.input

structure Moved (p q : HostsFileParser IP) : Prop where
  fits : Fits q
  ready : Ready q
  tail : q.tail <:+ p.tail

def Overruns (f : HostsFile IP) (p : HostsFileParser IP) : Prop :=
  p.out ≠ 0 ∧ p.usedBuffer ≠ [] ∧ p.state = .skippingLine ∧
    ∃ q, p.shiftBufferToLeft.readToFreeBuffer f = .ok q ∧ q.usedBuffer.length < bufferSize ∧
      newline ∉ q.usedBuffer

theorem adwance_ok (h : n ≤ p.usedBuffer.length) : p.adwance n = .ok { p with
    usedBuffer := p.usedBuffer.drop n, unusedFrontBuffer := p.unusedFrontBuffer + n } :=
  if_pos h

theorem Fits.adwance (hp : Fits p) (h : p.adwance n = .ok q) : Fits q := by
  unfold HostsFileParser.adwance at h
  split at h
  · cases h
    simp only [Fits, List.length_drop] at hp ⊢
    omega
  · cases h

theorem adwance_tail (h : p.adwance n = .ok q) : q.tail <:+ p.tail := by
  unfold adwance at h
  split at h
  · rename_i hle
    cases h
    simp only [tail, ← List.drop_append_of_le_length hle]
    exact List.drop_suffix _ _
  · cases h

theorem skipWs_ok : ∃ n, n ≤ p.usedBuffer.length ∧ p.skipWs = .ok { p with
    usedBuffer := p.usedBuffer.drop n, unusedFrontBuffer := p.unusedFrontBuffer + n } :=
  have h := (List.takeWhile_prefix isBlank (l := p.usedBuffer)).length_le
  ⟨_, h, adwance_ok h⟩

theorem findNextWs_le : p.findNextWs ≤ p.usedBuffer.length := List.findIdx_le_length

theorem deref_ok {text : Text} {it : Nat} (h : it < text.length) : deref text it = .ok text[it] := by
  simp [deref, h]

theorem received_fits {m : Nat} (hm : m ≤ n)
    (h : p.unusedFrontBuffer + p.usedBuffer.length + n ≤ bufferSize) : Fits (p.received m) := by
  simp only [Fits, received, List.length_append, List.length_take]
  omega

structure Refilled (p q : HostsFileParser IP) : Prop where
  fits : Fits q
  state : q.state = p.state
  addr : q.addr = p.addr
  front : q.unusedFrontBuffer = p.unusedFrontBuffer
  content : ∃ n, q.usedBuffer = p.usedBuffer ++ p.input.take n ∧ q.input = p.input.drop n

theorem readToFreeBuffer_spec (hp : Fits p) :
    (∃ errno, p.readToFreeBuffer f = .error (.failed errno)) ∨
      ∃ q, p.readToFreeBuffer f = .ok q ∧ Refilled p q := by
  have hf : p.freeBuffer = .ok (bufferSize - (p.unusedFrontBuffer + p.usedBuffer.length)) :=
    if_pos hp
  obtain ⟨n, hn⟩ : ∃ n, bufferSize - (p.unusedFrontBuffer + p.usedBuffer.length) = n := ⟨_, rfl⟩
  have hfill : ∀ m ≤ n, Refilled p ({ p with reads := p.reads + 1 }.received m) := fun m hm =>
    ⟨received_fits hm (by unfold Fits at hp; simp only; omega), rfl, rfl, rfl, m, rfl, rfl⟩
  simp only [readToFreeBuffer, hf, hn, bind, Except.bind]
  by_cases hz : n = 0
  · rw [if_pos hz]
    exact .inr ⟨p, rfl, hp, rfl, rfl, rfl, 0, by simp, by simp⟩
  · rw [if_neg hz]
    cases f.reads p.reads with
    | complete => exact .inr ⟨_, rfl, hfill n (Nat.le_refl n)⟩
    | interrupted m => exact .inr ⟨_, rfl, hfill _ (Nat.min_le_right _ _)⟩
    | failed errno => exact .inl ⟨errno, rfl⟩

theorem collect_spec (text : Text) (ha : p.addr.isSome) :
    ∃ q, p.collect f text = .ok q ∧ q.usedBuffer = p.usedBuffer ∧
      q.unusedFrontBuffer = p.unusedFrontBuffer ∧ q.addr = p.addr ∧ q.tail = p.tail := by
  unfold collect
  split
  · obtain ⟨a, ha⟩ := Option.isSome_iff_exists.mp ha
    rw [ha]
    exact ⟨_, rfl, rfl, rfl, rfl, rfl⟩
  · exact ⟨p, rfl, rfl, rfl, rfl, rfl⟩

theorem scan_spec (hp : Fits p) : ∃ q r, p.skipWs = .ok q ∧ q.adwance q.findNextWs = .ok r ∧
    Fits r ∧ r.addr = p.addr ∧ r.tail <:+ p.tail := by
  obtain ⟨n, hn, hs⟩ := skipWs_ok (p := p)
  have hq := adwance_ok hn
  refine ⟨_, _, hs, adwance_ok findNextWs_le, ?_, rfl, ?_⟩
  · exact (hp.adwance hq).adwance (adwance_ok findNextWs_le)
  · exact (adwance_tail (adwance_ok findNextWs_le)).trans (adwance_tail hq)

theorem atIp_spec (hp : Fits p) : ∃ q, p.atIp f = .ok q ∧ Moved p q := by
  obtain ⟨q, r, hq, hr, hf, -, ht⟩ := scan_spec (p := { p with addr := none }) hp
  simp only [atIp, hq, hr, bind, Except.bind, pure, Except.pure]
  by_cases hend : q.findNextWs = q.usedBuffer.length
  · rw [if_pos hend]
    exact ⟨_, rfl, hf, fun h => (by cases h), ht⟩
  · rw [if_neg hend, deref_ok (Nat.lt_of_le_of_ne findNextWs_le hend)]
    dsimp only
    split
    · exact ⟨_, rfl, hf, fun h => (by cases h), ht⟩
    · refine ⟨_, rfl, hf, fun h => ?_, ht⟩
      by_contra ha
      rw [if_neg ha] at h
      cases h

theorem atName_spec (hp : Fits p) (ha : p.addr.isSome) :
    ∃ q, p.atName f = .ok q ∧ Moved p q := by
  obtain ⟨q, r, hq, hr, hf, hra, hrt⟩ := scan_spec hp
  simp only [atName, hq, hr, bind, Except.bind, pure, Except.pure]
  by_cases hend : q.findNextWs = q.usedBuffer.length
  · rw [if_pos hend]
    exact ⟨_, rfl, hf, fun h => (by cases h), hrt⟩
  · rw [if_neg hend, deref_ok (Nat.lt_of_le_of_ne findNextWs_le hend)]
    dsimp only
    split
    · exact ⟨_, rfl, hf, fun h => (by cases h), hrt⟩
    · obtain ⟨t, ht, hu, hfr, hta, htt⟩ := collect_spec (f := f) (p := r)
        (lowercase (q.usedBuffer.take q.findNextWs)) (hra ▸ ha)
      rw [ht]
      dsimp only
      have hft : Fits t := by
        unfold Fits at hf ⊢
        rwa [hu, hfr]
      split
      · exact ⟨_, rfl, hft, fun h => (by cases h), htt ▸ hrt⟩
      · exact ⟨_, rfl, hft, fun _ => hta ▸ hra ▸ ha, htt ▸ hrt⟩

theorem skipLine_found (hp : Fits p) (hfront : p.unusedFrontBuffer = 0)
    (hn : newline ∈ p.usedBuffer) : ∃ q, p.skipLine = .ok q ∧ Moved p q := by
  have hlt : p.usedBuffer.findIdx (· = newline) < p.usedBuffer.length :=
    List.findIdx_lt_length_of_exists ⟨newline, hn, by simp⟩
  have hle : min bufferSize (p.unusedFrontBuffer + p.usedBuffer.findIdx (· = newline) + 1) ≤
      p.usedBuffer.length := by
    omega
  have hf : Fits { p with state := .atIp } := hp
  have hq := adwance_ok (p := { p with state := .atIp }) hle
  have ht := adwance_tail hq
  refine ⟨_, ?_, hf.adwance hq, fun h => ?_, ht⟩
  · simp only [skipLine, if_pos hlt]
    exact hq
  · cases h

theorem skipLine_missing (hfront : p.unusedFrontBuffer = 0) (hn : newline ∉ p.usedBuffer) :
    p.skipLine = p.adwance (min bufferSize (p.usedBuffer.length + 1)) := by
  have hidx : p.usedBuffer.findIdx (· = newline) = p.usedBuffer.length :=
    List.findIdx_eq_length.mpr fun c hc => by simpa using ne_of_mem_of_not_mem hc hn
  simp only [skipLine, hidx, Nat.lt_irrefl, if_false, hfront, Nat.zero_add]

theorem skipLine_full (hp : Fits p) (hfront : p.unusedFrontBuffer = 0)
    (hn : newline ∉ p.usedBuffer) (hfull : bufferSize ≤ p.usedBuffer.length)
    (hs : p.state = .skippingLine) : ∃ q, p.skipLine = .ok q ∧ Moved p q := by
  have hq := adwance_ok (p := p) (n := min bufferSize (p.usedBuffer.length + 1)) (by omega)
  refine ⟨_, (skipLine_missing hfront hn).trans hq, hp.adwance hq, fun h => ?_, adwance_tail hq⟩
  rw [show _ = ParserState.skippingLine from hs] at h
  cases h

theorem skipLine_overrun (hfront : p.unusedFrontBuffer = 0) (hn : newline ∉ p.usedBuffer)
    (hshort : p.usedBuffer.length < bufferSize) : p.skipLine = .error .fault := by
  rw [skipLine_missing hfront hn, adwance, if_neg (by omega)]

theorem dispatch_spec (hp : Fits p) (hr : Ready p) (hfront : p.unusedFrontBuffer = 0) :
    (p.state = .skippingLine ∧ p.usedBuffer.length < bufferSize ∧ newline ∉ p.usedBuffer ∧
        p.dispatch f = .error .fault) ∨
      ¬ (p.state = .skippingLine ∧ p.usedBuffer.length < bufferSize ∧ newline ∉ p.usedBuffer) ∧
        ∃ q, p.dispatch f = .ok q ∧ Moved p q := by
  unfold dispatch
  cases hs : p.state with
  | atIp => exact .inr ⟨by simp, atIp_spec hp⟩
  | atName => exact .inr ⟨by simp, atName_spec hp (hr hs)⟩
  | skippingLine =>
    by_cases hn : newline ∈ p.usedBuffer
    · exact .inr ⟨fun h => h.2.2 hn, skipLine_found hp hfront hn⟩
    · by_cases hshort : p.usedBuffer.length < bufferSize
      · exact .inl ⟨rfl, hshort, hn, skipLine_overrun hfront hn hshort⟩
      · exact .inr ⟨fun h => hshort h.2.1, skipLine_full hp hfront hn (Nat.not_lt.mp hshort) hs⟩

theorem Refilled.tail (h : Refilled p q) : q.tail = p.tail := by
  obtain ⟨n, hu, hi⟩ := h.content
  rw [HostsFileParser.tail, hu, hi, List.append_assoc, List.take_append_drop]
  rfl

theorem iterate_spec (hp : Fits p) (hr : Ready p) :
    (∀ q, iterate f p = .more q → Moved p q) ∧
      (iterate f p = .done (.error .fault) ↔ Overruns f p) := by
  have hshift : Fits p.shiftBufferToLeft := by
    unfold Fits at hp ⊢
    simp only [shiftBufferToLeft]
    omega
  by_cases hgo : p.out ≠ 0 ∧ p.usedBuffer ≠ []
  · simp only [iterate, if_pos hgo]
    rcases readToFreeBuffer_spec (f := f) hshift with ⟨errno, he⟩ | ⟨q, hq, hf⟩
    · rw [he]
      refine ⟨fun q h => (by cases h), ⟨fun h => (by cases h), fun ⟨_, _, _, q, hq, _⟩ => ?_⟩⟩
      rw [he] at hq
      cases hq
    · have hready : Ready q := fun h => hf.addr ▸ hr (hf.state ▸ h)
      have hover : Overruns f p ↔ q.state = .skippingLine ∧ q.usedBuffer.length < bufferSize ∧
          newline ∉ q.usedBuffer := by
        constructor
        · rintro ⟨-, -, hs, q', hq', h⟩
          obtain rfl : q = q' := by simpa [hq] using hq'
          exact ⟨hf.state.trans hs, h⟩
        · rintro ⟨hs, h⟩
          exact ⟨hgo.1, hgo.2, hf.state.symm.trans hs, q, hq, h⟩
      rw [hover, hq]
      simp only [bind, Except.bind]
      rcases dispatch_spec (f := f) hf.fits hready hf.front with ⟨hs, h1, h2, hd⟩ | ⟨hno, t, hd, ht⟩
      · rw [hd]
        exact ⟨fun q h => (by cases h), ⟨fun _ => ⟨hs, h1, h2⟩, fun _ => rfl⟩⟩
      · rw [hd]
        refine ⟨fun q h => ?_, ⟨fun h => (by cases h), fun h => absurd h hno⟩⟩
        cases h
        exact ⟨ht.fits, ht.ready, hf.tail ▸ ht.tail⟩
  · simp only [iterate, if_neg hgo]
    exact ⟨fun q h => (by cases h), ⟨fun h => (by cases h), fun h => absurd ⟨h.1, h.2.1⟩ hgo⟩⟩

def Sound (f : HostsFile IP) (content : Text) (out : Nat) : Prop :=
  opened f content out ≠ .error .fault ∧ ∀ p, opened f content out = .ok p →
    (∀ q, Reaches (iterate f) p q → Fits q) ∧ ¬ Yields (iterate f) p (.error .fault)

theorem opened_spec (f : HostsFile IP) (content : Text) (out : Nat) :
    (∃ errno, opened f content out = .error (.failed errno)) ∨
      ∃ p, opened f content out = .ok p ∧
        Refilled { input := content, out := out } p :=
  readToFreeBuffer_spec (by simp [Fits])

theorem opened_ok {content : Text} {out : Nat} (h : opened f content out = .ok p) :
    Fits p ∧ Ready p ∧ p.tail = content := by
  rcases opened_spec f content out with ⟨errno, he⟩ | ⟨q, hq, hf⟩
  · rw [he] at h
    cases h
  · obtain rfl : q = p := by simpa [hq] using h
    refine ⟨hf.fits, fun h => ?_, hf.tail⟩
    rw [hf.state] at h
    cases h

theorem opened_reaches {content : Text} {out : Nat} (h : opened f content out = .ok p)
    (hr : Reaches (iterate f) p q) : Fits q ∧ Ready q ∧ q.tail <:+ content := by
  obtain ⟨hf, hr', ht⟩ := opened_ok h
  refine reaches_invariant (I := fun p => Fits p ∧ Ready p ∧ p.tail <:+ content)
    (fun s t hs hst => ?_) ⟨hf, hr', ht ▸ List.suffix_refl _⟩ hr
  have hm := (iterate_spec hs.1 hs.2.1).1 t hst
  exact ⟨hm.fits, hm.ready, hm.tail.trans hs.2.2⟩

theorem sound_iff {content : Text} {out : Nat} : Sound f content out ↔
    ∀ p q, opened f content out = .ok p → Reaches (iterate f) p q → ¬ Overruns f q := by
  constructor
  · rintro ⟨-, hs⟩ p q hp hq ho
    have hi := opened_reaches hp hq
    refine (hs p hp).2 (yields_iff_reaches.mpr ⟨q, hq, ?_⟩)
    exact (iterate_spec hi.1 hi.2.1).2.mpr ho
  · intro h
    refine ⟨fun he => ?_, fun p hp => ⟨fun q hq => (opened_reaches hp hq).1, ?_⟩⟩
    · rcases opened_spec f content out with ⟨errno, hf⟩ | ⟨p, hp, -⟩
      · rw [hf] at he
        cases he
      · rw [hp] at he
        cases he
    · intro hy
      obtain ⟨q, hq, hd⟩ := yields_iff_reaches.mp hy
      have hi := opened_reaches hp hq
      exact h p q hp hq ((iterate_spec hi.1 hi.2.1).2.mp hd)

theorem not_sound_without_newline : ¬ ∀ (f : HostsFile Unit) (content : Text) (out : Nat),
    Sound f content out := by
  intro hall
  let f : HostsFile Unit := ⟨fun _ => .complete, fun _ => none, [], by decide⟩
  obtain ⟨-, h⟩ := hall f [35] 1
  refine (h { input := [], reads := 1, usedBuffer := [35], out := 1 } rfl).2 ⟨2, ?_⟩
  decide +kernel

def Terminated (text : Text) : Prop := text = [] ∨ text.getLast? = some newline

theorem Terminated.suffix {text rest : Text} (h : Terminated text) (hs : rest <:+ text) :
    Terminated rest := by
  rcases List.eq_nil_or_concat' rest with rfl | ⟨xs, c, rfl⟩
  · exact .inl rfl
  · obtain ⟨pre, rfl⟩ := hs
    rcases h with h | h
    · simp at h
    · rw [← List.append_assoc, List.getLast?_concat] at h
      exact .inr (by rw [List.getLast?_concat, h])

theorem complete_fills (hc : ∀ n, f.reads n = .complete) (hp : Fits p)
    (hfront : p.unusedFrontBuffer = 0) (hq : p.readToFreeBuffer f = .ok q)
    (hshort : q.usedBuffer.length < bufferSize) : q.input = [] := by
  have hf : p.freeBuffer = .ok (bufferSize - (p.unusedFrontBuffer + p.usedBuffer.length)) :=
    if_pos hp
  simp only [readToFreeBuffer, hf, hc, bind, Except.bind, pure, Except.pure] at hq
  split at hq
  · cases hq
    omega
  · cases hq
    simp only [received, List.length_append, List.length_take] at hshort ⊢
    exact List.drop_eq_nil_of_le (by omega)

theorem not_overruns_of_terminated (hc : ∀ n, f.reads n = .complete) (hp : Fits p)
    (ht : Terminated p.tail) : ¬ Overruns f p := by
  rintro ⟨-, hne, -, q, hq, hshort, hn⟩
  have hshift : Fits p.shiftBufferToLeft := by
    unfold Fits at hp ⊢
    simp only [shiftBufferToLeft]
    omega
  have hinput := complete_fills hc hshift rfl hq hshort
  rcases readToFreeBuffer_spec (f := f) hshift with ⟨errno, he⟩ | ⟨q', hq', hr⟩
  · rw [he] at hq
    cases hq
  · obtain rfl : q = q' := by simpa [hq] using hq'
    have htail : q.usedBuffer = p.tail := by
      have := hr.tail
      rwa [tail, hinput, List.append_nil] at this
    rcases ht with ht | ht
    · exact hne (List.append_eq_nil_iff.mp ht).1
    · exact hn (htail ▸ List.mem_of_getLast? ht)

theorem never_overruns_of_terminated {content : Text} {out : Nat} (hc : ∀ n, f.reads n = .complete)
    (ht : Terminated content) :
    ∀ p q, opened f content out = .ok p → Reaches (iterate f) p q → ¬ Overruns f q := by
  intro p q hp hq
  obtain ⟨hf, -, hs⟩ := opened_reaches hp hq
  exact not_overruns_of_terminated hc hf (ht.suffix hs)

end HostsFileParser

end Corosig.Dns
