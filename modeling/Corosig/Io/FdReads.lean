import Corosig.Io.FdOps
import Corosig.Io.Dns.Ascii

namespace Corosig
open Loop Dns

abbrev Memory := Nat → Byte

def load (mem : Memory) (buf : Slice) : Text := buf.positions.map mem

def store (mem : Memory) (offset : Nat) (bytes : Text) : Memory := fun address =>
  if offset ≤ address then bytes[address - offset]?.getD (mem address) else mem address

inductive Reply where
  | delivered (bytes : Text)
  | failed (errno : Nat)
  deriving DecidableEq, Repr

def Reply.bytes : Reply → Text
  | .delivered bytes => bytes
  | .failed _ => []

-- No bytes delivered means the end of the file.
def Reply.Last : Reply → Prop
  | .delivered bytes => bytes = []
  | .failed _ => True

abbrev ReadKernel := Nat → (size : Nat) → { reply : Reply // reply.bytes.length ≤ size }

def Slice.subspan (buf : Slice) (offset : Nat) : Slice := ⟨buf.offset + offset, buf.size - offset⟩

structure Reading where
  read : Nat := 0
  mem : Memory
  replies : List Reply := []

structure ReadDone where
  result : Except Nat Nat
  mem : Memory
  replies : List Reply

def tryReadSome (kernel : ReadKernel) (call : Nat) (buf : Slice) (mem : Memory) : Reply × Memory :=
  let reply := (kernel call buf.size).val
  (reply, store mem buf.offset reply.bytes)

def readStep (kernel : ReadKernel) (buf : Slice) (s : Reading) : Next Reading ReadDone :=
  if s.read < buf.size then
    let (reply, mem) := tryReadSome kernel s.replies.length (buf.subspan s.read) s.mem
    let replies := s.replies ++ [reply]
    match reply with
    | .delivered bytes =>
        if bytes.length = 0 then .done ⟨.ok s.read, mem, replies⟩
        else .more ⟨s.read + bytes.length, mem, replies⟩
    | .failed errno =>
        if s.read = 0 then .done ⟨.error errno, mem, replies⟩
        else .done ⟨.ok s.read, mem, replies⟩
  else
    .done ⟨.ok s.read, s.mem, s.replies⟩

def delivered (replies : List Reply) : Text := replies.flatMap Reply.bytes

-- Each reply is the kernel's to its own call, for what the replies before it left of the buffer.
def Answered (kernel : ReadKernel) (size : Nat) (replies : List Reply) : Prop :=
  ∀ call reply, replies[call]? = some reply →
    reply = (kernel call (size - (delivered (replies.take call)).length)).val

def FaithfulRead (kernel : ReadKernel) (buf : Slice) (mem : Memory) (r : ReadDone) : Prop :=
  Answered kernel buf.size r.replies ∧
  match r.result with
  | .ok n => n ≤ buf.size ∧ load r.mem (buf.first n) = delivered r.replies ∧
      (∀ address, address < buf.offset ∨ buf.offset + n ≤ address →
        r.mem address = mem address) ∧
      (n = buf.size ∨ ∃ last ∈ r.replies.getLast?, last.Last)
  | .error errno => r.replies = [.failed errno] ∧ r.mem = mem

variable {kernel : ReadKernel} {buf : Slice} {mem : Memory} {s t : Reading} {r : ReadDone}
  {bytes : Text} {offset n : Nat}

theorem store_nil (mem : Memory) (offset : Nat) : store mem offset [] = mem := by
  funext address
  simp [store]

theorem store_frame {address : Nat}
    (h : address < offset ∨ offset + bytes.length ≤ address) :
    store mem offset bytes address = mem address := by
  rw [store]
  split
  · rw [List.getElem?_eq_none (by omega)]
    rfl
  · rfl

theorem load_store (mem : Memory) (offset : Nat) (bytes : Text) :
    load (store mem offset bytes) ⟨offset, bytes.length⟩ = bytes := by
  refine List.ext_getElem (by simp [load, Slice.positions]) fun i hi hi' => ?_
  simp [load, Slice.positions, store, hi']

theorem load_congr {mem' : Memory} (h : ∀ address, buf.offset ≤ address →
    address < buf.offset + buf.size → mem' address = mem address) :
    load mem' buf = load mem buf := by
  refine List.map_congr_left fun address haddress => ?_
  obtain ⟨hlow, hhigh⟩ := List.mem_range'_1.mp haddress
  exact h address hlow hhigh

theorem load_first_add (mem : Memory) (buf : Slice) (n m : Nat) :
    load mem (buf.first (n + m)) = load mem (buf.first n) ++ load mem ⟨buf.offset + n, m⟩ := by
  simp only [load, Slice.positions, Slice.first, ← List.map_append, List.range'_append_1]

theorem Answered.append {size : Nat} {replies : List Reply} {reply : Reply}
    (h : Answered kernel size replies)
    (hreply : reply = (kernel replies.length (size - (delivered replies).length)).val) :
    Answered kernel size (replies ++ [reply]) := by
  intro call answer hcall
  rcases Nat.lt_trichotomy call replies.length with hlt | rfl | hgt
  · rw [List.getElem?_append_left hlt] at hcall
    rw [List.take_append_of_le_length (Nat.le_of_lt hlt)]
    exact h call answer hcall
  · rw [List.getElem?_concat_length] at hcall
    rw [List.take_left, ← Option.some.inj hcall, hreply]
  · rw [List.getElem?_eq_none (by simp; omega)] at hcall
    cases hcall

structure Reads (kernel : ReadKernel) (buf : Slice) (mem : Memory) (s : Reading) : Prop where
  answered : Answered kernel buf.size s.replies
  fits : s.read ≤ buf.size
  loaded : load s.mem (buf.first s.read) = delivered s.replies
  frame : ∀ address, address < buf.offset ∨ buf.offset + s.read ≤ address →
    s.mem address = mem address
  some_bytes : ∀ reply ∈ s.replies, reply.bytes ≠ []

theorem reads_start (kernel : ReadKernel) (buf : Slice) (mem : Memory) :
    Reads kernel buf mem { mem := mem } :=
  ⟨by simp [Answered], Nat.zero_le _, rfl, fun _ _ => rfl, by simp⟩

theorem Reads.length_delivered (h : Reads kernel buf mem s) :
    (delivered s.replies).length = s.read := by
  rw [← h.loaded]
  simp [load, Slice.positions, Slice.first]

theorem Reads.answer (h : Reads kernel buf mem s) {reply : Reply}
    (hk : (kernel s.replies.length (buf.size - s.read)).val = reply) :
    Answered kernel buf.size (s.replies ++ [reply]) :=
  h.answered.append (by rw [h.length_delivered, hk])

theorem Reads.replies_nil (h : Reads kernel buf mem s) (hs : s.read = 0) :
    s.replies = [] ∧ s.mem = mem := by
  have hloaded := h.loaded
  rw [hs] at hloaded
  refine ⟨List.eq_nil_iff_forall_not_mem.mpr fun reply hreply => h.some_bytes reply hreply ?_, ?_⟩
  · exact List.flatMap_eq_nil_iff.mp hloaded.symm reply hreply
  · exact funext fun address => h.frame address (by omega)

theorem Reads.deliver (h : Reads kernel buf mem s) (hne : bytes ≠ [])
    (hk : (kernel s.replies.length (buf.size - s.read)).val = .delivered bytes)
    (hfits : bytes.length ≤ buf.size - s.read) (hs : s.read < buf.size) :
    Reads kernel buf mem ⟨s.read + bytes.length, store s.mem (buf.offset + s.read) bytes,
      s.replies ++ [.delivered bytes]⟩ := by
  refine ⟨h.answer hk, by dsimp only; omega, ?_, fun address haddress => ?_, ?_⟩
  · have hbefore : load (store s.mem (buf.offset + s.read) bytes) (buf.first s.read) =
        load s.mem (buf.first s.read) :=
      load_congr fun address _ hhigh => store_frame (.inl hhigh)
    rw [load_first_add, load_store, hbefore, h.loaded]
    simp [delivered, Reply.bytes]
  · dsimp only at haddress ⊢
    rw [store_frame (by omega)]
    exact h.frame address (by omega)
  · intro reply hreply
    rcases List.mem_append.mp hreply with hreply | hreply
    · exact h.some_bytes reply hreply
    · rw [List.mem_singleton.mp hreply]
      exact hne

theorem readStep_delivered (hs : s.read < buf.size)
    (hk : (kernel s.replies.length (buf.size - s.read)).val = .delivered bytes) :
    readStep kernel buf s =
      if bytes.length = 0 then .done ⟨.ok s.read, store s.mem (buf.offset + s.read) bytes,
        s.replies ++ [.delivered bytes]⟩
      else .more ⟨s.read + bytes.length, store s.mem (buf.offset + s.read) bytes,
        s.replies ++ [.delivered bytes]⟩ := by
  simp only [readStep, if_pos hs, tryReadSome, Slice.subspan, hk, Reply.bytes]

theorem readStep_failed {errno : Nat} (hs : s.read < buf.size)
    (hk : (kernel s.replies.length (buf.size - s.read)).val = .failed errno) :
    readStep kernel buf s =
      if s.read = 0 then .done ⟨.error errno, s.mem, s.replies ++ [.failed errno]⟩
      else .done ⟨.ok s.read, s.mem, s.replies ++ [.failed errno]⟩ := by
  simp only [readStep, if_pos hs, tryReadSome, Slice.subspan, hk, Reply.bytes, store_nil]

theorem readStep_end (kernel : ReadKernel) (hs : ¬s.read < buf.size) :
    readStep kernel buf s = .done ⟨.ok s.read, s.mem, s.replies⟩ :=
  if_neg hs

theorem readStep_more (h : Reads kernel buf mem s) (hstep : readStep kernel buf s = .more t) :
    Reads kernel buf mem t ∧ buf.size - t.read < buf.size - s.read := by
  by_cases hs : s.read < buf.size
  · have hle := (kernel s.replies.length (buf.size - s.read)).property
    cases hk : (kernel s.replies.length (buf.size - s.read)).val with
    | delivered bytes =>
      rw [hk] at hle
      rw [readStep_delivered hs hk] at hstep
      split at hstep
      · cases hstep
      · rename_i hne
        have hpos : 0 < bytes.length := Nat.pos_of_ne_zero hne
        cases hstep
        exact ⟨h.deliver (List.ne_nil_of_length_pos hpos) hk hle hs, by dsimp only; omega⟩
    | failed errno =>
      rw [readStep_failed hs hk] at hstep
      split at hstep <;> cases hstep
  · rw [readStep_end kernel hs] at hstep
    cases hstep

theorem Reads.stop {last : Reply} (h : Reads kernel buf mem s) (hnone : last.bytes = [])
    (hk : (kernel s.replies.length (buf.size - s.read)).val = last) (hlast : last.Last) :
    FaithfulRead kernel buf mem ⟨.ok s.read, s.mem, s.replies ++ [last]⟩ := by
  refine ⟨h.answer hk, h.fits, ?_, h.frame, .inr ⟨last, by simp, hlast⟩⟩
  have hsame : delivered (s.replies ++ [last]) = delivered s.replies := by
    simp [delivered, hnone]
  rw [hsame]
  exact h.loaded

theorem readStep_done (h : Reads kernel buf mem s) (hstep : readStep kernel buf s = .done r) :
    FaithfulRead kernel buf mem r := by
  by_cases hs : s.read < buf.size
  · cases hk : (kernel s.replies.length (buf.size - s.read)).val with
    | delivered bytes =>
      rw [readStep_delivered hs hk] at hstep
      split at hstep
      · rename_i hnone
        obtain rfl := List.eq_nil_of_length_eq_zero hnone
        rw [store_nil] at hstep
        cases hstep
        exact h.stop rfl hk rfl
      · cases hstep
    | failed errno =>
      rw [readStep_failed hs hk] at hstep
      split at hstep
      · rename_i hzero
        obtain ⟨hreplies, hmem⟩ := h.replies_nil hzero
        cases hstep
        exact ⟨h.answer hk, by rw [hreplies]; rfl, hmem⟩
      · cases hstep
        exact h.stop rfl hk trivial
  · have hfull : s.read = buf.size := Nat.le_antisymm h.fits (Nat.not_lt.mp hs)
    rw [readStep_end kernel hs] at hstep
    cases hstep
    exact ⟨h.answered, h.fits, h.loaded, h.frame, .inl hfull⟩

theorem read_faithful (kernel : ReadKernel) (buf : Slice) (mem : Memory) :
    ∃ r, Yields (readStep kernel buf) { mem := mem } r ∧ FaithfulRead kernel buf mem r := by
  obtain ⟨r, hr⟩ := halts_of_measure (I := Reads kernel buf mem) (fun s => buf.size - s.read)
    (fun s t hs hstep => readStep_more hs hstep) (reads_start kernel buf mem)
  refine ⟨r, hr, yields_post (I := Reads kernel buf mem) ?_ ?_ (reads_start kernel buf mem) hr⟩
  · exact fun s t hs hstep => (readStep_more hs hstep).1
  · exact fun s r hs hstep => readStep_done hs hstep

end Corosig
