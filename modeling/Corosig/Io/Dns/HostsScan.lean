import Corosig.Io.Dns.HostsFile
import Corosig.Library.Delimited

namespace Corosig.Dns
open Loop Delimited

def hash : Byte := 35

def token (x : Text) : Text := (x.dropWhile isBlank).takeWhile fun c => !isStop c

def after (x : Text) : Text := (x.dropWhile isBlank).dropWhile fun c => !isStop c

def lead (x : Text) : Nat := (x.takeWhile isBlank).length + (token x).length

theorem drop_lead (x : Text) : x.drop (lead x) = after x := by
  rw [lead, ← List.drop_drop, drop_length_takeWhile, token, drop_length_takeWhile, after]

theorem lead_add_after (x : Text) : lead x + (after x).length = x.length := by
  have hblanks := congrArg List.length (List.takeWhile_append_dropWhile (p := isBlank) (l := x))
  have htoken := congrArg List.length (List.takeWhile_append_dropWhile
    (p := fun c => !isStop c) (l := x.dropWhile isBlank))
  rw [List.length_append] at hblanks htoken
  rw [lead, token, after]
  omega

theorem lead_le (x : Text) : lead x ≤ x.length := Nat.le.intro (lead_add_after x)

theorem after_suffix (x : Text) : after x <:+ x := drop_lead x ▸ List.drop_suffix _ _

theorem isStop_of_after {x u : Text} {c : Byte} (h : after x = c :: u) : isStop c := by
  have hstop := stops_dropWhile (fun c => !isStop c) (x.dropWhile isBlank) c (by
    rw [after] at h
    rw [h]
    rfl)
  simpa using hstop

theorem after_cases {x u : Text} {c : Byte} (h : after x = c :: u) :
    isBlank c ∨ c = hash ∨ c = newline ∨ c = 0 := by
  have hstop := isStop_of_after h
  simp only [isStop, decide_eq_true_eq] at hstop
  simpa only [isBlank, hash, decide_eq_true_eq, or_assoc] using hstop

theorem after_take (x : Text) (k : Nat) : after (x.take k) = (after x).take (k - lead x) := by
  rw [after, dropWhile_take, dropWhile_take, after, lead, token, Nat.sub_sub]

theorem lead_take {x : Text} {k : Nat} (h : lead x ≤ k) : lead (x.take k) = lead x := by
  have hwindow := lead_add_after (x.take k)
  have hall := lead_add_after x
  rw [after_take, List.length_take, List.length_take] at hwindow
  omega

theorem after_window {x : Text} {k : Nat} (h : lead x ≤ k) :
    after (x.take k) ++ x.drop k = after x := by
  have hle : lead x ≤ (x.take k).length := by
    rw [List.length_take]
    exact Nat.le_min.mpr ⟨h, lead_le x⟩
  rw [← drop_lead, lead_take h, ← List.drop_append_of_le_length hle, List.take_append_drop, drop_lead]

theorem token_take {x : Text} {k : Nat} (h : lead x ≤ k) : token (x.take k) = token x := by
  rw [lead] at h
  rw [token, dropWhile_take, ← List.take_takeWhile]
  exact List.take_of_length_le (Nat.le_sub_of_add_le' h)

inductive Place (IP : Type) where
  | atIp
  | atName (addr : IP)
  | skippingLine
  deriving DecidableEq, Repr

def Place.behindIp {IP : Type} : Option IP → Place IP
  | some addr => .atName addr
  | none => .skippingLine

-- What the parser depends on: the text it has not passed yet, however much of it is in the buffer.
structure Scan (IP : Type) where
  rest : Text
  place : Place IP := .atIp
  out : Nat
  returned : List IP := []
  deriving DecidableEq, Repr

def found {IP : Type} (f : HostsFile IP) (addr : IP) (domainName : Text) : List IP :=
  if lowercase domainName = lowercase f.name then [addr] else []

namespace Scan

variable {IP : Type}

def collect (s : Scan IP) (addrs : List IP) : Scan IP :=
  { s with out := s.out - addrs.length, returned := s.returned ++ addrs.take s.out }

def entry (f : HostsFile IP) (c : Byte) (text : Text) : Option IP :=
  if c = hash ∨ c = newline then none else f.parse text

theorem entry_blank {f : HostsFile IP} {c : Byte} (hc : isBlank c) (text : Text) :
    entry f c text = f.parse text := by
  refine if_neg (not_or.mpr ⟨?_, ?_⟩)
  · rintro rfl
    exact absurd hc (by decide)
  · rintro rfl
    exact absurd hc (by decide)

-- A stretch that the window does not reach past uses it up, and the run ends with it.
def step (f : HostsFile IP) (s : Scan IP) : Next (Scan IP) (Except Stop (List IP)) :=
  if s.out = 0 ∨ s.rest = [] then .done (.ok s.returned)
  else
    match s.place with
    | .atIp =>
        if bufferSize ≤ lead s.rest then .done (.ok s.returned)
        else
          match after s.rest with
          | [] => .done (.ok s.returned)
          | c :: rest => .more { s with rest := c :: rest, place := .behindIp (entry f c (token s.rest)) }
    | .atName addr =>
        if bufferSize ≤ lead s.rest then .done (.ok s.returned)
        else
          match after s.rest with
          | [] => .done (.ok s.returned)
          | c :: rest =>
              if c = hash then .more { s with rest := c :: rest, place := .skippingLine }
              else .more { { s with rest := c :: rest }.collect (found f addr (token s.rest)) with
                place := if c = newline then .skippingLine else .atName addr }
    | .skippingLine =>
        let it := s.rest.findIdx (· = newline)
        if it < s.rest.length then
          if it + 1 < bufferSize then .more { s with rest := s.rest.drop (it + 1), place := .atIp }
          else .done (.ok s.returned)
        else if s.rest.length < bufferSize then .done (.error .fault)
        else .done (.ok s.returned)

variable {f : HostsFile IP} {s : Scan IP} {addr : IP} {c : Byte} {rest : Text}

theorem step_done (h : s.out = 0 ∨ s.rest = []) : s.step f = .done (.ok s.returned) := if_pos h

theorem step_window (hplace : s.place ≠ .skippingLine)
    (h : bufferSize ≤ lead s.rest ∨ after s.rest = []) : s.step f = .done (.ok s.returned) := by
  rw [step]
  split
  · rfl
  cases hp : s.place with
  | skippingLine => exact absurd hp hplace
  | atIp | atName =>
    dsimp only
    split
    · rfl
    · rename_i hlead
      rw [h.resolve_left hlead]

theorem step_atIp (hgo : ¬(s.out = 0 ∨ s.rest = [])) (hplace : s.place = .atIp)
    (hlead : lead s.rest < bufferSize) (hafter : after s.rest = c :: rest) :
    s.step f = .more { s with rest := c :: rest, place := .behindIp (entry f c (token s.rest)) } := by
  rw [step, if_neg hgo, hplace]
  simp only [if_neg (Nat.not_le.mpr hlead), hafter]

theorem step_hash (hgo : ¬(s.out = 0 ∨ s.rest = [])) (hplace : s.place = .atName addr)
    (hlead : lead s.rest < bufferSize) (hafter : after s.rest = hash :: rest) :
    s.step f = .more { s with rest := hash :: rest, place := .skippingLine } := by
  rw [step, if_neg hgo, hplace]
  simp only [if_neg (Nat.not_le.mpr hlead), hafter, if_true]

theorem step_name (hgo : ¬(s.out = 0 ∨ s.rest = [])) (hplace : s.place = .atName addr)
    (hlead : lead s.rest < bufferSize) (hafter : after s.rest = c :: rest) (hc : c ≠ hash) :
    s.step f = .more { { s with rest := c :: rest }.collect (found f addr (token s.rest)) with
      place := if c = newline then .skippingLine else .atName addr } := by
  rw [step, if_neg hgo, hplace]
  simp only [if_neg (Nat.not_le.mpr hlead), hafter, if_neg hc]

theorem step_skipped (hgo : ¬(s.out = 0 ∨ s.rest = [])) (hplace : s.place = .skippingLine)
    (hin : s.rest.findIdx (· = newline) < s.rest.length)
    (hwindow : s.rest.findIdx (· = newline) + 1 < bufferSize) :
    s.step f = .more { s with
      rest := s.rest.drop (s.rest.findIdx (· = newline) + 1), place := .atIp } := by
  rw [step, if_neg hgo, hplace]
  simp only [if_pos hin, if_pos hwindow]

theorem step_skip_window (hplace : s.place = .skippingLine)
    (hfull : bufferSize ≤ s.rest.length)
    (hwindow : bufferSize ≤ s.rest.findIdx (· = newline) + 1) :
    s.step f = .done (.ok s.returned) := by
  rw [step]
  split
  · rfl
  simp only [hplace, if_neg (Nat.not_lt.mpr hwindow), if_neg (Nat.not_lt.mpr hfull), ite_self]

theorem step_overrun (hgo : ¬(s.out = 0 ∨ s.rest = [])) (hplace : s.place = .skippingLine)
    (hin : s.rest.findIdx (· = newline) = s.rest.length) (hshort : s.rest.length < bufferSize) :
    s.step f = .done (.error .fault) := by
  rw [step, if_neg hgo, hplace]
  simp only [hin, Nat.lt_irrefl, if_false, if_pos hshort]

end Scan

namespace HostsFileParser

variable {IP : Type} {f : HostsFile IP} {p q : HostsFileParser IP}

theorem skipWs_eq (p : HostsFileParser IP) : p.skipWs = .ok { p with
    usedBuffer := p.usedBuffer.dropWhile isBlank
    unusedFrontBuffer := p.unusedFrontBuffer + (p.usedBuffer.takeWhile isBlank).length } := by
  rw [skipWs, adwance_ok (List.takeWhile_prefix isBlank).length_le, drop_length_takeWhile]

def passToken (p : HostsFileParser IP) : HostsFileParser IP :=
  { p with
    usedBuffer := after p.usedBuffer
    unusedFrontBuffer := p.unusedFrontBuffer + lead p.usedBuffer }

theorem findNextWs_eq (h : p.usedBuffer = q.usedBuffer.dropWhile isBlank) :
    p.findNextWs = (token q.usedBuffer).length := by
  rw [findNextWs, h, token, length_takeWhile_not]

theorem passToken_eq (p : HostsFileParser IP) : ∃ q, p.skipWs = .ok q ∧
    q.usedBuffer = p.usedBuffer.dropWhile isBlank ∧
    q.findNextWs = (token p.usedBuffer).length ∧
    q.adwance (token p.usedBuffer).length = .ok p.passToken := by
  have hle : (token p.usedBuffer).length ≤ (p.usedBuffer.dropWhile isBlank).length :=
    (List.takeWhile_prefix _).length_le
  refine ⟨_, skipWs_eq p, rfl, findNextWs_eq rfl, ?_⟩
  rw [adwance_ok hle, passToken, lead, after, token, drop_length_takeWhile]
  simp only [Nat.add_assoc]

theorem after_cases (x : Text) :
    (token x).length = (x.dropWhile isBlank).length ∧ after x = [] ∨
      ∃ c rest, after x = c :: rest ∧ (token x).length ≠ (x.dropWhile isBlank).length ∧
        deref (x.dropWhile isBlank) (token x).length = .ok c := by
  have hsplit := List.takeWhile_append_dropWhile (p := fun c => !isStop c)
    (l := x.dropWhile isBlank)
  rw [← token, ← after] at hsplit
  have hlen := congrArg List.length hsplit
  rw [List.length_append] at hlen
  cases hafter : after x with
  | nil =>
    rw [hafter, List.length_nil] at hlen
    exact .inl ⟨hlen, rfl⟩
  | cons c rest =>
    refine .inr ⟨c, rest, rfl, ?_, ?_⟩
    · rw [hafter, List.length_cons] at hlen
      omega
    · rw [deref, ← hsplit, hafter, List.getElem?_append_right (Nat.le_refl _), Nat.sub_self]
      rfl

theorem take_token (x : Text) : (x.dropWhile isBlank).take (token x).length = token x :=
  (List.prefix_iff_eq_take.mp (List.takeWhile_prefix _)).symm

theorem atIp_eq (p : HostsFileParser IP) : p.atIp f = .ok
    (match after p.usedBuffer with
      | [] => { p.passToken with addr := none, state := .skippingLine }
      | c :: _ =>
          if c = hash ∨ c = newline then { p.passToken with addr := none, state := .skippingLine }
          else
            { p.passToken with
              addr := f.parse (token p.usedBuffer)
              state := if (f.parse (token p.usedBuffer)).isSome then .atName
                else .skippingLine }) := by
  obtain ⟨q, hws, hused, hit, hpass⟩ := passToken_eq { p with addr := none }
  simp only [atIp, hws, hused, hit, hpass, bind, Except.bind, pure, Except.pure]
  obtain ⟨hend, hafter⟩ | ⟨c, rest, hafter, hend, hderef⟩ := after_cases p.usedBuffer
  · rw [if_pos hend, hafter]
    rfl
  · rw [if_neg hend, hafter, hderef, take_token]
    by_cases hstop : c = hash ∨ c = newline
    · dsimp only
      rw [if_pos hstop]
      exact if_pos hstop
    · dsimp only
      rw [if_neg hstop]
      exact if_neg hstop

theorem collect_eq {addr : IP} (h : p.addr = some addr) (text : Text) :
    p.collect f (lowercase text) = .ok { p with
      out := p.out - (found f addr text).length
      returned := p.returned ++ found f addr text } := by
  rw [collect, found]
  split
  · rw [h]
    rfl
  · simp

theorem atName_eq {addr : IP} (h : p.addr = some addr) : p.atName f = .ok
    (match after p.usedBuffer with
      | [] => { p.passToken with state := .skippingLine }
      | c :: _ =>
          if c = hash then { p.passToken with state := .skippingLine }
          else
            { p.passToken with
              out := p.out - (found f addr (token p.usedBuffer)).length
              returned := p.returned ++ found f addr (token p.usedBuffer)
              state := if c = newline then .skippingLine else p.state }) := by
  obtain ⟨q, hws, hused, hit, hpass⟩ := passToken_eq p
  simp only [atName, hws, hused, hit, hpass, bind, Except.bind, pure, Except.pure]
  obtain ⟨hend, hafter⟩ | ⟨c, rest, hafter, hend, hderef⟩ := after_cases p.usedBuffer
  · rw [if_pos hend, hafter]
  · rw [if_neg hend, hafter, hderef, take_token]
    have hcollect := collect_eq (f := f) (p := p.passToken) h (token p.usedBuffer)
    by_cases hstop : c = hash
    · dsimp only
      rw [if_pos hstop]
      exact if_pos hstop
    · dsimp only
      rw [if_neg hstop, hcollect]
      refine (if_neg hstop).trans ?_
      by_cases hline : c = newline
      · simp only [if_pos hline]
        rfl
      · simp only [if_neg hline]
        rfl

def Stands (p : HostsFileParser IP) : Place IP → Prop
  | .atIp => p.state = .atIp
  | .atName addr => p.state = .atName ∧ p.addr = some addr
  | .skippingLine => p.state = .skippingLine

structure Shows (p : HostsFileParser IP) (s : Scan IP) : Prop where
  fits : Fits p
  tail : p.tail = s.rest
  filled : p.usedBuffer = [] → s.rest = []
  place : p.Stands s.place
  out : p.out = s.out
  returned : p.returned = s.returned

def window (p : HostsFileParser IP) (reads : Nat) : HostsFileParser IP :=
  { p with
    reads := reads
    unusedFrontBuffer := 0
    usedBuffer := p.tail.take bufferSize
    input := p.tail.drop bufferSize }

theorem refill_eq (hc : ∀ n, f.reads n = .complete) (hp : Fits p) :
    ∃ n, p.shiftBufferToLeft.readToFreeBuffer f = .ok (p.window n) := by
  have hused : p.usedBuffer.length ≤ bufferSize := Nat.le_of_add_left_le hp
  have hfree : p.shiftBufferToLeft.freeBuffer = .ok (bufferSize - p.usedBuffer.length) := by
    rw [freeBuffer, shiftBufferToLeft, Nat.zero_add, if_pos hused]
  have htake : p.tail.take bufferSize =
      p.usedBuffer ++ p.input.take (bufferSize - p.usedBuffer.length) := by
    rw [tail, List.take_append, List.take_of_length_le hused]
  have hdrop : p.tail.drop bufferSize = p.input.drop (bufferSize - p.usedBuffer.length) := by
    rw [tail, List.drop_append, List.drop_of_length_le hused, List.nil_append]
  simp only [readToFreeBuffer, hfree, hc, bind, Except.bind, pure, Except.pure]
  split
  · rename_i hfull
    refine ⟨p.reads, ?_⟩
    rw [window, htake, hdrop, hfull, List.take_zero, List.append_nil, List.drop_zero]
    rfl
  · refine ⟨p.reads + 1, ?_⟩
    rw [window, htake, hdrop]
    rfl

theorem iterate_window (hc : ∀ n, f.reads n = .complete) (hp : Fits p) (hout : p.out ≠ 0)
    (hused : p.usedBuffer ≠ []) : ∃ n, iterate f p = match dispatch f (p.window n) with
      | .ok q => .more q
      | .error e => .done (.error e) := by
  obtain ⟨n, hn⟩ := refill_eq hc hp
  refine ⟨n, ?_⟩
  rw [iterate, if_pos ⟨hout, hused⟩, hn]
  rfl

theorem yields_emptied (h : q.usedBuffer = []) (r : Except Stop (List IP)) :
    Yields (iterate f) q r ↔ r = .ok q.returned := by
  refine yields_done ?_
  rw [iterate, if_neg (not_and_not_right.mpr fun _ => h)]

def Follows (f : HostsFile IP) (p : HostsFileParser IP) (s : Scan IP) : Prop :=
  (∃ r, (∀ r', Yields (iterate f) p r' ↔ r' = r) ∧ s.step f = .done r) ∨
    ∃ q t, iterate f p = .more q ∧ s.step f = .more t ∧ Shows q t

theorem follows_emptied {s : Scan IP} (h : iterate f p = .more q) (hused : q.usedBuffer = [])
    (hret : q.returned = s.returned) (hs : s.step f = .done (.ok s.returned)) : Follows f p s :=
  .inl ⟨_, fun r => (yields_more h).trans (hret ▸ yields_emptied hused r), hs⟩

theorem passToken_window {s : Scan IP} (h : Shows p s) (n : Nat) :
    (bufferSize ≤ lead s.rest ∨ after s.rest = []) ∧ after (s.rest.take bufferSize) = [] ∨
      ∃ c rest v, lead s.rest < bufferSize ∧ after s.rest = c :: rest ∧
        after (s.rest.take bufferSize) = c :: v ∧
        token (s.rest.take bufferSize) = token s.rest ∧ Fits (p.window n).passToken ∧
        (p.window n).passToken.tail = c :: rest ∧
        ((p.window n).passToken.usedBuffer = [] → c :: rest = []) := by
  have hused : (p.window n).usedBuffer = s.rest.take bufferSize := by
    rw [window, h.tail]
  by_cases hend : bufferSize ≤ lead s.rest ∨ after s.rest = []
  · refine .inl ⟨hend, ?_⟩
    rw [after_take]
    rcases hend with hlong | hnil
    · rw [Nat.sub_eq_zero_of_le hlong, List.take_zero]
    · rw [hnil, List.take_nil]
  obtain ⟨hlead, hne⟩ := not_or.mp hend
  have hlead := Nat.not_le.mp hlead
  obtain ⟨c, rest, hafter⟩ := List.exists_cons_of_ne_nil hne
  obtain ⟨k, hk⟩ : ∃ k, bufferSize - lead s.rest = k + 1 := ⟨bufferSize - lead s.rest - 1, by omega⟩
  have hshown : after (s.rest.take bufferSize) = c :: rest.take k := by
    rw [after_take, hafter, hk, List.take_succ_cons]
  refine .inr ⟨c, rest, rest.take k, hlead, hafter, hshown, token_take hlead.le, ?_, ?_, ?_⟩
  · have hlen := lead_add_after (s.rest.take bufferSize)
    have hshort := List.length_take_le bufferSize s.rest
    rw [← hused] at hlen hshort
    simp only [Fits, passToken]
    rw [show (p.window n).unusedFrontBuffer = 0 from rfl]
    omega
  · rw [HostsFileParser.tail, passToken, hused, ← hafter, ← after_window hlead.le, window, h.tail]
  · rw [passToken, hused, hshown]
    rintro ⟨⟩

theorem follows_atIp {s : Scan IP} (h : Shows p s) {n : Nat} (hplace : s.place = .atIp)
    (hgo : ¬(s.out = 0 ∨ s.rest = []))
    (hi : iterate f p = match dispatch f (p.window n) with
      | .ok q => .more q
      | .error e => .done (.error e)) : Follows f p s := by
  have hstate : (p.window n).state = .atIp := by
    have hstands := h.place
    rwa [hplace] at hstands
  have hused : (p.window n).usedBuffer = s.rest.take bufferSize := by
    rw [window, h.tail]
  rw [dispatch, hstate] at hi
  simp only [atIp_eq, hused] at hi
  obtain ⟨hend, hnil⟩ | ⟨c, rest, v, hlead, hafter, hshown, htoken, hfits, htail, hfilled⟩ :=
    passToken_window h n
  · rw [hnil] at hi
    refine follows_emptied hi ?_ h.returned (Scan.step_window (by rw [hplace]; rintro ⟨⟩) hend)
    rw [passToken, hused, hnil]
  rw [hshown, htoken] at hi
  refine .inr ⟨_, _, hi, Scan.step_atIp hgo hplace hlead hafter, ?_⟩
  rw [Scan.entry]
  by_cases hstop : c = hash ∨ c = newline
  · simp only [if_pos hstop]
    exact ⟨hfits, htail, hfilled, rfl, h.out, h.returned⟩
  · simp only [if_neg hstop]
    cases f.parse (token s.rest) with
    | none => exact ⟨hfits, htail, hfilled, rfl, h.out, h.returned⟩
    | some addr => exact ⟨hfits, htail, hfilled, ⟨rfl, rfl⟩, h.out, h.returned⟩

theorem take_found {addr : IP} {text : Text} {n : Nat} (h : n ≠ 0) :
    (found f addr text).take n = found f addr text := by
  refine List.take_of_length_le ?_
  rw [found]
  split
  · exact Nat.one_le_iff_ne_zero.mpr h
  · exact Nat.zero_le n

theorem follows_atName {s : Scan IP} (h : Shows p s) {n : Nat} {addr : IP}
    (hplace : s.place = .atName addr) (hgo : ¬(s.out = 0 ∨ s.rest = []))
    (hi : iterate f p = match dispatch f (p.window n) with
      | .ok q => .more q
      | .error e => .done (.error e)) : Follows f p s := by
  obtain ⟨hstate, haddr⟩ : (p.window n).state = .atName ∧ (p.window n).addr = some addr := by
    have hstands := h.place
    rwa [hplace] at hstands
  have hused : (p.window n).usedBuffer = s.rest.take bufferSize := by
    rw [window, h.tail]
  rw [dispatch, hstate] at hi
  simp only [atName_eq haddr, hused] at hi
  obtain ⟨hend, hnil⟩ | ⟨c, rest, v, hlead, hafter, hshown, htoken, hfits, htail, hfilled⟩ :=
    passToken_window h n
  · rw [hnil] at hi
    refine follows_emptied hi ?_ h.returned (Scan.step_window (by rw [hplace]; rintro ⟨⟩) hend)
    rw [passToken, hused, hnil]
  rw [hshown, htoken] at hi
  by_cases hhash : c = hash
  · subst hhash
    simp only [if_true] at hi
    exact .inr ⟨_, _, hi, Scan.step_hash hgo hplace hlead hafter, hfits, htail, hfilled, rfl,
      h.out, h.returned⟩
  · simp only [if_neg hhash] at hi
    refine .inr ⟨_, _, hi, Scan.step_name hgo hplace hlead hafter hhash, hfits, htail, hfilled, ?_,
      congrArg (· - _) h.out, ?_⟩
    · by_cases hline : c = newline
      · simp only [if_pos hline]
        rfl
      · simp only [if_neg hline]
        exact ⟨hstate, haddr⟩
    · simp only [Scan.collect, take_found (not_or.mp hgo).1, ← h.returned]
      rfl

theorem skipLine_inside (hfront : p.unusedFrontBuffer = 0)
    (hin : p.usedBuffer.findIdx (· = newline) + 1 ≤ p.usedBuffer.length)
    (hshort : p.usedBuffer.length ≤ bufferSize) : p.skipLine = .ok { p with
      state := .atIp
      usedBuffer := p.usedBuffer.drop (p.usedBuffer.findIdx (· = newline) + 1)
      unusedFrontBuffer := p.usedBuffer.findIdx (· = newline) + 1 } := by
  have hq := adwance_ok (p := { p with state := .atIp })
    (n := p.usedBuffer.findIdx (· = newline) + 1) hin
  simp only [skipLine, if_pos (Nat.lt_of_succ_le hin), hfront, Nat.zero_add,
    Nat.min_eq_right (hin.trans hshort)] at hq ⊢
  exact hq

theorem skipLine_emptied (hfront : p.unusedFrontBuffer = 0)
    (hfull : p.usedBuffer.length = bufferSize)
    (hwindow : bufferSize ≤ p.usedBuffer.findIdx (· = newline) + 1) :
    ∃ q, p.skipLine = .ok q ∧ q.usedBuffer = [] ∧ q.returned = p.returned := by
  have hn : min bufferSize (p.unusedFrontBuffer +
      p.usedBuffer.findIdx (· = newline) + 1) = bufferSize := by
    rw [hfront]
    omega
  unfold skipLine
  dsimp only
  split
  · exact ⟨_, adwance_ok (hn.trans_le hfull.ge), List.drop_of_length_le (hfull.trans_le hn.ge), rfl⟩
  · exact ⟨_, adwance_ok (hn.trans_le hfull.ge), List.drop_of_length_le (hfull.trans_le hn.ge), rfl⟩

theorem follows_skippingLine {s : Scan IP} (h : Shows p s) {n : Nat}
    (hplace : s.place = .skippingLine) (hgo : ¬(s.out = 0 ∨ s.rest = []))
    (hi : iterate f p = match dispatch f (p.window n) with
      | .ok q => .more q
      | .error e => .done (.error e)) : Follows f p s := by
  have hstate : (p.window n).state = .skippingLine := by
    have hstands := h.place
    rwa [hplace] at hstands
  have hused : (p.window n).usedBuffer = s.rest.take bufferSize := by
    rw [window, h.tail]
  have hlen : (p.window n).usedBuffer.length = min bufferSize s.rest.length := by
    rw [hused, List.length_take]
  have hidx : (p.window n).usedBuffer.findIdx (· = newline) =
      min bufferSize (s.rest.findIdx (· = newline)) := by
    rw [hused]
    exact List.findIdx_take
  have hle : s.rest.findIdx (· = newline) ≤ s.rest.length := List.findIdx_le_length
  rw [dispatch, hstate] at hi
  by_cases hfull : bufferSize ≤ s.rest.length ∧ bufferSize ≤ s.rest.findIdx (· = newline) + 1
  · obtain ⟨q, hq, hempty, hret⟩ := skipLine_emptied (p := p.window n) rfl (by omega) (by omega)
    rw [hq] at hi
    exact follows_emptied hi hempty (hret.trans h.returned)
      (Scan.step_skip_window hplace hfull.1 hfull.2)
  by_cases hin : s.rest.findIdx (· = newline) < s.rest.length
  · have hwindow : s.rest.findIdx (· = newline) + 1 < bufferSize := by omega
    rw [skipLine_inside rfl (by omega) (by omega)] at hi
    refine .inr ⟨_, _, hi, Scan.step_skipped hgo hplace hin hwindow, ?_, ?_, ?_, rfl, h.out,
      h.returned⟩
    · simp only [Fits, List.length_drop]
      omega
    · have hcut : s.rest.findIdx (· = newline) + 1 ≤ (s.rest.take bufferSize).length := by
        rw [List.length_take]
        omega
      rw [HostsFileParser.tail]
      dsimp only
      rw [hidx, hused, Nat.min_eq_right (Nat.le_of_succ_le hwindow.le),
        ← List.drop_append_of_le_length hcut, window, h.tail, List.take_append_drop]
    · dsimp only
      rw [hidx, List.drop_eq_nil_iff, List.drop_eq_nil_iff]
      omega
  · have hall : s.rest.findIdx (· = newline) = s.rest.length := by omega
    have hmissing : newline ∉ (p.window n).usedBuffer := by
      intro hmem
      rw [hused] at hmem
      have := List.findIdx_eq_length.mp hall newline (List.mem_of_mem_take hmem)
      simp at this
    rw [skipLine_overrun rfl hmissing (by omega)] at hi
    refine .inl ⟨_, fun r => yields_done hi, Scan.step_overrun hgo hplace hall (by omega)⟩

theorem follows (hc : ∀ n, f.reads n = .complete) {s : Scan IP} (h : Shows p s) :
    Follows f p s := by
  by_cases hgo : s.out = 0 ∨ s.rest = []
  · have hstop : ¬(p.out ≠ 0 ∧ p.usedBuffer ≠ []) := by
      rintro ⟨hout, hused⟩
      rcases hgo with hzero | hnil
      · exact hout (h.out.trans hzero)
      · exact hused (List.append_eq_nil_iff.mp (h.tail.trans hnil)).1
    refine .inl ⟨_, fun r => yields_done (if_neg hstop), ?_⟩
    rw [h.returned]
    exact Scan.step_done hgo
  · obtain ⟨hout, hrest⟩ := not_or.mp hgo
    obtain ⟨n, hn⟩ := iterate_window hc h.fits (h.out ▸ hout) fun hused => hrest (h.filled hused)
    cases hplace : s.place with
    | atIp => exact follows_atIp h hplace hgo hn
    | atName addr => exact follows_atName h hplace hgo hn
    | skippingLine => exact follows_skippingLine h hplace hgo hn

theorem yields_scan (hc : ∀ n, f.reads n = .complete) {s : Scan IP} (h : Shows p s)
    (r : Except Stop (List IP)) : Yields (iterate f) p r ↔ Yields (Scan.step f) s r :=
  yields_simulation (fun _ _ => follows hc) h r

theorem opened_shows (hc : ∀ n, f.reads n = .complete) (content : Text) (out : Nat) :
    ∃ p, opened f content out = .ok p ∧ Shows p { rest := content, out := out } := by
  have hfits : Fits ({ input := content, out := out } : HostsFileParser IP) := Nat.zero_le _
  obtain ⟨n, hn⟩ := refill_eq hc hfits
  refine ⟨_, hn, ?_, List.take_append_drop _ _, fun hnil => ?_, rfl, rfl, rfl⟩
  · simp only [Fits, window, List.length_take]
    omega
  · exact (List.take_eq_nil_iff.mp hnil).resolve_left (by decide)

end HostsFileParser

-- A lookup whose reads all come back with what was asked for, up to the end of the file.
def HostsFile.whole {IP : Type} (parse : Text → Option IP) (asciiName : Text)
    (h : asciiName.length ≤ fqdnMaxOctetLen) : HostsFile IP where
  reads _ := .complete
  parse := parse
  name := asciiName
  name_le := h

-- HostsFileCache::pull on a file with this content can come to this result; a lookup that does not
-- end has none.
def Pulls {IP : Type} (parse : Text → Option IP) (content asciiName : Text) (out : Nat)
    (r : Except Stop (List IP)) : Prop :=
  if h : asciiName.length ≤ fqdnMaxOctetLen then
    ∃ p, HostsFileParser.opened (.whole parse asciiName h) content out = .ok p ∧
      Yields (HostsFileParser.iterate (.whole parse asciiName h)) p r
  else r = .ok []

theorem pulls_iff {IP : Type} {parse : Text → Option IP} {asciiName : Text}
    (h : asciiName.length ≤ fqdnMaxOctetLen) (content : Text) (out : Nat)
    (r : Except Stop (List IP)) :
    Pulls parse content asciiName out r ↔
      Yields (Scan.step (.whole parse asciiName h)) { rest := content, out := out } r := by
  have hc : ∀ n, (HostsFile.whole parse asciiName h).reads n = .complete := fun _ => rfl
  obtain ⟨p, hp, hshows⟩ := HostsFileParser.opened_shows hc content out
  rw [Pulls, dif_pos h]
  constructor
  · rintro ⟨q, hq, hr⟩
    obtain rfl := Except.ok.inj (hp.symm.trans hq)
    exact (HostsFileParser.yields_scan hc hshows r).mp hr
  · intro hr
    exact ⟨p, hp, (HostsFileParser.yields_scan hc hshows r).mpr hr⟩

theorem pulls_long {IP : Type} {parse : Text → Option IP} {asciiName : Text}
    (h : ¬asciiName.length ≤ fqdnMaxOctetLen) (content : Text) (out : Nat)
    (r : Except Stop (List IP)) : Pulls parse content asciiName out r ↔ r = .ok [] := by
  rw [Pulls, dif_neg h]

end Corosig.Dns
