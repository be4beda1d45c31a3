import Corosig.Io.Dns.HostsReference

namespace Corosig.Dns
open Loop

namespace HostsFileParser

variable {IP : Type} {f : HostsFile IP} {p q : HostsFileParser IP}

-- A part of the file that ends inside a line behind its first word, which is the address.
def BehindAddress (parse : Text → Option IP) (passed : Text) (addr : IP) : Prop :=
  ∃ lines blanks first rest, passed = lines ++ blanks ++ first ++ rest ∧ Terminated lines ∧
    (∀ c ∈ blanks, isBlank c) ∧ (∀ c ∈ first, ¬isStop c) ∧ parse first = some addr ∧
    (∀ c ∈ rest.head?, isStop c) ∧ ∀ c ∈ rest, c ≠ newline ∧ c ≠ hash

def Lists (f : HostsFile IP) (content : Text) (ending : Nat) (addr : IP) : Prop :=
  ∃ passed blanks word c rest, content = passed ++ blanks ++ word ++ c :: rest ∧
    ending = (passed ++ blanks ++ word).length ∧ BehindAddress f.parse passed addr ∧
    (∀ b ∈ blanks, isBlank b) ∧ (blanks ≠ [] ∨ word = []) ∧ (∀ b ∈ word, ¬isStop b) ∧
    lowercase word = lowercase f.name ∧ isStop c ∧ c ≠ hash

def Stood (f : HostsFile IP) (p : HostsFileParser IP) (passed : Text) : Prop :=
  match p.state with
  | .atIp => Terminated passed
  | .atName => ∃ addr, p.addr = some addr ∧ BehindAddress f.parse passed addr ∧
      ∃ c rest, p.tail = c :: rest ∧ isStop c
  | .skippingLine => True

structure Reported (f : HostsFile IP) (content : Text) (limit : Nat) (ends : List Nat)
    (addrs : List IP) : Prop where
  lists : List.Forall₂ (Lists f content) ends addrs
  ordered : ends.Pairwise (· ≤ ·)
  once : f.name ≠ [] → ends.Pairwise (· < ·)
  passed : ∀ e ∈ ends, e ≤ limit

structure Collected (f : HostsFile IP) (content : Text) (out : Nat) (p : HostsFileParser IP) :
    Prop where
  fits : Fits p
  ready : Ready p
  room : p.out + p.returned.length = out
  reported : ∃ passed ends, content = passed ++ p.tail ∧ Stood f p passed ∧
    Reported f content passed.length ends p.returned

theorem Reported.mono {content : Text} {n m : Nat} {ends : List Nat} {addrs : List IP}
    (h : Reported f content n ends addrs) (hle : n ≤ m) : Reported f content m ends addrs :=
  { h with passed := fun e he => (h.passed e he).trans hle }

theorem Reported.concat {content : Text} {n e : Nat} {ends : List Nat} {addrs : List IP}
    {addr : IP} (h : Reported f content n ends addrs) (hl : Lists f content e addr) (hle : n ≤ e)
    (hlt : f.name ≠ [] → n < e) : Reported f content e (ends ++ [e]) (addrs ++ [addr]) := by
  refine ⟨List.rel_append h.lists (.cons hl .nil), ?_, fun hn => ?_, ?_⟩
  · refine List.pairwise_append.mpr ⟨h.ordered, List.pairwise_singleton _ _, fun a ha b hb => ?_⟩
    rw [List.mem_singleton.mp hb]
    exact (h.passed a ha).trans hle
  · refine List.pairwise_append.mpr ⟨h.once hn, List.pairwise_singleton _ _, fun a ha b hb => ?_⟩
    rw [List.mem_singleton.mp hb]
    exact (h.passed a ha).trans_lt (hlt hn)
  · intro a ha
    rcases List.mem_append.mp ha with ha | ha
    · exact (h.passed a ha).trans hle
    · exact (List.mem_singleton.mp ha).le

theorem split_token (x : Text) : x = x.takeWhile isBlank ++ token x ++ after x := by
  rw [token, after, List.append_assoc, List.takeWhile_append_dropWhile,
    List.takeWhile_append_dropWhile]

theorem mem_token {x : Text} {c : Byte} (h : c ∈ token x) : ¬isStop c := by
  have := List.mem_takeWhile_imp h
  simpa using this

theorem token_behind_stop {x rest : Text} {c : Byte} (h : x = c :: rest) (hc : isStop c) :
    x.takeWhile isBlank ≠ [] ∨ token x = [] := by
  subst h
  by_cases hb : isBlank c
  · exact .inl (by simp [hb])
  · refine .inr ?_
    simp [token, hb, hc]

theorem readToFreeBuffer_same (h : p.readToFreeBuffer f = .ok q) :
    q.out = p.out ∧ q.returned = p.returned := by
  unfold readToFreeBuffer at h
  cases hf : p.freeBuffer with
  | error e =>
    rw [hf] at h
    cases h
  | ok n =>
    simp only [hf, bind, Except.bind] at h
    split at h
    · cases h
      exact ⟨rfl, rfl⟩
    · split at h <;> cases h <;> exact ⟨rfl, rfl⟩

theorem iterate_more (hp : Fits p) (h : iterate f p = .more q) : p.out ≠ 0 ∧ ∃ r,
    Fits r ∧ r.state = p.state ∧ r.addr = p.addr ∧ r.unusedFrontBuffer = 0 ∧ r.tail = p.tail ∧
      r.out = p.out ∧ r.returned = p.returned ∧ r.usedBuffer ≠ [] ∧ dispatch f r = .ok q := by
  have hshift : Fits p.shiftBufferToLeft := by
    unfold Fits at hp ⊢
    simp only [shiftBufferToLeft]
    omega
  unfold iterate at h
  split at h
  · rename_i hgo
    refine ⟨hgo.1, ?_⟩
    rcases readToFreeBuffer_spec (f := f) hshift with ⟨errno, he⟩ | ⟨r, hr, hfill⟩
    · simp only [he, bind, Except.bind] at h
      cases h
    · obtain ⟨hout, hret⟩ := readToFreeBuffer_same hr
      simp only [hr, bind, Except.bind] at h
      split at h
      · rename_i t ht
        cases h
        obtain ⟨n, hu, -⟩ := hfill.content
        refine ⟨r, hfill.fits, hfill.state, hfill.addr, hfill.front, hfill.tail, hout, hret, ?_, ht⟩
        rw [hu]
        exact fun h => hgo.2 (List.append_eq_nil_iff.mp h).1
      · cases h
  · cases h

theorem adwance_passed {n : Nat} (h : p.adwance n = .ok q) :
    q = { p with
      usedBuffer := p.usedBuffer.drop n, unusedFrontBuffer := p.unusedFrontBuffer + n } := by
  unfold adwance at h
  split at h
  · cases h
    rfl
  · cases h

theorem take_tail (n : Nat) : p.tail = p.usedBuffer.take n ++ (p.usedBuffer.drop n ++ p.input) := by
  rw [tail, ← List.append_assoc, List.take_append_drop]

theorem skipLine_passed (hp : Fits p) (hfront : p.unusedFrontBuffer = 0)
    (hs : p.state = .skippingLine) (h : p.skipLine = .ok q) : ∃ line, p.tail = line ++ q.tail ∧
      q.out = p.out ∧ q.returned = p.returned ∧
      (q.state = .skippingLine ∨ q.state = .atIp ∧ ∃ text, line = text ++ [newline]) := by
  by_cases hn : newline ∈ p.usedBuffer
  · have hlt : p.usedBuffer.findIdx (· = newline) < p.usedBuffer.length :=
      List.findIdx_lt_length_of_exists ⟨newline, hn, by simp⟩
    have hnew : p.usedBuffer[p.usedBuffer.findIdx (· = newline)] = newline := by
      simpa using List.findIdx_getElem (w := hlt)
    have hshort : p.usedBuffer.length ≤ bufferSize := by
      unfold Fits at hp
      omega
    rw [skipLine_inside hfront hlt hshort] at h
    cases h
    refine ⟨_, take_tail _, rfl, rfl,
      .inr ⟨rfl, p.usedBuffer.take (p.usedBuffer.findIdx (· = newline)), ?_⟩⟩
    refine (List.take_succ_eq_append_getElem hlt).trans ?_
    rw [hnew]
  · rw [skipLine_missing hfront hn] at h
    rw [adwance_passed h]
    exact ⟨_, take_tail _, rfl, rfl, .inl hs⟩

theorem token_tail (p : HostsFileParser IP) :
    p.tail = p.usedBuffer.takeWhile isBlank ++ token p.usedBuffer ++ p.passToken.tail := by
  simp only [tail, passToken]
  rw [← List.append_assoc, ← split_token]

theorem atIp_collected {passed : Text} (hstart : Terminated passed) (h : p.atIp f = .ok q) :
    ∃ word, p.tail = word ++ q.tail ∧ q.out = p.out ∧ q.returned = p.returned ∧
      Stood f q (passed ++ word) := by
  rw [atIp_eq] at h
  have hpass := token_tail p
  split at h
  · cases h
    exact ⟨_, hpass, rfl, rfl, trivial⟩
  · rename_i c rest hafter
    split at h
    · cases h
      exact ⟨_, hpass, rfl, rfl, trivial⟩
    · cases h
      refine ⟨_, hpass, rfl, rfl, ?_⟩
      cases haddr : f.parse (token p.usedBuffer) with
      | none => exact trivial
      | some addr =>
        refine ⟨addr, rfl, ⟨passed, p.usedBuffer.takeWhile isBlank, token p.usedBuffer, [], ?_,
          hstart, ?_, fun _ => mem_token, haddr, ?_, ?_⟩,
          c, rest ++ p.input, ?_, isStop_of_after hafter⟩
        · rw [List.append_nil, List.append_assoc]
        · exact fun b hb => List.mem_takeWhile_imp hb
        · rintro b ⟨⟩
        · exact fun b hb => absurd hb List.not_mem_nil
        · show after p.usedBuffer ++ p.input = _
          rw [hafter]
          rfl

theorem BehindAddress.append {parse : Text → Option IP} {passed text : Text} {addr : IP}
    (h : BehindAddress parse passed addr) (hhead : ∀ c ∈ text.head?, isStop c)
    (ht : ∀ c ∈ text, c ≠ newline ∧ c ≠ hash) : BehindAddress parse (passed ++ text) addr := by
  obtain ⟨lines, blanks, first, rest, rfl, hlines, hblanks, hfirst, haddr, hbehind, hrest⟩ := h
  refine ⟨lines, blanks, first, rest ++ text, ?_, hlines, hblanks, hfirst, haddr, fun c hc => ?_,
    fun c hc => ?_⟩
  · simp only [List.append_assoc]
  · cases rest with
    | nil => exact hhead c hc
    | cons b rest => exact hbehind c hc
  · exact (List.mem_append.mp hc).elim (hrest c) (ht c)

theorem isStop_of_isBlank {c : Byte} (h : isBlank c) : isStop c := by
  simp only [isBlank, isStop, decide_eq_true_eq] at h ⊢
  exact h.elim .inl fun h => .inr (.inl h)

theorem head_behind_stop {x rest : Text} {c : Byte} (h : x = c :: rest) (hc : isStop c) :
    ∀ b ∈ (x.takeWhile isBlank ++ token x).head?, isStop b := by
  rcases hx : x.takeWhile isBlank with _ | ⟨b, bs⟩
  · rw [(token_behind_stop h hc).resolve_left (not_not.mpr hx)]
    rintro b ⟨⟩
  · have hb : isBlank b := List.mem_takeWhile_imp (hx ▸ List.mem_cons_self)
    rintro _ ⟨⟩
    exact isStop_of_isBlank hb

theorem inside_line {x : Text} : ∀ c ∈ x.takeWhile isBlank ++ token x, c ≠ newline ∧ c ≠ hash := by
  intro c hc
  rcases List.mem_append.mp hc with hc | hc
  · have hb := List.mem_takeWhile_imp hc
    constructor
    · rintro rfl
      exact absurd hb (by decide)
    · rintro rfl
      exact absurd hb (by decide)
  · have hs := mem_token hc
    constructor
    · rintro rfl
      exact absurd rfl hs
    · rintro rfl
      exact absurd rfl hs

theorem Reported.word {content passed x more rest : Text} {addr : IP} {addrs : List IP} {b c : Byte}
    {ends : List Nat} (h : Reported f content passed.length ends addrs)
    (hc : content = passed ++ (x.takeWhile isBlank ++ token x) ++ b :: rest)
    (hbehind : BehindAddress f.parse passed addr) (hx : x = c :: more) (hstop : isStop c)
    (hb : isStop b) (hhash : b ≠ hash) : ∃ ends',
      Reported f content (passed ++ (x.takeWhile isBlank ++ token x)).length ends'
        (addrs ++ found f addr (token x)) := by
  have hlong : passed.length ≤ (passed ++ (x.takeWhile isBlank ++ token x)).length := by
    rw [List.length_append]
    exact Nat.le_add_right _ _
  rw [found]
  split
  · rename_i hname
    refine ⟨_, h.concat ⟨passed, x.takeWhile isBlank, token x, b, rest, ?_, ?_, hbehind, ?_,
      token_behind_stop hx hstop, fun _ => mem_token, hname, hb, hhash⟩ hlong fun hne => ?_⟩
    · simpa only [List.append_assoc] using hc
    · rw [List.append_assoc]
    · exact fun b hb => List.mem_takeWhile_imp hb
    · have hword : token x ≠ [] := by
        intro hnil
        rw [hnil] at hname
        exact hne (List.map_eq_nil_iff.mp hname.symm)
      have := List.length_pos_iff.mpr hword
      simp only [List.length_append]
      omega
  · rw [List.append_nil]
    exact ⟨ends, h.mono hlong⟩

theorem atName_collected {content passed rest : Text} {addr : IP} {c : Byte} {ends : List Nat}
    (hc : content = passed ++ p.tail) (hout : p.out ≠ 0) (hs : p.state = .atName)
    (haddr : p.addr = some addr) (hbehind : BehindAddress f.parse passed addr)
    (hused : p.usedBuffer ≠ []) (htail : p.tail = c :: rest) (hstop : isStop c)
    (hrep : Reported f content passed.length ends p.returned) (h : p.atName f = .ok q) :
    ∃ word ends', p.tail = word ++ q.tail ∧
      q.out + q.returned.length = p.out + p.returned.length ∧ Stood f q (passed ++ word) ∧
      Reported f content (passed ++ word).length ends' q.returned := by
  rw [atName_eq haddr] at h
  have hpass := token_tail p
  have hlong : passed.length ≤
      (passed ++ (p.usedBuffer.takeWhile isBlank ++ token p.usedBuffer)).length := by
    rw [List.length_append]
    exact Nat.le_add_right _ _
  split at h
  · cases h
    exact ⟨_, ends, hpass, rfl, trivial, hrep.mono hlong⟩
  · rename_i b back hafter
    split at h
    · cases h
      exact ⟨_, ends, hpass, rfl, trivial, hrep.mono hlong⟩
    · rename_i hhash
      have hleft : p.passToken.tail = b :: (back ++ p.input) := by
        show after p.usedBuffer ++ p.input = _
        rw [hafter]
        rfl
      have hcontent := hc
      rw [hpass, hleft, ← List.append_assoc] at hcontent
      obtain ⟨d, more, hd⟩ := List.exists_cons_of_ne_nil hused
      obtain rfl : d = c := by
        rw [tail, hd] at htail
        exact (List.cons.inj htail).1
      obtain ⟨ends', hends⟩ := hrep.word hcontent hbehind hd hstop (isStop_of_after hafter) hhash
      cases h
      refine ⟨_, ends', hpass, ?_, ?_, hends⟩
      · have hle : (found f addr (token p.usedBuffer)).length ≤ p.out :=
          by
          rw [found]
          split
          · exact Nat.one_le_iff_ne_zero.mpr hout
          · exact Nat.zero_le _
        simp only [List.length_append]
        omega
      · by_cases hline : b = newline
        · simp only [if_pos hline]
          exact trivial
        · simp only [if_neg hline, hs]
          exact ⟨addr, haddr, hbehind.append (head_behind_stop hd hstop) inside_line, b,
            back ++ p.input, hleft, isStop_of_after hafter⟩

theorem opened_collected {content : Text} {out : Nat} (h : opened f content out = .ok p) :
    Collected f content out p := by
  obtain ⟨hfits, hready, htail⟩ := opened_ok h
  obtain ⟨hout, hret⟩ := readToFreeBuffer_same h
  rcases opened_spec f content out with ⟨errno, he⟩ | ⟨q, hq, hf⟩
  · rw [he] at h
    cases h
  · obtain rfl : q = p := by simpa [hq] using h
    refine ⟨hfits, hready, ?_, [], [], htail.symm, ?_, ?_⟩
    · rw [hout, hret]
      rfl
    · rw [Stood, hf.state]
      exact .inl rfl
    · rw [hret]
      exact ⟨.nil, .nil, fun _ => .nil, fun _ he => absurd he List.not_mem_nil⟩

theorem iterate_collected {content : Text} {out : Nat} (h : Collected f content out p)
    (hq : iterate f p = .more q) : Collected f content out q := by
  have hmoved := (iterate_spec (f := f) h.fits h.ready).1 q hq
  obtain ⟨hout, r, hfits, hstate, haddr, hfront, htail, hrout, hret, hused, hd⟩ :=
    iterate_more h.fits hq
  obtain ⟨passed, ends, hc, hstood, hrep⟩ := h.reported
  have hroom := h.room
  rw [← htail] at hc
  rw [← hret] at hrep hroom
  rw [← hrout] at hroom hout
  rw [Stood, ← hstate, ← haddr, ← htail] at hstood
  unfold dispatch at hd
  cases hs : r.state with
  | atIp =>
    rw [hs] at hd hstood
    obtain ⟨word, hword, hqout, hqret, hqstood⟩ := atIp_collected hstood hd
    refine ⟨hmoved.fits, hmoved.ready, ?_, passed ++ word, ends, ?_, hqstood, ?_⟩
    · rwa [hqout, hqret]
    · rw [hc, hword, List.append_assoc]
    · rw [hqret]
      exact hrep.mono (List.length_append ▸ Nat.le_add_right _ _)
  | atName =>
    rw [hs] at hd hstood
    obtain ⟨addr, ha, hbehind, c, rest, ht, hstop⟩ := hstood
    obtain ⟨word, ends', hword, hlen, hqstood, hqrep⟩ :=
      atName_collected hc hout hs ha hbehind hused ht hstop hrep hd
    refine ⟨hmoved.fits, hmoved.ready, hlen.trans hroom, passed ++ word, ends', ?_, hqstood, hqrep⟩
    rw [hc, hword, List.append_assoc]
  | skippingLine =>
    rw [hs] at hd
    obtain ⟨line, hline, hqout, hqret, hqs⟩ := skipLine_passed hfits hfront hs hd
    refine ⟨hmoved.fits, hmoved.ready, ?_, passed ++ line, ends, ?_, ?_, ?_⟩
    · rwa [hqout, hqret]
    · rw [hc, hline, List.append_assoc]
    · rcases hqs with hqs | ⟨hqs, text, rfl⟩
      · rw [Stood, hqs]
        exact trivial
      · rw [Stood, hqs]
        refine .inr ?_
        rw [← List.append_assoc, List.getLast?_concat]
    · rw [hqret]
      exact hrep.mono (List.length_append ▸ Nat.le_add_right _ _)

theorem iterate_done {addrs : List IP} (h : iterate f p = .done (.ok addrs)) :
    addrs = p.returned := by
  unfold iterate at h
  split at h
  · split at h <;> cases h
  · cases h
    rfl

theorem pull_lists {content : Text} {out : Nat} {addrs : List IP}
    (h : opened f content out = .ok p) (hy : Yields (iterate f) p (.ok addrs)) :
    addrs.length ≤ out ∧ ∃ ends, List.Forall₂ (Lists f content) ends addrs ∧
      ends.Pairwise (· ≤ ·) ∧ (f.name ≠ [] → ends.Pairwise (· < ·)) := by
  obtain ⟨q, hq, hd⟩ := yields_iff_reaches.mp hy
  obtain ⟨-, -, hroom, passed, ends, -, -, hrep⟩ := reaches_invariant
    (I := Collected f content out) (fun _ _ => iterate_collected) (opened_collected h) hq
  rw [iterate_done hd]
  exact ⟨Nat.le.intro (Nat.add_comm _ _ ▸ hroom), ends, hrep.lists, hrep.ordered, hrep.once⟩

def twice : Text := plainLine.text ++ [32, 70, 79, 79, newline]

def cutRead : HostsFile Ipv4Addr :=
  { HostsFile.whole Ipv4Addr.parse foo.1 foo.2.2 with
    reads := fun n => if n = 0 then .interrupted 11 else .complete }

theorem cutRead_yields : ∃ p, opened cutRead twice 3 = .ok p ∧
    Yields (iterate cutRead) p (.ok (List.replicate 2 #v[1, 2, 3, 4])) :=
  ⟨_, rfl, 5, by decide +kernel⟩

theorem pull_lists_twice : ∃ ends, List.Forall₂ (Lists cutRead twice) ends
    (List.replicate 2 #v[1, 2, 3, 4]) ∧ ends.Pairwise (· < ·) := by
  obtain ⟨p, hp, hy⟩ := cutRead_yields
  obtain ⟨-, ends, hlists, -, honce⟩ := pull_lists hp hy
  exact ⟨ends, hlists, honce foo.2.1⟩

end HostsFileParser

end Corosig.Dns
