import Corosig.Io.Dns.HostsReference

namespace Corosig.Dns
open Loop Delimited

variable {IP : Type}

def LineStop.drops : LineStop IP → Prop
  | .atEnd last => last ≠ []
  | .skipping _ => True
  | .window => False
  | .nul _ => False

def isSpecial (c : Byte) : Bool := c = hash ∨ c = 0

-- What an unterminated last line needs its newline for: a '#' that comes before any NUL character,
-- a first token that is followed by something and is no address, or a last token that is the name.
def Unfinished (parse : Text → Option IP) (asciiName x : Text) : Prop :=
  match x.find? isSpecial with
  | some c => c = hash ∨ parse (token x) = none
  | none => after x ≠ [] ∧
      (parse (token x) = none ∨ lowercase (x.rtakeWhile isWord) = lowercase asciiName)

theorem rtakeWhile_append_cons {p : Byte → Bool} {c : Byte} (hc : ¬p c) (a y : Text) :
    (a ++ c :: y).rtakeWhile p = (c :: y).rtakeWhile p := by
  induction y using List.reverseRecOn with
  | nil =>
    rw [List.rtakeWhile_concat_neg p a c hc]
    exact (List.rtakeWhile_concat_neg p [] c hc).symm
  | append_singleton y d ih =>
    rw [← List.cons_append, ← List.append_assoc]
    by_cases hd : p d
    · rw [List.rtakeWhile_concat_pos p _ d hd, List.rtakeWhile_concat_pos p _ d hd, ih]
    · rw [List.rtakeWhile_concat_neg p _ d hd, List.rtakeWhile_concat_neg p _ d hd]

theorem rtakeWhile_word {p : Byte → Bool} {a b : Text} (ha : ∀ c ∈ a, ¬p c) (hb : ∀ c ∈ b, p c) :
    (a ++ b).rtakeWhile p = b := by
  have hsplit := List.rdropWhile_append_rtakeWhile (p := p) (l := a ++ b)
  rw [rdropWhile_word ha hb] at hsplit
  exact List.append_cancel_left hsplit

section Drops

variable {f : HostsFile IP} {addr : IP} {x rest : Text} {c : Byte}

theorem find?_lead (x y : Text) :
    (x.takeWhile isBlank ++ token x ++ y).find? isSpecial = y.find? isSpecial := by
  rw [List.find?_append, List.find?_eq_none.mpr, Option.none_or]
  intro c hc
  rcases List.mem_append.mp hc with hblank | htoken
  · have := blank_of_takeWhile c hblank
    simp only [isBlank, isSpecial, decide_eq_true_eq] at this ⊢
    rcases this with rfl | rfl
    · decide
    · decide
  · have := token_word c htoken
    simp only [isStop, isSpecial, decide_eq_true_eq, not_or] at this ⊢
    exact ⟨this.2.2.1, this.2.2.2.2⟩

theorem find?_nul (rest : Text) : (0 :: rest : Text).find? isSpecial = some 0 := rfl

theorem nul_ne_hash : (0 : Byte) ≠ hash := by decide

theorem find?_after (x : Text) : x.find? isSpecial = (after x).find? isSpecial := by
  conv_lhs => rw [blanks_append_token x, ← List.append_assoc]
  exact find?_lead x (after x)

theorem rtakeWhile_end (h : after x = []) : x.rtakeWhile isWord = token x := by
  conv_lhs => rw [blanks_append_token x, h, List.append_nil]
  refine rtakeWhile_word (fun c hc => ?_) fun c => isWord_of_token
  rw [isWord, blank_of_takeWhile c hc]
  exact Bool.false_ne_true

theorem rtakeWhile_blank (h : after x = c :: rest) (hc : isBlank c) :
    x.rtakeWhile isWord = (c :: rest).rtakeWhile isWord := by
  have hword : ¬isWord c := by
    rw [isWord, hc]
    exact Bool.false_ne_true
  conv_lhs => rw [blanks_append_token x, h, ← List.append_assoc]
  exact rtakeWhile_append_cons hword _ rest

theorem blank_or_special (hline : newline ∉ x) (h : after x = c :: rest) :
    isBlank c ∨ c = hash ∨ c = 0 := by
  have hc : c ∈ x := (after_suffix x).subset (h ▸ List.mem_cons_self)
  rcases after_cases h with hblank | hhash | rfl | hnul
  · exact .inl hblank
  · exact .inr (.inl hhash)
  · exact absurd hc hline
  · exact .inr (.inr hnul)

theorem found_ne_nil {text : Text} :
    found f addr text ≠ [] ↔ lowercase text = lowercase f.name := by
  rw [found]
  split <;> simp_all

theorem nameRun_drops (hline : newline ∉ x) (hlen : x.length < bufferSize) :
    (nameRun f addr x).stop.drops ↔ match x.find? isSpecial with
      | some c => c = hash
      | none => lowercase (x.rtakeWhile isWord) = lowercase f.name := by
  induction hn : x.length using Nat.strongRecOn generalizing x with
  | ind n ih =>
    subst hn
    have hlead := (lead_le x).trans_lt hlen
    rw [find?_after]
    cases hafter : after x with
    | nil =>
      rw [nameRun_end hlead hafter, rtakeWhile_end hafter]
      exact found_ne_nil
    | cons c rest =>
      have hsub : c :: rest <:+ x := hafter ▸ after_suffix x
      rw [nameRun_cons hlead hafter]
      rcases blank_or_special hline hafter with hblank | rfl | rfl
      · have hhash : c ≠ hash := by
          rintro rfl
          exact absurd hblank (by decide)
        have hrest := ih _ (length_after_lt hafter hblank) (fun h => hline (hsub.subset h))
          (hsub.length_le.trans_lt hlen) rfl
        rw [if_neg hhash, if_pos hblank, rtakeWhile_blank hafter hblank]
        exact hrest
      · rw [if_pos rfl]
        exact iff_of_true trivial rfl
      · rw [if_neg (by decide), if_neg (by decide), find?_nul]
        exact iff_of_false id nul_ne_hash

theorem lineRun_drops (hline : newline ∉ x) (hlen : x.length < bufferSize) :
    (lineRun f x).stop.drops ↔ Unfinished f.parse f.name x := by
  have hlead := (lead_le x).trans_lt hlen
  rw [lineRun, if_neg (Nat.not_le.mpr hlead), Unfinished, find?_after]
  cases hafter : after x with
  | nil => exact iff_of_false (· rfl) (·.1 rfl)
  | cons c rest =>
    have hsub : c :: rest <:+ x := hafter ▸ after_suffix x
    have hnames : ∀ addr, (nameRun f addr (c :: rest)).stop.drops ↔ _ := fun _ =>
      nameRun_drops (fun h => hline (hsub.subset h)) (hsub.length_le.trans_lt hlen)
    have hne : c :: rest ≠ [] := List.cons_ne_nil _ _
    dsimp only
    rcases blank_or_special hline hafter with hblank | rfl | rfl
    · rw [Scan.entry_blank hblank]
      cases f.parse (token x) with
      | none =>
        refine iff_of_true trivial ?_
        split
        · exact .inr rfl
        · exact ⟨hne, .inl rfl⟩
      | some addr =>
        dsimp only
        rw [hnames, rtakeWhile_blank hafter hblank]
        split
        · simp
        · simp
    · rw [Scan.entry, if_pos (.inl rfl)]
      exact iff_of_true trivial (.inl rfl)
    · rw [Scan.entry, if_neg (by decide)]
      cases f.parse (token x) with
      | none => exact iff_of_true trivial (.inr rfl)
      | some addr =>
        dsimp only
        rw [hnames, find?_nul]
        exact iff_of_false nul_ne_hash (not_or.mpr ⟨nul_ne_hash, Option.some_ne_none _⟩)

end Drops

section Ending

variable {f : HostsFile IP} {s : Scan IP} {r : Except Stop (List IP)} {line : Line}

theorem yields_nothing (out : Nat) (returned : List IP) (place : Place IP) :
    Yields (Scan.step f) ⟨[], place, out, returned⟩ r ↔ r = .ok returned :=
  yields_done (Scan.step_done (.inr rfl))

theorem yields_eof {v : Text} (hv : newline ∉ v) (hne : v ≠ []) (hlen : v.length < bufferSize)
    (hout : s.out ≠ 0) :
    Yields (Scan.step f) { s with rest := v, place := .skippingLine } r ↔ r = .error .fault :=
  yields_done (Scan.step_overrun (not_or.mpr ⟨hout, hne⟩) rfl (Scan.findIdx_newline hv) hlen)

theorem yields_newline {v : Text} (hv : newline ∉ v) :
    Yields (Scan.step f) { s with rest := v ++ [newline], place := .skippingLine } r ↔
      r = .ok s.returned := by
  refine (Scan.yields_skip hv [] s.out s.returned).trans ?_
  rw [yields_nothing, ite_self]

theorem ending_newline_iff (hlen : line.1.length < bufferSize) (s : Scan IP) :
    (∀ r, Scan.Ending f [] s r (lineRun f line.1).stop ↔
      Scan.Ending f [newline] s r (lineRun f line.1).stop) ↔
        ((lineRun f line.1).stop.drops → s.out = 0) := by
  cases hstop : (lineRun f line.1).stop with
  | atEnd last =>
    have hskip := fun r => yields_newline (f := f) (s := s.collect last) (r := r) List.not_mem_nil
    simp only [Scan.Ending, if_true, if_neg (List.cons_ne_nil newline [])]
    refine (forall_congr' fun r => iff_congr Iff.rfl (hskip r)).trans ?_
    rw [LineStop.drops, Scan.collect]
    constructor
    · intro h hlast
      have htake := List.self_eq_append_right.mp (Except.ok.inj ((h _).mp rfl))
      exact (List.take_eq_nil_iff.mp htake).resolve_right hlast
    · intro h r
      by_cases hlast : last = []
      · rw [hlast, List.take_nil, List.append_nil]
      · rw [h hlast, List.take_zero, List.append_nil]
  | skipping v =>
    obtain ⟨hne, hsuffix⟩ := lineRun_suffix hstop
    have hv : newline ∉ v := fun h => line.2 (hsuffix.subset h)
    have hskip := fun r => yields_newline (f := f) (s := s) (r := r) hv
    simp only [Scan.Ending, List.append_nil]
    refine (forall_congr' fun r => iff_congr Iff.rfl (hskip r)).trans ?_
    rw [LineStop.drops, true_imp_iff]
    constructor
    · intro h
      by_contra hout
      have hfault := (yields_eof hv hne (hsuffix.length_le.trans_lt hlen) hout).mp ((h _).mpr rfl)
      cases hfault
    · intro hout r
      exact Scan.yields_full hout
  | window => exact iff_of_true (fun _ => Iff.rfl) False.elim
  | nul addr => exact iff_of_true (fun _ => Iff.rfl) False.elim

theorem ending_rest (tl v : Text) (s : Scan IP) (stop : LineStop IP) :
    Scan.Ending f tl { s with rest := v } r stop ↔ Scan.Ending f tl s r stop := by
  cases stop with
  | atEnd last | skipping w | window | nul addr => rfl

theorem yields_newline_iff (hlen : line.1.length < bufferSize) (out : Nat) (returned : List IP) :
    (∀ r, Yields (Scan.step f) ⟨line.1, .atIp, out, returned⟩ r ↔
      Yields (Scan.step f) ⟨line.1 ++ [newline], .atIp, out, returned⟩ r) ↔
        (Unfinished f.parse f.name line.1 → out ≤ (lineRun f line.1).reported.length) := by
  have heof := fun r => Scan.yields_lineRun (f := f) (r := r) line.2 (.inl rfl) out returned
  have hnewline := fun r => Scan.yields_lineRun (f := f) (r := r) line.2
    (.inr ⟨[], rfl⟩) out returned
  simp only [List.append_nil] at heof
  have hsame := ending_newline_iff (f := f) hlen
    (Scan.collect ⟨line.1, .atIp, out, returned⟩ (lineRun f line.1).reported)
  rw [lineRun_drops line.2 hlen, Scan.collect, Nat.sub_eq_zero_iff_le] at hsame
  refine (forall_congr' fun r => iff_congr (heof r) ((hnewline r).trans ?_)).trans hsame
  exact ending_rest [newline] (line.1 ++ [newline])
    (Scan.collect ⟨line.1, .atIp, out, returned⟩ (lineRun f line.1).reported) _

end Ending

abbrev LastLine := { line : Line // line.1.length ≤ 510 }

theorem pulls_newline_iff (parse : Text → Option IP) (lines : List Line) (last : LastLine)
    (asciiName : Text) (out : Nat) :
    (∀ r, Pulls parse (fileText lines ++ last.1.1) asciiName out r ↔
      Pulls parse (fileText lines ++ last.1.1 ++ [newline]) asciiName out r) ↔
        (Unfinished parse asciiName last.1.1 → ∀ h : asciiName.length ≤ fqdnMaxOctetLen,
          (∃ line ∈ lines, ¬Passes (.whole parse asciiName h) line) ∨
            out ≤ (lines.flatMap (reports (.whole parse asciiName h))).length +
              (lineRun (.whole parse asciiName h) last.1.1).reported.length) := by
  by_cases h : asciiName.length ≤ fqdnMaxOctetLen
  · have hlen : last.1.1.length < bufferSize := Nat.lt_succ_of_le last.2
    simp only [pulls_iff h, List.append_assoc, yields_lines]
    by_cases hpasses : ∀ line ∈ lines, Passes (.whole parse asciiName h) line
    · simp only [through_all hpasses]
      refine (yields_newline_iff hlen _ _).trans (forall_congr' fun _ => ?_)
      have hpasses : ¬∃ line ∈ lines, ¬Passes (.whole parse asciiName h) line := by
        simpa using hpasses
      simp only [h, forall_true_left, or_iff_right hpasses, Nat.sub_le_iff_le_add']
    · refine iff_of_true (fun r => through_some hpasses out []) fun _ _ => .inl ?_
      simpa using hpasses
  · simp only [pulls_long h, h, IsEmpty.forall_iff, implies_true]

theorem plainLine_run : lineRun (.whole Ipv4Addr.parse foo.1 foo.2.2) plainLine.text =
    { stop := .atEnd [#v[1, 2, 3, 4]] } := by
  have hafter : after plainLine.text = [32, 102, 111, 111] := by decide
  have hentry : Scan.entry (.whole Ipv4Addr.parse foo.1 foo.2.2) 32 (token plainLine.text) =
      some #v[1, 2, 3, 4] := by decide
  rw [lineRun, if_neg (by decide), hafter]
  dsimp only
  rw [hentry]
  exact nameRun_end (by decide) (by decide)

theorem plainLine_unfinished : Unfinished Ipv4Addr.parse foo.1 plainLine.text := by
  have hfind : plainLine.text.find? isSpecial = none := by decide
  rw [Unfinished, hfind]
  exact ⟨by decide, .inr (by decide)⟩

theorem pulls_unterminated : ¬∀ r,
    Pulls Ipv4Addr.parse (fileText [] ++ plainLine.text) foo.1 1 r ↔
      Pulls Ipv4Addr.parse (fileText [] ++ plainLine.text ++ [newline]) foo.1 1 r := by
  intro h
  simp only [pulls_iff foo.2.2] at h
  have hshort : plainLine.1.1.length < bufferSize := by decide
  have hreported := (yields_newline_iff hshort 1 []).mp h plainLine_unfinished
  rw [← PlainLine.text, plainLine_run] at hreported
  revert hreported
  decide

end Corosig.Dns
