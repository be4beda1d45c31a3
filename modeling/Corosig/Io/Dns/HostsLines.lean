import Corosig.Io.Dns.HostsScan

namespace Corosig.Dns
open Loop Delimited

-- Where the parser leaves a line: at its end, which adds what its last token stands for if a
-- newline follows; with the rest of it to be skipped; with its window used up; at a NUL character.
inductive LineStop (IP : Type) where
  | atEnd (last : List IP)
  | skipping (v : Text)
  | window
  | nul (addr : IP)
  deriving DecidableEq, Repr

structure LineRun (IP : Type) where
  reported : List IP := []
  stop : LineStop IP
  deriving DecidableEq, Repr

variable {IP : Type}

theorem lead_pos {x rest : Text} {c : Byte} (h : after x = c :: rest) (hc : isBlank c) :
    0 < lead x := by
  refine Nat.pos_of_ne_zero fun hzero => ?_
  have hx : x = c :: rest := by
    rw [← h, ← drop_lead, hzero, List.drop_zero]
  rw [lead, hx, List.takeWhile_cons_of_pos hc, List.length_cons] at hzero
  omega

theorem length_after_lt {x rest : Text} {c : Byte} (h : after x = c :: rest) (hc : isBlank c) :
    (c :: rest).length < x.length := by
  have hpos := lead_pos h hc
  have hlen := lead_add_after x
  rw [h] at hlen
  omega

def nameRun (f : HostsFile IP) (addr : IP) (x : Text) : LineRun IP :=
  if bufferSize ≤ lead x then { stop := .window }
  else
    match h : after x with
    | [] => { stop := .atEnd (found f addr (token x)) }
    | c :: rest =>
        if c = hash then { stop := .skipping (c :: rest) }
        else if hc : isBlank c then
          have := length_after_lt h hc
          let run := nameRun f addr (c :: rest)
          { run with reported := found f addr (token x) ++ run.reported }
        else { reported := found f addr (token x), stop := .nul addr }
termination_by x.length

def lineRun (f : HostsFile IP) (x : Text) : LineRun IP :=
  if bufferSize ≤ lead x then { stop := .window }
  else
    match after x with
    | [] => { stop := .atEnd [] }
    | c :: rest =>
        match Scan.entry f c (token x) with
        | some addr => nameRun f addr (c :: rest)
        | none => { stop := .skipping (c :: rest) }

section NameRun

variable {f : HostsFile IP} {addr : IP} {x rest : Text} {c : Byte}

theorem nameRun_window (h : bufferSize ≤ lead x) : nameRun f addr x = { stop := .window } := by
  rw [nameRun, if_pos h]

theorem nameRun_end (hlead : lead x < bufferSize) (h : after x = []) :
    nameRun f addr x = { stop := .atEnd (found f addr (token x)) } := by
  rw [nameRun, if_neg (Nat.not_le.mpr hlead)]
  split
  · rfl
  · rename_i hafter
    cases h.symm.trans hafter

theorem nameRun_cons (hlead : lead x < bufferSize) (h : after x = c :: rest) :
    nameRun f addr x =
      if c = hash then { stop := .skipping (c :: rest) }
      else if isBlank c then
        { reported := found f addr (token x) ++ (nameRun f addr (c :: rest)).reported
          stop := (nameRun f addr (c :: rest)).stop }
      else { reported := found f addr (token x), stop := .nul addr } := by
  rw [nameRun, if_neg (Nat.not_le.mpr hlead)]
  split
  · rename_i hafter
    cases h.symm.trans hafter
  · rename_i hafter
    cases h.symm.trans hafter
    rfl

end NameRun

def LineEnd (tl : Text) : Prop := tl = [] ∨ ∃ rest, tl = newline :: rest

theorem LineEnd.append {tl : Text} (h : LineEnd tl) (x : Text) :
    token (x ++ tl) = token x ∧ after (x ++ tl) = after x ++ tl ∧ lead (x ++ tl) = lead x := by
  have hblank : Stops isBlank tl := by
    obtain rfl | ⟨rest, rfl⟩ := h
    · exact stops_nil _
    · exact stops_cons (by decide) rest
  have hstop : Stops (fun c => !isStop c) tl := by
    obtain rfl | ⟨rest, rfl⟩ := h
    · exact stops_nil _
    · exact stops_cons (by decide) rest
  have htoken : token (x ++ tl) = token x := by
    rw [token, dropWhile_append hblank, takeWhile_append hstop, token]
  refine ⟨htoken, ?_, ?_⟩
  · rw [after, dropWhile_append hblank, dropWhile_append hstop, after]
  · rw [lead, htoken, takeWhile_append hblank, lead]

namespace Scan

variable {f : HostsFile IP} {s : Scan IP} {tl : Text} {r : Except Stop (List IP)}

theorem collect_nil (s : Scan IP) : s.collect [] = s := by
  rw [collect, List.length_nil, Nat.sub_zero, List.take_nil, List.append_nil]

theorem collect_append (s : Scan IP) (xs ys : List IP) :
    s.collect (xs ++ ys) = (s.collect xs).collect ys := by
  simp only [collect, List.length_append, List.take_append, List.append_assoc, Nat.sub_sub]

theorem yields_full (h : s.out = 0) : Yields (step f) s r ↔ r = .ok s.returned :=
  yields_done (step_done (.inl h))

theorem after_stop {c : Byte} (hc : isStop c) (hb : ¬isBlank c) (rest : Text) :
    lead (c :: rest) = 0 ∧ after (c :: rest) = c :: rest ∧ token (c :: rest) = [] := by
  have hstop : Stops (fun c => !isStop c) (c :: rest) := stops_cons (by simp [hc]) rest
  have htoken : token (c :: rest) = [] := by
    rw [token, List.dropWhile_cons_of_neg hb, hstop.takeWhile]
  refine ⟨?_, ?_, htoken⟩
  · rw [lead, htoken, List.takeWhile_cons_of_neg hb]
    rfl
  · rw [after, List.dropWhile_cons_of_neg hb, hstop.dropWhile]

theorem yields_nul (addr : IP) (rest : Text) (out : Nat) (returned : List IP) :
    Yields (step f) ⟨0 :: rest, .atName addr, out, returned⟩ r ↔
      r = .ok (returned ++ List.replicate out addr) ∧ (out = 0 ∨ f.name = []) := by
  obtain ⟨hlead, hafter, htoken⟩ := after_stop (c := 0) (by decide) (by decide) rest
  have hstep : ∀ out returned, out ≠ 0 →
      step f ⟨0 :: rest, .atName addr, out, returned⟩ =
        .more (collect ⟨0 :: rest, .atName addr, out, returned⟩ (found f addr [])) := by
    intro out returned hout
    have hgo : ¬(out = 0 ∨ (0 :: rest : Text) = []) := not_or.mpr ⟨hout, List.cons_ne_nil _ _⟩
    rw [step_name (s := ⟨0 :: rest, .atName addr, out, returned⟩) hgo rfl (by rw [hlead]; decide)
      hafter (by decide), htoken]
    rfl
  by_cases hname : f.name = []
  · have hfound : found f addr [] = [addr] := by
      rw [found, hname, if_pos rfl]
    simp only [hname, or_true, and_true]
    induction out generalizing returned with
    | zero =>
      rw [List.replicate_zero, List.append_nil]
      exact yields_full rfl
    | succ out ih =>
      rw [yields_more (hstep _ _ (Nat.succ_ne_zero out)), hfound, List.replicate_succ,
        List.append_cons, collect, List.take_succ_cons, List.take_nil]
      exact ih (returned ++ [addr])
  · have hfound : found f addr [] = [] := by
      rw [found, if_neg]
      intro heq
      exact hname (List.map_eq_nil_iff.mp heq.symm)
    simp only [hname, or_false]
    by_cases hout : out = 0
    · subst hout
      rw [List.replicate_zero, List.append_nil, and_iff_left rfl]
      exact yields_full rfl
    · refine iff_of_false (fun hy => ?_) fun h => hout h.2
      refine not_halts_of_forever (I := (· = ⟨0 :: rest, .atName addr, out, returned⟩)) ?_ rfl ⟨r, hy⟩
      rintro _ rfl
      refine ⟨_, hstep _ _ hout, ?_⟩
      rw [hfound, collect_nil]

def Ending (f : HostsFile IP) (tl : Text) (s : Scan IP) (r : Except Stop (List IP)) :
    LineStop IP → Prop
  | .atEnd last =>
      if tl = [] then r = .ok s.returned
      else Yields (step f) { s.collect last with rest := tl, place := .skippingLine } r
  | .skipping v => Yields (step f) { s with rest := v ++ tl, place := .skippingLine } r
  | .window => r = .ok s.returned
  | .nul addr => r = .ok (s.returned ++ List.replicate s.out addr) ∧ (s.out = 0 ∨ f.name = [])

theorem ending_full (h : s.out = 0) (stop : LineStop IP) :
    Ending f tl s r stop ↔ r = .ok s.returned := by
  cases stop with
  | atEnd last =>
    rw [Ending]
    split
    · rfl
    · refine (yields_full ?_).trans ?_
      · simp only [collect, h, Nat.zero_sub]
      · simp only [collect, h, List.take_zero, List.append_nil]
  | skipping v => exact yields_full h
  | window => rfl
  | nul addr => simp [Ending, h]

theorem yields_ending_full (h : s.out = 0) (reported : List IP) (stop : LineStop IP) :
    Yields (step f) s r ↔ Ending f tl (s.collect reported) r stop := by
  refine (yields_full h).trans ((ending_full ?_ stop).trans ?_).symm
  · rw [collect, h, Nat.zero_sub]
  · rw [collect, h, List.take_zero, List.append_nil]

theorem yields_nameRun (addr : IP) {x : Text} (hx : newline ∉ x) (htl : LineEnd tl) (out : Nat)
    (returned : List IP) :
    Yields (step f) ⟨x ++ tl, .atName addr, out, returned⟩ r ↔
      Ending f tl (collect ⟨x ++ tl, .atName addr, out, returned⟩ (nameRun f addr x).reported) r
        (nameRun f addr x).stop := by
  induction hn : x.length using Nat.strongRecOn generalizing x out returned with
  | ind n ih =>
    subst hn
    by_cases hout : out = 0
    · exact yields_ending_full hout _ _
    obtain ⟨htoken, hafter, hlead⟩ := htl.append x
    have hnot : (.atName addr : Place IP) ≠ .skippingLine := by
      rintro ⟨⟩
    by_cases hwindow : bufferSize ≤ lead x
    · rw [nameRun_window hwindow, collect_nil]
      exact yields_done (step_window hnot (.inl (hlead.ge.trans' hwindow)))
    have hwindow := Nat.not_le.mp hwindow
    cases hend : after x with
    | nil =>
      rw [hend, List.nil_append] at hafter
      rw [nameRun_end hwindow hend, collect_nil, Ending]
      split
      · rename_i hnil
        exact yields_done (step_window hnot (.inr (hafter.trans hnil)))
      · rename_i htail
        obtain ⟨rest, rfl⟩ := htl.resolve_left htail
        have hgo : ¬(out = 0 ∨ x ++ newline :: rest = []) :=
          not_or.mpr ⟨hout, List.append_ne_nil_of_right_ne_nil _ htail⟩
        rw [yields_more (step_name hgo rfl (hlead.trans_lt hwindow) hafter (by decide)), htoken,
          if_pos rfl]
        rfl
    | cons c rest =>
      rw [hend, List.cons_append] at hafter
      have hsub : c :: rest ⊆ x := hend ▸ (after_suffix x).subset
      have hc : c ∈ x := hsub List.mem_cons_self
      have hgo : ¬(out = 0 ∨ x ++ tl = []) := by
        refine not_or.mpr ⟨hout, List.append_ne_nil_of_left_ne_nil ?_ _⟩
        exact List.ne_nil_of_mem hc
      rw [nameRun_cons hwindow hend]
      by_cases hhash : c = hash
      · subst hhash
        rw [if_pos rfl, collect_nil,
          yields_more (step_hash hgo rfl (hlead.trans_lt hwindow) hafter)]
        rfl
      have hline : c ≠ newline := by
        rintro rfl
        exact hx hc
      rw [if_neg hhash, yields_more (step_name hgo rfl (hlead.trans_lt hwindow) hafter hhash),
        if_neg hline, htoken]
      by_cases hblank : isBlank c
      · rw [if_pos hblank]
        rw [collect_append]
        exact ih _ (length_after_lt hend hblank) (fun h => hx (hsub h)) _ _ rfl
      · rw [if_neg hblank]
        have hspecial := (after_cases hend).resolve_left hblank
        obtain rfl : c = 0 := (hspecial.resolve_left hhash).resolve_left hline
        exact yields_nul addr _ _ _

theorem yields_lineRun {x : Text} (hx : newline ∉ x) (htl : LineEnd tl) (out : Nat)
    (returned : List IP) :
    Yields (step f) ⟨x ++ tl, .atIp, out, returned⟩ r ↔
      Ending f tl (collect ⟨x ++ tl, .atIp, out, returned⟩ (lineRun f x).reported) r
        (lineRun f x).stop := by
  by_cases hout : out = 0
  · exact yields_ending_full hout _ _
  obtain ⟨htoken, hafter, hlead⟩ := htl.append x
  have hnot : (.atIp : Place IP) ≠ .skippingLine := by
    rintro ⟨⟩
  rw [lineRun]
  split
  · rename_i hwindow
    rw [collect_nil]
    exact yields_done (step_window hnot (.inl (hlead.ge.trans' hwindow)))
  rename_i hwindow
  have hwindow := hlead.trans_lt (Nat.not_le.mp hwindow)
  cases hend : after x with
  | nil =>
    rw [hend, List.nil_append] at hafter
    dsimp only
    rw [collect_nil, Ending]
    split
    · rename_i hnil
      exact yields_done (step_window hnot (.inr (hafter.trans hnil)))
    · rename_i htail
      obtain ⟨rest, rfl⟩ := htl.resolve_left htail
      have hgo : ¬(out = 0 ∨ x ++ newline :: rest = []) :=
        not_or.mpr ⟨hout, List.append_ne_nil_of_right_ne_nil _ htail⟩
      rw [yields_more (step_atIp hgo rfl hwindow hafter), entry, if_pos (.inr rfl), collect_nil]
      rfl
  | cons c rest =>
    rw [hend, List.cons_append] at hafter
    have hsub : c :: rest ⊆ x := hend ▸ (after_suffix x).subset
    have hgo : ¬(out = 0 ∨ x ++ tl = []) := by
      refine not_or.mpr ⟨hout, List.append_ne_nil_of_left_ne_nil ?_ _⟩
      exact List.ne_nil_of_mem (hsub List.mem_cons_self)
    rw [yields_more (step_atIp hgo rfl hwindow hafter), htoken]
    dsimp only
    cases entry f c (token x) with
    | some addr => exact yields_nameRun addr (fun h => hx (hsub h)) htl out returned
    | none =>
      rw [collect_nil]
      rfl

theorem findIdx_newline {v : Text} (hv : newline ∉ v) :
    v.findIdx (· = newline) = v.length :=
  List.findIdx_eq_length.mpr fun c hc => by simpa using ne_of_mem_of_not_mem hc hv

theorem yields_skip {v : Text} (hv : newline ∉ v) (rest : Text) (out : Nat) (returned : List IP) :
    Yields (step f) ⟨v ++ newline :: rest, .skippingLine, out, returned⟩ r ↔
      if v.length + 1 < bufferSize then Yields (step f) ⟨rest, .atIp, out, returned⟩ r
      else r = .ok returned := by
  have hidx : (v ++ newline :: rest).findIdx (· = newline) = v.length := by
    rw [List.findIdx_append, findIdx_newline hv, if_neg (Nat.lt_irrefl _), List.findIdx_cons]
    simp
  have hlen : v.length < (v ++ newline :: rest).length := by
    rw [List.length_append, List.length_cons]
    omega
  split
  · rename_i hwindow
    by_cases hout : out = 0
    · subst hout
      exact (yields_full rfl).trans (yields_full (s := ⟨rest, .atIp, 0, returned⟩) rfl).symm
    · have hgo : ¬(out = 0 ∨ v ++ newline :: rest = []) :=
        not_or.mpr ⟨hout, List.append_ne_nil_of_right_ne_nil _ (List.cons_ne_nil _ _)⟩
      rw [yields_more (step_skipped hgo rfl (hidx.trans_lt hlen) (by rw [hidx]; exact hwindow))]
      have hdrop : (v ++ newline :: rest).drop (v.length + 1) = rest := by
        rw [List.append_cons]
        exact List.drop_left' (by rw [List.length_append, List.length_singleton])
      simp only [hidx, hdrop]
  · rename_i hwindow
    refine yields_done (step_skip_window rfl ?_ ?_)
    · dsimp only
      omega
    · dsimp only
      omega

end Scan

def LineRun.passes (run : LineRun IP) : Bool :=
  match run.stop with
  | .atEnd _ => true
  | .skipping v => v.length + 1 < bufferSize
  | .window => false
  | .nul _ => false

def LineRun.reports (run : LineRun IP) : List IP :=
  match run.stop with
  | .atEnd last => run.reported ++ last
  | _ => run.reported

def LineRun.halts (f : HostsFile IP) (run : LineRun IP) (out : Nat) (returned : List IP)
    (r : Except Stop (List IP)) : Prop :=
  match run.stop with
  | .nul addr => r = .ok (returned ++ List.replicate out addr) ∧ (out = 0 ∨ f.name = [])
  | _ => r = .ok returned

abbrev Line := { x : Text // newline ∉ x }

def fileText (lines : List Line) : Text := lines.flatMap fun line => line.1 ++ [newline]

variable {f : HostsFile IP} {x tl : Text} {r : Except Stop (List IP)} {out : Nat}
  {returned : List IP} {line : Line} {lines : List Line}

theorem nameRun_suffix {addr : IP} {v : Text} (h : (nameRun f addr x).stop = .skipping v) :
    v ≠ [] ∧ v <:+ x := by
  induction hn : x.length using Nat.strongRecOn generalizing x with
  | ind n ih =>
    subst hn
    by_cases hwindow : bufferSize ≤ lead x
    · rw [nameRun_window hwindow] at h
      cases h
    have hwindow := Nat.not_le.mp hwindow
    cases hend : after x with
    | nil =>
      rw [nameRun_end hwindow hend] at h
      cases h
    | cons c rest =>
      have hsuffix : c :: rest <:+ x := hend ▸ after_suffix x
      rw [nameRun_cons hwindow hend] at h
      split at h
      · cases h
        exact ⟨List.cons_ne_nil _ _, hsuffix⟩
      · split at h
        · rename_i hblank
          obtain ⟨hne, hv⟩ := ih _ (length_after_lt hend hblank) h rfl
          exact ⟨hne, hv.trans hsuffix⟩
        · cases h

theorem lineRun_suffix {v : Text} (h : (lineRun f x).stop = .skipping v) :
    v ≠ [] ∧ v <:+ x := by
  rw [lineRun] at h
  split at h
  · cases h
  · cases hend : after x with
    | nil =>
      rw [hend] at h
      cases h
    | cons c rest =>
      have hsuffix : c :: rest <:+ x := hend ▸ after_suffix x
      rw [hend] at h
      dsimp only at h
      split at h
      · obtain ⟨hne, hv⟩ := nameRun_suffix h
        exact ⟨hne, hv.trans hsuffix⟩
      · cases h
        exact ⟨List.cons_ne_nil _ _, hsuffix⟩

theorem yields_line (line : Line) (rest : Text) (out : Nat) (returned : List IP) :
    Yields (Scan.step f) ⟨line.1 ++ newline :: rest, .atIp, out, returned⟩ r ↔
      if (lineRun f line.1).passes then
        Yields (Scan.step f) ⟨rest, .atIp, out - (lineRun f line.1).reports.length,
          returned ++ (lineRun f line.1).reports.take out⟩ r
      else (lineRun f line.1).halts f (out - (lineRun f line.1).reports.length)
        (returned ++ (lineRun f line.1).reports.take out) r := by
  have htl : LineEnd (newline :: rest) := .inr ⟨rest, rfl⟩
  rw [Scan.yields_lineRun line.2 htl, LineRun.passes, LineRun.reports, LineRun.halts]
  cases hstop : (lineRun f line.1).stop with
  | atEnd last =>
    have hskip := Scan.yields_skip (f := f) (r := r) (v := []) List.not_mem_nil rest
      (out - ((lineRun f line.1).reported ++ last).length)
      (returned ++ ((lineRun f line.1).reported ++ last).take out)
    rw [Scan.Ending, if_neg (List.cons_ne_nil _ _), ← Scan.collect_append]
    exact hskip
  | skipping v =>
    have hv : newline ∉ v := fun h => line.2 ((lineRun_suffix hstop).2.subset h)
    refine (Scan.yields_skip hv rest _ _).trans ?_
    simp only [decide_eq_true_eq]
    rfl
  | window => exact Iff.rfl
  | nul addr => exact Iff.rfl

def through (f : HostsFile IP) (next : Nat → List IP → Except Stop (List IP) → Prop) :
    List Line → Nat → List IP → Except Stop (List IP) → Prop
  | [], out, returned, r => next out returned r
  | line :: lines, out, returned, r =>
      let run := lineRun f line.1
      if run.passes then
        through f next lines (out - run.reports.length) (returned ++ run.reports.take out) r
      else run.halts f (out - run.reports.length) (returned ++ run.reports.take out) r

theorem yields_lines (lines : List Line) (tl : Text) (out : Nat) (returned : List IP) :
    Yields (Scan.step f) ⟨fileText lines ++ tl, .atIp, out, returned⟩ r ↔
      through f (fun out returned r => Yields (Scan.step f) ⟨tl, .atIp, out, returned⟩ r)
        lines out returned r := by
  induction lines generalizing out returned with
  | nil => exact Iff.rfl
  | cons line lines ih =>
    have htext : fileText (line :: lines) ++ tl =
        line.1 ++ newline :: (fileText lines ++ tl) := by
      rw [fileText, List.flatMap_cons, List.append_assoc, List.append_assoc]
      rfl
    rw [htext, yields_line, through]
    simp only [ih]

def Passes (f : HostsFile IP) (line : Line) : Prop := (lineRun f line.1).passes

def reports (f : HostsFile IP) (line : Line) : List IP := (lineRun f line.1).reports

instance (f : HostsFile IP) (line : Line) : Decidable (Passes f line) :=
  inferInstanceAs (Decidable (_ = true))

variable {next next' : Nat → List IP → Except Stop (List IP) → Prop} {before behind : List Line}

theorem through_passed (h : ∀ line ∈ before, Passes f line) (behind : List Line) (out : Nat)
    (returned : List IP) :
    through f next (before ++ behind) out returned r ↔
      through f next behind (out - (before.flatMap (reports f)).length)
        (returned ++ (before.flatMap (reports f)).take out) r := by
  induction before generalizing out returned with
  | nil => simp
  | cons line before ih =>
    obtain ⟨hline, hrest⟩ := List.forall_mem_cons.mp h
    have hpasses : (lineRun f line.1).passes := hline
    rw [List.cons_append, through, if_pos hpasses, ih hrest, List.flatMap_cons, List.length_append,
      List.take_append, ← Nat.sub_sub, List.append_assoc]
    rfl

theorem through_halted (h : ¬∀ line ∈ before, Passes f line) (behind behind' : List Line)
    (out : Nat) (returned : List IP) :
    through f next (before ++ behind) out returned r ↔
      through f next' (before ++ behind') out returned r := by
  induction before generalizing out returned with
  | nil => exact absurd (by rintro line ⟨⟩) h
  | cons line before ih =>
    rw [List.cons_append, List.cons_append, through, through]
    split
    · rename_i hline
      exact ih (fun hrest => h (List.forall_mem_cons.mpr ⟨hline, hrest⟩)) _ _
    · exact Iff.rfl

theorem through_all (h : ∀ line ∈ lines, Passes f line) (out : Nat) (returned : List IP) :
    through f next lines out returned r ↔
      next (out - (lines.flatMap (reports f)).length)
        (returned ++ (lines.flatMap (reports f)).take out) r := by
  have hpassed : through f next (lines ++ []) out returned r ↔ _ :=
    through_passed h [] out returned
  rwa [List.append_nil] at hpassed

theorem through_some (h : ¬∀ line ∈ lines, Passes f line) (out : Nat) (returned : List IP) :
    through f next lines out returned r ↔ through f next' lines out returned r := by
  have hhalted : through f next (lines ++ []) out returned r ↔
      through f next' (lines ++ []) out returned r := through_halted h [] [] out returned
  rwa [List.append_nil] at hhalted

def finished (_ : Nat) (returned : List IP) (r : Except Stop (List IP)) : Prop := r = .ok returned

theorem pulls_through {parse : Text → Option IP} {asciiName : Text}
    (h : asciiName.length ≤ fqdnMaxOctetLen) (lines : List Line) (out : Nat)
    (r : Except Stop (List IP)) : Pulls parse (fileText lines) asciiName out r ↔
      through (.whole parse asciiName h) finished lines out [] r := by
  have hend : (fun out returned r => Yields (Scan.step (.whole parse asciiName h))
      ⟨[], .atIp, out, returned⟩ r) = finished := by
    funext out returned r
    exact propext (yields_done (Scan.step_done (.inr rfl)))
  have hrun := yields_lines (f := .whole parse asciiName h) (r := r) lines [] out []
  rw [List.append_nil, hend] at hrun
  exact (pulls_iff h _ out r).trans hrun

theorem halts_extends {run : LineRun IP} (h : run.halts f out returned r) :
    ∃ more, r = .ok (returned ++ more) := by
  rw [LineRun.halts] at h
  split at h
  · exact ⟨_, h.1⟩
  · exact ⟨[], h.trans (by rw [List.append_nil])⟩

theorem through_extends (h : through f finished lines out returned r) :
    ∃ more, r = .ok (returned ++ more) := by
  induction lines generalizing out returned with
  | nil => exact ⟨[], h.trans (by rw [List.append_nil])⟩
  | cons line lines ih =>
    rw [through] at h
    split at h
    · obtain ⟨more, hr⟩ := ih h
      exact ⟨_, hr.trans (congrArg Except.ok (List.append_assoc _ _ _))⟩
    · obtain ⟨more, hr⟩ := halts_extends h
      exact ⟨_, hr.trans (congrArg Except.ok (List.append_assoc _ _ _))⟩

end Corosig.Dns
