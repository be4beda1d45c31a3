import Corosig.Io.Dns.HostsReference

namespace Corosig.Dns
open Loop Delimited

variable {IP : Type}

def Line.comment (text : Line) : Line :=
  ⟨hash :: text.1, List.not_mem_cons_of_ne_of_not_mem (by decide) text.2⟩

inductive Row where
  | line (line : Line)
  | comment (text : Line)
  deriving DecidableEq, Repr

def original : List Row → List Line
  | [] => []
  | .line line :: rows => line :: original rows
  | .comment _ :: rows => original rows

def commented : List Row → List Line
  | [] => []
  | .line line :: rows => line :: commented rows
  | .comment text :: rows => text.comment :: commented rows

def Long (text : Line) : Prop := 510 < text.1.length + 2

def Adds (f : HostsFile IP) (line : Line) : Prop :=
  reports f line ≠ [] ∨ ∃ addr, (lineRun f line.1).stop = .nul addr

def Silent (f : HostsFile IP) : List Line → Prop
  | [] => True
  | line :: lines => ¬Adds f line ∧ (Passes f line → Silent f lines)

def Harmless (f : HostsFile IP) (before behind : List Line) (out : Nat) : Prop :=
  (∃ line ∈ before, ¬Passes f line) ∨ out ≤ (before.flatMap (reports f)).length ∨ Silent f behind

def Spared (f : HostsFile IP) (rows : List Row) (out : Nat) : Prop :=
  ∀ front text behind, rows = front ++ .comment text :: behind → Long text →
    Harmless f (original front) (original behind) out

instance (text : Line) : Decidable (Long text) := inferInstanceAs (Decidable (_ < _))

variable {f : HostsFile IP} {lines : List Line} {line text : Line} {rows : List Row} {out : Nat}
  {returned : List IP} {r : Except Stop (List IP)}

theorem lineRun_comment (text : Line) :
    lineRun f text.comment.1 = { stop := .skipping text.comment.1 } := by
  obtain ⟨hlead, hafter, -⟩ := Scan.after_stop (c := hash) (by decide) (by decide) text.1
  rw [Line.comment, lineRun, hlead, if_neg (by decide), hafter]
  dsimp only
  rw [Scan.entry, if_pos (.inl rfl)]

theorem comment_passes (text : Line) : Passes f text.comment ↔ ¬Long text := by
  rw [Passes, lineRun_comment, Long, LineRun.passes]
  rw [decide_eq_true_eq, Line.comment, List.length_cons, bufferSize]
  omega

theorem comment_reports (text : Line) : reports f text.comment = [] := by
  rw [reports, lineRun_comment]
  rfl

theorem through_comment (h : ¬Long text) (next : Nat → List IP → Except Stop (List IP) → Prop)
    (lines : List Line) :
    through f next (text.comment :: lines) out returned r ↔
      through f next lines out returned r := by
  have hone : through f next ([text.comment] ++ lines) out returned r ↔ _ :=
    through_passed (by simpa using (comment_passes text).mpr h) lines out returned
  simpa [comment_reports] using hone

theorem through_long (h : Long text) (lines : List Line) :
    through f finished (text.comment :: lines) out returned r ↔ r = .ok returned := by
  have hpasses : ¬(lineRun f text.comment.1).passes := fun hp => (comment_passes text).mp hp h
  rw [through, if_neg hpasses, lineRun_comment]
  simp [LineRun.halts, LineRun.reports]

theorem through_silent (h : Silent f lines) :
    through f finished lines out returned r ↔ r = .ok returned := by
  induction lines with
  | nil => rfl
  | cons line lines ih =>
    obtain ⟨hadds, hrest⟩ := h
    obtain ⟨hreports, hnul⟩ := not_or.mp hadds
    have hreports : (lineRun f line.1).reports = [] := not_not.mp hreports
    rw [through]
    simp only [hreports, List.length_nil, Nat.sub_zero, List.take_nil, List.append_nil]
    split
    · rename_i hpasses
      exact ih (hrest hpasses)
    · rw [LineRun.halts]
      split
      · rename_i hstop
        exact absurd ⟨_, hstop⟩ hnul
      · rfl

theorem append_eq_self {ret add more : List IP}
    (h : (.ok ret : Except Stop (List IP)) = .ok (ret ++ add ++ more)) : add = [] := by
  have heq := Except.ok.inj h
  rw [List.append_assoc] at heq
  exact (List.append_eq_nil_iff.mp (List.self_eq_append_right.mp heq)).1

theorem silent_of_through (hout : out ≠ 0)
    (h : through f finished lines out returned (.ok returned)) : Silent f lines := by
  induction lines with
  | nil => trivial
  | cons line lines ih =>
    have hreports : (lineRun f line.1).reports = [] := by
      rw [through] at h
      split at h
      · obtain ⟨more, hmore⟩ := through_extends h
        exact (List.take_eq_nil_iff.mp (append_eq_self hmore)).resolve_left hout
      · obtain ⟨more, hmore⟩ := halts_extends h
        exact (List.take_eq_nil_iff.mp (append_eq_self hmore)).resolve_left hout
    rw [through] at h
    simp only [hreports, List.length_nil, Nat.sub_zero, List.take_nil, List.append_nil] at h
    refine ⟨not_or.mpr ⟨not_not.mpr hreports, ?_⟩, fun hpasses => ?_⟩
    · rintro ⟨addr, hstop⟩
      have hhalts : ¬(lineRun f line.1).passes := by
        rw [LineRun.passes, hstop]
        exact Bool.false_ne_true
      rw [if_neg hhalts, LineRun.halts, hstop] at h
      have hfill := List.self_eq_append_right.mp (Except.ok.inj h.1)
      exact hout (by simpa using hfill)
    · have hline : (lineRun f line.1).passes := hpasses
      rw [if_pos hline] at h
      exact ih h

theorem through_iff_silent (hout : out ≠ 0) :
    (∀ r, r = .ok returned ↔ through f finished lines out returned r) ↔ Silent f lines := by
  constructor
  · intro h
    exact silent_of_through hout ((h _).mp rfl)
  · intro h r
    exact (through_silent h).symm

theorem through_full (lines : List Line) :
    through f finished lines 0 returned r ↔ r = .ok returned := by
  induction lines with
  | nil => rfl
  | cons line lines ih =>
    rw [through]
    simp only [Nat.zero_sub, List.take_zero, List.append_nil]
    split
    · exact ih
    · rw [LineRun.halts]
      split
      · simp
      · rfl

section Spared

variable {before behind : List Line}

theorem original_append (front behind : List Row) :
    original (front ++ behind) = original front ++ original behind := by
  induction front with
  | nil => rfl
  | cons row front ih =>
    cases row with
    | line line => exact congrArg (line :: ·) ih
    | comment text => exact ih

theorem silent_append (h : Silent f (before ++ behind)) :
    (∃ line ∈ before, ¬Passes f line) ∨ Silent f behind := by
  induction before with
  | nil => exact .inr h
  | cons line before ih =>
    by_cases hpasses : Passes f line
    · refine (ih (h.2 hpasses)).imp_left ?_
      rintro ⟨line', hmem, hline'⟩
      exact ⟨line', List.mem_cons_of_mem line hmem, hline'⟩
    · exact .inl ⟨line, List.mem_cons_self, hpasses⟩

theorem harmless_cons : Harmless f (line :: before) behind out ↔
    (Passes f line → Harmless f before behind (out - (reports f line).length)) := by
  by_cases hpasses : Passes f line
  · simp [Harmless, hpasses, Nat.add_comm]
  · simp [Harmless, hpasses]

theorem spared_nil (out : Nat) : Spared f [] out := by
  intro front text behind h
  cases (List.append_eq_nil_iff.mp h.symm).2

theorem spared_line : Spared f (.line line :: rows) out ↔
    (Passes f line → Spared f rows (out - (reports f line).length)) := by
  constructor
  · rintro h hpasses front text behind rfl hlong
    exact harmless_cons.mp (h (.line line :: front) text behind rfl hlong) hpasses
  · intro h front text behind heq hlong
    cases front with
    | nil => cases heq
    | cons row front =>
      cases heq
      exact harmless_cons.mpr fun hpasses => h hpasses front text behind rfl hlong

theorem spared_of_silent (h : out = 0 ∨ Silent f (original rows)) : Spared f rows out := by
  rintro front text behind rfl -
  rcases h with rfl | hsilent
  · exact .inr (.inl (Nat.zero_le _))
  · rw [original_append] at hsilent
    exact (silent_append hsilent).imp_right .inr

theorem spared_comment : Spared f (.comment text :: rows) out ↔
    (Long text → out = 0 ∨ Silent f (original rows)) ∧ Spared f rows out := by
  constructor
  · intro h
    refine ⟨fun hlong => ?_, ?_⟩
    · have hfirst := h [] text rows rfl hlong
      simpa [Harmless, original] using hfirst
    · rintro front text' behind rfl hlong
      exact h (.comment text :: front) text' behind rfl hlong
  · rintro ⟨hfirst, hrest⟩ front text' behind heq hlong
    cases front with
    | nil =>
      cases heq
      simpa [Harmless, original] using hfirst hlong
    | cons row front =>
      cases heq
      exact hrest front text' behind rfl hlong

end Spared

theorem through_spared_iff (rows : List Row) (out : Nat) (returned : List IP) :
    (∀ r, through f finished (commented rows) out returned r ↔
      through f finished (original rows) out returned r) ↔ Spared f rows out := by
  induction rows generalizing out returned with
  | nil => exact iff_of_true (fun _ => Iff.rfl) (spared_nil out)
  | cons row rows ih =>
    cases row with
    | line line =>
      rw [spared_line, commented, original]
      by_cases hpasses : Passes f line
      · have hline : (lineRun f line.1).passes := hpasses
        simp only [through, if_pos hline, ih, hpasses, true_imp_iff]
        rfl
      · have hline : ¬(lineRun f line.1).passes := hpasses
        simp only [through, if_neg hline, hpasses, false_imp_iff, implies_true]
    | comment text =>
      rw [spared_comment, commented, original]
      by_cases hlong : Long text
      · simp only [through_long hlong, hlong, true_imp_iff]
        by_cases hout : out = 0
        · subst hout
          simp [through_full, spared_of_silent]
        · rw [through_iff_silent hout]
          simp only [hout, false_or]
          exact ⟨fun h => ⟨h, spared_of_silent (.inr h)⟩, And.left⟩
      · simp only [through_comment hlong, ih, hlong, false_imp_iff, true_and]

theorem pulls_commented_iff (parse : Text → Option IP) (rows : List Row) (asciiName : Text)
    (out : Nat) :
    (∀ r, Pulls parse (fileText (commented rows)) asciiName out r ↔
      Pulls parse (fileText (original rows)) asciiName out r) ↔
        ∀ h : asciiName.length ≤ fqdnMaxOctetLen, Spared (.whole parse asciiName h) rows out := by
  by_cases h : asciiName.length ≤ fqdnMaxOctetLen
  · simp only [pulls_through h, through_spared_iff, h, forall_true_left]
  · simp only [pulls_long h, h, IsEmpty.forall_iff, implies_true]

def longComment : Line :=
  ⟨List.replicate 509 120, fun h => absurd (List.eq_of_mem_replicate h) (by decide)⟩

theorem longComment_long : Long longComment := by
  rw [Long, longComment, List.length_replicate]
  decide

theorem pulls_long_first {parse : Text → Option IP} {name : HostName} (h : Long text) :
    Pulls parse (fileText (commented (.comment text :: rows))) name.1 out (.ok []) := by
  rw [pulls_through name.2.2, commented, through_long h]

theorem pulls_below_comment :
    ¬∀ r, Pulls Ipv4Addr.parse (fileText (commented [.comment longComment, .line plainLine.1]))
      foo.1 1 r ↔
        Pulls Ipv4Addr.parse (fileText (original [.comment longComment, .line plainLine.1]))
          foo.1 1 r := by
  intro h
  have hcommented := (h _).mp (pulls_long_first longComment_long)
  have horiginal := (pulls_unglued Ipv4Addr.parse [plainLine] foo 1 (.ok [])).mp hcommented
  revert horiginal
  decide

end Corosig.Dns
