import Corosig.Io.Dns.HostsLines
import Corosig.Io.Ipv4
import Mathlib.Algebra.Order.BigOperators.Group.List
import Mathlib.Algebra.Order.Group.Nat
import Mathlib.Data.List.DropRight

namespace Corosig.Dns
open Loop Delimited

variable {IP : Type}

def isWord (c : Byte) : Bool := !isBlank c

-- The reference parser: drop everything from the first '#', split on blanks, read the first token
-- as an address, and report it for each further token that is the name.
def beforeHash (x : Text) : Text := x.takeWhile (· ≠ hash)

def tokens (x : Text) : List Text := (x.splitOnP isBlank).filter (· ≠ [])

def addresses (parse : Text → Option IP) (asciiName : Text) : List Text → List IP
  | [] => []
  | first :: names =>
      match parse first with
      | none => []
      | some addr =>
          (names.filter fun name => lowercase name = lowercase asciiName).map fun _ => addr

def reference (parse : Text → Option IP) (asciiName x : Text) : List IP :=
  addresses parse asciiName (tokens (beforeHash x))

def spaced (x : Text) : Text := if hash ∈ x then (beforeHash x).rdropWhile isWord else x

def lastWord (x : Text) : Text := (beforeHash x).rtakeWhile isWord

def unglued (parse : Text → Option IP) (asciiName x : Text) : List IP :=
  addresses parse asciiName (tokens (spaced x))

def gluedReport (parse : Text → Option IP) (asciiName x : Text) : Option IP :=
  if hash ∈ x ∧ lowercase (lastWord x) = lowercase asciiName then
    (tokens (spaced x)).head?.bind parse
  else none

inductive Mention (IP : Type) where
  | plain (addr : IP)
  | glued (addr : IP)
  deriving DecidableEq, Repr

def Mention.addr : Mention IP → IP
  | .plain addr | .glued addr => addr

def Mention.plain? : Mention IP → Option IP
  | .plain addr => some addr
  | .glued _ => none

def mentions (parse : Text → Option IP) (asciiName x : Text) : List (Mention IP) :=
  (unglued parse asciiName x).map .plain ++ (gluedReport parse asciiName x).toList.map .glued

-- A glued name's address is owed until further names have filled the output; each of these has to
-- bear the address that has been owed longest.
def Repaid : List IP → List (Mention IP) → Nat → Prop
  | _, _, 0 => True
  | owed, [], _ + 1 => owed = []
  | owed, .glued addr :: mentions, left + 1 => Repaid (owed ++ [addr]) mentions (left + 1)
  | [], .plain _ :: mentions, left + 1 => Repaid [] mentions left
  | first :: owed, .plain addr :: mentions, left + 1 =>
      first = addr ∧ Repaid (owed ++ [addr]) mentions left

theorem rdropWhile_append_cons {p : Byte → Bool} {c : Byte} (hc : ¬p c) (a y : Text) :
    (a ++ c :: y).rdropWhile p = a ++ c :: y.rdropWhile p := by
  induction y using List.reverseRecOn with
  | nil => rw [List.rdropWhile_concat_neg p a c hc, List.rdropWhile_nil]
  | append_singleton y d ih =>
    rw [← List.cons_append, ← List.append_assoc]
    by_cases hd : p d
    · rw [List.rdropWhile_concat_pos p _ d hd, List.rdropWhile_concat_pos p _ d hd, ih]
    · rw [List.rdropWhile_concat_neg p _ d hd, List.rdropWhile_concat_neg p _ d hd,
        List.append_assoc, List.cons_append]

theorem rdropWhile_word {p : Byte → Bool} {a b : Text} (ha : ∀ c ∈ a, ¬p c) (hb : ∀ c ∈ b, p c) :
    (a ++ b).rdropWhile p = a := by
  induction b using List.reverseRecOn with
  | nil =>
    rw [List.append_nil, List.rdropWhile_eq_self_iff]
    exact fun hne => ha _ (List.getLast_mem hne)
  | append_singleton b c ih =>
    have hc : p c := hb c (List.mem_append_right b (List.mem_singleton_self c))
    rw [← List.append_assoc, List.rdropWhile_concat_pos p _ c hc]
    exact ih fun c' hc' => hb c' (List.mem_append_left [c] hc')

section Tokens

variable {x y rest : Text} {c : Byte}

theorem tokens_append_cons (hc : isBlank c) (x y : Text) :
    tokens (x ++ c :: y) = tokens x ++ tokens y := by
  rw [tokens, List.splitOnP_append_cons x y hc, List.filter_append]
  rfl

theorem tokens_nil : tokens [] = [] := rfl

theorem tokens_cons (hc : isBlank c) (y : Text) : tokens (c :: y) = tokens y :=
  tokens_append_cons hc [] y

theorem tokens_blanks (h : ∀ c ∈ x, isBlank c) (y : Text) : tokens (x ++ y) = tokens y := by
  induction x with
  | nil => rfl
  | cons c x ih =>
    obtain ⟨hc, hx⟩ := List.forall_mem_cons.mp h
    rw [List.cons_append, tokens_cons hc, ih hx]

theorem tokens_word (h : ∀ c ∈ x, isWord c) : tokens x = [x].filter (· ≠ []) := by
  rw [tokens, List.splitOnP_eq_singleton fun c hc => by simpa [isWord] using h c hc]

theorem isWord_of_not_stop (h : ¬isStop c) : isWord c := by
  simp only [isStop, isWord, isBlank, decide_eq_true_eq, not_or] at h ⊢
  simp [h.1, h.2.1]

theorem token_word : ∀ c ∈ token x, ¬isStop c := by
  intro c hc
  have := List.mem_takeWhile_imp hc
  simpa using this

theorem blanks_append_token (x : Text) :
    x = x.takeWhile isBlank ++ (token x ++ after x) := by
  rw [token, after, List.takeWhile_append_dropWhile, List.takeWhile_append_dropWhile]

theorem isWord_of_token (h : c ∈ token x) : isWord c := isWord_of_not_stop (token_word c h)

theorem blank_of_takeWhile : ∀ c ∈ x.takeWhile isBlank, isBlank c := fun _ => List.mem_takeWhile_imp

theorem tokens_lead (x y : Text) : tokens (x.takeWhile isBlank ++ y) = tokens y :=
  tokens_blanks blank_of_takeWhile y

theorem tokens_token (x : Text) : tokens (token x) = [token x].filter (· ≠ []) :=
  tokens_word fun _ => isWord_of_token

theorem hash_not_mem_lead (x : Text) : hash ∉ x.takeWhile isBlank ++ token x := by
  intro h
  rcases List.mem_append.mp h with hblank | htoken
  · exact absurd (blank_of_takeWhile hash hblank) (by decide)
  · exact token_word hash htoken (by decide)

theorem beforeHash_append (h : hash ∉ x) (y : Text) : beforeHash (x ++ y) = x ++ beforeHash y := by
  rw [beforeHash, List.takeWhile_append_of_pos fun c hc => ?_, beforeHash]
  simpa using ne_of_mem_of_not_mem hc h

theorem beforeHash_cons (h : c ≠ hash) (y : Text) : beforeHash (c :: y) = c :: beforeHash y :=
  beforeHash_append (x := [c]) (by simpa using h.symm) y

theorem spaced_of_not_mem (h : hash ∉ x) : spaced x = x := if_neg h

theorem spaced_append_cons (hx : hash ∉ x) (hc : isBlank c) (y : Text) :
    spaced (x ++ c :: y) = x ++ c :: spaced y := by
  have hne : c ≠ hash := by
    rintro rfl
    exact absurd hc (by decide)
  have hmem : hash ∈ x ++ c :: y ↔ hash ∈ y := by
    rw [List.mem_append, List.mem_cons, or_iff_right hx, or_iff_right hne.symm]
  have hword : ¬isWord c := by
    rw [isWord, hc]
    exact Bool.false_ne_true
  by_cases hy : hash ∈ y
  · rw [spaced, if_pos (hmem.mpr hy), spaced, if_pos hy, beforeHash_append hx, beforeHash_cons hne,
      rdropWhile_append_cons hword]
  · rw [spaced_of_not_mem fun h => hy (hmem.mp h), spaced_of_not_mem hy]

theorem spaced_cons (hc : isBlank c) (y : Text) : spaced (c :: y) = c :: spaced y :=
  spaced_append_cons List.not_mem_nil hc y

theorem tokens_rdropWhile (x : Text) :
    tokens x = tokens (x.rdropWhile isWord) ++ [x.rtakeWhile isWord].filter (· ≠ []) := by
  have hword : tokens (x.rtakeWhile isWord) = [x.rtakeWhile isWord].filter (· ≠ []) :=
    tokens_word fun _ => List.mem_rtakeWhile_imp
  conv_lhs => rw [← List.rdropWhile_append_rtakeWhile (p := isWord) (l := x)]
  rcases List.eq_nil_or_concat' (x.rdropWhile isWord) with hnil | ⟨front, c, hfront⟩
  · rw [hnil, List.nil_append, hword, tokens_nil, List.nil_append]
  · have hc : isBlank c := by
      have hlast := List.rdropWhile_last_not isWord x (by rw [hfront]; exact List.concat_ne_nil _ _)
      simp only [hfront, List.getLast_concat] at hlast
      simpa [isWord] using hlast
    rw [hfront, List.append_assoc, List.singleton_append, tokens_append_cons hc, hword,
      tokens_append_cons hc, tokens_nil, List.append_nil]

theorem tokens_spaced_end (h : after x = []) : tokens (spaced x) = [token x].filter (· ≠ []) := by
  have hx : x.takeWhile isBlank ++ token x = x := by
    conv_rhs => rw [blanks_append_token x, h, List.append_nil]
  have hhash : hash ∉ x := hx ▸ hash_not_mem_lead x
  rw [spaced_of_not_mem hhash, ← tokens_token, ← tokens_lead x (token x), hx]

theorem tokens_spaced_hash (h : after x = hash :: rest) : tokens (spaced x) = [] := by
  have hx : x.takeWhile isBlank ++ token x ++ hash :: rest = x := by
    conv_rhs => rw [blanks_append_token x, h, ← List.append_assoc]
  have hmem : hash ∈ x := (after_suffix x).subset (h ▸ List.mem_cons_self)
  have hbefore : beforeHash x = x.takeWhile isBlank ++ token x := by
    have hcut := beforeHash_append (hash_not_mem_lead x) (hash :: rest)
    rwa [hx, show beforeHash (hash :: rest) = [] from rfl, List.append_nil] at hcut
  have hwords : (x.takeWhile isBlank ++ token x).rdropWhile isWord = x.takeWhile isBlank := by
    refine rdropWhile_word (fun c hc => ?_) fun c => isWord_of_token
    rw [isWord, blank_of_takeWhile c hc]
    exact Bool.false_ne_true
  rw [spaced, if_pos hmem, hbefore, hwords, ← List.append_nil (x.takeWhile isBlank), tokens_lead,
    tokens_nil]

theorem tokens_spaced_blank (h : after x = c :: rest) (hc : isBlank c) :
    tokens (spaced x) = [token x].filter (· ≠ []) ++ tokens (spaced (c :: rest)) := by
  have hx : x.takeWhile isBlank ++ token x ++ c :: rest = x := by
    conv_rhs => rw [blanks_append_token x, h, ← List.append_assoc]
  conv_lhs => rw [← hx]
  rw [spaced_append_cons (hash_not_mem_lead x) hc, tokens_append_cons hc, tokens_lead, tokens_token,
    spaced_cons hc, tokens_cons hc]

theorem token_ne_nil (h : after x = c :: rest) (hc : isBlank c) : token x ≠ [] := by
  intro htoken
  have hsplit : x.dropWhile isBlank = c :: rest := by
    rw [← List.takeWhile_append_dropWhile (p := fun c => !isStop c) (l := x.dropWhile isBlank),
      ← token, ← after, htoken, h, List.nil_append]
  exact stops_dropWhile isBlank x c (by rw [hsplit]; rfl) hc

theorem addresses_word {parse : Text → Option IP} {asciiName : Text} (text : Text) :
    addresses parse asciiName ([text].filter (· ≠ [])) = [] := by
  by_cases htext : text = []
  · rw [htext]
    rfl
  · have hword : [text].filter (· ≠ []) = [text] := by
      simp [htext]
    rw [hword, addresses]
    cases parse text with
    | none | some addr => rfl

end Tokens

section Lines

variable {f : HostsFile IP} {addr : IP} {x : Text}

theorem flatMap_found (names : List Text) : names.flatMap (found f addr) =
    (names.filter fun name => lowercase name = lowercase f.name).map fun _ => addr := by
  induction names with
  | nil => rfl
  | cons name names ih =>
    rw [List.flatMap_cons, found, ih, List.filter_cons]
    by_cases hname : lowercase name = lowercase f.name
    · simp [hname]
    · simp [hname]

theorem flatMap_found_token (hname : f.name ≠ []) (text : Text) :
    ([text].filter (· ≠ [])).flatMap (found f addr) = found f addr text := by
  by_cases htext : text = []
  · have hne : lowercase [] ≠ lowercase f.name := by
      intro heq
      exact hname (List.map_eq_nil_iff.mp heq.symm)
    rw [htext, found, if_neg hne]
    rfl
  · simp [htext]

theorem isBlank_of_after {c : Byte} {rest : Text} (hline : newline ∉ x) (hnul : 0 ∉ x)
    (h : after x = c :: rest) (hhash : c ≠ hash) : isBlank c := by
  have hc : c ∈ x := (after_suffix x).subset (h ▸ List.mem_cons_self)
  rcases after_cases h with hblank | hc' | rfl | rfl
  · exact hblank
  · exact absurd hc' hhash
  · exact absurd hc hline
  · exact absurd hc hnul

theorem reports_append (run : LineRun IP) (front : List IP) :
    ({ run with reported := front ++ run.reported } : LineRun IP).reports =
      front ++ run.reports := by
  rw [LineRun.reports, LineRun.reports]
  cases run.stop with
  | atEnd last => exact List.append_assoc _ _ _
  | skipping v | window | nul addr => rfl

theorem nameRun_spaced (hname : f.name ≠ []) (hline : newline ∉ x) (hnul : 0 ∉ x)
    (hlen : x.length + 1 < bufferSize) : (nameRun f addr x).passes ∧
      (nameRun f addr x).reports = (tokens (spaced x)).flatMap (found f addr) := by
  induction hn : x.length using Nat.strongRecOn generalizing x with
  | ind n ih =>
    subst hn
    have hlead : lead x < bufferSize := ((lead_le x).trans (Nat.le_succ _)).trans_lt hlen
    cases hafter : after x with
    | nil =>
      rw [nameRun_end hlead hafter, tokens_spaced_end hafter, flatMap_found_token hname]
      exact ⟨rfl, rfl⟩
    | cons c rest =>
      have hsub : c :: rest <:+ x := hafter ▸ after_suffix x
      have hrest := (Nat.succ_le_succ hsub.length_le).trans_lt hlen
      rw [nameRun_cons hlead hafter]
      by_cases hhash : c = hash
      · subst hhash
        rw [if_pos rfl, tokens_spaced_hash hafter]
        exact ⟨decide_eq_true hrest, rfl⟩
      · have hblank := isBlank_of_after hline hnul hafter hhash
        obtain ⟨hpasses, hreports⟩ := ih _ (length_after_lt hafter hblank)
          (fun h => hline (hsub.subset h)) (fun h => hnul (hsub.subset h)) hrest rfl
        rw [if_neg hhash, if_pos hblank, tokens_spaced_blank hafter hblank, List.flatMap_append,
          flatMap_found_token hname, ← hreports]
        exact ⟨hpasses, reports_append _ _⟩

theorem lineRun_spaced (hname : f.name ≠ []) (hline : newline ∉ x) (hnul : 0 ∉ x)
    (hlen : x.length + 1 < bufferSize) : (lineRun f x).passes ∧
      (lineRun f x).reports = unglued f.parse f.name x := by
  have hlead : lead x < bufferSize := ((lead_le x).trans (Nat.le_succ _)).trans_lt hlen
  rw [lineRun, if_neg (Nat.not_le.mpr hlead), unglued]
  cases hafter : after x with
  | nil =>
    rw [tokens_spaced_end hafter]
    exact ⟨rfl, (addresses_word _).symm⟩
  | cons c rest =>
    have hsub : c :: rest <:+ x := hafter ▸ after_suffix x
    have hrest := (Nat.succ_le_succ hsub.length_le).trans_lt hlen
    dsimp only
    by_cases hhash : c = hash
    · subst hhash
      rw [Scan.entry, if_pos (.inl rfl), tokens_spaced_hash hafter]
      exact ⟨decide_eq_true hrest, rfl⟩
    · have hblank := isBlank_of_after hline hnul hafter hhash
      have hfirst : [token x].filter (· ≠ []) = [token x] := by
        simp [token_ne_nil hafter hblank]
      rw [Scan.entry_blank hblank, tokens_spaced_blank hafter hblank, hfirst, List.singleton_append,
        addresses]
      cases f.parse (token x) with
      | none => exact ⟨decide_eq_true hrest, rfl⟩
      | some addr =>
        dsimp only
        rw [← flatMap_found]
        exact nameRun_spaced hname (fun h => hline (hsub.subset h)) (fun h => hnul (hsub.subset h))
          hrest

end Lines

section Glued

variable {parse : Text → Option IP} {asciiName x : Text}

theorem tokens_beforeHash (h : hash ∈ x) :
    tokens (beforeHash x) = tokens (spaced x) ++ [lastWord x].filter (· ≠ []) := by
  rw [spaced, if_pos h]
  exact tokens_rdropWhile (beforeHash x)

theorem addresses_none {first : Text} (h : parse first = none) (names : List Text) :
    addresses parse asciiName (first :: names) = [] := by
  rw [addresses, h]

theorem addresses_some {first : Text} {addr : IP} (h : parse first = some addr)
    (names : List Text) : addresses parse asciiName (first :: names) =
      (names.filter fun name => lowercase name = lowercase asciiName).map fun _ => addr := by
  rw [addresses, h]

theorem addresses_append {first : Text} {addr : IP} (h : parse first = some addr)
    (hname : asciiName ≠ []) (names : List Text) (text : Text) :
    addresses parse asciiName (first :: (names ++ [text].filter (· ≠ []))) =
      addresses parse asciiName (first :: names) ++
        if lowercase text = lowercase asciiName then [addr] else [] := by
  rw [addresses_some h, addresses_some h, List.filter_append, List.map_append]
  by_cases htext : text = []
  · have hne : lowercase [] ≠ lowercase asciiName := by
      intro heq
      exact hname (List.map_eq_nil_iff.mp heq.symm)
    rw [htext, if_neg hne]
    rfl
  · by_cases hlower : lowercase text = lowercase asciiName
    · simp [htext, hlower]
    · simp [htext, hlower]

theorem unglued_mentions (parse : Text → Option IP) (asciiName x : Text) :
    (mentions parse asciiName x).filterMap Mention.plain? = unglued parse asciiName x := by
  rw [mentions, List.filterMap_append, List.filterMap_map, List.filterMap_map]
  cases gluedReport parse asciiName x <;> simp [Function.comp_def, Mention.plain?]

theorem reference_mentions (hname : asciiName ≠ []) (x : Text) :
    (mentions parse asciiName x).map Mention.addr = reference parse asciiName x := by
  have hplain : (mentions parse asciiName x).map Mention.addr =
      unglued parse asciiName x ++ (gluedReport parse asciiName x).toList := by
    simp [mentions, Mention.addr, Function.comp_def]
  rw [hplain, gluedReport, reference, unglued]
  by_cases hhash : hash ∈ x
  · rw [tokens_beforeHash hhash]
    cases tokens (spaced x) with
    | nil =>
      rw [List.head?_nil, Option.bind_none, ite_self]
      exact (List.append_nil _).trans (addresses_word _).symm
    | cons first names =>
      rw [List.cons_append]
      cases hfirst : parse first with
      | none => simp [addresses_none hfirst, hfirst]
      | some addr =>
        rw [addresses_append hfirst hname]
        by_cases hword : lowercase (lastWord x) = lowercase asciiName
        · simp [hhash, hword, hfirst]
        · simp [hword]
  · have hwhole : beforeHash x = x := by
      refine List.takeWhile_eq_self_iff.mpr fun c hc => ?_
      simpa using ne_of_mem_of_not_mem hc hhash
    rw [hwhole, spaced_of_not_mem hhash, if_neg fun h => hhash h.1]
    exact List.append_nil _

theorem repaid_iff (owed : List IP) (mentions : List (Mention IP)) (left : Nat) :
    (owed ++ mentions.map Mention.addr).take left =
        (mentions.filterMap Mention.plain?).take left ↔ Repaid owed mentions left := by
  induction owed, mentions, left using Repaid.induct with
  | case1 owed mentions => simp [Repaid]
  | case2 owed left => simp [Repaid]
  | case3 owed addr mentions left ih =>
    rw [Repaid, ← ih, List.append_assoc]
    rfl
  | case4 addr mentions left ih =>
    rw [Repaid, ← ih]
    simp [Mention.addr, Mention.plain?]
  | case5 first owed addr mentions left ih =>
    rw [Repaid, ← ih, List.append_assoc]
    simp [Mention.addr, Mention.plain?]

end Glued

abbrev PlainLine := { line : Line // 0 ∉ line.1 ∧ line.1.length + 1 ≤ 510 }

abbrev HostName := { name : Text // name ≠ [] ∧ name.length ≤ fqdnMaxOctetLen }

def PlainLine.text (line : PlainLine) : Text := line.1.1

def plainText (lines : List PlainLine) : Text := fileText (lines.map Subtype.val)

section Pulls

variable {parse : Text → Option IP} {lines : List PlainLine} {name : HostName}

theorem plain_passes (line : PlainLine) :
    Passes (.whole parse name.1 name.2.2) line.1 ∧
      reports (.whole parse name.1 name.2.2) line.1 = unglued parse name.1 line.text :=
  lineRun_spaced name.2.1 line.1.2 line.2.1 (Nat.lt_succ_of_le line.2.2)

theorem pulls_unglued (parse : Text → Option IP) (lines : List PlainLine) (name : HostName)
    (out : Nat) (r : Except Stop (List IP)) :
    Pulls parse (plainText lines) name.1 out r ↔
      r = .ok ((lines.flatMap fun line => unglued parse name.1 line.text).take out) := by
  have hpasses : ∀ line ∈ lines.map Subtype.val, Passes (.whole parse name.1 name.2.2) line := by
    intro line hline
    obtain ⟨plain, -, rfl⟩ := List.mem_map.mp hline
    exact (plain_passes plain).1
  have hreports : (lines.map Subtype.val).flatMap (reports (.whole parse name.1 name.2.2)) =
      lines.flatMap fun line => unglued parse name.1 line.text := by
    rw [List.flatMap_map]
    exact List.flatMap_congr fun line _ => (plain_passes line).2
  rw [plainText, pulls_through name.2.2, through_all hpasses, hreports]
  exact Iff.rfl

theorem pulls_reference_iff (parse : Text → Option IP) (lines : List PlainLine) (name : HostName)
    (out : Nat) :
    (∀ r, Pulls parse (plainText lines) name.1 out r ↔
      r = .ok ((lines.flatMap fun line => unglued parse name.1 line.text).take out)) ∧
    ((∀ r, Pulls parse (plainText lines) name.1 out r ↔
      r = .ok ((lines.flatMap fun line => reference parse name.1 line.text).take out)) ↔
        Repaid [] (lines.flatMap fun line => mentions parse name.1 line.text) out) := by
  have hunglued : ((lines.flatMap fun line => mentions parse name.1 line.text).filterMap
      Mention.plain?) = lines.flatMap fun line => unglued parse name.1 line.text := by
    rw [List.filterMap_flatMap]
    exact List.flatMap_congr fun line _ => unglued_mentions parse name.1 line.text
  have hreference : ((lines.flatMap fun line => mentions parse name.1 line.text).map
      Mention.addr) = lines.flatMap fun line => reference parse name.1 line.text := by
    rw [List.map_flatMap]
    exact List.flatMap_congr fun line _ => reference_mentions name.2.1 line.text
  refine ⟨pulls_unglued parse lines name out, ?_⟩
  rw [← repaid_iff, List.nil_append, hunglued, hreference]
  constructor
  · intro h
    exact Except.ok.inj ((pulls_unglued parse lines name out _).mp ((h _).mpr rfl))
  · intro h r
    rw [h]
    exact pulls_unglued parse lines name out r

end Pulls

def plainLine : PlainLine :=
  ⟨⟨[49, 46, 50, 46, 51, 46, 52, 32, 102, 111, 111], by decide⟩, by decide⟩

def gluedLine : PlainLine :=
  ⟨⟨[49, 46, 50, 46, 51, 46, 52, 32, 102, 111, 111, 35, 99], by decide⟩, by decide⟩

def foo : HostName := ⟨[102, 111, 111], by decide⟩

theorem pulls_glued : ¬∀ out r, Pulls Ipv4Addr.parse (plainText [gluedLine]) foo.1 out r ↔
    r = .ok (([gluedLine].flatMap fun line =>
      reference Ipv4Addr.parse foo.1 line.text).take out) := by
  intro h
  have hsame := (pulls_unglued _ _ _ _ _).mp ((h 1 _).mpr rfl)
  revert hsame
  decide

end Corosig.Dns
