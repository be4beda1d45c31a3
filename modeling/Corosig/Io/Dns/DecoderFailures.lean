import Corosig.Io.Dns.Decoder

namespace Corosig.Dns.Protocol
open CompressedNames Loop ResponseDecoder

inductive Call where
  | header
  | questionEntry
  | resourceRecord
  deriving DecidableEq, Repr

inductive Ending where
  | ok
  | error
  | endless
  deriving DecidableEq, Repr

def Ending.ofExcept {α : Type} : Except ResponseDecodeError α → Ending
  | .ok _ => .ok
  | .error _ => .error

inductive Returns : ResponseDecoder → Call → Ending → ResponseDecoder → Prop where
  | header (d : ResponseDecoder) : Returns d .header (.ofExcept d.consumeHeader.1) d.consumeHeader.2
  | questionEntry {d d' : ResponseDecoder} {fuel : Nat}
      {r : Except ResponseDecodeError DecodeQuestionEntrySuccess}
      (h : d.consumeQuestionEntry fuel = some (r, d')) : Returns d .questionEntry (.ofExcept r) d'
  | resourceRecord {d d' : ResponseDecoder} {fuel : Nat}
      {r : Except ResponseDecodeError ResourceRecord}
      (h : d.consumeResourceRecord fuel = some (r, d')) : Returns d .resourceRecord (.ofExcept r) d'

def Endless (d : ResponseDecoder) : Call → Prop
  | .header => False
  | .questionEntry => ∀ fuel, d.consumeQuestionEntry fuel = none
  | .resourceRecord => ∀ fuel, d.consumeResourceRecord fuel = none

-- A call that does not come back is the last one.
inductive Calls (allowed : ResponseDecoder → Call → Prop) :
    ResponseDecoder → List (Call × Ending) → ResponseDecoder → Prop where
  | nil (d : ResponseDecoder) : Calls allowed d [] d
  | cons {d d' d'' : ResponseDecoder} {call : Call} {o : Ending} {rest : List (Call × Ending)}
      (here : allowed d call) (returns : Returns d call o d')
      (later : Calls allowed d' rest d'') : Calls allowed d ((call, o) :: rest) d''
  | stuck {d : ResponseDecoder} {call : Call} (here : allowed d call) (endless : Endless d call) :
      Calls allowed d [(call, .endless)] d

def Latched (calls : List (Call × Ending)) : Prop :=
  calls.Pairwise fun earlier later => earlier.2 = .error → later.2 = .error

def HoldsQuestion (d : ResponseDecoder) : Prop :=
  ∃ domainName, Yields NameParser.step (parseDomainName d.remainingMessage) (.ok domainName) ∧
    domainName.bytesToConsume + 4 ≤ d.remainingMessage.size

structure Dead (d : ResponseDecoder) : Prop where
  short : d.remainingMessage.size < 12
  ends : Halts NameParser.step (parseDomainName d.remainingMessage)
  noQuestion : ¬ HoldsQuestion d

def HeaderSafe (d : ResponseDecoder) (call : Call) : Prop :=
  call = .header → d.remainingMessage.size < 12 → Dead d

variable {allowed : ResponseDecoder → Call → Prop} {d d' : ResponseDecoder} {call : Call}
  {o : Ending} {calls : List (Call × Ending)} {fuel : Nat}

theorem dead_invalid : Dead invalid := by
  refine ⟨Nat.zero_lt_succ _, ⟨_, 1, rfl⟩, ?_⟩
  rintro ⟨domainName, -, hsize⟩
  exact absurd hsize (by simp [invalid])

theorem holdsQuestion_of_questionEntry {v : DecodeQuestionEntrySuccess}
    (h : d.consumeQuestionEntry fuel = some (.ok v, d')) : HoldsQuestion d := by
  obtain ⟨domainName, qtype, qclass, remaining, remaining', hname, hqtype, hqclass, -, -⟩ :=
    consumeQuestionEntry_ok.mp h
  obtain ⟨h₁, -, rfl⟩ := consumeOctets_eq_some.mp hqtype
  obtain ⟨h₂, -, -⟩ := consumeOctets_eq_some.mp hqclass
  refine ⟨domainName, ⟨fuel, hname⟩, ?_⟩
  simp only [Span.subspan] at h₁ h₂
  omega

theorem holdsQuestion_of_resourceRecord {v : ResourceRecord}
    (h : d.consumeResourceRecord fuel = some (.ok v, d')) : HoldsQuestion d := by
  obtain ⟨⟨e, he⟩, -⟩ | ⟨domainName, rtype, ttl, rdlen, remaining, hframed⟩ :=
    consumeResourceRecord_cases h
  · cases he
  · obtain ⟨remaining₁, rclass, remaining₂, remaining₃, hrtype, hrclass, -, -⟩ := hframed.fields
    obtain ⟨h₁, -, rfl⟩ := consumeOctets_eq_some.mp hrtype
    obtain ⟨h₂, -, -⟩ := consumeOctets_eq_some.mp hrclass
    refine ⟨domainName, ⟨fuel, hframed.name⟩, ?_⟩
    simp only [Span.subspan] at h₁ h₂
    omega

theorem questionEntry_of_holds (h : HoldsQuestion d) :
    ∃ d', Returns d .questionEntry .ok d' := by
  obtain ⟨domainName, ⟨fuel, hname⟩, hsize⟩ := h
  have h₁ : consume2Octets (d.remainingMessage.subspan domainName.bytesToConsume) = some _ :=
    consumeOctets_eq_some.mpr ⟨by simp only [Span.subspan]; omega, rfl, rfl⟩
  have h₂ : consume2Octets
      ((d.remainingMessage.subspan domainName.bytesToConsume).subspan 2) = some _ :=
    consumeOctets_eq_some.mpr ⟨by simp only [Span.subspan]; omega, rfl, rfl⟩
  exact ⟨_, .questionEntry (consumeQuestionEntry_ok.mpr
    ⟨domainName, _, _, _, _, hname, h₁, h₂, rfl, rfl⟩)⟩

theorem Dead.fails (h : Dead d) (hr : Returns d call o d') : o = .error ∧ Dead d' := by
  cases hr with
  | header =>
    rw [consumeHeader, if_pos h.short]
    exact ⟨rfl, h⟩
  | @questionEntry _ _ r hr =>
    cases r with
    | error e => exact ⟨rfl, consumeQuestionEntry_error hr ▸ dead_invalid⟩
    | ok v => exact absurd (holdsQuestion_of_questionEntry hr) h.noQuestion
  | @resourceRecord _ _ r hr =>
    cases r with
    | error e => exact ⟨rfl, consumeResourceRecord_error hr ▸ dead_invalid⟩
    | ok v => exact absurd (holdsQuestion_of_resourceRecord hr) h.noQuestion

theorem questionEntry_ends (h : Halts NameParser.step (parseDomainName d.remainingMessage)) :
    ∃ fuel, d.consumeQuestionEntry fuel ≠ none := by
  obtain ⟨r, fuel, hname⟩ := h
  refine ⟨fuel, fun hnone => ?_⟩
  rw [consumeQuestionEntry, runParseDomainName, hname] at hnone
  cases r with
  | error e => cases hnone
  | ok domainName =>
    dsimp only at hnone
    split at hnone
    · cases hnone
    · split at hnone <;> cases hnone

theorem Dead.resourceRecord_ends (h : Dead d) : ∃ fuel, d.consumeResourceRecord fuel ≠ none := by
  obtain ⟨r, fuel, hname⟩ := h.ends
  refine ⟨fuel, fun hnone => ?_⟩
  rw [consumeResourceRecord, runParseDomainName, hname] at hnone
  cases r with
  | error e => cases hnone
  | ok domainName =>
    dsimp only at hnone
    split at hnone
    · cases hnone
    · rename_i rtype remaining hrtype
      split at hnone
      · cases hnone
      · rename_i rclass remaining' hrclass
        obtain ⟨h₁, -, rfl⟩ := consumeOctets_eq_some.mp hrtype
        obtain ⟨h₂, -, -⟩ := consumeOctets_eq_some.mp hrclass
        simp only [Span.subspan] at h₁ h₂
        exact h.noQuestion ⟨domainName, ⟨fuel, hname⟩, by omega⟩

theorem Dead.not_endless (h : Dead d) (call : Call) : ¬Endless d call := by
  intro hendless
  cases call with
  | header => exact hendless
  | questionEntry =>
    obtain ⟨fuel, hends⟩ := questionEntry_ends h.ends
    exact hends (hendless fuel)
  | resourceRecord =>
    obtain ⟨fuel, hends⟩ := h.resourceRecord_ends
    exact hends (hendless fuel)

theorem Dead.all_fail (h : Dead d) (hc : Calls allowed d calls d') :
    ∀ c ∈ calls, c.2 = .error := by
  induction hc with
  | nil => exact fun c hc => absurd hc List.not_mem_nil
  | cons _ hr _ ih =>
    obtain ⟨rfl, hdead⟩ := h.fails hr
    exact List.forall_mem_cons.mpr ⟨rfl, ih hdead⟩
  | stuck _ hendless => exact absurd hendless (h.not_endless _)

theorem dead_of_failure (hr : Returns d call .error d') (hs : HeaderSafe d call) : Dead d' := by
  generalize hok : Ending.error = o at hr
  cases hr with
  | header =>
    cases hh : d.consumeHeader with
    | mk r d' =>
      rw [hh] at hok
      cases r with
      | error e =>
        obtain ⟨hshort, rfl⟩ := consumeHeader_error hh
        exact hs rfl hshort
      | ok v => cases hok
  | @questionEntry _ _ r hr =>
    cases r with
    | error e => exact consumeQuestionEntry_error hr ▸ dead_invalid
    | ok v => cases hok
  | @resourceRecord _ _ r hr =>
    cases r with
    | error e => exact consumeResourceRecord_error hr ▸ dead_invalid
    | ok v => cases hok

theorem latched_of_headerSafe (hc : Calls HeaderSafe d calls d') : Latched calls := by
  induction hc with
  | nil => exact .nil
  | @cons _ _ _ call o rest hs hr hrest ih =>
    refine List.pairwise_cons.mpr ⟨?_, ih⟩
    rintro c hc rfl
    exact (dead_of_failure hr hs).all_fail hrest c hc
  | stuck => exact List.pairwise_singleton _ _

def anyCall (_ : ResponseDecoder) (_ : Call) : Prop := True

theorem header_fails (hshort : d.remainingMessage.size < 12) : Returns d .header .error d := by
  have hr := Returns.header d
  rwa [consumeHeader, if_pos hshort] at hr

theorem endless_of_not_halts
    (h : ¬Halts NameParser.step (parseDomainName d.remainingMessage)) :
    Endless d .questionEntry := by
  intro fuel
  have hname : runParseDomainName fuel d.remainingMessage = none := by
    rw [Option.eq_none_iff_forall_ne_some]
    exact fun r hr => h ⟨r, fuel, hr⟩
  rw [consumeQuestionEntry, hname]

theorem not_latched_of_not_dead (hshort : d.remainingMessage.size < 12) (h : ¬Dead d) :
    ∃ calls d', Calls anyCall d calls d' ∧ ¬ Latched calls := by
  by_cases hends : Halts NameParser.step (parseDomainName d.remainingMessage)
  · have hholds : HoldsQuestion d := not_not.mp fun hnone => h ⟨hshort, hends, hnone⟩
    obtain ⟨d', hq⟩ := questionEntry_of_holds hholds
    refine ⟨_, d', .cons trivial (header_fails hshort) (.cons trivial hq (.nil d')), fun hl => ?_⟩
    obtain ⟨hlatch, -⟩ := List.pairwise_cons.mp hl
    cases hlatch _ (List.mem_singleton.mpr rfl) rfl
  · refine ⟨_, d, .cons trivial (header_fails hshort)
      (.stuck trivial (endless_of_not_halts hends)), fun hl => ?_⟩
    obtain ⟨hlatch, -⟩ := List.pairwise_cons.mp hl
    cases hlatch _ (List.mem_singleton.mpr rfl) rfl

theorem decoder_failure_latches (message : Text) :
    (∀ calls d, Calls HeaderSafe (ofResponse message) calls d → Latched calls) ∧
      ∀ before d, Calls anyCall (ofResponse message) before d →
        d.remainingMessage.size < 12 → ¬Dead d →
        ∃ calls d', Calls anyCall d calls d' ∧ ¬ Latched calls :=
  ⟨fun _ _ => latched_of_headerSafe, fun _ _ _ => not_latched_of_not_dead⟩

theorem decoder_failure_unlatched : ¬ ∀ message calls d,
    Calls anyCall (ofResponse message) calls d → Latched calls := by
  intro h
  have hholds : HoldsQuestion (ofResponse [0, 0, 1, 0, 1]) :=
    ⟨⟨1, 0⟩, ⟨3, by decide +kernel⟩, by decide +kernel⟩
  obtain ⟨calls, d', hc, hl⟩ := not_latched_of_not_dead (by decide +kernel)
    fun hdead : Dead (ofResponse [0, 0, 1, 0, 1]) => hdead.noQuestion hholds
  exact hl (h _ calls d' hc)

end Corosig.Dns.Protocol
