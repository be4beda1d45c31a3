import Corosig.Io.Dns.CacheContents
import Corosig.Io.Dns.ResolveName
import Corosig.Io.Dns.Validation

namespace Corosig.Dns.Protocol
open CompressedNames Loop

variable {message : Text} {fuel n m : Nat} {d d' d'' : ResponseDecoder}

inductive ReadsWithin (fuel : Nat) : ResponseDecoder → List ResourceRecord → ResponseDecoder → Prop
  | nil (d : ResponseDecoder) : ReadsWithin fuel d [] d
  | cons {d d' d'' : ResponseDecoder} {rr : ResourceRecord} {rrs : List ResourceRecord} :
      d.consumeResourceRecord fuel = some (.ok rr, d') → ReadsWithin fuel d' rrs d'' →
      ReadsWithin fuel d (rr :: rrs) d''

def Reads (d : ResponseDecoder) (rrs : List ResourceRecord) (d' : ResponseDecoder) : Prop :=
  ∃ fuel, ReadsWithin fuel d rrs d'

def Validates (header : Header) (d : ResponseDecoder) (question : Question)
    (d' : ResponseDecoder) : Prop :=
  ∃ fuel, validateResponse fuel header d question = some (.ok (), d')

variable {rr : ResourceRecord} {rrs rrs' : List ResourceRecord} {header : Header}
  {question : Question}

theorem ReadsWithin.mono (hnm : n ≤ m) (h : ReadsWithin n d rrs d') : ReadsWithin m d rrs d' := by
  induction h with
  | nil d => exact .nil d
  | cons hrr _ ih => exact .cons (consumeResourceRecord_mono hnm hrr) ih

theorem readsWithin_append : ReadsWithin fuel d (rrs ++ rrs') d'' ↔
    ∃ d', ReadsWithin fuel d rrs d' ∧ ReadsWithin fuel d' rrs' d'' := by
  constructor
  · intro h
    induction rrs generalizing d with
    | nil => exact ⟨d, .nil d, h⟩
    | cons rr rrs ih =>
      cases h with
      | cons hrr hrest =>
        obtain ⟨d', hrrs, hrrs'⟩ := ih hrest
        exact ⟨d', .cons hrr hrrs, hrrs'⟩
  · rintro ⟨d', hrrs, hrrs'⟩
    induction hrrs with
    | nil d => exact hrrs'
    | cons hrr _ ih => exact .cons hrr (ih hrrs')

theorem Validates.settled (h : Validates header d question d') :
    ∃ n, ∀ m, n ≤ m → validateResponse m header d question = some (.ok (), d') := by
  obtain ⟨n, hn⟩ := h
  obtain ⟨hrcode, hqr, htc, hqdcount, entry, hentry, ⟨k, hlabels⟩, hqclass, hqtype⟩ :=
    validateResponse_ok hn
  refine ⟨max n k, fun m hm => ?_⟩
  obtain ⟨_, _, _, _, _, hname, htype, hclass, rfl, rfl⟩ :=
    ResponseDecoder.consumeQuestionEntry_ok.mp hentry
  have hentry' := ResponseDecoder.consumeQuestionEntry_ok.mpr
    ⟨_, _, _, _, _, run_mono hname ((Nat.le_max_left n k).trans hm), htype, hclass, rfl, rfl⟩
  have hlabels' := run_mono hlabels ((Nat.le_max_right n k).trans hm)
  rw [validateResponse, if_neg (not_not.mpr hrcode), if_neg (not_not.mpr hqr), if_neg htc,
    if_neg (not_not.mpr hqdcount), hentry']
  simp only [hlabels']
  exact if_neg (by
    rintro (hne | hne | hne)
    · exact hne rfl
    · exact hne hqclass
    · exact hne hqtype)

theorem consumeResourceRecords_ok {count : Nat} :
    consumeResourceRecords fuel count d = some (.ok (), d') ↔
      ∃ rrs, rrs.length = count ∧ ReadsWithin fuel d rrs d' := by
  induction count generalizing d with
  | zero =>
    rw [consumeResourceRecords]
    constructor
    · rintro ⟨⟩
      exact ⟨[], rfl, .nil _⟩
    · rintro ⟨rrs, hlen, h⟩
      obtain rfl := List.eq_nil_of_length_eq_zero hlen
      cases h
      rfl
  | succ count ih =>
    rw [consumeResourceRecords]
    constructor
    · intro h
      split at h
      · cases h
      · cases h
      · rename_i rr d₁ hrr
        obtain ⟨rrs, hlen, hrest⟩ := ih.mp h
        exact ⟨rr :: rrs, congrArg (· + 1) hlen, .cons hrr hrest⟩
    · rintro ⟨rrs, hlen, h⟩
      cases h with
      | nil => cases hlen
      | cons hrr hrest =>
        rw [hrr]
        exact ih.mpr ⟨_, Nat.succ.inj hlen, hrest⟩

theorem voidConsumeNsArRrs_ok :
    (∃ d', voidConsumeNsArRrs fuel header d = some (.ok (), d')) ↔
      ∃ rrs d', rrs.length = header.nscount.toNat + header.arcount.toNat ∧
        ReadsWithin fuel d rrs d' := by
  constructor
  · rintro ⟨d', h⟩
    unfold voidConsumeNsArRrs at h
    split at h
    · cases h
    · cases h
    · rename_i d₁ hns
      obtain ⟨ns, hnsLen, hns⟩ := consumeResourceRecords_ok.mp hns
      obtain ⟨ar, harLen, har⟩ := consumeResourceRecords_ok.mp h
      refine ⟨ns ++ ar, d', ?_, readsWithin_append.mpr ⟨d₁, hns, har⟩⟩
      rw [List.length_append, hnsLen, harLen]
  · rintro ⟨rrs, d', hlen, h⟩
    rw [← List.take_append_drop header.nscount.toNat rrs] at h
    obtain ⟨d₁, hns, har⟩ := readsWithin_append.mp h
    refine ⟨d', ?_⟩
    rw [voidConsumeNsArRrs,
      consumeResourceRecords_ok.mpr ⟨_, by rw [List.length_take]; omega, hns⟩]
    exact consumeResourceRecords_ok.mpr ⟨_, by rw [List.length_drop]; omega, har⟩

def RData.seen : RData → Dns.RData Ipv4Addr Ipv6Addr
  | .ipv4 addr => .ipv4 addr
  | .ipv6 addr => .ipv6 addr
  | _ => .other

def ResourceRecord.seen (rr : ResourceRecord) : Dns.ResourceRecord Ipv4Addr Ipv6Addr :=
  ⟨rr.rdata.seen, rr.ttl.toNat * ticksPerSecond⟩

abbrev Address (f : IpFamily) : Type := f.Addr Ipv4Addr Ipv6Addr

def accepts : (f : IpFamily) → RData → Option (Address f)
  | .v4, .ipv4 addr => some addr
  | .v6, .ipv6 addr => some addr
  | _, _ => none

def dnsQuestion : (f : IpFamily) → Dns.Question Ipv4Addr Ipv6Addr (Address f)
  | .v4 => questionA
  | .v6 => questionAaaa

theorem dnsQuestion_accepts (f : IpFamily) (rdata : RData) :
    (dnsQuestion f).accepts rdata.seen = accepts f rdata := by
  cases f <;> cases rdata <;> rfl

def pendingRequest (f : IpFamily) (question : Question) (sendTime : Int)
    (out : List (ResolvedAddress (Address f))) : PendingRequest (Address f) where
  question := question
  accepts := accepts f
  sendTime := sendTime
  out := out

def addresses (f : IpFamily) (sendTime : Int) (answers : List ResourceRecord) :
    List (ResolvedAddress (Address f)) :=
  answers.filterMap fun rr =>
    (accepts f rr.rdata).map (⟨·, sendTime + rr.ttl.toNat * ticksPerSecond⟩)

variable {f : IpFamily} {sendTime : Int} {out out' out₀ : List (ResolvedAddress (Address f))}

theorem accepted_seen (answers : List ResourceRecord) :
    accepted (dnsQuestion f) sendTime (answers.map fun rr => some rr.seen) =
      addresses f sendTime answers := by
  rw [accepted, addresses, List.filterMap_map]
  refine List.filterMap_congr fun rr _ => ?_
  exact congrArg (Option.map _) (dnsQuestion_accepts f rr.rdata)

theorem processAnswers_ok {count k : Nat} :
    processAnswers fuel (pendingRequest f question sendTime out₀) count n d out =
        some (.ok k, d', out') ↔
      ∃ rrs, rrs.length = count ∧ ReadsWithin fuel d rrs d' ∧
        fillAnswers (dnsQuestion f) sendTime (rrs.map fun rr => some rr.seen) n out =
          (out', some k) := by
  induction count generalizing n d out with
  | zero =>
    rw [processAnswers]
    constructor
    · rintro ⟨⟩
      exact ⟨[], rfl, .nil _, rfl⟩
    · rintro ⟨rrs, hlen, h, hfill⟩
      obtain rfl := List.eq_nil_of_length_eq_zero hlen
      cases h
      cases hfill
      rfl
  | succ count ih =>
    have hrecord : ∀ rr d₁, d.consumeResourceRecord fuel = some (.ok rr, d₁) →
        (processAnswers fuel (pendingRequest f question sendTime out₀) (count + 1) n d out =
            some (.ok k, d', out') ↔
          ∃ rrs, rrs.length = count ∧ ReadsWithin fuel d₁ rrs d' ∧
            fillAnswers (dnsQuestion f) sendTime ((rr :: rrs).map fun rr => some rr.seen) n out =
              (out', some k)) := by
      intro rr d₁ hrr
      have haccepts : (pendingRequest f question sendTime out₀).accepts rr.rdata =
          (dnsQuestion f).accepts rr.rdata.seen := (dnsQuestion_accepts f rr.rdata).symm
      simp only [processAnswers, hrr, haccepts, List.map_cons, fillAnswers]
      split
      · exact ih
      · have hseen : rr.seen.rdata = rr.rdata.seen := rfl
        rw [hseen]
        cases (dnsQuestion f).accepts rr.rdata.seen with
        | none => exact ih
        | some addr => exact ih
    constructor
    · intro h
      cases hrr : d.consumeResourceRecord fuel with
      | none => simp [processAnswers, hrr] at h
      | some r =>
        obtain ⟨e | rr, d₁⟩ := r
        · simp [processAnswers, hrr] at h
        · obtain ⟨rrs, hlen, hrest, hfill⟩ := (hrecord rr d₁ hrr).mp h
          exact ⟨rr :: rrs, congrArg (· + 1) hlen, .cons hrr hrest, hfill⟩
    · rintro ⟨rrs, hlen, h, hfill⟩
      cases h with
      | nil => cases hlen
      | cons hrr hrest => exact (hrecord _ _ hrr).mpr ⟨_, Nat.succ.inj hlen, hrest, hfill⟩

theorem fillAnswers_seen (answers : List ResourceRecord) (hn : n = min out.length
    (addresses f sendTime answers).length) :
    fillAnswers (dnsQuestion f) sendTime (answers.map fun rr => some rr.seen) 0 out =
      ((addresses f sendTime answers).take n ++ out.drop n, some n) := by
  have hall : (answers.map fun rr => some rr.seen).all Option.isSome := by
    rw [List.all_map, List.all_eq_true]
    exact fun _ _ => rfl
  rw [fillAnswers_spec hall (Nat.zero_le _), accepted_seen]
  simp only [List.take_zero, List.nil_append, Nat.sub_zero, Nat.zero_add, List.length_take, ← hn]
  rw [List.take_eq_take_min, ← hn]

def Stores (request : PendingRequest (Address f)) (header : Header) (d : ResponseDecoder)
    (result : Except ResolveError Nat) (out : List (ResolvedAddress (Address f))) : Prop :=
  ∃ fuel request', processServerAnswer fuel request header d = some request' ∧
    request'.result = some result ∧ request'.out = out

theorem processServerAnswer_stores {request : PendingRequest (Address f)}
    {result : Except ResolveError Nat} :
    Stores request header d result out ↔
      ∃ fuel, processServerAnswerImpl fuel request header d = some (result, out) := by
  constructor
  · rintro ⟨fuel, request', h, rfl', rfl⟩
    unfold processServerAnswer at h
    split at h
    · cases h
    · rename_i result' out' himpl
      cases h
      exact ⟨fuel, himpl.trans (by cases rfl'; rfl)⟩
  · rintro ⟨fuel, h⟩
    exact ⟨fuel, _, by rw [processServerAnswer, h], rfl, rfl⟩

theorem processServerAnswerImpl_ok :
    (∃ fuel, processServerAnswerImpl fuel (pendingRequest f question sendTime out) header d =
      some (.ok n, out')) ↔
      ∃ d₁ d₂ d₃ answers others, Validates header d question d₁ ∧
        Reads d₁ answers d₂ ∧ answers.length = header.ancount.toNat ∧
        Reads d₂ others d₃ ∧ others.length = header.nscount.toNat + header.arcount.toNat ∧
        n = min out.length (addresses f sendTime answers).length ∧
        out' = (addresses f sendTime answers).take n ++ out.drop n := by
  constructor
  · rintro ⟨fuel, h⟩
    unfold processServerAnswerImpl at h
    split at h
    · cases h
    · cases h
    · rename_i d₁ hvalid
      split at h
      · cases h
      · cases h
      · rename_i k d₂ filled hanswers
        split at h
        · cases h
        · cases h
        · rename_i d₃ hothers
          obtain ⟨answers, hlen, hreads, hfill⟩ := processAnswers_ok.mp hanswers
          obtain ⟨others, d₄, hlen', hreads'⟩ := voidConsumeNsArRrs_ok.mp ⟨d₃, hothers⟩
          rw [fillAnswers_seen answers rfl] at hfill
          cases h
          cases hfill
          exact ⟨d₁, d₂, d₄, answers, others, ⟨fuel, hvalid⟩, ⟨fuel, hreads⟩, hlen,
            ⟨fuel, hreads'⟩, hlen', rfl, rfl⟩
  · rintro ⟨d₁, d₂, d₃, answers, others, hvalid, ⟨n₁, hreads⟩, hlen, ⟨n₂, hreads'⟩, hlen', hn,
      rfl⟩
    obtain ⟨n₀, hvalid⟩ := hvalid.settled
    let fuel := max n₀ (max n₁ n₂)
    have hanswers : processAnswers fuel (pendingRequest f question sendTime out)
        header.ancount.toNat 0 d₁ out =
          some (.ok n, d₂, (addresses f sendTime answers).take n ++ out.drop n) :=
      processAnswers_ok.mpr
        ⟨answers, hlen, hreads.mono (by omega), fillAnswers_seen answers hn⟩
    obtain ⟨d₄, hothers⟩ := voidConsumeNsArRrs_ok.mpr
      ⟨others, d₃, hlen', hreads'.mono (m := fuel) (by omega)⟩
    refine ⟨fuel, ?_⟩
    simp only [processServerAnswerImpl, pendingRequest] at hanswers ⊢
    rw [hvalid fuel (Nat.le_max_left _ _)]
    simp only [hanswers, hothers]

theorem stores_ok_iff (f : IpFamily) (question : Question) (sendTime : Int)
    (out out' : List (ResolvedAddress (Address f))) (header : Header) (d : ResponseDecoder)
    (n : Nat) :
    Stores (pendingRequest f question sendTime out) header d (.ok n) out' ↔
      ∃ d₁ d₂ d₃ answers others, Validates header d question d₁ ∧
        Reads d₁ answers d₂ ∧ answers.length = header.ancount.toNat ∧
        Reads d₂ others d₃ ∧ others.length = header.nscount.toNat + header.arcount.toNat ∧
        n = min out.length (addresses f sendTime answers).length ∧
        out' = (addresses f sendTime answers).take n ++ out.drop n :=
  processServerAnswer_stores.trans processServerAnswerImpl_ok

end Corosig.Dns.Protocol
