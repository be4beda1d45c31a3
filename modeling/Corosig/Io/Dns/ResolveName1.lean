import Corosig.Io.Dns.Answers

namespace Corosig.Dns.Protocol

inductive SendFailure where
  | allocation
  | syscall (errno : Nat)
  deriving DecidableEq, Repr

inductive ResolveFailure where
  | send (e : SendFailure)
  | resolve (e : ResolveError)
  | encode (e : QuestionEncodeError)
  deriving DecidableEq, Repr

-- What befalls a request that waits: a round of its sender, the failure of one, or a datagram,
-- where the receiver may find another request with the same id first.
inductive Arrival where
  | sending (now : Int)
  | sendFailed (e : SendFailure)
  | received (responseBuf : Text) (found : Bool)
  deriving DecidableEq, Repr

structure Network where
  frames : Bool := true
  pendingRequests : Nat := 0
  servers : Nat
  id : BitVec 16
  hash : Text → BitVec 16
  alloc : Nat → Bool
  arrivals : List Arrival

inductive Settlement where
  | waiting
  | failed (e : SendFailure)
  | answered (sendTime : Int) (header : Header) (d : ResponseDecoder)

def queryType : IpFamily → QueryType
  | .v4 => 1
  | .v6 => 28

def responseBufSize : Nat := 512

def settle (id : BitVec 16) : Int → List Arrival → Settlement
  | _, [] => .waiting
  | _, .sending now :: rest => settle id now rest
  | _, .sendFailed e :: _ => .failed e
  | sendTime, .received responseBuf found :: rest =>
      match (ResponseDecoder.ofResponse (responseBuf.take responseBufSize)).consumeHeader with
      | (.error _, _) => settle id sendTime rest
      | (.ok header, d) =>
          if header.id = id ∧ found then .answered sendTime header d else settle id sendTime rest

abbrev Addrs (f : IpFamily) : Type := List (ResolvedAddress (Address f))

def Network.question (n : Network) (f : IpFamily) (asciiName : Text) : Question where
  id := n.id
  name := asciiName
  qtype := queryType f

def noAnswersGiven : ResolveFailure := .resolve (.code .noAnswersGiven)

def resolveName (fuel : Nat) (f : IpFamily) (n : Network) (asciiName : Text) (out : Addrs f) :
    Option (Except ResolveFailure Nat × Addrs f) :=
  if ¬n.frames then some (.error (.send .allocation), out)
  else if n.pendingRequests = 65535 then
    some (.error (.resolve (.code .tooManyParallelRequests)), out)
  else if n.servers = 0 then some (.error (.resolve (.code .noServersProvided)), out)
  else
    let question := n.question f asciiName
    match encodeQuestion n.hash n.alloc question with
    | .error e => some (.error (.encode e), out)
    | .ok _ =>
        match settle n.id 0 n.arrivals with
        | .waiting => none
        | .failed e => some (.error (.send e), out)
        | .answered sendTime header d =>
            match processServerAnswerImpl fuel (pendingRequest f question sendTime out) header d with
            | none => none
            | some (.error e, out) => some (.error (.resolve e), out)
            | some (.ok filled, out) => some (.ok filled, out)

def CachelessResolver.resolveName1 (fuel : Nat) (f : IpFamily) (n : Network) (asciiName : Text)
    (addr : ResolvedAddress (Address f)) :
    Option (Except ResolveFailure (ResolvedAddress (Address f))) :=
  match resolveName fuel f n asciiName [addr] with
  | none => none
  | some (.error e, _) => some (.error e)
  | some (.ok resolved, out) =>
      if resolved ≠ 1 then some (.error noAnswersGiven) else some (.ok (out.headD addr))

-- An immutable cache prunes nothing and drops what is pushed. A pull that fails gives no count,
-- and may have written to the span, as one that finds nothing may.
structure ACache (σ IP : Type) where
  prune : σ → σ
  pull : σ → Text → List (ResolvedAddress IP) → Option Nat × List (ResolvedAddress IP)
  push : σ → Text → List (ResolvedAddress IP) → σ
  pull_length : ∀ c asciiName out, (pull c asciiName out).2.length = out.length

def ACache.Lacks {σ IP : Type} (cache : ACache σ IP) (c : σ) (asciiName : Text) : Prop :=
  ∀ out, (cache.pull (cache.prune c) asciiName out).1.getD 0 = 0

namespace Resolver

variable {σ : Type}

def resolveNameImpl (fuel : Nat) (f : IpFamily) (cache : ACache σ (Address f))
    (meanwhile : σ → σ) (c : σ) (n : Network) (asciiName : Text) (out : Addrs f) :
    Option (Except ResolveFailure Nat × Addrs f × σ) :=
  let c := cache.prune c
  let (pullRes, out) := cache.pull c asciiName out
  if pullRes.getD 0 ≠ 0 then some (.ok (pullRes.getD 0), out, c)
  else
    let c := meanwhile c
    match resolveName fuel f n asciiName out with
    | none => none
    | some (.error e, out) => some (.error e, out, c)
    | some (.ok resolvedNames, out) => some (.ok resolvedNames, out, cache.push c asciiName out)

def resolveName1 (fuel : Nat) (f : IpFamily) (cache : ACache σ (Address f)) (meanwhile : σ → σ)
    (c : σ) (n : Network) (asciiName : Text) (addr : ResolvedAddress (Address f)) :
    Option (Except ResolveFailure (ResolvedAddress (Address f))) :=
  match resolveNameImpl fuel f cache meanwhile c n asciiName [addr] with
  | none => none
  | some (.error e, _) => some (.error e)
  | some (.ok _, out, _) => some (.ok (out.headD addr))

end Resolver

variable {fuel : Nat} {f : IpFamily} {n : Network} {asciiName : Text} {question : Question}
  {header : Header} {d : ResponseDecoder} {out out' : Addrs f}

def Answered (question : Question) (header : Header) (d : ResponseDecoder)
    (answers : List ResourceRecord) : Prop :=
  ∃ d₁ d₂ d₃ others, Validates header d question d₁ ∧
    Reads d₁ answers d₂ ∧ answers.length = header.ancount.toNat ∧
    Reads d₂ others d₃ ∧ others.length = header.nscount.toNat + header.arcount.toNat

def Network.Asks (n : Network) (f : IpFamily) (asciiName : Text) : Prop :=
  n.frames ∧ n.pendingRequests ≠ 65535 ∧ n.servers ≠ 0 ∧
    ∃ octets, encodeQuestion n.hash n.alloc (n.question f asciiName) = .ok octets

def Network.Accepts (n : Network) (f : IpFamily) (asciiName : Text) (sendTime : Int)
    (answers : List ResourceRecord) : Prop :=
  n.Asks f asciiName ∧ ∃ header d, settle n.id 0 n.arrivals = .answered sendTime header d ∧
    Answered (n.question f asciiName) header d answers

def checkAnswer (fuel : Nat) (question : Question) (header : Header) (d : ResponseDecoder) :
    Option (Except ResolveError Unit) :=
  match validateResponse fuel header d question with
  | none => none
  | some (.error e, _) => some (.error e)
  | some (.ok (), d) =>
      match consumeResourceRecords fuel header.ancount.toNat d with
      | none => none
      | some (.error e, _) => some (.error e)
      | some (.ok (), d) => (voidConsumeNsArRrs fuel header d).map Prod.fst

def status {ε α β : Type} (r : Except ε α × β) : Except ε Unit := r.1.map fun _ => ()

theorem processAnswers_consumes (request : PendingRequest (Address f)) (count k : Nat)
    (d : ResponseDecoder) (out : Addrs f) :
    (processAnswers fuel request count k d out).map (fun r => (status r, r.2.1)) =
      consumeResourceRecords fuel count d := by
  induction count generalizing k d out with
  | zero => rfl
  | succ count ih =>
    rw [processAnswers, consumeResourceRecords]
    cases d.consumeResourceRecord fuel with
    | none => rfl
    | some r =>
      obtain ⟨e | rr, d'⟩ := r
      · rfl
      · dsimp only
        split
        · exact ih k d' out
        · split
          · exact ih _ d' _
          · exact ih k d' out

theorem processServerAnswerImpl_status (request : PendingRequest (Address f)) :
    (processServerAnswerImpl fuel request header d).map status =
      checkAnswer fuel request.question header d := by
  rw [processServerAnswerImpl, checkAnswer]
  cases validateResponse fuel header d request.question with
  | none => rfl
  | some r =>
    obtain ⟨e | _, d₁⟩ := r
    · rfl
    · have hconsumes := @processAnswers_consumes fuel f request header.ancount.toNat 0 d₁ request.out
      dsimp only
      rw [← hconsumes]
      cases processAnswers fuel request header.ancount.toNat 0 d₁ request.out with
      | none => rfl
      | some r =>
        obtain ⟨e | k, d₂, out⟩ := r
        · rfl
        · dsimp only [Option.map_some, status, Except.map]
          cases voidConsumeNsArRrs fuel header d₂ with
          | none => rfl
          | some r =>
            obtain ⟨e | _, d₃⟩ := r
            · rfl
            · rfl

def delivered (r : Except ResolveError Nat × Addrs f) : Except ResolveFailure Nat × Addrs f :=
  (r.1.mapError .resolve, r.2)

theorem status_delivered (r : Except ResolveError Nat × Addrs f) :
    status (delivered r) = (status r).mapError .resolve := by
  obtain ⟨e | k, out⟩ := r
  · rfl
  · rfl

theorem resolveName_answered {sendTime : Int} (hasks : n.Asks f asciiName)
    (hsettle : settle n.id 0 n.arrivals = .answered sendTime header d) (out : Addrs f) :
    resolveName fuel f n asciiName out = (processServerAnswerImpl fuel
      (pendingRequest f (n.question f asciiName) sendTime out) header d).map delivered := by
  obtain ⟨hframes, hpending, hservers, octets, hencoded⟩ := hasks
  rw [resolveName, if_neg (not_not.mpr hframes), if_neg hpending, if_neg hservers]
  simp only [hencoded, hsettle]
  rcases processServerAnswerImpl fuel (pendingRequest f (n.question f asciiName) sendTime out)
    header d with _ | ⟨e | k, filled⟩
  · rfl
  · rfl
  · rfl

theorem resolveName_cases (fuel : Nat) (f : IpFamily) (n : Network) (asciiName : Text) :
    (∃ sendTime header d, n.Asks f asciiName ∧
      settle n.id 0 n.arrivals = .answered sendTime header d) ∨
    (∀ out, resolveName fuel f n asciiName out = none) ∨
    ∃ e, e ≠ noAnswersGiven ∧ ∀ out, resolveName fuel f n asciiName out = some (.error e, out) := by
  unfold resolveName
  split
  · exact .inr (.inr ⟨_, by rintro ⟨⟩, fun _ => rfl⟩)
  rename_i hframes
  split
  · exact .inr (.inr ⟨_, by rintro ⟨⟩, fun _ => rfl⟩)
  rename_i hpending
  split
  · exact .inr (.inr ⟨_, by rintro ⟨⟩, fun _ => rfl⟩)
  rename_i hservers
  dsimp only
  cases hencoded : encodeQuestion n.hash n.alloc (n.question f asciiName) with
  | error e => exact .inr (.inr ⟨_, by rintro ⟨⟩, fun _ => rfl⟩)
  | ok octets =>
    cases hsettle : settle n.id 0 n.arrivals with
    | waiting => exact .inr (.inl fun _ => rfl)
    | failed e => exact .inr (.inr ⟨_, by rintro ⟨⟩, fun _ => rfl⟩)
    | answered sendTime header d =>
      exact .inl ⟨sendTime, header, d, ⟨not_not.mp hframes, hpending, hservers, octets, hencoded⟩,
        rfl⟩

theorem resolveName_status (out out' : Addrs f) :
    (resolveName fuel f n asciiName out).map status =
      (resolveName fuel f n asciiName out').map status := by
  obtain ⟨sendTime, header, d, hasks, hsettle⟩ | hwaits | ⟨e, -, hfailed⟩ :=
    resolveName_cases fuel f n asciiName
  · have hanswered : ∀ out : Addrs f, (resolveName fuel f n asciiName out).map status =
        (checkAnswer fuel (n.question f asciiName) header d).map (·.mapError .resolve) := by
      intro out
      have himpl := @processServerAnswerImpl_status fuel f header d
        (pendingRequest f (n.question f asciiName) sendTime out)
      rw [resolveName_answered hasks hsettle, Option.map_map]
      refine Eq.trans ?_ (congrArg (Option.map _) himpl)
      rw [Option.map_map]
      exact congrArg (Option.map · _) (funext status_delivered)
    rw [hanswered, hanswered]
  · rw [hwaits, hwaits]
  · rw [hfailed, hfailed]
    rfl

def Fails (f : IpFamily) (n : Network) (asciiName : Text) (e : ResolveFailure) : Prop :=
  ∃ fuel, (resolveName fuel f n asciiName []).map status = some (.error e)

theorem fails_iff (out : Addrs f) (e : ResolveFailure) : Fails f n asciiName e ↔
    ∃ fuel out', resolveName fuel f n asciiName out = some (.error e, out') := by
  refine exists_congr fun fuel => ?_
  rw [resolveName_status [] out]
  rcases resolveName fuel f n asciiName out with _ | ⟨e' | k, out'⟩ <;> simp [status, Except.map]

theorem consumeResourceRecords_error {count : Nat} {e : ResolveError} {d' : ResponseDecoder}
    (h : consumeResourceRecords fuel count d = some (.error e, d')) : ∃ e', e = .decode e' := by
  induction count generalizing d with
  | zero => cases h
  | succ count ih =>
    rw [consumeResourceRecords] at h
    split at h
    · cases h
    · cases h
      exact ⟨_, rfl⟩
    · exact ih h

theorem voidConsumeNsArRrs_error {e : ResolveError} {d' : ResponseDecoder}
    (h : voidConsumeNsArRrs fuel header d = some (.error e, d')) : ∃ e', e = .decode e' := by
  rw [voidConsumeNsArRrs] at h
  split at h
  · cases h
  · rename_i hns
    cases h
    exact consumeResourceRecords_error hns
  · exact consumeResourceRecords_error h

theorem validateResponse_error {e : ResolveError} {d' : ResponseDecoder}
    (h : validateResponse fuel header d question = some (.error e, d')) :
    e ≠ .code .noAnswersGiven := by
  unfold validateResponse at h
  rintro rfl
  split at h
  · cases h
  split at h
  · cases h
  split at h
  · cases h
  split at h
  · cases h
  split at h
  · cases h
  · cases h
  split at h
  · cases h
  split at h
  · cases h
  · cases h

theorem checkAnswer_error {e : ResolveError}
    (h : checkAnswer fuel question header d = some (.error e)) : e ≠ .code .noAnswersGiven := by
  rw [checkAnswer] at h
  split at h
  · cases h
  · rename_i hvalid
    cases h
    exact validateResponse_error hvalid
  · split at h
    · cases h
    · rename_i hanswers
      cases h
      obtain ⟨e', rfl⟩ := consumeResourceRecords_error hanswers
      rintro ⟨⟩
    · obtain ⟨⟨_, d'⟩, hothers, rfl⟩ := Option.map_eq_some_iff.mp h
      obtain ⟨e', rfl⟩ := voidConsumeNsArRrs_error hothers
      rintro ⟨⟩

theorem Fails.given {e : ResolveFailure} (h : Fails f n asciiName e) : e ≠ noAnswersGiven := by
  obtain ⟨fuel, out', h⟩ := (fails_iff [] e).mp h
  obtain ⟨sendTime, header, d, hasks, hsettle⟩ | hwaits | ⟨e', hgiven, hfailed⟩ :=
    resolveName_cases fuel f n asciiName
  · rw [resolveName_answered hasks hsettle] at h
    obtain ⟨⟨_ | k, filled⟩, himpl, hdelivered⟩ := Option.map_eq_some_iff.mp h
    · cases hdelivered
      have hstatus := congrArg (Option.map status) himpl
      rw [processServerAnswerImpl_status] at hstatus
      rintro ⟨⟩
      exact checkAnswer_error hstatus rfl
    · cases hdelivered
  · rw [hwaits] at h
    cases h
  · rw [hfailed] at h
    cases h
    exact hgiven

theorem resolveName_ok {k : Nat} :
    (∃ fuel, resolveName fuel f n asciiName out = some (.ok k, out')) ↔
      ∃ sendTime answers, n.Accepts f asciiName sendTime answers ∧
        k = min out.length (addresses f sendTime answers).length ∧
        out' = (addresses f sendTime answers).take k ++ out.drop k := by
  constructor
  · rintro ⟨fuel, h⟩
    obtain ⟨sendTime, header, d, hasks, hsettle⟩ | hwaits | ⟨e, -, hfailed⟩ :=
      resolveName_cases fuel f n asciiName
    · rw [resolveName_answered hasks hsettle] at h
      obtain ⟨⟨_ | k', filled⟩, himpl, hdelivered⟩ := Option.map_eq_some_iff.mp h
      · cases hdelivered
      · cases hdelivered
        obtain ⟨d₁, d₂, d₃, answers, others, hvalid, hreads, hlen, hreads', hlen', hk, hout⟩ :=
          processServerAnswerImpl_ok.mp ⟨fuel, himpl⟩
        exact ⟨sendTime, answers, ⟨hasks, header, d, hsettle, d₁, d₂, d₃, others, hvalid, hreads,
          hlen, hreads', hlen'⟩, hk, hout⟩
    · rw [hwaits] at h
      cases h
    · rw [hfailed] at h
      cases h
  · rintro ⟨sendTime, answers, ⟨hasks, header, d, hsettle, d₁, d₂, d₃, others, hvalid, hreads, hlen,
      hreads', hlen'⟩, hk, hout⟩
    obtain ⟨fuel, himpl⟩ := processServerAnswerImpl_ok.mpr
      ⟨d₁, d₂, d₃, answers, others, hvalid, hreads, hlen, hreads', hlen', hk, hout⟩
    refine ⟨fuel, ?_⟩
    rw [resolveName_answered hasks hsettle, himpl]
    rfl

def filled (x : ResolvedAddress (Address f)) : Addrs f → Nat × Addrs f
  | [] => (0, [x])
  | a :: _ => (1, [a])

theorem resolveName_one {x : ResolvedAddress (Address f)} {k : Nat} :
    (∃ fuel, resolveName fuel f n asciiName [x] = some (.ok k, out')) ↔
      ∃ sendTime answers, n.Accepts f asciiName sendTime answers ∧
        (k, out') = filled x (addresses f sendTime answers) := by
  refine resolveName_ok.trans (exists_congr fun sendTime => exists_congr fun answers =>
    and_congr_right fun _ => ?_)
  rw [← Prod.mk_inj]
  cases addresses f sendTime answers with
  | nil =>
    rw [filled, Prod.mk_inj, Prod.mk_inj]
    refine and_congr_right ?_
    rintro rfl
    exact Iff.rfl
  | cons a rest =>
    have hone : min [x].length (a :: rest).length = 1 :=
      Nat.min_eq_left (Nat.succ_le_succ (Nat.zero_le _))
    rw [hone, filled, Prod.mk_inj, Prod.mk_inj]
    refine and_congr_right ?_
    rintro rfl
    exact Iff.rfl

section Results

variable {addr : ResolvedAddress (Address f)}
  {r : Except ResolveFailure (ResolvedAddress (Address f))}

-- A call of resolve_name1 can come back with this result; one that waits for ever has none.
def CachelessResolver.Returns (f : IpFamily) (n : Network) (asciiName : Text)
    (addr : ResolvedAddress (Address f))
    (r : Except ResolveFailure (ResolvedAddress (Address f))) : Prop :=
  ∃ fuel, CachelessResolver.resolveName1 fuel f n asciiName addr = some r

theorem resolved_iff {x : ResolvedAddress (Address f)}
    {finish : Except ResolveFailure Nat × Addrs f →
      Except ResolveFailure (ResolvedAddress (Address f))}
    (hfinish : ∀ e out, finish (.error e, out) = .error e) :
    (∃ fuel, (resolveName fuel f n asciiName [x]).map finish = some r) ↔
      (∃ e, r = .error e ∧ Fails f n asciiName e) ∨
        ∃ sendTime answers, n.Accepts f asciiName sendTime answers ∧
          r = finish ((filled x (addresses f sendTime answers)).map .ok id) := by
  constructor
  · rintro ⟨fuel, h⟩
    obtain ⟨⟨e | k, out⟩, hresolved, rfl⟩ := Option.map_eq_some_iff.mp h
    · exact .inl ⟨e, hfinish e out, (fails_iff [x] e).mpr ⟨fuel, out, hresolved⟩⟩
    · obtain ⟨sendTime, answers, haccepts, hfilled⟩ := resolveName_one.mp ⟨fuel, hresolved⟩
      exact .inr ⟨sendTime, answers, haccepts, by rw [← hfilled]; rfl⟩
  · rintro (⟨e, rfl, hfails⟩ | ⟨sendTime, answers, haccepts, rfl⟩)
    · obtain ⟨fuel, out, hfailed⟩ := (fails_iff [x] e).mp hfails
      refine ⟨fuel, ?_⟩
      rw [hfailed, Option.map_some, hfinish]
    · obtain ⟨fuel, hresolved⟩ := resolveName_one.mpr ⟨sendTime, answers, haccepts, rfl⟩
      refine ⟨fuel, ?_⟩
      rw [hresolved]
      rfl

theorem CachelessResolver.resolveName1_eq (fuel : Nat) (f : IpFamily) (n : Network)
    (asciiName : Text) (addr : ResolvedAddress (Address f)) :
    CachelessResolver.resolveName1 fuel f n asciiName addr =
      (resolveName fuel f n asciiName [addr]).map fun r => r.1.bind fun resolved =>
        if resolved ≠ 1 then .error noAnswersGiven else .ok (r.2.headD addr) := by
  rw [CachelessResolver.resolveName1]
  rcases resolveName fuel f n asciiName [addr] with _ | ⟨e | k, out⟩
  · rfl
  · rfl
  · dsimp only [Option.map_some, Except.bind]
    split
    · rfl
    · rfl

theorem CachelessResolver.returns_iff : CachelessResolver.Returns f n asciiName addr r ↔
    (∃ e, r = .error e ∧ Fails f n asciiName e) ∨
      ∃ sendTime answers, n.Accepts f asciiName sendTime answers ∧
        match addresses f sendTime answers with
        | [] => r = .error noAnswersGiven
        | a :: _ => r = .ok a := by
  simp only [CachelessResolver.Returns, CachelessResolver.resolveName1_eq]
  refine (resolved_iff fun _ _ => rfl).trans (or_congr_right (exists_congr fun sendTime =>
    exists_congr fun answers => and_congr_right fun _ => ?_))
  cases addresses f sendTime answers with
  | nil => exact Iff.rfl
  | cons a rest => exact Iff.rfl

namespace Resolver

variable {σ : Type} {cache : ACache σ (Address f)} {meanwhile : σ → σ} {c : σ}

def Returns (f : IpFamily) (cache : ACache σ (Address f)) (meanwhile : σ → σ) (c : σ) (n : Network)
    (asciiName : Text) (addr : ResolvedAddress (Address f))
    (r : Except ResolveFailure (ResolvedAddress (Address f))) : Prop :=
  ∃ fuel, resolveName1 fuel f cache meanwhile c n asciiName addr = some r

theorem resolveName1_eq (meanwhile : σ → σ) (n : Network) (h : cache.Lacks c asciiName)
    (addr : ResolvedAddress (Address f)) :
    ∃ x, ∀ fuel, resolveName1 fuel f cache meanwhile c n asciiName addr =
      (resolveName fuel f n asciiName [x]).map fun r => r.1.map fun _ => r.2.headD addr := by
  obtain ⟨x, hx⟩ := List.length_eq_one_iff.mp (cache.pull_length (cache.prune c) asciiName [addr])
  refine ⟨x, fun fuel => ?_⟩
  rw [resolveName1, resolveNameImpl]
  dsimp only
  rw [if_neg (not_not.mpr (h [addr])), hx]
  rcases resolveName fuel f n asciiName [x] with _ | ⟨e | k, out⟩
  · rfl
  · rfl
  · rfl

theorem returns_iff (meanwhile : σ → σ) (n : Network) (h : cache.Lacks c asciiName)
    (addr : ResolvedAddress (Address f)) :
    ∃ x, ∀ r, Returns f cache meanwhile c n asciiName addr r ↔
      (∃ e, r = .error e ∧ Fails f n asciiName e) ∨
        ∃ sendTime answers, n.Accepts f asciiName sendTime answers ∧
          r = .ok ((addresses f sendTime answers).headD x) := by
  obtain ⟨x, hx⟩ := resolveName1_eq meanwhile n h addr
  refine ⟨x, fun r => ?_⟩
  simp only [Returns, hx]
  refine (resolved_iff fun _ _ => rfl).trans (or_congr_right (exists_congr fun sendTime =>
    exists_congr fun answers => and_congr_right fun _ => ?_))
  cases addresses f sendTime answers with
  | nil => exact Iff.rfl
  | cons a rest => exact Iff.rfl

end Resolver

end Results

theorem length_pulled {search : SortedKeys.Search Text} (now : Int)
    (c : MemoryCache Ipv4Addr Ipv6Addr) (out : Addrs f) :
    (c.pullImpl search f.family now asciiName out).1.length = out.length := by
  rw [MemoryCache.pullImpl_eq]
  have hle : (c.pull search f.family now asciiName out.length).length ≤ out.length := by
    rw [MemoryCache.pull]
    split
    · rw [MemoryCache.pullFrom_eq]
      exact List.length_take_le _ _
    · exact Nat.zero_le _
  simp only [List.length_append, List.length_drop]
  omega

-- MemoryCache as the cache of a Resolver, with the clock standing at now.
def memoryCache (search : SortedKeys.Search Text) (order : AddrSort) (alloc : Nat → Bool)
    (now : Int) (f : IpFamily) : ACache (MemoryCache Ipv4Addr Ipv6Addr) (Address f) where
  prune := MemoryCache.prune now
  pull c asciiName out :=
    let pulled := c.pullImpl search f.family now asciiName out
    (some pulled.2, pulled.1)
  push c asciiName out := (c.push search order f.family alloc now asciiName out).getD c
  pull_length c _ out := length_pulled now c out

def emptyAnswer : Network where
  servers := 1
  id := 7
  hash _ := 0
  alloc _ := true
  arrivals := [.sending 5, .received (reply 0) true]

def emptyCache : ACache (MemoryCache Ipv4Addr Ipv6Addr) (Address .v4) :=
  memoryCache SortedKeys.linear byExpireTime (fun _ => true) 5 .v4

def unset : ResolvedAddress (Address .v4) := ⟨#v[0, 0, 0, 0], 0⟩

theorem emptyCache_lacks : emptyCache.Lacks {} [97] := fun _ => rfl

theorem emptyAnswer_accepts : ∃ sendTime answers,
    emptyAnswer.Accepts .v4 [97] sendTime answers ∧ addresses .v4 sendTime answers = [] := by
  have hresolved : resolveName 20 .v4 emptyAnswer [97] [unset] = some (.ok 0, [unset]) := rfl
  obtain ⟨sendTime, answers, haccepts, hlen, -⟩ := resolveName_ok.mp ⟨20, hresolved⟩
  refine ⟨sendTime, answers, haccepts, List.eq_nil_of_length_eq_zero ?_⟩
  rw [List.length_singleton] at hlen
  omega

theorem Resolver.returns_same_iff {σ : Type} (f : IpFamily) (cache : ACache σ (Address f))
    (meanwhile : σ → σ) (c : σ) (n : Network) (asciiName : Text)
    (addr addr' : ResolvedAddress (Address f)) (h : cache.Lacks c asciiName) :
    ((∀ r, Returns f cache meanwhile c n asciiName addr r ↔
        CachelessResolver.Returns f n asciiName addr' r) ∧
      (∀ a, Returns f cache meanwhile c n asciiName addr (.ok a) →
        ∃ sendTime answers, n.Accepts f asciiName sendTime answers ∧
          a ∈ addresses f sendTime answers) ∧
      ∀ sendTime answers, n.Accepts f asciiName sendTime answers →
        addresses f sendTime answers = [] →
          Returns f cache meanwhile c n asciiName addr (.error noAnswersGiven)) ↔
      ∀ sendTime answers, n.Accepts f asciiName sendTime answers →
        addresses f sendTime answers ≠ [] := by
  obtain ⟨x, hreturns⟩ := returns_iff meanwhile n h addr
  constructor
  · rintro ⟨-, -, hnone⟩ sendTime answers haccepts hempty
    rcases (hreturns _).mp (hnone sendTime answers haccepts hempty) with
      ⟨e, he, hfails⟩ | ⟨_, _, -, hok⟩
    · exact hfails.given (Except.error.inj he).symm
    · cases hok
  · intro hgiven
    have hhead : ∀ {sendTime answers}, n.Accepts f asciiName sendTime answers →
        ∃ a rest, addresses f sendTime answers = a :: rest :=
      fun haccepts => List.exists_cons_of_ne_nil (hgiven _ _ haccepts)
    refine ⟨fun r => ?_, fun a ha => ?_, fun sendTime answers haccepts hempty => ?_⟩
    · rw [hreturns, CachelessResolver.returns_iff]
      refine or_congr_right (exists_congr fun sendTime => exists_congr fun answers =>
        and_congr_right fun haccepts => ?_)
      obtain ⟨a, rest, heq⟩ := hhead haccepts
      rw [heq]
      rfl
    · rcases (hreturns _).mp ha with ⟨e, he, -⟩ | ⟨sendTime, answers, haccepts, hok⟩
      · cases he
      · obtain ⟨a', rest, heq⟩ := hhead haccepts
        refine ⟨sendTime, answers, haccepts, ?_⟩
        rw [heq, List.headD_cons] at hok
        rw [Except.ok.inj hok, heq]
        exact List.mem_cons_self
    · exact absurd hempty (hgiven sendTime answers haccepts)

theorem Resolver.returns_same_empty :
    ¬((∀ r, Returns .v4 emptyCache id {} emptyAnswer [97] unset r ↔
        CachelessResolver.Returns .v4 emptyAnswer [97] unset r) ∧
      (∀ a, Returns .v4 emptyCache id {} emptyAnswer [97] unset (.ok a) →
        ∃ sendTime answers, emptyAnswer.Accepts .v4 [97] sendTime answers ∧
          a ∈ addresses .v4 sendTime answers) ∧
      ∀ sendTime answers, emptyAnswer.Accepts .v4 [97] sendTime answers →
        addresses .v4 sendTime answers = [] →
          Returns .v4 emptyCache id {} emptyAnswer [97] unset (.error noAnswersGiven)) := by
  rw [Resolver.returns_same_iff .v4 emptyCache id {} emptyAnswer [97] unset unset emptyCache_lacks]
  intro hgiven
  obtain ⟨sendTime, answers, haccepts, hempty⟩ := emptyAnswer_accepts
  exact hgiven sendTime answers haccepts hempty

theorem Resolver.returns_differ :
    ¬∀ r, Returns .v4 emptyCache id {} emptyAnswer [97] unset r ↔
      CachelessResolver.Returns .v4 emptyAnswer [97] unset r := by
  intro h
  have hcacheless : CachelessResolver.Returns .v4 emptyAnswer [97] unset (.error noAnswersGiven) :=
    ⟨20, rfl⟩
  obtain ⟨x, hreturns⟩ := returns_iff id emptyAnswer emptyCache_lacks unset
  rcases (hreturns _).mp ((h _).mpr hcacheless) with ⟨e, he, hfails⟩ | ⟨_, _, -, hok⟩
  · exact hfails.given (Except.error.inj he).symm
  · cases hok

end Corosig.Dns.Protocol
