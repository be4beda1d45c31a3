import Corosig.Io.Dns.CacheSources
import Corosig.Io.Dns.Traffic

namespace Corosig.Dns.Protocol
open SortedKeys CompressedNames

variable {hash : Text → BitVec 16}

-- Where resolve_name_impl stands: it awaits the pull, or found nothing, or awaits the resolver; or
-- it returned what the caches had at a point of time, what the servers answered, or a failure.
inductive Stage where
  | pulling (out : OutSpan)
  | missed (out : OutSpan)
  | asking (key : Nat)
  | pulled (now : Int) (n : Nat) (out : OutSpan)
  | resolved (n : Nat) (out : OutSpan)
  | failed

structure Resolving where
  asciiName : Text
  given : OutSpan
  stage : Stage

structure Caching (hash : Text → BitVec 16) where
  traffic : Traffic hash := {}
  cache : MemoryCache Ipv4Addr Ipv6Addr := {}
  calls : List Resolving := []

-- HostsFileCache::pull: what it puts in the span, whole or not, is what the file has for the name.
structure HostsPull (hosts : Source Ipv4Addr Ipv6Addr) (asciiName : Text) {f : IpFamily}
    (out : Addrs f) (res : Option Nat) (out' : Addrs f) : Prop where
  writes : ∀ a ∈ out', a ∈ out ∨ hosts f (lowercase asciiName) a
  counts : ∀ n, res = some n → ∀ a ∈ out'.take n, hosts f (lowercase asciiName) a

namespace Caching

def setStage (s : Caching hash) (i : Nat) (c : Resolving) (stage : Stage) : Caching hash :=
  { s with calls := s.calls.set i { c with stage := stage } }

def pullImpl (search : Search Text) (now : Int) (cache : MemoryCache Ipv4Addr Ipv6Addr)
    (asciiName : Text) {f : IpFamily} (res : Option Nat) (out : Addrs f) : Stage :=
  if res.getD 0 ≠ 0 then .pulled now (res.getD 0) ⟨f, out⟩
  else
    let (out, n) := cache.pullImpl search f.family now asciiName out
    if n ≠ 0 then .pulled now n ⟨f, out⟩ else .missed ⟨f, out⟩

section Steps

variable (zone : Zone) (hosts : Source Ipv4Addr Ipv6Addr) (search : Search Text) (order : AddrSort)

inductive Step : Caching hash → Caching hash → Prop
  | call {s : Caching hash} (now : Int) (asciiName : Text) (out : OutSpan) :
      Step s { s with
        cache := s.cache.prune now
        calls := s.calls ++ [⟨asciiName, out, .pulling out⟩] }
  | pull {s : Caching hash} {i : Nat} {c : Resolving} {f : IpFamily} {out out' : Addrs f}
      {res : Option Nat} (now : Int) : s.calls[i]? = some c → c.stage = .pulling ⟨f, out⟩ →
      HostsPull hosts c.asciiName out res out' →
      Step s (s.setStage i c (pullImpl search now s.cache c.asciiName res out'))
  | pullUnframed {s : Caching hash} {i : Nat} {c : Resolving} {out : OutSpan} :
      s.calls[i]? = some c → c.stage = .pulling out → Step s (s.setStage i c (.missed out))
  | ask {s : Caching hash} {i : Nat} {c : Resolving} {out : OutSpan} {traffic : Traffic hash}
      {l : Lookup hash} : s.calls[i]? = some c → c.stage = .missed out →
      s.traffic.Step zone traffic → traffic.lookups = s.traffic.lookups ++ [l] →
      l.asked = (c.asciiName, out) →
      Step s ({ s with traffic := traffic }.setStage i c (.asking s.traffic.lookups.length))
  | refuse {s : Caching hash} {i : Nat} {c : Resolving} {out : OutSpan} : s.calls[i]? = some c →
      c.stage = .missed out → Step s (s.setStage i c .failed)
  | traffic {s : Caching hash} {traffic : Traffic hash} : s.traffic.Step zone traffic →
      Step s { s with traffic := traffic }
  | push {s : Caching hash} {i key n : Nat} {c : Resolving} {r : Request} {l : Lookup hash}
      (alloc : Nat → Bool) (now : Int) : s.calls[i]? = some c → c.stage = .asking key →
      s.traffic.resolver.requests[key]? = some r → r.returned = some (.resolved n) →
      s.traffic.lookups[key]? = some l →
      Step s ({ s with
        cache := (s.cache.push search order l.family.family alloc now c.asciiName l.out).getD
          s.cache }.setStage i c (.resolved n ⟨l.family, l.out⟩))
  | fail {s : Caching hash} {i key : Nat} {c : Resolving} {r : Request} {failure : Failure} :
      s.calls[i]? = some c → c.stage = .asking key →
      s.traffic.resolver.requests[key]? = some r → r.returned = some (.failed failure) →
      Step s (s.setStage i c .failed)

abbrev Reaches : Caching hash → Caching hash → Prop :=
  Relation.ReflTransGen (Step zone hosts search order)

end Steps

end Caching

def Traffic.Known (zone : Zone) (s : Traffic hash) : Source Ipv4Addr Ipv6Addr := fun f name a =>
  ∃ l ∈ s.lookups, l.family = f ∧ lowercase l.asciiName = name ∧ ∃ t ∈ l.sendTimes, ∃ answers,
    zone (splitIntoLabels l.asciiName) (queryType f) 1 answers ∧
      a ∈ answers.filterMap (Record.resolved f t)

section

variable {zone : Zone} {s s' : Traffic hash} {f : IpFamily} {name : Text}
  {a : ResolvedAddress (Address f)}

theorem Traffic.Step.keeps (h : s.Step zone s') {key : Nat} {l : Lookup hash}
    (hl : s.lookups[key]? = some l) : ∃ l', s'.lookups[key]? = some l' ∧ l'.asked = l.asked ∧
      ∀ t ∈ l.sendTimes, t ∈ l'.sendTimes := by
  cases h with
  | resolve now out encoded hrefuses hres =>
    refine ⟨l, ?_, rfl, fun _ ht => ht⟩
    rw [List.getElem?_append_left (List.getElem?_eq_some_iff.mp hl).1, hl]
  | awake now hres =>
    rw [List.getElem?_modify, hl]
    refine ⟨_, rfl, ?_⟩
    split
    · exact ⟨rfl, fun _ ht => List.mem_cons_of_mem _ ht⟩
    · exact ⟨rfl, fun _ ht => ht⟩
  | receive hresponse hreceives hres =>
    cases hreceives with
    | malformed | unknown => exact ⟨l, hl, rfl, fun _ ht => ht⟩
    | @answered header d id key' l₀ result out hheader hfind hl₀ hstores =>
      obtain rfl | hne := eq_or_ne key' key
      · cases hl.symm.trans hl₀
        refine ⟨l.fill out, ?_, rfl, fun _ ht => ht⟩
        exact List.getElem?_set_self (List.getElem?_eq_some_iff.mp hl).1
      · exact ⟨l, by rwa [List.getElem?_set_ne hne], rfl, fun _ ht => ht⟩
  | send | serve | inner => exact ⟨l, hl, rfl, fun _ ht => ht⟩

theorem Traffic.Known.step (hs : s.Step zone s') (h : s.Known zone f name a) :
    s'.Known zone f name a := by
  obtain ⟨l, hl, rfl, hname, t, ht, answers, hzone, ha⟩ := h
  obtain ⟨key, hkey⟩ := List.getElem?_of_mem hl
  obtain ⟨l', hl', hasked, htimes⟩ := hs.keeps hkey
  have hspelled : l'.asciiName = l.asciiName := congrArg Prod.fst hasked
  exact ⟨l', List.mem_of_getElem? hl', congrArg (·.2.1) hasked, by rw [hspelled, hname], t,
    htimes t ht, answers, by rwa [hspelled], ha⟩

theorem Lookup.Holds.parts {l : Lookup hash} {n : Nat} (h : l.Holds zone n)
    (hl : l ∈ s.lookups) : ∃ addrs, l.out = addrs ++ l.given.drop n ∧ addrs.length = n ∧
      ∀ a ∈ addrs, s.Known zone l.family (lowercase l.asciiName) a := by
  obtain ⟨t, ht, answers, hzone, hn, hout⟩ := h
  refine ⟨_, hout, ?_, fun a ha => ?_⟩
  · rw [List.length_take, hn]
    omega
  · exact ⟨l, hl, rfl, rfl, t, ht, answers, hzone, List.mem_of_mem_take ha⟩

end

namespace Caching

def Given (s : Caching hash) : Source Ipv4Addr Ipv6Addr := fun f name a =>
  ∃ c ∈ s.calls, lowercase c.asciiName = name ∧ ∃ out : Addrs f, c.given = ⟨f, out⟩ ∧ a ∈ out

variable {zone : Zone} {hosts given given' : Source Ipv4Addr Ipv6Addr} {search : Search Text}
  {order : AddrSort} {s s' : Caching hash} {c : Resolving} {stage : Stage} {i : Nat} {f : IpFamily}
  {name : Text} {a : ResolvedAddress (Address f)}

def Own (hosts given : Source Ipv4Addr Ipv6Addr) (asked : Text × OutSpan) : Prop :=
  ∀ a ∈ asked.2.2, given asked.2.1 (lowercase asked.1) a ∨ hosts asked.2.1 (lowercase asked.1) a

def Sound (zone : Zone) (hosts given : Source Ipv4Addr Ipv6Addr) (s : Traffic hash)
    (c : Resolving) : Prop :=
  match c.stage with
  | .pulling out | .missed out => Own hosts given (c.asciiName, out)
  | .asking key => ∃ l, s.lookups[key]? = some l ∧ l.asciiName = c.asciiName ∧
      Own hosts given l.asked
  | .pulled now n out => ∀ a ∈ out.2.take n, hosts out.1 (lowercase c.asciiName) a ∨
      now < a.expiresAt ∧ (s.Known zone out.1 (lowercase c.asciiName) a ∨
        given out.1 (lowercase c.asciiName) a)
  | .resolved n out => ∀ a ∈ out.2.take n, s.Known zone out.1 (lowercase c.asciiName) a
  | .failed => True

def known (zone : Zone) (hosts given : Source Ipv4Addr Ipv6Addr) (s : Traffic hash) :
    Source Ipv4Addr Ipv6Addr :=
  fun f name a => hosts f name a ∨ s.Known zone f name a ∨ given f name a

structure Inv (zone : Zone) (hosts : Source Ipv4Addr Ipv6Addr) (s : Caching hash) : Prop where
  traffic : s.traffic.Inv zone
  linked : s.cache.WellLinked
  sourced : s.cache.Sourced (known zone hosts s.Given s.traffic)
  sound : ∀ c ∈ s.calls, Sound zone hosts s.Given s.traffic c

theorem Inv.empty : Inv zone hosts ({} : Caching hash) :=
  ⟨.empty, MemoryCache.wellLinked_empty, MemoryCache.sourced_empty, nofun⟩

theorem not_given_of_expired {now : Int}
    (hspans : ∀ c ∈ s.calls, ∀ a ∈ c.given.2, a.expiresAt ≤ now) (hlive : now < a.expiresAt) :
    ¬s.Given f name a := by
  rintro ⟨c, hc, -, out, hgiven, ha⟩
  have hexpired := hspans c hc
  rw [hgiven] at hexpired
  exact absurd hlive (Int.not_lt.mpr (hexpired a ha))

theorem Given.setStage (hi : s.calls[i]? = some c) (h : s.Given f name a) :
    (s.setStage i c stage).Given f name a := by
  obtain ⟨c', hc', hname, out, hgiven, ha⟩ := h
  obtain ⟨j, hj⟩ := List.getElem?_of_mem hc'
  by_cases hij : i = j
  · subst hij
    cases hi.symm.trans hj
    exact ⟨{ c with stage := stage },
      List.mem_set (List.getElem?_eq_some_iff.mp hi).1 _, hname, out, hgiven, ha⟩
  · refine ⟨c', List.mem_of_getElem? (i := j) ?_, hname, out, hgiven, ha⟩
    rw [← hj]
    exact List.getElem?_set_ne hij

theorem Sound.mono {s : Traffic hash} (h : Sound zone hosts given s c)
    (hsub : ∀ f name a, given f name a → given' f name a) : Sound zone hosts given' s c := by
  obtain ⟨asciiName, out, stage⟩ := c
  cases stage with
  | pulling | missed => exact fun a ha => (h a ha).imp_left (hsub _ _ _)
  | asking key =>
    obtain ⟨l, hl, hname, hown⟩ := h
    exact ⟨l, hl, hname, fun a ha => (hown a ha).imp_left (hsub _ _ _)⟩
  | pulled now n out =>
    exact fun a ha => (h a ha).imp_right fun ⟨hlive, hk⟩ => ⟨hlive, hk.imp_right (hsub _ _ _)⟩
  | resolved | failed => exact h

theorem Inv.setStage (h : Inv zone hosts s) (hi : s.calls[i]? = some c)
    (hsound : Sound zone hosts s.Given s.traffic { c with stage := stage }) :
    Inv zone hosts (s.setStage i c stage) := by
  have hsub : ∀ f name a, s.Given f name a → (s.setStage i c stage).Given f name a :=
    fun _ _ _ => Given.setStage hi
  refine ⟨h.traffic, h.linked,
    h.sourced.mono fun _ _ _ hk => hk.imp_right (·.imp_right (hsub _ _ _)), fun c' hc' => ?_⟩
  obtain hc' | rfl := List.mem_or_eq_of_mem_set hc'
  · exact (h.sound c' hc').mono hsub
  · exact hsound.mono hsub

theorem Sound.step {s s' : Traffic hash} (hs : s.Step zone s') (h : Sound zone hosts given s c) :
    Sound zone hosts given s' c := by
  obtain ⟨asciiName, out, stage⟩ := c
  cases stage with
  | pulling | missed | failed => exact h
  | asking key =>
    obtain ⟨l, hl, hname, hown⟩ := h
    obtain ⟨l', hl', hasked, -⟩ := hs.keeps hl
    exact ⟨l', hl', (congrArg Prod.fst hasked).trans hname, hasked ▸ hown⟩
  | pulled now n out =>
    exact fun a ha => (h a ha).imp_right fun ⟨hlive, hk⟩ => ⟨hlive, hk.imp_left (·.step hs)⟩
  | resolved n out => exact fun a ha => (h a ha).step hs

theorem Inv.call (h : Inv zone hosts s) (now : Int) (asciiName : Text) (out : OutSpan) :
    Inv zone hosts { s with
      cache := s.cache.prune now
      calls := s.calls ++ [⟨asciiName, out, .pulling out⟩] } := by
  have hsub : ∀ f name a, s.Given f name a →
      Given { s with calls := s.calls ++ [⟨asciiName, out, .pulling out⟩] } f name a :=
    fun _ _ _ ⟨c, hc, hgiven⟩ => ⟨c, List.mem_append_left _ hc, hgiven⟩
  refine ⟨h.traffic, h.linked.prune now, (h.sourced.prune now).mono fun _ _ _ hk =>
    hk.imp_right (·.imp_right (hsub _ _ _)), fun c hc => ?_⟩
  obtain hc | hc := List.mem_append.mp hc
  · exact (h.sound c hc).mono hsub
  · rw [List.mem_singleton.mp hc]
    exact fun a ha => .inl ⟨_, List.mem_concat_self, rfl, out.2, rfl, ha⟩

theorem Inv.step_traffic (h : Inv zone hosts s) {traffic : Traffic hash}
    (hs : s.traffic.Step zone traffic) : Inv zone hosts { s with traffic := traffic } :=
  ⟨h.traffic.step hs, h.linked,
    h.sourced.mono fun _ _ _ hk => hk.imp_right (·.imp_left (·.step hs)),
    fun c hc => (h.sound c hc).step hs⟩

theorem Inv.pull (h : Inv zone hosts s) (hsearch : search.Lands) (hi : s.calls[i]? = some c)
    {out out' : Addrs f} {res : Option Nat} {now : Int}
    (hstage : c.stage = .pulling ⟨f, out⟩) (hpull : HostsPull hosts c.asciiName out res out') :
    Inv zone hosts (s.setStage i c (pullImpl search now s.cache c.asciiName res out')) := by
  have hown : Own hosts s.Given (c.asciiName, ⟨f, out'⟩) := by
    have hbefore := h.sound c (List.mem_of_getElem? hi)
    rw [Sound, hstage] at hbefore
    intro a ha
    exact (hpull.writes a ha).elim (hbefore a) .inr
  refine h.setStage hi ?_
  rw [pullImpl]
  split
  · rename_i hfound
    cases res with
    | none => exact absurd rfl hfound
    | some n => exact fun a ha => .inl (hpull.counts n rfl a ha)
  · rw [MemoryCache.pullImpl_eq]
    simp only
    split
    · intro a ha
      rw [List.take_left] at ha
      obtain ⟨hlive, hsource⟩ := h.sourced.pull hsearch ha
      exact hsource.imp_right fun hk => ⟨hlive, hk⟩
    · rename_i hnone
      obtain hnil := List.eq_nil_of_length_eq_zero (not_not.mp hnone)
      rw [hnil]
      exact hown

theorem Inv.push (h : Inv zone hosts s) (hi : s.calls[i]? = some c) {key n : Nat} {r : Request}
    {l : Lookup hash} {now : Int} {alloc : Nat → Bool} (hstage : c.stage = .asking key)
    (hr : s.traffic.resolver.requests[key]? = some r) (hn : r.returned = some (.resolved n))
    (hl : s.traffic.lookups[key]? = some l) :
    Inv zone hosts ({ s with
      cache := (s.cache.push search order l.family.family alloc now c.asciiName l.out).getD
        s.cache }.setStage i c (.resolved n ⟨l.family, l.out⟩)) := by
  obtain ⟨l₀, hl₀, hholds⟩ := h.traffic.holds key r hr n (.inr hn)
  cases hl₀.symm.trans hl
  obtain ⟨addrs, hout, hlen, hknown⟩ := hholds.parts (List.mem_of_getElem? hl)
  have hbefore := h.sound c (List.mem_of_getElem? hi)
  rw [Sound, hstage] at hbefore
  obtain ⟨l₀, hl₀, hname, hown⟩ := hbefore
  cases hl₀.symm.trans hl
  have hsource : ∀ a ∈ l.out, now < a.expiresAt →
      known zone hosts s.Given s.traffic l.family (lowercase c.asciiName) a := by
    intro a ha _
    rw [← hname]
    rw [hout] at ha
    obtain ha | ha := List.mem_append.mp ha
    · exact .inr (.inl (hknown a ha))
    · obtain hgiven | hhosts := hown a (List.mem_of_mem_drop ha)
      · exact .inr (.inr hgiven)
      · exact .inl hhosts
  have hcache : Inv zone hosts { s with
      cache := (s.cache.push search order l.family.family alloc now c.asciiName l.out).getD
        s.cache } := by
    cases hp : s.cache.push search order l.family.family alloc now c.asciiName l.out with
    | none => exact h
    | some cache => exact ⟨h.traffic, h.linked.push hp, h.sourced.push h.linked hsource hp, h.sound⟩
  refine hcache.setStage hi fun a ha => ?_
  rw [← hname]
  rw [hout, List.take_left' hlen] at ha
  exact hknown a ha

theorem Inv.step (h : Inv zone hosts s) (hsearch : search.Lands)
    (hs : s.Step zone hosts search order s') : Inv zone hosts s' := by
  cases hs with
  | call now asciiName out => exact h.call now asciiName out
  | pull now hi hstage hpull => exact h.pull hsearch hi hstage hpull
  | pullUnframed hi hstage =>
    have hbefore := h.sound _ (List.mem_of_getElem? hi)
    rw [Sound, hstage] at hbefore
    exact h.setStage hi hbefore
  | @ask i c out traffic l hi hstage hstep hlookups hasked =>
    have hbefore := h.sound c (List.mem_of_getElem? hi)
    rw [Sound, hstage] at hbefore
    refine (h.step_traffic hstep).setStage hi ⟨l, ?_, congrArg Prod.fst hasked, ?_⟩
    · rw [hlookups, List.getElem?_append_right (Nat.le_refl _), Nat.sub_self]
      rfl
    · rw [hasked]
      exact hbefore
  | refuse hi hstage => exact h.setStage hi trivial
  | traffic hstep => exact h.step_traffic hstep
  | push alloc now hi hstage hr hn hl => exact h.push hi hstage hr hn hl
  | fail hi hstage hr hn => exact h.setStage hi trivial

theorem Inv.run (h : Inv zone hosts s) (hsearch : search.Lands)
    (hr : s.Reaches zone hosts search order s') : Inv zone hosts s' := by
  induction hr with
  | refl => exact h
  | tail _ hs ih => exact ih.step hsearch hs

theorem calls_known (hsearch : search.Lands)
    (h : Reaches zone hosts search order ({} : Caching hash) s) (hc : c ∈ s.calls) :
    (∀ now n out, c.stage = .pulled now n out → ∀ a ∈ out.2.take n,
      hosts out.1 (lowercase c.asciiName) a ∨
        now < a.expiresAt ∧ (s.traffic.Known zone out.1 (lowercase c.asciiName) a ∨
          s.Given out.1 (lowercase c.asciiName) a)) ∧
      ∀ n out, c.stage = .resolved n out → ∀ a ∈ out.2.take n,
        s.traffic.Known zone out.1 (lowercase c.asciiName) a := by
  have hsound := (Inv.empty.run hsearch h).sound c hc
  constructor
  · intro now n out hstage
    rwa [Sound, hstage] at hsound
  · intro n out hstage
    rwa [Sound, hstage] at hsound

def noHosts : Source Ipv4Addr Ipv6Addr := fun _ _ _ => False

theorem pull_noHosts {asciiName : Text} {f : IpFamily} (out : Addrs f) :
    HostsPull noHosts asciiName out none out :=
  ⟨fun _ => .inl, nofun⟩

def cached : MemoryCache Ipv4Addr Ipv6Addr :=
  (MemoryCache.push linear byExpireTime ipv4 (fun _ => true) 0 {} [97] Traffic.answeredOut).getD {}

abbrev State : Type := Caching Traffic.constantHash

abbrev CachingStep : State → State → Prop :=
  Step Traffic.answeringZone noHosts linear byExpireTime

def blank : OutSpan := ⟨.v4, [unsetAddress]⟩

def blankCall (stage : Stage) : Resolving := ⟨[97], blank, stage⟩

def returned : CachelessResolver := { Traffic.resolved with ready := [] }.finish 0

def answeredTraffic (resolver : CachelessResolver) : Traffic Traffic.constantHash :=
  Traffic.carrying resolver (Traffic.askingLookup.fill Traffic.answeredOut) [answeredQuery]
    [answering]

theorem ask_asking : Relation.ReflTransGen CachingStep {}
    ⟨Traffic.carrying Traffic.asking Traffic.askingLookup [] [], {}, [blankCall (.asking 0)]⟩ := by
  have hcall : CachingStep {} ⟨{}, {}, [blankCall (.pulling blank)]⟩ :=
    Step.call (s := {}) 0 [97] blank
  have hpull : CachingStep ⟨{}, {}, [blankCall (.pulling blank)]⟩
      ⟨{}, {}, [blankCall (.missed blank)]⟩ :=
    Step.pull (s := ⟨{}, {}, [blankCall (.pulling blank)]⟩) (i := 0) 0 rfl rfl (pull_noHosts _)
  have hask : CachingStep ⟨{}, {}, [blankCall (.missed blank)]⟩
      ⟨Traffic.carrying Traffic.asking Traffic.askingLookup [] [], {}, [blankCall (.asking 0)]⟩ :=
    Step.ask (s := ⟨{}, {}, [blankCall (.missed blank)]⟩) (i := 0) rfl rfl Traffic.resolve_asking
      rfl rfl
  exact ((Relation.ReflTransGen.single hcall).tail hpull).tail hask

theorem resolve_cached : Relation.ReflTransGen CachingStep
    ⟨Traffic.carrying Traffic.asking Traffic.askingLookup [] [], {}, [blankCall (.asking 0)]⟩
    ⟨answeredTraffic returned, cached, [blankCall (.resolved 1 ⟨.v4, Traffic.answeredOut⟩)]⟩ := by
  have hresumed : (answeredTraffic Traffic.resolved).Step Traffic.answeringZone
      (answeredTraffic returned) := .inner (e := .resumed) trivial ⟨nofun, rfl⟩
  have hpush : CachingStep ⟨answeredTraffic returned, {}, [blankCall (.asking 0)]⟩
      ⟨answeredTraffic returned, cached, [blankCall (.resolved 1 ⟨.v4, Traffic.answeredOut⟩)]⟩ :=
    Step.push (s := ⟨answeredTraffic returned, {}, [blankCall (.asking 0)]⟩) (i := 0)
      (fun _ => true) 0 rfl rfl rfl rfl rfl
  have htraffic {t t' : Traffic Traffic.constantHash} (h : t.Step Traffic.answeringZone t') :
      CachingStep ⟨t, {}, [blankCall (.asking 0)]⟩ ⟨t', {}, [blankCall (.asking 0)]⟩ := .traffic h
  exact (((((Relation.ReflTransGen.single (htraffic Traffic.send_asking)).tail
    (htraffic Traffic.sent_asking)).tail (htraffic Traffic.serve_answering)).tail
    (htraffic Traffic.receive_answering)).tail (htraffic hresumed)).tail hpush

theorem calls_known_answering : ∃ (s : State) (c : Resolving), c ∈ s.calls ∧
    c.stage = .pulled 5 1 ⟨.v4, Traffic.answeredOut⟩ ∧ ∀ a ∈ Traffic.answeredOut,
      5 < a.expiresAt ∧ s.traffic.Known Traffic.answeringZone .v4 [97] a := by
  have hexpired : ∀ a ∈ blank.2, a.expiresAt ≤ (5 : Int) := by decide
  have hcall := (ask_asking.trans resolve_cached).tail (.call 5 [97] blank)
  have hpull := hcall.tail (.pull (i := 1) 5 rfl rfl (pull_noHosts _))
  let first : Resolving := blankCall (.resolved 1 ⟨.v4, Traffic.answeredOut⟩)
  let second : Resolving := blankCall (.pulled 5 1 ⟨.v4, Traffic.answeredOut⟩)
  obtain ⟨s, hruns, hcalls⟩ : ∃ s : State, Relation.ReflTransGen CachingStep {} s ∧
      s.calls = [first, second] := ⟨_, hpull, rfl⟩
  have hmem : second ∈ s.calls := hcalls ▸ .tail _ (.head _)
  have hknown := calls_known linear_lands hruns hmem
  refine ⟨s, second, hmem, rfl, fun a ha => ?_⟩
  obtain hhosts | ⟨hlive, hk | hgiven⟩ := hknown.1 5 1 _ rfl a ha
  · exact absurd hhosts id
  · exact ⟨hlive, hk⟩
  · refine absurd hgiven (not_given_of_expired (fun c hc => ?_) hlive)
    obtain rfl | rfl : c = first ∨ c = second := by simpa [hcalls] using hc
    · exact hexpired
    · exact hexpired

end Caching

end Corosig.Dns.Protocol
