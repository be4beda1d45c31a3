import Corosig.Io.Dns.Traffic

namespace Corosig.Dns

namespace CachelessResolver

variable {s s' : CachelessResolver} {e : Event} {key k : Nat} {r : Request} {memory : Memory}
  {outcome : Outcome}

def Hears (s : CachelessResolver) : Prop :=
  ∀ p ∈ s.pendingRequests, ∀ r, s.requests[p.2]? = some r → r.sender = .sleeping → s.receiving

def Listens : Event → Prop
  | .receiveFailed => False
  | .received _ memory => memory.receiverFrame
  | .sent _ failure memory => failure = none → memory.receiverFrame
  | .resolve .. | .awake .. | .resumed | .dropped _ => True

theorem Hears.congr (h : Hears s) (hrec : s.receiving → s'.receiving)
    (hpending : ∀ p ∈ s'.pendingRequests, p ∈ s.pendingRequests)
    (hsender : ∀ p ∈ s'.pendingRequests, ∀ r', s'.requests[p.2]? = some r' →
      r'.sender = .sleeping → ∃ r, s.requests[p.2]? = some r ∧ r.sender = .sleeping) :
    Hears s' := by
  intro p hp r' hr' hs'
  obtain ⟨r, hr, hs⟩ := hsender p hp r' hr' hs'
  exact hrec (h p (hpending p hp) r hr hs)

theorem Hears.same (h : Hears s) (hrec : s'.receiving = s.receiving)
    (hpending : ∀ p ∈ s'.pendingRequests, p ∈ s.pendingRequests)
    (hrequests : s'.requests = s.requests) : Hears s' :=
  h.congr (fun hr => hrec.trans hr) hpending fun _ _ r hr hs => ⟨r, hrequests ▸ hr, hs⟩

theorem Hears.update (h : Hears s) {f : Request → Request}
    (hf : ∀ r, (f r).sender = .sleeping → r.sender = .sleeping) (key : Nat) :
    Hears (s.update key f) := by
  refine h.congr id (fun p hp => hp) fun p _ r' hr' hs => ?_
  obtain ⟨hkey, r, hr, rfl⟩ | ⟨-, hr⟩ := getElem?_update hr'
  · exact ⟨r, hkey ▸ hr, hf r hs⟩
  · exact ⟨r', hr, hs⟩

theorem Hears.unlink (h : Hears s) (key : Nat) : Hears (s.unlink key) :=
  h.same rfl (fun _ hp => (mem_unlink hp).1) rfl

theorem Hears.complete (h : Hears s) (key : Nat) (outcome : Outcome) :
    Hears (s.complete key outcome) := by
  rw [complete_eq]
  exact ((h.update (f := completed outcome) (fun _ hs => hs) key).unlink key).same rfl
    (fun _ hp => hp) rfl

theorem Hears.destroy (h : Hears s) (key : Nat) : Hears (s.destroy key) :=
  ((h.update (f := destroyed) (fun _ hs => hs) key).unlink key).same rfl (fun _ hp => hp) rfl

theorem Hears.finish (h : Hears s) (key : Nat) : Hears (s.finish key) :=
  (h.update (f := returning) (fun _ hs => hs) key).destroy key

theorem hears_of_receiving (h : s.receiving) : Hears s := fun _ _ _ _ _ => h

theorem hears_receive (s : CachelessResolver) (h : memory.receiverFrame) :
    Hears (s.receiveServerAnswers memory) := by
  intro p hp _ _ _
  have hne : s.pendingRequests ≠ [] := List.ne_nil_of_mem hp
  simp [receiveServerAnswers, h, hne]

theorem Hears.restart (h : Hears s) (memory : Memory) : Hears (s.restart memory) := by
  rw [CachelessResolver.restart]
  split
  · exact h
  · rename_i hrec
    intro p hp r hr hs
    exact absurd (h p hp r hr hs) hrec

theorem hears_restart (s : CachelessResolver) (h : memory.receiverFrame) :
    Hears (s.restart memory) := by
  rw [CachelessResolver.restart]
  split
  · exact hears_of_receiving ‹_›
  · exact hears_receive s h

theorem restart_receiving (s : CachelessResolver) (h : memory.receiverFrame) :
    ∀ p ∈ (s.restart memory).pendingRequests, (s.restart memory).receiving := by
  intro p hp
  rw [CachelessResolver.restart] at hp ⊢
  split
  · assumption
  · rename_i hrec
    rw [if_neg hrec] at hp
    have hne : s.pendingRequests ≠ [] := List.ne_nil_of_mem hp
    simp [receiveServerAnswers, h, hne]

theorem hears_afterSend (s : CachelessResolver) (key : Nat) (failure : Option Failure)
    (h : memory.receiverFrame) : Hears (s.afterSend key failure memory) := by
  cases failure with
  | none => exact fun p hp _ _ _ => restart_receiving s h p hp
  | some failure =>
    exact ((hears_restart s h).complete key _).update (fun _ hs => by cases hs) key

theorem Hears.failed (h : Hears s) (key : Nat) (failure : Failure) (memory : Memory) :
    Hears (s.afterSend key (some failure) memory) :=
  ((h.restart memory).complete key _).update (fun _ hs => by cases hs) key

theorem Hears.periodicBackgroundSend (h : Hears s) (key : Nat) (memory : Memory) :
    Hears (s.periodicBackgroundSend key memory) := by
  rw [CachelessResolver.periodicBackgroundSend]
  split
  · exact h.update (fun _ hs => by cases hs) key
  · exact h.failed key _ memory

theorem Hears.insert (h : Hears s) (id : Id) : Hears (s.insert id) := by
  intro p hp r hr hs
  obtain hr | ⟨-, rfl⟩ := getElem?_insert hr
  · obtain hp | hnew := mem_insert hp
    · exact h p hp r hr hs
    · rw [hnew] at hr
      exact absurd (List.getElem?_eq_some_iff.mp hr).1 (Nat.lt_irrefl _)
  · cases hs

theorem Hears.processRequest (h : Hears s) (id : Id) (memory : Memory) :
    Hears (s.processRequest id memory) := by
  have hstart : Hears ((s.insert id).startSender s.requests.length memory) := by
    rw [startSender]
    split
    · exact (h.insert id).periodicBackgroundSend _ memory
    · exact h.insert id
  rw [CachelessResolver.processRequest]
  split
  · exact hstart.finish _
  · exact hstart

theorem Hears.step (h : Hears s) (hok : Listens e) (hs : s.Step e s') : Hears s' := by
  have hc := apply_cases hs.applied
  cases e with
  | resolve drawn servers encoded memory =>
    obtain ⟨-, rfl⟩ | ⟨-, rfl⟩ := hc
    · exact h
    · exact h.processRequest drawn memory
  | sent key failure memory =>
    obtain ⟨-, rfl⟩ := hc
    cases failure with
    | none => exact hears_afterSend s key none (hok rfl)
    | some failure => exact h.failed key failure memory
  | awake key memory =>
    obtain ⟨-, rfl⟩ := hc
    exact h.periodicBackgroundSend key memory
  | received packet memory =>
    obtain ⟨-, rfl⟩ := hc
    exact hears_receive _ hok
  | receiveFailed => exact hok.elim
  | resumed =>
    obtain ⟨key, ready, -, rfl⟩ := hc
    have hready : Hears { s with ready := ready } := h.same rfl (fun _ hp => hp) rfl
    exact hready.finish key
  | dropped key =>
    obtain ⟨-, rfl⟩ := hc
    exact h.destroy key

theorem Hears.run (h : Hears s) (hr : Reaches (fun _ => Listens) s s') : Hears s' := by
  induction hr with
  | refl => exact h
  | tail _ hs ih =>
    obtain ⟨e, hok, hs⟩ := hs
    exact ih.step hok hs

theorem hears_empty : Hears {} := nofun

theorem pending_heard (hstart : s = {} ∨ ∃ (s₀ : CachelessResolver) (key : Nat)
      (failure : Option Failure) (memory : Memory), memory.receiverFrame ∧
        s₀.Step (.sent key failure memory) s)
    (hr : Reaches (fun _ => Listens) s s') :
    ∀ p ∈ s'.pendingRequests, ∀ r, s'.requests[p.2]? = some r → r.sender = .sleeping →
      s'.receiving := by
  refine Hears.run ?_ hr
  obtain rfl | ⟨s₀, key, failure, memory, hframe, hsent⟩ := hstart
  · exact hears_empty
  · obtain ⟨-, rfl⟩ := apply_cases hsent.applied
    exact hears_afterSend s₀ key failure hframe

theorem pending_heard_listening : Protocol.Traffic.listening.receiving := by
  have hsent : Protocol.Traffic.asking.Step (.sent 0 none {}) Protocol.Traffic.listening :=
    ⟨nofun, rfl⟩
  exact pending_heard (.inr ⟨_, _, _, _, rfl, hsent⟩) .refl (7, 0) (by decide) _ rfl rfl

theorem resumes_ready (hkey : key ∈ s.ready) (hr : s.requests[key]? = some r)
    (hresult : r.result = some outcome) : ∃ s' r',
      Relation.ReflTransGen (fun s s' => s.Step .resumed s') s s' ∧
      s'.requests[key]? = some r' ∧ r'.returned = some outcome := by
  generalize hlen : s.ready.length = n
  induction n using Nat.strongRecOn generalizing s with
  | ind n ih =>
    obtain ⟨k, ready, hready⟩ := List.exists_cons_of_ne_nil (List.ne_nil_of_mem hkey)
    have hstep : s.Step .resumed ({ s with ready := ready }.finish k) := by
      refine ⟨nofun, ?_⟩
      rw [apply, hready]
    obtain rfl | hne := eq_or_ne key k
    · refine ⟨_, destroyed (returning r), .single hstep, ?_, hresult⟩
      exact update_same (update_same hr)
    · have hsame : ({ s with ready := ready }.finish k).requests[key]? = some r := by
        refine ((update_of_ne destroyed hne).trans (update_of_ne returning hne)).trans hr
      have hrest : key ∈ ({ s with ready := ready }.finish k).ready := by
        rw [hready] at hkey
        exact List.mem_filter.mpr ⟨(List.mem_cons.mp hkey).resolve_left hne, decide_eq_true hne⟩
      have hshort : ({ s with ready := ready }.finish k).ready.length < n := by
        have hfilter := List.length_filter_le (· ≠ k) ready
        rw [← hlen, hready, List.length_cons]
        exact Nat.lt_succ_of_le hfilter
      obtain ⟨s', r', hs', hr', hret⟩ := ih _ hshort hrest hsame rfl
      exact ⟨s', r', .head hstep hs', hr', hret⟩

end CachelessResolver

namespace Protocol.Traffic

variable {hash : Text → BitVec 16} {zone : Zone} {s s' : Traffic hash} {key : Nat} {id : Id}
  {l : Lookup hash} {response : Text}

def Identified (s : Traffic hash) : Prop :=
  ∀ p ∈ s.resolver.pendingRequests, ∃ l, s.lookups[p.2]? = some l ∧ l.id = p.1

theorem Identified.follows (h : Identified s) {resolver : CachelessResolver}
    {answered : Option (Nat × Outcome)} {lookups : List (Lookup hash)}
    (hfollows : CachelessResolver.Follows answered s.resolver resolver)
    (hlookups : ∀ (k : Nat) l, s.lookups[k]? = some l →
      ∃ l', lookups[k]? = some l' ∧ l'.id = l.id) :
    Identified { s with resolver := resolver, lookups := lookups } := by
  intro p hp
  obtain ⟨l, hl, hid⟩ := h p (hfollows.pending p hp).1
  obtain ⟨l', hl', hid'⟩ := hlookups p.2 l hl
  exact ⟨l', hl', hid'.trans hid⟩

theorem Identified.resolve (h : Identified s) (hi : Inv zone s) (memory : Memory)
    (hid : l.id = id) : Identified { s with
      resolver := s.resolver.processRequest id memory
      lookups := s.lookups ++ [l] } := by
  intro p hp
  have hp := (CachelessResolver.narrows_processRequest s.resolver id memory).subset hp
  obtain rfl | hp := (List.mem_orderedInsert _).mp hp
  · refine ⟨l, ?_, hid⟩
    rw [← hi.aligned, List.getElem?_concat_length]
  · obtain ⟨l', hl', hid'⟩ := h p hp
    exact ⟨l', by rw [List.getElem?_append_left (List.getElem?_eq_some_iff.mp hl').1, hl'], hid'⟩

theorem Receives.same {packet : Packet} {lookups : List (Lookup hash)} {k : Nat} {l : Lookup hash}
    (h : s.Receives response packet lookups) (hl : s.lookups[k]? = some l) :
    ∃ l', lookups[k]? = some l' ∧ l'.id = l.id := by
  cases h with
  | malformed | unknown => exact ⟨l, hl, rfl⟩
  | @answered header d id key l₀ result out hheader hfind hl₀ hstores =>
    obtain rfl | hne := eq_or_ne key k
    · cases hl₀.symm.trans hl
      exact ⟨_, List.getElem?_set_self (List.getElem?_eq_some_iff.mp hl).1, rfl⟩
    · exact ⟨l, by rwa [List.getElem?_set_ne hne], rfl⟩

theorem Identified.step (h : Identified s) (hi : Inv zone s) (hs : Step zone s s') :
    Identified s' := by
  cases hs with
  | @resolve _ drawn servers memory f asciiName message now out encoded hrefuses hres =>
    have hnot : ¬(s.resolver.refuses servers ∨ (none : Option Failure).isSome) :=
      fun hor => hor.elim hrefuses nofun
    have happly := hres.applied
    rw [CachelessResolver.apply, if_neg hnot] at happly
    cases happly
    exact h.resolve hi memory rfl
  | @awake _ key memory now hres =>
    obtain hfollows | ⟨_, _, _, _, hnew, -⟩ := CachelessResolver.apply_follows hres.applied
    · refine h.follows hfollows fun k l hl => ?_
      rw [List.getElem?_modify, hl]
      refine ⟨_, rfl, ?_⟩
      split <;> rfl
    · cases hnew
  | send | serve => exact h
  | receive hresponse hreceives hres =>
    obtain hfollows | ⟨_, _, _, _, hnew, -⟩ := CachelessResolver.apply_follows hres.applied
    · exact h.follows hfollows fun _ _ hl => hreceives.same hl
    · cases hnew
  | inner hinner hres =>
    obtain hfollows | ⟨_, _, _, _, rfl, hnew, -⟩ := CachelessResolver.apply_follows hres.applied
    · exact h.follows hfollows fun _ l hl => ⟨l, hl, rfl⟩
    · exact absurd hinner hnew

theorem identified (h : Reaches zone ({} : Traffic hash) s) : Identified s := by
  induction h with
  | refl => exact nofun
  | tail hr hs ih => exact ih.step (Inv.empty.run hr) hs

theorem reaches_resumed {resolver resolver' : CachelessResolver}
    (h : Relation.ReflTransGen (fun a b => a.Step .resumed b) resolver resolver') :
    Reaches zone { s with resolver := resolver } { s with resolver := resolver' } := by
  induction h with
  | refl => exact .refl
  | tail _ hs ih => exact ih.tail (.inner (e := .resumed) trivial hs)

theorem receives_served
    (hfind : s.resolver.pendingRequests.find? (·.1 = l.id) = some (l.id, key))
    (hl : s.lookups[key]? = some l)
    (hfits : CompressedNames.wireLength (splitIntoLabels l.asciiName) ≤ fqdnMaxOctetLen)
    (hserves : zone.Serves l.message response) : ∃ n out,
      s.Receives response ⟨some l.id, .resolved n⟩ (s.lookups.set key (l.fill out)) := by
  obtain ⟨hshort, asked, header, answers, others, -, -, hresponds⟩ := hserves
  obtain ⟨alloc, hencoded⟩ := l.encoded
  have hid : header.id.toFin = l.id := congrArg BitVec.toFin (hresponds.header_id hencoded)
  obtain ⟨d, hheader, n, out, hstores⟩ : ∃ d,
      (ResponseDecoder.ofResponse response).consumeHeader = (.ok header, d) ∧
        ∃ n out, Stores l.request header d (.ok n) out :=
    ⟨_, hresponds.consumeHeader, _, _, hresponds.stores l.family hencoded hfits rfl⟩
  rw [← List.take_of_length_le hshort] at hheader
  rw [← hid] at hfind ⊢
  exact ⟨n, out, .answered hheader hfind hl hstores⟩

variable {r : Request}

theorem sending_answered (hacts : s.resolver.acts key .sending)
    (hfind : s.resolver.pendingRequests.find? (·.1 = l.id) = some (l.id, key))
    (hl : s.lookups[key]? = some l)
    (hfits : CompressedNames.wireLength (splitIntoLabels l.asciiName) ≤ fqdnMaxOctetLen)
    (hserves : zone.Serves l.message response) : ∃ s' r out n, Reaches zone s s' ∧
      s'.resolver.requests[key]? = some r ∧ r.result = some (.resolved n) ∧
      key ∈ s'.resolver.ready ∧ s'.lookups[key]? = some (l.fill out) := by
  obtain ⟨r, hr, halive, hsender⟩ := hacts
  let sent := s.resolver.afterSend key none {}
  have hsent : s.resolver.Step (.sent key none {}) sent :=
    ⟨nofun, if_pos ⟨r, hr, halive, hsender⟩⟩
  have hpending : sent.pendingRequests = s.resolver.pendingRequests :=
    CachelessResolver.pendingRequests_restart s.resolver {}
  have hreceiving : sent.receiving :=
    CachelessResolver.restart_receiving s.resolver rfl (l.id, key)
      (hpending ▸ List.mem_of_find?_eq_some hfind)
  have hrequest : sent.requests[key]? = some { r with sender := .sleeping } := by
    obtain ⟨b, hb⟩ := CachelessResolver.restart_eq s.resolver {}
    refine CachelessResolver.update_same ?_
    rw [hb]
    exact hr
  let asked : Traffic hash := { s with
    resolver := sent, queries := l.message :: s.queries, responses := response :: s.responses }
  have hasked : Reaches zone s asked :=
    ((Relation.ReflTransGen.single (.send ⟨r, hr, halive, hsender⟩ hl)).tail
      (.inner (e := .sent key none {}) trivial hsent)).tail (.serve List.mem_cons_self hserves)
  rw [← hpending] at hfind
  obtain ⟨n, out, hreceives⟩ : ∃ n out, asked.Receives response ⟨some l.id, .resolved n⟩
      (asked.lookups.set key (l.fill out)) := receives_served hfind hl hfits hserves
  have hreceived : sent.Step (.received ⟨some l.id, .resolved n⟩ {})
      ((sent.complete key (.resolved n)).receiveServerAnswers {}) := by
    refine ⟨nofun, ?_⟩
    simp only [CachelessResolver.apply, if_pos hreceiving, CachelessResolver.receiveAnswer, hfind]
  refine ⟨_, _, out, n, hasked.tail (.receive List.mem_cons_self hreceives hreceived),
    CachelessResolver.complete_same hrequest, rfl, ?_, ?_⟩
  · exact List.mem_append_right _ (List.mem_singleton_self key)
  · exact List.getElem?_set_self (List.getElem?_eq_some_iff.mp hl).1

theorem sending_resolved (hi : Inv zone s) (hacts : s.resolver.acts key .sending)
    (hfind : s.resolver.pendingRequests.find? (·.1 = l.id) = some (l.id, key))
    (hl : s.lookups[key]? = some l)
    (hfits : CompressedNames.wireLength (splitIntoLabels l.asciiName) ≤ fqdnMaxOctetLen)
    (hserves : zone.Serves l.message response) : ∃ s' r out n, Reaches zone s s' ∧
      s'.resolver.requests[key]? = some r ∧ r.returned = some (.resolved n) ∧
      s'.lookups[key]? = some (l.fill out) ∧ (l.fill out).Holds zone n := by
  obtain ⟨s₁, r₁, out, n, hs₁, hr₁, hresult, hready, hl₁⟩ :=
    sending_answered hacts hfind hl hfits hserves
  obtain ⟨resolver, r, hresumed, hr, hreturned⟩ :=
    CachelessResolver.resumes_ready hready hr₁ hresult
  have hs := hs₁.trans (reaches_resumed hresumed)
  obtain ⟨l', hl', hholds⟩ := (hi.run hs).holds key r hr n (.inr hreturned)
  cases hl₁.symm.trans hl'
  exact ⟨_, r, out, n, hs, hr, hreturned, hl₁, hholds⟩

theorem can_resolve (h : Reaches zone ({} : Traffic hash) s)
    (hp : (id, key) ∈ s.resolver.pendingRequests)
    (hunique : ∀ p ∈ s.resolver.pendingRequests, p.1 = id → p = (id, key))
    (hacts : s.resolver.acts key .sending ∨ s.resolver.acts key .sleeping)
    (hl : s.lookups[key]? = some l)
    (hname : l.asciiName.length ≤ 253 ∨ l.asciiName.length = 254 ∧ endsWithDot l.asciiName)
    (hserves : zone.Serves l.message response) : ∃ s' r l' n, Reaches zone s s' ∧
      s'.resolver.requests[key]? = some r ∧ r.returned = some (.resolved n) ∧
      s'.lookups[key]? = some l' ∧ l'.asked = l.asked ∧ l'.Holds zone n := by
  obtain ⟨l₀, hl₀, hid⟩ := identified h (id, key) hp
  cases hl.symm.trans hl₀
  have hfits := (wireLength_splitIntoLabels l.asciiName).mpr hname
  have hfind : s.resolver.pendingRequests.find? (·.1 = l.id) = some (l.id, key) := by
    have hsome : (s.resolver.pendingRequests.find? (·.1 = l.id)).isSome :=
      List.find?_isSome.mpr ⟨(id, key), hp, by simpa using hid.symm⟩
    obtain ⟨p, hfound⟩ := Option.isSome_iff_exists.mp hsome
    have hpid : p.1 = l.id := by simpa using List.find?_some hfound
    rw [hfound, hunique p (List.mem_of_find?_eq_some hfound) (hpid.trans hid), hid]
  have hi := Inv.empty.run h
  rcases hacts with hacts | ⟨r, hr, halive, hsender⟩
  · obtain ⟨s', r, out, n, hs, hr, hreturned, hl', hholds⟩ :=
      sending_resolved hi hacts hfind hl hfits hserves
    exact ⟨s', r, _, n, hs, hr, hreturned, hl', rfl, hholds⟩
  · -- The sender wakes up first and sends again.
    let again : Traffic hash := { s with
      resolver := s.resolver.setSender key .sending
      lookups := s.lookups.modify key (.sendAt 0) }
    have hawakes : s.resolver.Step (.awake key {}) (s.resolver.setSender key .sending) :=
      ⟨nofun, if_pos ⟨r, hr, halive, hsender⟩⟩
    have hawake : Step zone s again := .awake 0 hawakes
    have hacts : again.resolver.acts key .sending :=
      ⟨_, CachelessResolver.update_same hr, halive, rfl⟩
    have hl' : again.lookups[key]? = some (l.sendAt 0) := by
      rw [List.getElem?_modify_eq, hl]
      rfl
    obtain ⟨s', r', out, n, hs, hr', hreturned, hl'', hholds⟩ :=
      sending_resolved (l := l.sendAt 0) (hi.step hawake) hacts hfind hl' hfits hserves
    exact ⟨s', r', _, n, .head hawake hs, hr', hreturned, hl'', rfl, hholds⟩

theorem can_resolve_asking : ∃ s' r l' n,
    Reaches answeringZone (carrying asking askingLookup [] []) s' ∧
      s'.resolver.requests[0]? = some r ∧ r.returned = some (.resolved n) ∧
      s'.lookups[0]? = some l' ∧ l'.asked = askingLookup.asked ∧ l'.Holds answeringZone n := by
  have hp : ((7 : Id), 0) ∈ asking.pendingRequests := List.mem_singleton_self _
  exact can_resolve (.single resolve_asking) hp (fun _ hp _ => List.mem_singleton.mp hp)
    (.inl (by decide)) rfl (.inl (by decide)) serves_answering

end Protocol.Traffic

end Corosig.Dns
