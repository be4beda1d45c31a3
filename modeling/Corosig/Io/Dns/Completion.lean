import Corosig.Io.Dns.PendingIds

namespace Corosig.Dns.CachelessResolver

variable {s s' : CachelessResolver} {e : Event} {key k : Nat} {r : Request} {outcome : Outcome}

structure CompletedOnce (r : Request) : Prop where
  stored : r.stored.length ≤ 1
  scheduled : r.scheduled ≤ 1
  returned : ∀ outcome, r.returned = some outcome → r.stored.head? = some outcome

structure Waiting (r : Request) : Prop where
  stored : r.stored = r.result.toList
  scheduled : r.scheduled = r.stored.length
  returned : r.returned = none

structure Valid (r : Request) : Prop where
  once : CompletedOnce r
  waiting : r.alive → Waiting r

structure Inv (s : CachelessResolver) : Prop where
  valid : ∀ (k : Nat) r, s.requests[k]? = some r → Valid r
  pending : ∀ p ∈ s.pendingRequests, ∃ r, s.requests[p.2]? = some r ∧ r.alive ∧ r.result = none
  ready : ∀ k ∈ s.ready, ∃ r, s.requests[k]? = some r ∧ r.alive ∧ r.result.isSome
  nodup : s.ready.Nodup

def failedSend : Event → Option Nat
  | .sent key (some _) _ => some key
  | .awake key memory => if memory.sendFrame then none else some key
  | _ => none

def Unanswered (s : CachelessResolver) (e : Event) : Prop :=
  ∀ k r, failedSend e = some k → s.requests[k]? = some r → r.result = none

structure Exact (s : CachelessResolver) : Prop where
  once : ∀ r ∈ s.requests, CompletedOnce r
  ready : s.ready.Nodup

theorem Waiting.valid (h : Waiting r) : Valid r := by
  have hlen : r.stored.length ≤ 1 := by
    rw [h.stored]
    cases r.result <;> simp
  refine ⟨⟨hlen, h.scheduled ▸ hlen, ?_⟩, fun _ => h⟩
  intro outcome ho
  rw [h.returned] at ho
  cases ho

theorem Inv.exact (h : Inv s) : Exact s where
  once r hr := by
    obtain ⟨k, hk⟩ := List.getElem?_of_mem hr
    exact (h.valid k r hk).once
  ready := h.nodup

theorem inv_empty : Inv {} := ⟨by simp, by simp, by simp, by simp⟩

theorem getElem?_update {f : Request → Request} (hk : (s.update key f).requests[k]? = some r) :
    (k = key ∧ ∃ r₀, s.requests[key]? = some r₀ ∧ r = f r₀) ∨
      (k ≠ key ∧ s.requests[k]? = some r) := by
  simp only [update, List.getElem?_modify] at hk
  by_cases heq : key = k
  · subst heq
    obtain ⟨r₀, hr₀, rfl⟩ := Option.map_eq_some_iff.mp hk
    exact .inl ⟨rfl, r₀, hr₀, by simp⟩
  · simp only [heq, if_false, id_map'] at hk
    exact .inr ⟨fun h => heq h.symm, hk⟩

theorem update_of_ne (f : Request → Request) (hne : k ≠ key) :
    (s.update key f).requests[k]? = s.requests[k]? := by
  simp [update, hne.symm]

theorem update_same {f : Request → Request} (hr : s.requests[key]? = some r) :
    (s.update key f).requests[key]? = some (f r) := by
  simp [update, hr]

theorem Inv.keeps (h : Inv s) {f : Request → Request}
    (hvalid : ∀ r, Valid r → Valid (f r)) (halive : ∀ r, (f r).alive = r.alive)
    (hresult : ∀ r, (f r).result = r.result) : Inv (s.update key f) := by
  have hget : ∀ {k : Nat} {r : Request}, s.requests[k]? = some r →
      ∃ r', (s.update key f).requests[k]? = some r' ∧ r'.alive = r.alive ∧
        r'.result = r.result := by
    intro k r hr
    by_cases hk : k = key
    · subst hk
      exact ⟨f r, update_same hr, halive r, hresult r⟩
    · exact ⟨r, (update_of_ne f hk).trans hr, rfl, rfl⟩
  refine ⟨?_, ?_, ?_, h.nodup⟩
  · intro k r hr
    rcases getElem?_update hr with ⟨-, r₀, hr₀, rfl⟩ | ⟨-, hr⟩
    · exact hvalid r₀ (h.valid key r₀ hr₀)
    · exact h.valid k r hr
  · intro p hp
    obtain ⟨r, hr, ha, hres⟩ := h.pending p hp
    obtain ⟨r', hr', ha', hres'⟩ := hget hr
    exact ⟨r', hr', ha'.symm ▸ ha, hres'.trans hres⟩
  · intro k hk
    obtain ⟨r, hr, ha, hres⟩ := h.ready k hk
    obtain ⟨r', hr', ha', hres'⟩ := hget hr
    exact ⟨r', hr', ha'.symm ▸ ha, hres'.symm ▸ hres⟩

theorem Inv.setSender (h : Inv s) (key : Nat) (sender : Sender) : Inv (s.setSender key sender) :=
  h.keeps (fun _ hv => ⟨⟨hv.once.stored, hv.once.scheduled, hv.once.returned⟩, fun ha =>
    ⟨(hv.waiting ha).stored, (hv.waiting ha).scheduled, (hv.waiting ha).returned⟩⟩)
    (fun _ => rfl) fun _ => rfl

theorem Inv.receiving (h : Inv s) (b : Bool) : Inv { s with receiving := b } :=
  ⟨h.valid, h.pending, h.ready, h.nodup⟩

def completed (outcome : Outcome) (r : Request) : Request :=
  { r with
    result := some outcome
    stored := r.stored ++ [outcome]
    scheduled := r.scheduled + 1 }

theorem complete_eq (s : CachelessResolver) (key : Nat) (outcome : Outcome) :
    s.complete key outcome = { (s.update key (completed outcome)).unlink key with
      ready := s.ready ++ [key] } := by
  simp only [complete, store, schedule, unlink, update, List.modify_modify_eq]
  rfl

theorem complete_same (hr : s.requests[key]? = some r) :
    (s.complete key outcome).requests[key]? = some (completed outcome r) := by
  rw [complete_eq]
  exact update_same hr

theorem restart_eq (s : CachelessResolver) (memory : Memory) :
    ∃ b, s.restart memory = { s with receiving := b } := by
  unfold restart
  split
  · exact ⟨s.receiving, rfl⟩
  · exact ⟨_, rfl⟩

theorem Inv.complete (h : Inv s) (hr : s.requests[key]? = some r) (ha : r.alive)
    (hres : r.result = none) (outcome : Outcome) : Inv (s.complete key outcome) := by
  have hw := (h.valid key r hr).waiting ha
  have hstored : r.stored = [] := by rw [hw.stored, hres, Option.toList_none]
  have hsched : r.scheduled = 0 := by rw [hw.scheduled, hstored, List.length_nil]
  have hready : key ∉ s.ready := by
    intro hk
    obtain ⟨r', hr', -, hsome⟩ := h.ready key hk
    obtain rfl := Option.some.inj (hr.symm.trans hr')
    simp [hres] at hsome
  rw [complete_eq]
  refine ⟨?_, ?_, ?_, ?_⟩
  · intro k r' hr'
    rcases getElem?_update hr' with ⟨-, r₀, hr₀, rfl⟩ | ⟨-, hr'⟩
    · obtain rfl := Option.some.inj (hr.symm.trans hr₀)
      exact Waiting.valid ⟨by simp [completed, hstored], by simp [completed, hstored, hsched],
        hw.returned⟩
    · exact h.valid k r' hr'
  · intro p hp
    obtain ⟨hp, hne⟩ := List.mem_filter.mp hp
    obtain ⟨r', hr', ha', hres'⟩ := h.pending p hp
    exact ⟨r', (update_of_ne _ (by simpa using hne)).trans hr', ha', hres'⟩
  · intro k hk
    rcases List.mem_append.mp hk with hold | hnew
    · obtain ⟨r', hr', ha', hres'⟩ := h.ready k hold
      have hne : k ≠ key := by
        rintro rfl
        exact hready hold
      exact ⟨r', (update_of_ne _ hne).trans hr', ha', hres'⟩
    · obtain rfl := List.mem_singleton.mp hnew
      exact ⟨_, update_same hr, ha, rfl⟩
  · exact List.nodup_append.mpr ⟨h.nodup, List.nodup_singleton _, fun a ha b hb => by
      rw [List.mem_singleton.mp hb]
      exact fun heq => hready (heq ▸ ha)⟩

def destroyed (r : Request) : Request := { r with alive := false }

def returning (r : Request) : Request := { r with returned := r.result }

theorem Inv.destroy (h : Inv s) {f : Request → Request}
    (hf : ∀ r, s.requests[key]? = some r → Valid (destroyed (f r))) :
    Inv ((s.update key f).destroy key) := by
  have heq : (s.update key f).destroy key =
      { (s.update key (destroyed ∘ f)).unlink key with ready := s.ready.filter (· ≠ key) } := by
    simp only [CachelessResolver.destroy, unlink, update, List.modify_modify_eq]
    rfl
  rw [heq]
  refine ⟨?_, ?_, ?_, h.nodup.filter _⟩
  · intro k r hr
    rcases getElem?_update hr with ⟨-, r₀, hr₀, rfl⟩ | ⟨-, hr⟩
    · exact hf r₀ hr₀
    · exact h.valid k r hr
  · intro p hp
    obtain ⟨hp, hne⟩ := List.mem_filter.mp hp
    obtain ⟨r, hr, ha, hres⟩ := h.pending p hp
    exact ⟨r, (update_of_ne _ (by simpa using hne)).trans hr, ha, hres⟩
  · intro k hk
    obtain ⟨hk, hne⟩ := List.mem_filter.mp hk
    obtain ⟨r, hr, ha, hres⟩ := h.ready k hk
    exact ⟨r, (update_of_ne _ (by simpa using hne)).trans hr, ha, hres⟩

theorem Valid.finished (h : Valid r) (ha : r.alive) : Valid (destroyed (returning r)) := by
  have hw := h.waiting ha
  refine ⟨⟨h.once.stored, h.once.scheduled, ?_⟩, fun hd => by cases hd⟩
  intro outcome ho
  have hres : r.result = some outcome := ho
  show r.stored.head? = some outcome
  rw [hw.stored, hres]
  rfl

theorem Valid.dropped (h : Valid r) : Valid (destroyed r) :=
  ⟨⟨h.once.stored, h.once.scheduled, h.once.returned⟩, fun hd => by cases hd⟩

theorem Inv.finish (h : Inv s) (hr : s.requests[key]? = some r) (ha : r.alive) :
    Inv (s.finish key) := by
  refine h.destroy fun r' hr' => ?_
  obtain rfl := Option.some.inj (hr.symm.trans hr')
  exact (h.valid key r hr).finished ha

theorem Inv.resumed (h : Inv s) {ready : List Nat} (hk : s.ready = key :: ready) :
    Inv ({ s with ready := ready }.finish key) := by
  obtain ⟨r, hr, ha, -⟩ := h.ready key (hk ▸ List.mem_cons_self ..)
  have hpopped : Inv { s with ready := ready } :=
    ⟨h.valid, h.pending, fun k hk' => h.ready k (hk ▸ List.mem_cons_of_mem _ hk'),
      (List.nodup_cons.mp (hk ▸ h.nodup)).2⟩
  exact hpopped.finish hr ha

theorem Inv.dropped (h : Inv s) (key : Nat) : Inv (s.destroy key) := by
  have hid : s.update key id = s := by simp [update]
  rw [← hid]
  exact h.destroy fun r hr => (h.valid key r hr).dropped

theorem Inv.afterSend (h : Inv s) {failure : Option Failure} {memory : Memory}
    (hr : s.requests[key]? = some r) (ha : r.alive)
    (hres : failure.isSome → r.result = none) : Inv (s.afterSend key failure memory) := by
  obtain ⟨b, hb⟩ := restart_eq s memory
  cases failure with
  | none =>
    rw [CachelessResolver.afterSend, hb]
    exact (h.receiving b).setSender key _
  | some failure =>
    rw [CachelessResolver.afterSend, hb]
    exact ((h.receiving b).complete hr ha (hres rfl) _).setSender key _

theorem Inv.periodicBackgroundSend (h : Inv s) {memory : Memory}
    (hr : s.requests[key]? = some r) (ha : r.alive)
    (hres : memory.sendFrame = false → r.result = none) :
    Inv (s.periodicBackgroundSend key memory) := by
  unfold CachelessResolver.periodicBackgroundSend
  split
  · exact h.setSender key _
  · rename_i hframe
    exact h.afterSend hr ha fun _ => hres (by simpa using hframe)

theorem Inv.insert (h : Inv s) (id : Id) : Inv (s.insert id) := by
  have hget : ∀ {k : Nat} {r : Request}, s.requests[k]? = some r →
      (s.insert id).requests[k]? = some r := by
    intro k r hr
    obtain ⟨hlt, -⟩ := List.getElem?_eq_some_iff.mp hr
    exact (List.getElem?_append_left hlt).trans hr
  refine ⟨?_, ?_, ?_, h.nodup⟩
  · intro k r hr
    rcases List.mem_append.mp (List.mem_of_getElem? hr) with hmem | hmem
    · obtain ⟨k', hk'⟩ := List.getElem?_of_mem hmem
      exact h.valid k' r hk'
    · obtain rfl := List.mem_singleton.mp hmem
      exact Waiting.valid ⟨rfl, rfl, rfl⟩
  · intro p hp
    rcases List.mem_cons.mp ((List.perm_orderedInsert _ _ _).mem_iff.mp hp) with rfl | hp
    · exact ⟨{}, List.getElem?_concat_length, rfl, rfl⟩
    · obtain ⟨r, hr, ha, hres⟩ := h.pending p hp
      exact ⟨r, hget hr, ha, hres⟩
  · intro k hk
    obtain ⟨r, hr, ha, hres⟩ := h.ready k hk
    exact ⟨r, hget hr, ha, hres⟩

theorem alive_afterSend {failure : Option Failure} {memory : Memory}
    (hr : s.requests[key]? = some r) (ha : r.alive) :
    ∃ r', (s.afterSend key failure memory).requests[key]? = some r' ∧ r'.alive := by
  obtain ⟨b, hb⟩ := restart_eq s memory
  cases failure with
  | none =>
    rw [afterSend, hb]
    exact ⟨_, update_same hr, ha⟩
  | some failure =>
    rw [afterSend, hb]
    exact ⟨_, update_same (complete_same hr), ha⟩

theorem alive_startSender (memory : Memory) (hr : s.requests[key]? = some r) (ha : r.alive) :
    ∃ r', (s.startSender key memory).requests[key]? = some r' ∧ r'.alive := by
  unfold startSender CachelessResolver.periodicBackgroundSend
  split
  · split
    · exact ⟨_, update_same hr, ha⟩
    · exact alive_afterSend hr ha
  · exact ⟨r, hr, ha⟩

theorem Inv.startSender (h : Inv s) (memory : Memory) (hr : s.requests[key]? = some r)
    (ha : r.alive) (hres : r.result = none) : Inv (s.startSender key memory) := by
  unfold CachelessResolver.startSender
  split
  · exact h.periodicBackgroundSend hr ha fun _ => hres
  · exact h

theorem Inv.processRequest (h : Inv s) (id : Id) (memory : Memory) :
    Inv (s.processRequest id memory) := by
  have hr : (s.insert id).requests[s.requests.length]? = some {} := List.getElem?_concat_length
  have hstart := (h.insert id).startSender memory hr rfl rfl
  obtain ⟨r, hr, ha⟩ := alive_startSender memory hr rfl
  unfold CachelessResolver.processRequest
  simp only
  split
  · exact hstart.finish hr ha
  · exact hstart

theorem Inv.receiveAnswer (h : Inv s) (packet : Packet) : Inv (s.receiveAnswer packet) := by
  unfold CachelessResolver.receiveAnswer
  split
  · exact h
  · split
    · rename_i hfind
      obtain ⟨r, hr, ha, hres⟩ := h.pending _ (List.mem_of_find?_eq_some hfind)
      exact h.complete hr ha hres _
    · exact h

theorem Inv.step (h : Inv s) (hok : Unanswered s e) (hs : s.Step e s') : Inv s' := by
  have hc := apply_cases hs.applied
  cases e with
  | resolve drawn servers encoded memory =>
    rcases hc with ⟨-, rfl⟩ | ⟨-, rfl⟩
    · exact h
    · exact h.processRequest drawn memory
  | sent key failure memory =>
    obtain ⟨⟨r, hr, ha, -⟩, rfl⟩ := hc
    refine h.afterSend hr ha fun hsome => hok key r ?_ hr
    obtain ⟨failure, rfl⟩ := Option.isSome_iff_exists.mp hsome
    rfl
  | awake key memory =>
    obtain ⟨⟨r, hr, ha, -⟩, rfl⟩ := hc
    exact h.periodicBackgroundSend hr ha fun hframe => hok key r (by simp [failedSend, hframe]) hr
  | received packet memory =>
    obtain ⟨-, rfl⟩ := hc
    exact (h.receiveAnswer packet).receiving _
  | receiveFailed =>
    obtain ⟨-, rfl⟩ := hc
    exact h.receiving false
  | resumed =>
    obtain ⟨key, ready, hk, rfl⟩ := hc
    exact h.resumed hk
  | dropped key =>
    obtain ⟨-, rfl⟩ := hc
    exact h.dropped key

theorem Inv.run (h : Inv s) (hr : Reaches Unanswered s s') : Inv s' := by
  induction hr with
  | refl => exact h
  | tail _ hstep ih =>
    obtain ⟨e, hok, hstep⟩ := hstep
    exact ih.step hok hstep

theorem not_exact_of_answered (h : Inv s) (hr : s.requests[key]? = some r) (ha : r.alive)
    (hres : r.result ≠ none) (failure : Failure) (memory : Memory) :
    ¬ Exact (s.afterSend key (some failure) memory) := by
  intro hexact
  have hw := (h.valid key r hr).waiting ha
  obtain ⟨outcome, ho⟩ := Option.ne_none_iff_exists'.mp hres
  obtain ⟨b, hb⟩ := restart_eq s memory
  rw [afterSend, hb] at hexact
  have hlen := (hexact.once _ (List.mem_of_getElem? (update_same (complete_same hr)))).stored
  simp [completed, hw.stored, ho] at hlen

theorem Inv.exact_iff (h : Inv s) (hs : s.Step e s') : Exact s' ↔ Unanswered s e := by
  refine ⟨fun hexact k r hk hr => ?_, fun hok => (h.step hok hs).exact⟩
  by_contra hres
  have hc := apply_cases hs.applied
  cases e with
  | sent key failure memory =>
    cases failure with
    | none => cases hk
    | some failure =>
      obtain rfl := Option.some.inj hk
      obtain ⟨⟨r', hr', ha, -⟩, rfl⟩ := hc
      obtain rfl := Option.some.inj (hr.symm.trans hr')
      exact not_exact_of_answered h hr ha hres failure memory hexact
  | awake key memory =>
    simp only [failedSend] at hk
    split at hk
    · cases hk
    · rename_i hframe
      obtain rfl := Option.some.inj hk
      obtain ⟨⟨r', hr', ha, -⟩, rfl⟩ := hc
      obtain rfl := Option.some.inj (hr.symm.trans hr')
      rw [CachelessResolver.periodicBackgroundSend, if_neg hframe] at hexact
      exact not_exact_of_answered h hr ha hres .allocation memory hexact
  | _ => cases hk

theorem exact_of_unanswered (h : Reaches Unanswered {} s) : Exact s := (inv_empty.run h).exact

theorem reaches_event {ok : CachelessResolver → Event → Prop} {t : CachelessResolver}
    (h : Reaches ok s t) (e : Event) (hok : ok t e) (hd : t.draws e = none)
    (ha : t.apply e = some s') : Reaches ok s s' :=
  h.tail ⟨e, hok, fun _ hid => (by rw [hd] at hid; cases hid), ha⟩

def retrying : CachelessResolver where
  pendingRequests := [(7, 0)]
  requests := [{ sender := .sending }]
  receiving := true

theorem reaches_retrying {ok : CachelessResolver → Event → Prop}
    (hok : ∀ s e, failedSend e = none → ok s e) : Reaches ok {} retrying := by
  have happ : ∃ s₁ s₂ s₃, apply {} (drawing 7) = some s₁ ∧
      s₁.apply (.sent 0 none {}) = some s₂ ∧ s₂.apply (.awake 0 {}) = some s₃ ∧ s₃ = retrying :=
    ⟨_, _, _, rfl, rfl, rfl, by decide +kernel⟩
  obtain ⟨s₁, s₂, s₃, h₁, h₂, h₃, rfl⟩ := happ
  have hr₁ : Reaches ok {} s₁ := reaches_drawing .refl (hok _ _ rfl) (by decide +kernel) h₁
  exact reaches_event (reaches_event hr₁ _ (hok _ _ rfl) rfl h₂) _ (hok _ _ rfl) rfl h₃

theorem exact_of_unanswered_failure : ∃ s : CachelessResolver,
    s.requests.map (·.returned) = [some (.failed (.syscall 101))] ∧ Exact s := by
  have happ : ∃ s₁ s₂, retrying.apply (.sent 0 (some (.syscall 101)) {}) = some s₁ ∧
      s₁.apply .resumed = some s₂ ∧
      s₂.requests.map (·.returned) = [some (.failed (.syscall 101))] :=
    ⟨_, _, rfl, rfl, by decide +kernel⟩
  obtain ⟨s₁, s₂, h₁, h₂, hreturned⟩ := happ
  have hok : Unanswered retrying (.sent 0 (some (.syscall 101)) {}) := by
    rintro k r hk hr
    obtain rfl := Option.some.inj hk
    obtain rfl := Option.some.inj hr
    rfl
  have hr₁ := reaches_event (reaches_retrying fun s e he k r hk _ => by rw [he] at hk; cases hk)
    _ hok rfl h₁
  have hr₂ := reaches_event hr₁ .resumed (fun k r hk _ => by cases hk) rfl h₂
  exact ⟨s₂, hreturned, exact_of_unanswered hr₂⟩

theorem completed_twice : ¬ ∀ s, Reaches (fun _ _ => True) {} s → Exact s := by
  intro hall
  have happ : ∃ s₁ s₂, retrying.apply (.received ⟨some 7, .resolved 1⟩ {}) = some s₁ ∧
      s₁.apply (.sent 0 (some (.syscall 101)) {}) = some s₂ ∧ s₂.ready = [0, 0] :=
    ⟨_, _, rfl, rfl, by decide +kernel⟩
  obtain ⟨s₁, s₂, h₁, h₂, hready⟩ := happ
  have hr₁ := reaches_event (reaches_retrying fun _ _ _ => trivial) _ trivial rfl h₁
  have hexact := hall s₂ (reaches_event hr₁ _ trivial rfl h₂)
  have hnodup := hexact.ready
  rw [hready] at hnodup
  exact absurd hnodup (by decide)

end Corosig.Dns.CachelessResolver
