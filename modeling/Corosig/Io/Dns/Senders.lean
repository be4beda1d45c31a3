import Corosig.Io.Dns.Completion

namespace Corosig.Dns

def Request.Attended (r : Request) : Prop := r.alive → r.scheduled = 0 → r.sender ≠ .finished

namespace CachelessResolver

variable {s s' : CachelessResolver} {e : Event} {key : Nat} {r : Request}

def Attended (s : CachelessResolver) : Prop := ∀ r ∈ s.requests, r.Attended

def AttendedBut (key : Nat) (s : CachelessResolver) : Prop :=
  ∀ (k : Nat) (r : Request), k ≠ key → s.requests[k]? = some r → r.Attended

def unframed (s : CachelessResolver) : Event → Prop
  | .resolve _ servers encoded memory =>
      ¬ s.refuses servers ∧ encoded = none ∧ memory.senderFrame = false
  | _ => False

def Framed (s : CachelessResolver) (e : Event) : Prop := ¬ s.unframed e

def ReportsAllocation (s : CachelessResolver) (e : Event) (s' : CachelessResolver) : Prop :=
  s.unframed e → ∃ r, s'.requests[s.requests.length]? = some r ∧
    r.returned = some (.failed .allocation)

theorem Attended.but (h : Attended s) (key : Nat) : AttendedBut key s :=
  fun _ r _ hr => h r (List.mem_of_getElem? hr)

theorem AttendedBut.update (h : AttendedBut key s) {f : Request → Request}
    (hf : ∀ r, (f r).Attended) : Attended (s.update key f) := by
  intro r hr
  obtain ⟨k, hk⟩ := List.getElem?_of_mem hr
  obtain ⟨-, r₀, -, rfl⟩ | ⟨hne, hk⟩ := getElem?_update hk
  · exact hf r₀
  · exact h k r hne hk

theorem AttendedBut.setSender (h : AttendedBut key s) {sender : Sender}
    (hs : sender ≠ .finished) : Attended (s.setSender key sender) :=
  h.update fun _ _ _ => hs

theorem AttendedBut.complete (h : AttendedBut key s) (outcome : Outcome) :
    Attended (s.complete key outcome) := by
  rw [complete_eq]
  exact h.update fun r _ hsched => absurd hsched (Nat.succ_ne_zero r.scheduled)

theorem AttendedBut.failed (h : AttendedBut key s) (outcome : Outcome) :
    Attended ((s.complete key outcome).setSender key .finished) := by
  have heq : ((s.complete key outcome).setSender key .finished).requests =
      (s.update key fun r => { completed outcome r with sender := .finished }).requests := by
    rw [complete_eq]
    simp only [CachelessResolver.setSender, CachelessResolver.update, unlink, List.modify_modify_eq]
    rfl
  unfold Attended
  rw [heq]
  exact h.update fun r _ hsched => absurd hsched (Nat.succ_ne_zero r.scheduled)

theorem AttendedBut.afterSend (h : AttendedBut key s) (failure : Option Failure)
    (memory : Memory) : Attended (s.afterSend key failure memory) := by
  obtain ⟨b, hb⟩ := restart_eq s memory
  have h' : AttendedBut key { s with receiving := b } := h
  cases failure with
  | none =>
    rw [CachelessResolver.afterSend, hb]
    exact h'.setSender (by decide)
  | some failure =>
    rw [CachelessResolver.afterSend, hb]
    exact h'.failed _

theorem AttendedBut.periodicBackgroundSend (h : AttendedBut key s) (memory : Memory) :
    Attended (s.periodicBackgroundSend key memory) := by
  unfold CachelessResolver.periodicBackgroundSend
  split
  · exact h.setSender (by decide)
  · exact h.afterSend _ _

theorem Attended.destroy (h : Attended s) (key : Nat) : Attended (s.destroy key) :=
  (h.but key).update fun _ hd => by cases hd

theorem Attended.finish (h : Attended s) (key : Nat) : Attended (s.finish key) := by
  have hreturned : Attended (s.update key fun r => { r with returned := r.result }) := by
    intro r hr
    obtain ⟨k, hk⟩ := List.getElem?_of_mem hr
    obtain ⟨-, r₀, hr₀, rfl⟩ | ⟨-, hk⟩ := getElem?_update hk
    · exact h r₀ (List.mem_of_getElem? hr₀)
    · exact h r (List.mem_of_getElem? hk)
  exact hreturned.destroy key

theorem Attended.insert (h : Attended s) (id : Id) : AttendedBut s.requests.length (s.insert id) := by
  intro k r hne hr
  rcases List.mem_append.mp (List.mem_of_getElem? hr) with hmem | hmem
  · exact h r hmem
  · have hlt := (List.getElem?_eq_some_iff.mp hr).1
    simp only [CachelessResolver.insert, List.length_append, List.length_singleton] at hlt
    have hold : k < s.requests.length := by omega
    exact h r (List.mem_of_getElem? ((List.getElem?_append_left hold).symm.trans hr))

theorem Attended.processRequest (h : Attended s) (id : Id) {memory : Memory}
    (hframe : memory.senderFrame) : Attended (s.processRequest id memory) := by
  have hstart : Attended ((s.insert id).startSender s.requests.length memory) := by
    rw [CachelessResolver.startSender, if_pos hframe]
    exact (h.insert id).periodicBackgroundSend memory
  unfold CachelessResolver.processRequest
  simp only
  split
  · exact hstart.finish _
  · exact hstart

theorem Attended.receiveAnswer (h : Attended s) (packet : Packet) :
    Attended (s.receiveAnswer packet) := by
  unfold CachelessResolver.receiveAnswer
  split
  · exact h
  · split
    · exact (h.but _).complete _
    · exact h

theorem Attended.step (h : Attended s) (hok : Framed s e) (hs : s.Step e s') : Attended s' := by
  have hc := apply_cases hs.applied
  cases e with
  | resolve drawn servers encoded memory =>
    obtain ⟨-, rfl⟩ | ⟨hserved, rfl⟩ := hc
    · exact h
    · cases encoded with
      | some failure =>
        rw [← Option.some.inj ((if_pos (.inr rfl)).symm.trans hs.applied)]
        exact h
      | none =>
        refine h.processRequest drawn (Bool.not_eq_false _ ▸ fun hframe => ?_)
        exact hok ⟨hserved, rfl, hframe⟩
  | sent key failure memory =>
    obtain ⟨-, rfl⟩ := hc
    exact (h.but key).afterSend _ _
  | awake key memory =>
    obtain ⟨-, rfl⟩ := hc
    exact (h.but key).periodicBackgroundSend _
  | received packet memory =>
    obtain ⟨-, rfl⟩ := hc
    exact h.receiveAnswer packet
  | receiveFailed =>
    obtain ⟨-, rfl⟩ := hc
    exact h
  | resumed =>
    obtain ⟨key, ready, -, rfl⟩ := hc
    have hpopped : Attended { s with ready := ready } := h
    exact hpopped.finish key
  | dropped key =>
    obtain ⟨-, rfl⟩ := hc
    exact h.destroy key

theorem Attended.run (h : Attended s) (hr : Reaches Framed s s') : Attended s' := by
  induction hr with
  | refl => exact h
  | tail _ hstep ih =>
    obtain ⟨e, hok, hstep⟩ := hstep
    exact ih.step hok hstep

theorem not_attended_of_unframed (hu : s.unframed e) (hs : s.Step e s') : ¬ Attended s' := by
  intro h
  cases e with
  | resolve drawn servers encoded memory =>
    obtain ⟨hserved, rfl, hframe⟩ := hu
    have happ := hs.applied
    have hcond : ¬ (s.refuses servers ∨ (none : Option Failure).isSome) := by
      rintro (hr | hr)
      · exact hserved hr
      · cases hr
    simp only [CachelessResolver.apply, if_neg hcond] at happ
    have hnew : (s.insert drawn).requests[s.requests.length]? = some {} :=
      List.getElem?_concat_length
    have hstart : (s.insert drawn).startSender s.requests.length memory = s.insert drawn := by
      rw [CachelessResolver.startSender, if_neg (by rw [hframe]; decide)]
    simp only [CachelessResolver.processRequest, hstart, hnew] at happ
    rw [← Option.some.inj happ] at h
    exact h {} (List.mem_of_getElem? hnew) rfl rfl rfl
  | _ => exact hu

theorem attended_empty : Attended {} := by
  rintro r ⟨⟩

theorem attended_of_framed (h : Reaches Framed {} s) :
    Attended s ∧ ∀ e s', s.Step e s' →
      (Attended s' ∧ s.ReportsAllocation e s' ↔ Framed s e) := by
  have hs := attended_empty.run h
  refine ⟨hs, fun e s' hstep => ⟨fun hgood hu => ?_, fun hok => ⟨?_, ?_⟩⟩⟩
  · exact not_attended_of_unframed hu hstep hgood.1
  · exact hs.step hok hstep
  · exact fun hu => absurd hu hok

theorem attended_drawing : ∃ s : CachelessResolver, s.requests ≠ [] ∧ Attended s := by
  obtain ⟨s, hs⟩ : ∃ s, apply {} (drawing 7) = some s := ⟨_, rfl⟩
  have hreach : Reaches Framed {} s :=
    reaches_drawing .refl (by rintro ⟨-, -, ⟨⟩⟩) (by decide +kernel) hs
  refine ⟨s, ?_, (attended_of_framed hreach).1⟩
  obtain rfl := Option.some.inj hs
  decide +kernel

theorem unattended_without_frame : ¬ ∀ s, Reaches (fun _ _ => True) {} s → Attended s := by
  intro hall
  let e : Event := .resolve 7 1 none { senderFrame := false }
  have hu : unframed {} e := ⟨by decide, rfl, rfl⟩
  obtain ⟨s, hs⟩ : ∃ s, apply {} e = some s := ⟨_, rfl⟩
  have hstep : Step {} e s := ⟨fun id _ => settles_iff.mpr fun hc => (by cases hc.2), hs⟩
  exact not_attended_of_unframed hu hstep (hall s (.single ⟨e, trivial, hstep⟩))

end CachelessResolver

end Corosig.Dns
