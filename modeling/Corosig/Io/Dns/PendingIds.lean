import Corosig.Io.Dns.Resolver

namespace Corosig.Dns.CachelessResolver
open Loop

variable {s s' : CachelessResolver} {e : Event} {id : Id} {key : Nat} {memory : Memory}

theorem settles_of_unused (h : id ∉ s.ids) : s.Settles id := by
  have hfind : s.find id = s.ids.length := List.findIdx_eq_length.mpr fun x hx => by
    simpa using fun heq : x = id => h (heq ▸ hx)
  refine halts_done (r := ()) ?_
  simp [collisionStep, hfind]

theorem settles_iff : s.Settles id ↔ ¬ (id = maxId ∧ s.ids.head? = some maxId) := by
  constructor
  · rintro h ⟨rfl, hhead⟩
    have hzero : s.ids[0]? = some maxId := by rwa [List.head?_eq_getElem?] at hhead
    have hfind : s.find maxId = 0 := by
      obtain ⟨rest, hids⟩ := List.head?_eq_some_iff.mp hhead
      rw [find, hids, List.findIdx_cons, decide_eq_true rfl, cond_true]
    refine not_halts_of_forever (I := (· = 0)) ?_ hfind h
    rintro it rfl
    exact ⟨0, by simp [collisionStep, hzero], rfl⟩
  · intro h
    by_cases hmax : id = maxId
    · subst hmax
      have hzero : Halts (collisionStep s.ids maxId) 0 := by
        have hne : s.ids[0]? ≠ some maxId := by
          rw [← List.head?_eq_getElem?]
          exact fun hhead => h ⟨rfl, hhead⟩
        refine halts_done (r := ()) ?_
        unfold collisionStep
        split
        · rename_i other hother
          rw [if_neg]
          rintro rfl
          exact hne hother
        · rfl
      unfold Settles
      cases hs : collisionStep s.ids maxId (s.find maxId) with
      | done r => exact halts_done hs
      | more it =>
        have hit : it = 0 := by
          unfold collisionStep at hs
          split at hs
          · split at hs
            · rw [if_pos rfl] at hs
              exact (Next.more.inj hs).symm
            · cases hs
          · cases hs
        exact (halts_more hs).mpr (hit ▸ hzero)
    · refine halts_of_measure (I := fun _ => True) (fun it => s.ids.length - it) ?_ trivial
      intro it it' _ hs
      refine ⟨trivial, ?_⟩
      unfold collisionStep at hs
      split at hs
      · rename_i other hother
        obtain ⟨hlt, -⟩ := List.getElem?_eq_some_iff.mp hother
        split at hs
        · obtain rfl := Next.more.inj hs
          omega
        · cases hs
      · cases hs

abbrev Narrows (s s' : CachelessResolver) : Prop :=
  s'.pendingRequests.Sublist s.pendingRequests

theorem narrows_complete (s : CachelessResolver) (key : Nat) (outcome : Outcome) :
    Narrows s (s.complete key outcome) := List.filter_sublist

theorem narrows_destroy (s : CachelessResolver) (key : Nat) : Narrows s (s.destroy key) :=
  List.filter_sublist

theorem narrows_finish (s : CachelessResolver) (key : Nat) : Narrows s (s.finish key) :=
  List.filter_sublist

theorem pendingRequests_restart (s : CachelessResolver) (memory : Memory) :
    (s.restart memory).pendingRequests = s.pendingRequests := by
  unfold restart
  split <;> rfl

theorem narrows_afterSend (s : CachelessResolver) (key : Nat) (failure : Option Failure)
    (memory : Memory) : Narrows s (s.afterSend key failure memory) := by
  unfold Narrows
  rw [← pendingRequests_restart s memory]
  cases failure with
  | none => exact .refl _
  | some failure => exact narrows_complete _ key _

theorem narrows_periodicBackgroundSend (s : CachelessResolver) (key : Nat) (memory : Memory) :
    Narrows s (s.periodicBackgroundSend key memory) := by
  unfold periodicBackgroundSend
  split
  · exact .refl _
  · exact narrows_afterSend s key _ memory

theorem narrows_startSender (s : CachelessResolver) (key : Nat) (memory : Memory) :
    Narrows s (s.startSender key memory) := by
  unfold startSender
  split
  · exact narrows_periodicBackgroundSend s key memory
  · exact .refl _

theorem narrows_processRequest (s : CachelessResolver) (id : Id) (memory : Memory) :
    Narrows (s.insert id) (s.processRequest id memory) := by
  have hstart := narrows_startSender (s.insert id) s.requests.length memory
  unfold processRequest
  simp only
  split
  · exact (narrows_finish _ _).trans hstart
  · exact hstart

theorem narrows_receiveAnswer (s : CachelessResolver) (packet : Packet) :
    Narrows s (s.receiveAnswer packet) := by
  unfold receiveAnswer
  split
  · exact .refl _
  · split
    · exact narrows_complete s _ _
    · exact .refl _

theorem apply_narrows (h : s.apply e = some s') :
    Narrows s s' ∨ ∃ id, s.draws e = some id ∧ Narrows (s.insert id) s' := by
  have hc := apply_cases h
  cases e with
  | resolve drawn servers encoded memory =>
    rcases hc with ⟨-, rfl⟩ | ⟨hr, rfl⟩
    · exact .inl (.refl _)
    · exact .inr ⟨drawn, if_neg hr, narrows_processRequest s drawn memory⟩
  | sent key failure memory =>
    obtain ⟨-, rfl⟩ := hc
    exact .inl (narrows_afterSend s key failure memory)
  | awake key memory =>
    obtain ⟨-, rfl⟩ := hc
    exact .inl (narrows_periodicBackgroundSend s key memory)
  | received packet memory =>
    obtain ⟨-, rfl⟩ := hc
    exact .inl (narrows_receiveAnswer s packet)
  | receiveFailed =>
    obtain ⟨-, rfl⟩ := hc
    exact .inl (.refl _)
  | resumed =>
    obtain ⟨key, ready, -, rfl⟩ := hc
    exact .inl (narrows_finish _ key)
  | dropped key =>
    obtain ⟨-, rfl⟩ := hc
    exact .inl (narrows_destroy s key)

theorem ids_insert (s : CachelessResolver) (id : Id) : (s.insert id).ids.Perm (id :: s.ids) :=
  (List.perm_orderedInsert _ (id, s.requests.length) s.pendingRequests).map _

def Unused (s : CachelessResolver) (e : Event) : Prop := ∀ id, s.draws e = some id → id ∉ s.ids

def AssignsFresh (s : CachelessResolver) (id : Id) : Prop :=
  s.Settles id ∧ ∀ p ∈ s.pendingRequests, id ≠ p.1

theorem ids_nodup_step (hs : s.ids.Nodup) (hu : Unused s e) (h : s.Step e s') : s'.ids.Nodup := by
  rcases apply_narrows h.applied with hn | ⟨id, hid, hn⟩
  · exact hs.sublist (hn.map _)
  · have hfresh : (s.insert id).ids.Nodup :=
      (ids_insert s id).nodup_iff.mpr (List.nodup_cons.mpr ⟨hu id hid, hs⟩)
    exact hfresh.sublist (hn.map _)

theorem ids_nodup_run (hs : s.ids.Nodup) (h : Reaches Unused s s') : s'.ids.Nodup := by
  induction h with
  | refl => exact hs
  | tail _ hstep ih =>
    obtain ⟨e, hu, hstep⟩ := hstep
    exact ids_nodup_step ih hu hstep

theorem assignsFresh_iff (s : CachelessResolver) (id : Id) : AssignsFresh s id ↔ id ∉ s.ids := by
  have hmem : id ∉ s.ids ↔ ∀ p ∈ s.pendingRequests, id ≠ p.1 := by
    simp only [ids, List.mem_map, not_exists, not_and]
    exact forall₂_congr fun p _ => ne_comm
  exact ⟨fun h => hmem.mpr h.2, fun h => ⟨settles_of_unused h, hmem.mp h⟩⟩

theorem ids_nodup_empty : ({} : CachelessResolver).ids.Nodup := List.nodup_nil

theorem ids_nodup_of_unused (h : Reaches Unused {} s) :
    s.ids.Nodup ∧ ∀ id, AssignsFresh s id ↔ id ∉ s.ids :=
  ⟨ids_nodup_run ids_nodup_empty h, assignsFresh_iff s⟩

def drawing (id : Id) : Event := .resolve id 1 none {}

theorem reaches_drawing {ok : CachelessResolver → Event → Prop} {t : CachelessResolver}
    (h : Reaches ok s t) (hok : ok t (drawing id))
    (hs : ¬ (id = maxId ∧ t.ids.head? = some maxId)) (ha : t.apply (drawing id) = some s') :
    Reaches ok s s' := by
  refine h.tail ⟨drawing id, hok, ⟨fun drawn hd => ?_, ha⟩⟩
  simp only [draws, drawing] at hd
  split at hd
  · cases hd
  · obtain rfl := Option.some.inj hd
    exact settles_iff.mpr hs

theorem ids_nodup_of_unused_seven_eight : ∃ s : CachelessResolver,
    s.ids = [7, 8] ∧ s.ids.Nodup ∧ ∀ id, AssignsFresh s id ↔ id ∉ s.ids := by
  have happ : ∃ s₁ s₂, apply {} (drawing 7) = some s₁ ∧ s₁.apply (drawing 8) = some s₂ ∧
      s₁.ids = [7] ∧ s₂.ids = [7, 8] := ⟨_, _, rfl, rfl, by decide +kernel, by decide +kernel⟩
  obtain ⟨s₁, s₂, h₁, h₂, hids₁, hids₂⟩ := happ
  have hr₁ : Reaches Unused {} s₁ := by
    refine reaches_drawing .refl (fun id _ => by simp [ids]) (by decide +kernel) h₁
  have hr₂ : Reaches Unused {} s₂ := by
    refine reaches_drawing hr₁ (fun id hd => ?_) ?_ h₂
    · simp only [draws, drawing] at hd
      split at hd
      · cases hd
      · obtain rfl := Option.some.inj hd
        rw [hids₁]
        decide +kernel
    · rw [hids₁]
      decide +kernel
  exact ⟨s₂, hids₂, ids_nodup_of_unused hr₂⟩

theorem ids_collide : ¬ ∀ s, Reaches (fun _ _ => True) {} s →
    s.ids.Nodup ∧ ∀ id, AssignsFresh s id := by
  intro hall
  have happ : ∃ s₁ s₂, apply {} (drawing 7) = some s₁ ∧ s₁.apply (drawing 7) = some s₂ ∧
      s₁.ids = [7] ∧ s₂.ids = [7, 7] := ⟨_, _, rfl, rfl, by decide +kernel, by decide +kernel⟩
  obtain ⟨s₁, s₂, h₁, h₂, hids₁, hids₂⟩ := happ
  have hr₁ : Reaches (fun _ _ => True) {} s₁ :=
    reaches_drawing .refl trivial (by decide +kernel) h₁
  have hr₂ : Reaches (fun _ _ => True) {} s₂ :=
    reaches_drawing hr₁ trivial (by rw [hids₁]; decide +kernel) h₂
  have hnodup := (hall s₂ hr₂).1
  rw [hids₂] at hnodup
  exact absurd hnodup (by decide +kernel)

end Corosig.Dns.CachelessResolver
