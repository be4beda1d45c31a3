import Corosig.Container.VectorGrowth

namespace Corosig.Container
open Custody

namespace Vector

variable {α : Type} {t : Elements α} {m m' : Memory} {v v' copies copies' : Vector α}
  {e : Element α} {es cs : List (Element α)} {r : Except VectorError Unit} {count n k : Nat}
  {arg : Arg α} {x y : α} {rest : List (Slot α)}

theorem Growth.trans {m₁ : Memory} {v₁ : Vector α} (h : Growth m m₁ v v₁)
    (h' : Growth m₁ m' v₁ v') : Growth m m' v v' :=
  ⟨h'.cloned.trans h.cloned, h'.elements.trans h.elements,
    fun l => (h.buffers l).trans (h'.buffers l), h.capacity.trans h'.capacity⟩

def Arg.Names (es : List (Element α)) : Arg α → α → Prop
  | .value y, x => y = x
  | .slot _ j, x => (es[j]?).map (·.value) = some x

theorem live_of_getElem? (hc : v.Contains es) {j : Nat} (h : v.slots[j]? = some (.live e)) :
    es[j]? = some e := by
  obtain ⟨-, ⟨rest, hslots, hrest⟩, -⟩ := hc
  rw [hslots] at h
  rcases Nat.lt_or_ge j (es.map Slot.live).length with hj | hj
  · rw [List.getElem?_append_left hj, List.getElem?_map] at h
    obtain ⟨e', he', hl⟩ := Option.map_eq_some_iff.mp h
    cases hl
    exact he'
  · rw [List.getElem?_append_right hj] at h
    cases hrest _ (List.mem_of_getElem? h)

theorem names_of_read (hc : v.Contains es) (h : arg.read v = some x) : arg.Names es x := by
  cases arg with
  | value y =>
    cases h
    rfl
  | slot buffer j =>
    rw [Arg.read] at h
    split at h
    · cases h
    · rename_i b hb
      split at h
      · rename_i e he
        split at h
        · cases h
          have hs : v.slots[j]? = some (.live e) := by simpa [slots, hb] using he
          simp [Arg.Names, live_of_getElem? hc hs]
        · cases h
      · cases h

theorem Arg.Names.shorten (hx : arg.Names es x) (hy : arg.Names (es ++ cs) y) :
    arg.Names es y := by
  cases arg with
  | value z => exact hy
  | slot buffer j =>
    obtain ⟨e, he, -⟩ := Option.map_eq_some_iff.mp hx
    obtain ⟨hj, -⟩ := List.getElem?_eq_some_iff.mp he
    have hy' : ((es ++ cs)[j]?).map (·.value) = some y := hy
    rw [List.getElem?_append_left hj] at hy'
    exact hy'

theorem pushValues_spec (hc : v.Contains es) (h : pushValues t m v arg n = some (m', v', r)) :
    ∃ added, Extended m m' v v' es added ∧ (r = .ok () → added.length = n) ∧
      (∀ e ∈ added, arg.Names es e.value) ∧ (v.size + n ≤ v.capacity → r = .ok ()) ∧
      ∀ err, r = .error err →
        (added = [] ↔ v.size = v.capacity ∧ t.allocates m.allocations = false) := by
  induction n generalizing m v es with
  | zero =>
    cases h
    exact ⟨[], extended_refl hc _, fun _ => rfl, by rintro _ ⟨⟩, fun _ => rfl, by rintro _ ⟨⟩⟩
  | succ n ih =>
    obtain ⟨x, hx, h⟩ := Option.bind_eq_some_iff.mp h
    obtain ⟨⟨m₁, v₁, r₁⟩, hp, h⟩ := Option.bind_eq_some_iff.mp h
    have hspec := pushTemporary_spec hc hp
    have hname := names_of_read hc hx
    rcases r₁ with err | ⟨⟩
    · have herr := hspec.extended_error hc
      cases h
      obtain ⟨rfl, he⟩ := herr
      cases hspec with
      | refused hfull ha =>
        exact ⟨[], he, by rintro ⟨⟩, by rintro _ ⟨⟩, fun hroom => by omega,
          fun _ _ => iff_of_true rfl ⟨hfull, ha⟩⟩
    · have he := hspec.extended_ok
      obtain ⟨rest, he', hlen, hnames, hroom, -⟩ := ih he.contains h
      refine ⟨_, he.trans he', fun hr => ?_, fun e hmem => ?_, fun hfit => ?_, fun err _ => ?_⟩
      · simp [hlen hr]
      · rcases List.mem_append.mp hmem with hmem | hmem
        · rw [List.mem_singleton.mp hmem]
          exact hname
        · exact hname.shorten (hnames e hmem)
      · refine hroom ?_
        have hsize : v₁.size = v.size + 1 := by
          rw [he.contains.size, hc.size, List.length_append]
          rfl
        have hcap := he.capacity
        omega
      · refine iff_of_false (by simp) fun ⟨hfull, ha⟩ => ?_
        cases hspec with
        | pushed hgrant _ _ _ => cases ha.symm.trans (hgrant hfull)

theorem pushMoves_spec (hc : v.Contains es)
    (hcopies : copies.slots = List.replicate k .shell ++ cs.map .live ++ rest)
    (h : pushMoves t m v copies k cs.length = some (m', v', copies', r)) :
    ∃ a b, cs = a ++ b ∧ v'.Contains (es ++ a) ∧ Growth m m' v v' ∧
      copies'.slots = List.replicate (k + a.length) .shell ++ b.map .live ++ rest ∧
      copies'.size = copies.size ∧ copies'.buffers = copies.buffers ∧ (r = .ok () → b = []) ∧
      (v.size + cs.length ≤ v.capacity → r = .ok ()) ∧
      ∀ err, r = .error err →
        (a = [] ↔ v.size = v.capacity ∧ t.allocates m.allocations = false) := by
  induction cs generalizing m v copies es k with
  | nil =>
    cases h
    exact ⟨[], [], rfl, by simpa using hc, growth_refl _ _, hcopies, rfl, rfl, fun _ => rfl,
      fun _ => rfl, by rintro _ ⟨⟩⟩
  | cons e cs ih =>
    have hmid : copies.slots = List.replicate k .shell ++ .live e :: (cs.map .live ++ rest) := by
      simpa using hcopies
    rw [List.length_cons] at h
    obtain ⟨⟨e₁, slots⟩, hout, h⟩ := Option.bind_eq_some_iff.mp h
    rw [hmid, moveOut_middle (by simp)] at hout
    cases hout
    obtain ⟨⟨m₁, v₁, r₁⟩, hp, h⟩ := Option.bind_eq_some_iff.mp h
    have hspec := pushBack_spec hc hp
    rcases r₁ with err | ⟨⟩
    · cases h
      cases hspec with
      | refused hfull ha =>
        exact ⟨[], e :: cs, rfl, by simpa using hc, growth_refuse _ _, by simpa using hcopies, rfl,
          rfl, by rintro ⟨⟩, fun hroom => by simp only [List.length_cons] at hroom; omega,
          fun _ _ => iff_of_true rfl ⟨hfull, ha⟩⟩
    · cases hspec with
      | pushed hgrant _ hg hc' =>
        have hlen : (List.replicate k Slot.shell ++
            Slot.shell :: (cs.map Slot.live ++ rest)).length = copies.slots.length := by simp [hmid]
        have hslots : (copies.setSlots (List.replicate k Slot.shell ++
              Slot.shell :: (cs.map Slot.live ++ rest))).slots =
            List.replicate (k + 1) Slot.shell ++ cs.map Slot.live ++ rest :=
          (slots_setSlots hlen).trans (by simp [List.replicate_succ'])
        obtain ⟨a, b, rfl, hc'', hg', h1, h2, h3, h4, h5, -⟩ := ih hc' hslots h
        refine ⟨e :: a, b, rfl, by simpa using hc'', hg.trans hg', ?_, h2, ?_, h4, fun hfit => ?_,
          fun _ _ => ?_⟩
        · rw [h1, List.length_cons, Nat.add_assoc, Nat.add_comm 1]
        · rw [h3, buffers_setSlots]
        · refine h5 ?_
          have hsize : v₁.size = v.size + 1 := by
            rw [hc'.size, hc.size, List.length_append]
            rfl
          have hcap := hg.capacity
          simp only [List.length_cons] at hfit
          omega
        · refine iff_of_false (by simp) fun ⟨hfull, ha⟩ => ?_
          cases ha.symm.trans (hgrant hfull)

theorem Growth.extended (h : Growth m m' v v') (hc : v'.Contains es) :
    Extended m m' v v' es [] :=
  ⟨by simpa using hc, fun l => by simpa [h.elements] using passes_refl m.elements (ids es ++ l),
    h.buffers, h.capacity⟩

theorem wrapped_le (hc : v.Contains es) (hcap : v.capacity < 2 ^ 64) (hcount : count < 2 ^ 64)
    (hw : 2 ^ 64 ≤ v.size + count) : (v.size + count) % 2 ^ 64 ≤ v.capacity := by
  have hle := hc.size_le
  omega

theorem resizeCopying_spec (hc : v.Contains es)
    (h : resizeCopying t m v count arg = some (m', v', r)) :
    ∃ added, Extended m m' v v' es added ∧ (r = .ok () → added.length = count - v.size) ∧
      (∀ e ∈ added, arg.Names es e.value) ∧
      ∀ err, r = .error err → v.size < count →
        (v.size + count < 2 ^ 64 → added = []) ∧
        (v.capacity < 2 ^ 64 → count < 2 ^ 64 → 2 ^ 64 ≤ v.size + count →
          (added = [] ↔ v.size = v.capacity ∧ t.allocates m.allocations = false)) := by
  obtain ⟨⟨m₁, v₁, r₁⟩, hres, h⟩ := Option.bind_eq_some_iff.mp h
  have hspec := reserve_spec hc hres
  have hc₁ := hspec.contains hc
  have hsize : v₁.size = v.size := hc₁.size.trans hc.size.symm
  rcases r₁ with err | ⟨⟩
  · cases h
    refine ⟨[], hspec.growth.extended hc₁, by rintro ⟨⟩, by rintro _ ⟨⟩,
      fun _ _ _ => ⟨fun _ => rfl, fun hcap hcount hw => ?_⟩⟩
    cases hspec with
    | refused hlt _ => exact absurd (wrapped_le hc hcap hcount hw) (Nat.not_le.mpr hlt)
  · obtain ⟨added, he, hlen, hnames, hroom, hfirst⟩ := pushValues_spec hc₁ h
    refine ⟨added, (hspec.growth.extended hc₁).trans (by simpa using he),
      fun hr => hsize ▸ hlen hr, hnames,
      fun err herr hlt => ⟨fun hfit => ?_, fun hcap hcount hw => ?_⟩⟩
    · have hcap := hspec.capacity
      have hok := hroom (by rw [Nat.mod_eq_of_lt hfit] at hcap; omega)
      cases hok.symm.trans herr
    · rw [hfirst err herr]
      cases hspec with
      | enough _ => exact Iff.rfl
      | grown hgrow _ _ _ _ _ _ =>
        exact absurd (wrapped_le hc hcap hcount hw) (Nat.not_le.mpr hgrow)

theorem drop_copies {b : List (Element α)} {m₁ : Memory}
    (hslots : copies.slots = List.replicate k .shell ++ b.map .live ++ rest)
    (hsize : copies.size = k + b.length) (h : drop m₁ copies = some m') :
    m'.allocations = m₁.allocations ∧ m'.cloned = m₁.cloned ∧
      (∀ l, Passes m₁.elements m'.elements (ids b ++ l) l) ∧
      ∀ l, Passes m₁.buffers m'.buffers (copies.buffers ++ l) l := by
  have hb : ∀ s ∈ List.replicate k Slot.shell ++ b.map Slot.live, s.built = true := by
    intro s hs
    rcases List.mem_append.mp hs with hs | hs
    · rw [List.eq_of_mem_replicate hs]
      rfl
    · obtain ⟨e, -, rfl⟩ := List.mem_map.mp hs
      rfl
  obtain ⟨m₂, h₂, h1, h2, h3, h4⟩ := drop_spec _ hslots (by simpa using hsize) hb m₁
  cases h.symm.trans h₂
  rw [owned_append, owned_shells, owned_live, List.nil_append] at h3
  exact ⟨h1, h2, h3, h4⟩

structure Made (m m' : Memory) (copies : Vector α) (cs : List (Element α)) : Prop where
  contains : copies.Contains cs
  elements : ∀ l, Passes m.elements m'.elements l (ids cs ++ l)
  buffers : ∀ l, Passes m.buffers m'.buffers l (copies.buffers ++ l)

theorem made_of_extended {m₁ : Memory} (hg : Growth m m₁ {} copies)
    (he : Extended m₁ m' copies copies' [] cs) : Made m m' copies' cs := by
  refine ⟨he.contains, fun l => ?_, fun l => (hg.buffers l).trans (he.buffers l)⟩
  have hclone := he.elements l
  rw [hg.elements] at hclone
  exact hclone

theorem made_dropped {a b : List (Element α)} {m₂ m₄ : Memory} (hm : Made m m₂ copies (a ++ b))
    (hg : Growth m₂ m₄ v v') (hc : v'.Contains (es ++ a))
    (hslots : copies'.slots = List.replicate k .shell ++ b.map .live ++ rest)
    (hsize : copies'.size = k + b.length) (hbuf : copies'.buffers = copies.buffers)
    (h : drop m₄ copies' = some m') : Extended m m' v v' es a := by
  obtain ⟨-, -, h1, h2⟩ := drop_copies hslots hsize h
  refine ⟨hc, fun l => ?_, fun l => ?_, hg.capacity⟩
  · have hmade := hm.elements (ids es ++ l)
    rw [hg.elements] at h1
    refine (hmade.perm (.refl _) ?_).trans (h1 _)
    simp only [ids, List.map_append, List.append_assoc]
    refine (List.perm_append_comm_assoc _ _ _).trans (List.Perm.append_left _ ?_)
    exact List.perm_append_comm_assoc _ _ _
  · have hmade := hm.buffers (v.buffers ++ l)
    have hgrow := hg.buffers (copies.buffers ++ l)
    rw [hbuf] at h2
    refine (hmade.perm (.refl _) (List.perm_append_comm_assoc _ _ _)).trans (hgrow.trans ?_)
    exact (h2 (v'.buffers ++ l)).perm (List.perm_append_comm_assoc _ _ _) (.refl _)

theorem Made.slots (hm : Made m m' copies cs) :
    ∃ rest, copies.slots = List.replicate 0 .shell ++ cs.map .live ++ rest := by
  obtain ⟨-, ⟨rest, hslots, -⟩, -⟩ := hm.contains
  exact ⟨rest, hslots⟩

theorem Made.dropped {m₂ m₃ : Memory} (hm : Made m m₂ copies cs) (hg : Growth m₂ m₃ v v)
    (hc : v.Contains es) (h : drop m₃ copies = some m') : Extended m m' v v es [] := by
  obtain ⟨rest, hslots⟩ := hm.slots
  exact made_dropped (a := []) hm hg (by simpa using hc) hslots
    (by simpa using hm.contains.size) rfl h

theorem made_of_clones {m₁ m₂ : Memory} (hn : t.nothrowCopy = false) (hpos : 0 < count)
    (hle : n ≤ count) (hres : reserve t m {} count = some (m₁, copies, .ok ()))
    (hclones : pushClones t m₁ copies (List.replicate n x) = some (m₂, copies', r)) :
    ∃ cs, Made m m₂ copies' cs ∧ t.allocates m.allocations = true ∧
      m₂.allocations = m.allocations + 1 ∧
      (r = .ok () → cs.map (·.value) = List.replicate n x) ∧
      (r = .ok () ↔ ∀ k < n, t.clones (m.cloned + k) x = true) := by
  have hspec := reserve_spec contains_empty hres
  have hc₁ := hspec.contains contains_empty
  obtain ⟨cs, hcs, hvalues⟩ := pushClones_spec hc₁ hclones
  obtain ⟨ha, hall₁, hroom⟩ : t.allocates m.allocations = true ∧
      m₁.allocations = m.allocations + 1 ∧ copies.size + n ≤ copies.capacity := by
    cases hspec with
    | enough hle => exact absurd hle (Nat.not_le.mpr hpos)
    | grown _ ha hall _ _ hcap _ =>
      refine ⟨ha, hall, ?_⟩
      rw [hc₁.size, hcap, List.length_nil]
      omega
  obtain ⟨hall₂, hok⟩ := pushClones_room hn hc₁ hroom hclones
  rw [hspec.growth.cloned] at hok
  exact ⟨cs, made_of_extended hspec.growth hcs, ha, hall₂.trans hall₁, hvalues, hok⟩

theorem Made.moved {m₂ m₃ m₄ : Memory} {v₃ : Vector α} (hm : Made m m₂ copies cs)
    (hc : v.Contains es) (hlen : cs.length ≤ count)
    (hres : reserve t m₂ v ((v.size + count) % 2 ^ 64) = some (m₃, v₃, .ok ()))
    (hmoves : pushMoves t m₃ v₃ copies 0 copies.size = some (m₄, v', copies', r))
    (hdrop : drop m₄ copies' = some m') :
    ∃ a b, cs = a ++ b ∧ Extended m m' v v' es a ∧ (r = .ok () → b = []) ∧
      ∀ err, r = .error err → 2 ^ 64 ≤ v.size + count ∧
        (v.capacity < 2 ^ 64 → count < 2 ^ 64 →
          (a = [] ↔ v.size = v.capacity ∧ t.allocates m₂.allocations = false)) := by
  have hspec := reserve_spec hc hres
  have hc₃ := hspec.contains hc
  have hsize : v₃.size = v.size := hc₃.size.trans hc.size.symm
  obtain ⟨rest, hslots⟩ := hm.slots
  have hcount : copies.size = cs.length := hm.contains.size
  rw [hcount] at hmoves
  obtain ⟨a, b, rfl, hc₄, hg, h1, h2, h3, h4, h5, h6⟩ := pushMoves_spec hc₃ hslots hmoves
  have hsizes : copies'.size = (0 + a.length) + b.length := by
    rw [h2, hcount, List.length_append, Nat.zero_add]
  have he := made_dropped hm (hspec.growth.trans hg) hc₄ h1 hsizes h3 hdrop
  refine ⟨a, b, rfl, he, h4, fun err herr => ?_⟩
  have hw : 2 ^ 64 ≤ v.size + count := by
    by_contra hfit
    have hcap := hspec.capacity
    rw [Nat.mod_eq_of_lt (Nat.lt_of_not_le hfit)] at hcap
    cases (h5 (by omega)).symm.trans herr
  refine ⟨hw, fun hcap hlt => ?_⟩
  have hwrapped := wrapped_le hc hcap hlt hw
  rw [h6 err herr]
  cases hspec with
  | enough _ => exact Iff.rfl
  | grown hgrow _ _ _ _ _ _ => exact absurd hwrapped (Nat.not_le.mpr hgrow)

theorem resizeCloning_spec (hn : t.nothrowCopy = false) (hc : v.Contains es)
    (hlt : v.size < count) (h : resizeCloning t m v count arg = some (m', v', r)) :
    ∃ added, Extended m m' v v' es added ∧ (r = .ok () → added.length = count - v.size) ∧
      (∀ e ∈ added, arg.Names es e.value) ∧
      ∀ err, r = .error err →
        (v.size + count < 2 ^ 64 → added = []) ∧
        (v.capacity < 2 ^ 64 → count < 2 ^ 64 → 2 ^ 64 ≤ v.size + count →
          (added = [] ↔ t.allocates m.allocations = false ∨
            (∃ x ∈ arg.read v, ∃ k < count - v.size, t.clones (m.cloned + k) x = false) ∨
            v.size = v.capacity ∧ t.allocates (m.allocations + 1) = false)) := by
  obtain ⟨⟨m₁, copies, r₁⟩, hres, h⟩ := Option.bind_eq_some_iff.mp h
  rcases r₁ with err | ⟨⟩
  · obtain ⟨m₂, hdrop, h⟩ := Option.bind_eq_some_iff.mp h
    cases h
    cases reserve_spec contains_empty hres with
    | refused _ ha =>
      have hnone : Made m (refuse m) ({} : Vector α) [] :=
        ⟨contains_empty, fun l => passes_refl _ _, fun l => passes_refl _ _⟩
      exact ⟨[], hnone.dropped (growth_refl _ v) hc hdrop, by rintro ⟨⟩, by rintro _ ⟨⟩,
        fun _ _ => ⟨fun _ => rfl, fun _ _ _ => iff_of_true rfl (.inl ha)⟩⟩
  obtain ⟨x, hx, h⟩ := Option.bind_eq_some_iff.mp h
  obtain ⟨⟨m₂, copies₂, r₂⟩, hclones, h⟩ := Option.bind_eq_some_iff.mp h
  obtain ⟨cs, hmade, ha, hall, hvalues, hok⟩ :=
    made_of_clones hn (Nat.zero_lt_of_lt hlt) (Nat.sub_le count v.size) hres hclones
  rcases r₂ with err | ⟨⟩
  · obtain ⟨m₃, hdrop, h⟩ := Option.bind_eq_some_iff.mp h
    cases h
    have hfail : ∃ k < count - v.size, t.clones (m.cloned + k) x = false := by
      by_contra hno
      push Not at hno
      cases hok.mpr fun k hk => by simpa using hno k hk
    exact ⟨[], hmade.dropped (growth_refl _ v) hc hdrop, by rintro ⟨⟩, by rintro _ ⟨⟩,
      fun _ _ => ⟨fun _ => rfl, fun _ _ _ => iff_of_true rfl (.inr (.inl ⟨x, hx, hfail⟩))⟩⟩
  obtain ⟨⟨m₃, v₃, r₃⟩, hres₃, h⟩ := Option.bind_eq_some_iff.mp h
  rcases r₃ with err | ⟨⟩
  · obtain ⟨m₄, hdrop, h⟩ := Option.bind_eq_some_iff.mp h
    cases h
    cases reserve_spec hc hres₃ with
    | refused hgt _ =>
      refine ⟨[], hmade.dropped (growth_refuse _ v) hc hdrop, by rintro ⟨⟩, by rintro _ ⟨⟩,
        fun _ _ => ⟨fun _ => rfl, fun hcap hcount hw => ?_⟩⟩
      exact absurd (wrapped_le hc hcap hcount hw) (Nat.not_le.mpr hgt)
  obtain ⟨⟨m₄, v₄, copies₄, r₄⟩, hmoves, h⟩ := Option.bind_eq_some_iff.mp h
  obtain ⟨m₅, hdrop, h⟩ := Option.bind_eq_some_iff.mp h
  cases h
  have hvals := hvalues rfl
  have hlen : cs.length = count - v.size := by simpa using congrArg List.length hvals
  obtain ⟨a, b, rfl, he, hnil, herr⟩ := hmade.moved hc (by omega) hres₃ hmoves hdrop
  refine ⟨a, he, fun hr => ?_, fun e hmem => ?_,
    fun err hr => ⟨fun hfit => ?_, fun hcap hcount _ => ?_⟩⟩
  · rwa [hnil hr, List.append_nil] at hlen
  · have hv : e.value ∈ List.replicate (count - v.size) x := by
      rw [← hvals]
      exact List.mem_map.mpr ⟨e, List.mem_append_left _ hmem, rfl⟩
    rw [List.eq_of_mem_replicate hv]
    exact names_of_read hc hx
  · exact absurd (herr err hr).1 (Nat.not_le.mpr hfit)
  · rw [(herr err hr).2 hcap hcount, hall]
    constructor
    · exact fun hfirst => .inr (.inr hfirst)
    · rintro (hf | ⟨y, hy, k, hk, hf⟩ | hf)
      · cases ha.symm.trans hf
      · cases hx.symm.trans hy
        cases hf.symm.trans (hok.mp rfl k hk)
      · exact hf

end Vector

end Corosig.Container
