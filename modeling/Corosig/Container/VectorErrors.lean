import Corosig.Container.VectorResize

namespace Corosig.Container
open Custody

namespace Vector

variable {α : Type} {t : Elements α} {m m' : Memory} {v v' copies : Vector α} {e : Element α}
  {es cs : List (Element α)} {r : Except VectorError Unit} {count n : Nat} {values : List α}
  {err : VectorError} {arg : Arg α}

theorem reserveCopies_spec {sized : Bool}
    (h : reserveCopies t m sized values = some (m', v', r)) :
    ∃ count, Reserved t m {} [] count m' v' r := by
  rw [reserveCopies] at h
  split at h
  · exact ⟨_, reserve_spec contains_empty h⟩
  · cases h
    exact ⟨0, .enough (Nat.le_refl 0)⟩

theorem cloneAll_spec {sized : Bool} {r : Except VectorError (Vector α)}
    (h : cloneAll t m sized values = some (m', r)) :
    (∃ copies cs, r = .ok copies ∧ Made m m' copies cs ∧ cs.map (·.value) = values) ∨
    (∃ err, r = .error err ∧
      ∀ (v : Vector α) (es : List (Element α)), v.Contains es → Extended m m' v v es []) := by
  obtain ⟨⟨m₁, copies, r₁⟩, hres, h⟩ := Option.bind_eq_some_iff.mp h
  obtain ⟨count, hspec⟩ := reserveCopies_spec hres
  have hc₁ := hspec.contains contains_empty
  rcases r₁ with err | ⟨⟩
  · obtain ⟨m₂, hdrop, h⟩ := Option.bind_eq_some_iff.mp h
    cases h
    exact .inr ⟨err, rfl, fun v es hc =>
      (made_of_extended hspec.growth (extended_refl hc₁ _)).dropped (growth_refl _ _) hc hdrop⟩
  obtain ⟨⟨m₂, copies₂, r₂⟩, hclones, h⟩ := Option.bind_eq_some_iff.mp h
  obtain ⟨cs, hcs, hvalues⟩ := pushClones_spec hc₁ hclones
  have hmade := made_of_extended hspec.growth hcs
  rcases r₂ with err | ⟨⟩
  · obtain ⟨m₃, hdrop, h⟩ := Option.bind_eq_some_iff.mp h
    cases h
    exact .inr ⟨err, rfl, fun v es hc => hmade.dropped (growth_refl _ _) hc hdrop⟩
  · cases h
    exact .inl ⟨_, cs, rfl, hmade, hvalues rfl⟩

theorem assign_spec {sized : Bool} (hc : v.Contains es)
    (h : assign t m v sized values = some (m', v', r)) :
    (r = .ok () ∧ ∃ cs, v'.Contains cs ∧ cs.map (·.value) = values ∧
      (∀ l, Passes m.elements m'.elements (ids es ++ l) (ids cs ++ l)) ∧
      ∀ l, Passes m.buffers m'.buffers (v.buffers ++ l) (v'.buffers ++ l)) ∨
    (∃ err, r = .error err ∧ v' = v ∧ Extended m m' v v es []) := by
  obtain ⟨⟨m₁, r₁⟩, hclone, h⟩ := Option.bind_eq_some_iff.mp h
  rcases cloneAll_spec hclone with ⟨copies, cs, rfl, hmade, hvalues⟩ | ⟨err, rfl, hext⟩
  · obtain ⟨⟨m₂, v₂⟩, hmove, h⟩ := Option.bind_eq_some_iff.mp h
    cases h
    obtain ⟨m₃, hdrop, h⟩ := Option.bind_eq_some_iff.mp hmove
    cases h
    obtain ⟨m₄, h₄, -, -, h1, h2⟩ := hc.drop m₁
    cases hdrop.symm.trans h₄
    refine .inl ⟨rfl, cs, hmade.contains, hvalues, fun l => ?_, fun l => ?_⟩
    · exact ((hmade.elements _).perm (.refl _) (List.perm_append_comm_assoc _ _ _)).trans (h1 _)
    · exact ((hmade.buffers _).perm (.refl _) (List.perm_append_comm_assoc _ _ _)).trans (h2 _)
  · cases h
    exact .inr ⟨err, rfl, rfl, hext _ _ hc⟩

theorem resizeUninitialized_error (hc : v.Contains es)
    (h : resizeUninitialized t m v count = some (m', v', .error err)) :
    v'.Contains es ∧ Growth m m' v v' := by
  rw [resizeUninitialized] at h
  split at h
  · cases h
  split at h
  · obtain ⟨⟨m₁, v₁⟩, -, h⟩ := Option.bind_eq_some_iff.mp h
    cases h
  obtain ⟨⟨m₁, v₁, r₁⟩, hres, h⟩ := Option.bind_eq_some_iff.mp h
  have hspec := reserve_spec hc hres
  rcases r₁ with err | ⟨⟩
  · cases h
    exact ⟨hspec.contains hc, hspec.growth⟩
  · cases h

theorem shrinkToFit_error (hc : v.Contains es)
    (h : shrinkToFit t m v = some (m', v', .error err)) :
    v' = v ∧ Extended m m' v v es [] := by
  obtain ⟨⟨m₁, v₁, r₁⟩, hres, h⟩ := Option.bind_eq_some_iff.mp h
  rcases r₁ with err | ⟨⟩
  · obtain ⟨hc₁, hg⟩ := resizeUninitialized_error contains_empty hres
    obtain ⟨m₂, hdrop, h⟩ := Option.bind_eq_some_iff.mp h
    cases h
    exact ⟨rfl, (made_of_extended hg (extended_refl hc₁ _)).dropped (growth_refl _ _) hc hdrop⟩
  · obtain ⟨_, -, h⟩ := Option.bind_eq_some_iff.mp h
    obtain ⟨_, -, h⟩ := Option.bind_eq_some_iff.mp h
    cases h

theorem insert_error {pos : Nat} {values : List (Element α)} (hc : v.Contains es)
    (h : insert t m v pos values = some (m', v', .error err)) :
    Extended m m' v v' es [] := by
  obtain ⟨⟨m₁, v₁, r₁⟩, hres, h⟩ := Option.bind_eq_some_iff.mp h
  have hspec : v₁.Contains es ∧ Growth m m₁ v v₁ := by
    rw [reserveForInsert] at hres
    split at hres
    · have hspec := reserve_spec hc hres
      exact ⟨hspec.contains hc, hspec.growth⟩
    · cases hres
      exact ⟨hc, growth_refl _ _⟩
  obtain ⟨hc₁, hg₁⟩ := hspec
  rcases r₁ with err | ⟨⟩
  · cases h
    exact hg₁.extended hc₁
  obtain ⟨⟨m₂, v₂, r₂⟩, hres₂, h⟩ := Option.bind_eq_some_iff.mp h
  rcases r₂ with err | ⟨⟩
  · cases h
    obtain ⟨hc₂, hg₂⟩ := resizeUninitialized_error hc₁ hres₂
    exact (hg₁.trans hg₂).extended hc₂
  · dsimp only at h
    split at h
    · cases h
    · obtain ⟨_, -, h⟩ := Option.bind_eq_some_iff.mp h
      obtain ⟨_, -, h⟩ := Option.bind_eq_some_iff.mp h
      cases h

inductive Call (α : Type) where
  | reserve (count : UInt64)
  | resize (count : UInt64) (arg : Arg α)
  | pushBack (e : Element α)
  | pushBackCopy (value : α)
  | insert (pos : Nat) (values : List (Element α))
  | assign (sized : Bool) (values : List α)
  | shrinkToFit
  | clone

-- The vector a successful clone returns is the caller's and not part of the result here.
def perform (t : Elements α) (m : Memory) (v : Vector α) :
    Call α → Option (Memory × Vector α × Except VectorError Unit)
  | .reserve count => v.reserve t m count.toNat
  | .resize count arg => v.resize t m count.toNat arg
  | .pushBack e => v.pushBack t m e
  | .pushBackCopy value => v.pushBackCopy t m value
  | .insert pos values => (v.insert t m pos values).map fun (m, v, r) => (m, v, r.map fun _ => ())
  | .assign sized values => v.assign t m sized values
  | .shrinkToFit => v.shrinkToFit t m
  | .clone => (v.cloneVector t m).map fun (m, r) => (m, v, r.map fun _ => ())

def elements (v : Vector α) : List (Slot α) := v.slots.take v.size

structure WellFormed (v : Vector α) : Prop where
  contains : ∃ es, v.Contains es
  capacity : v.capacity < 2 ^ 64

structure Untouched (m m' : Memory) (v v' : Vector α) : Prop where
  size : v'.size = v.size
  elements : v'.elements = v.elements
  owned : Passes m.elements m'.elements (ids (owned v.elements)) (ids (owned v'.elements))
  buffers : Passes m.buffers m'.buffers v.buffers v'.buffers

theorem untouched_iff (hc : v.Contains es) (he : Extended m m' v v' es cs) :
    Untouched m m' v v' ↔ cs = [] := by
  constructor
  · intro h
    have hsize := h.size
    rw [he.contains.size, hc.size, List.length_append] at hsize
    exact List.length_eq_zero_iff.mp (by omega)
  · rintro rfl
    have hc' : v'.Contains es := by simpa using he.contains
    refine ⟨hc'.size.trans hc.size.symm, hc'.take.trans hc.take.symm, ?_, ?_⟩
    · rw [elements, elements, hc.take, hc'.take, owned_live]
      simpa using he.elements []
    · simpa using he.buffers []

def Spares (t : Elements α) (m : Memory) (v : Vector α) : Call α → Prop
  | .resize count arg =>
      count.toNat ≤ v.size ∨ v.size + count.toNat < 2 ^ 64 ∨
        if t.nothrowCopy then v.size = v.capacity ∧ t.allocates m.allocations = false
        else t.allocates m.allocations = false ∨
          (∃ x ∈ arg.read v, ∃ k < count.toNat - v.size, t.clones (m.cloned + k) x = false) ∨
          v.size = v.capacity ∧ t.allocates (m.allocations + 1) = false
  | _ => True

theorem spares_iff {p q : Prop} {a : Nat} (hfit : a < 2 ^ 64 → p) (hwrap : 2 ^ 64 ≤ a → (p ↔ q)) :
    p ↔ a < 2 ^ 64 ∨ q := by
  rcases Nat.lt_or_ge a (2 ^ 64) with h | h
  · exact iff_of_true (hfit h) (.inl h)
  · rw [hwrap h]
    exact ⟨.inr, fun hor => hor.resolve_left (Nat.not_lt.mpr h)⟩

theorem resize_error {count : UInt64} (hw : v.WellFormed)
    (h : v.resize t m count.toNat arg = some (m', v', .error err)) :
    Untouched m m' v v' ↔ Spares t m v (.resize count arg) := by
  obtain ⟨⟨es, hc⟩, hcap⟩ := hw
  have hcount : count.toNat < 2 ^ 64 := count.toNat_lt
  rw [resize] at h
  split at h
  · cases h
  split at h
  · obtain ⟨⟨m₁, v₁⟩, -, h⟩ := Option.bind_eq_some_iff.mp h
    cases h
  have hlt : v.size < count.toNat := by omega
  rw [Spares, or_iff_right (Nat.not_le.mpr hlt)]
  split at h
  · rename_i hn
    obtain ⟨added, he, -, -, herr⟩ := resizeCopying_spec hc h
    obtain ⟨hfit, hwrap⟩ := herr err rfl hlt
    rw [untouched_iff hc he, if_pos hn]
    exact spares_iff hfit (hwrap hcap hcount)
  · rename_i hn
    obtain ⟨added, he, -, -, herr⟩ := resizeCloning_spec (Bool.eq_false_iff.mpr hn) hc hlt h
    obtain ⟨hfit, hwrap⟩ := herr err rfl
    rw [untouched_iff hc he, if_neg hn]
    exact spares_iff hfit (hwrap hcap hcount)

theorem untouched_iff_spares (t : Elements α) (m m' : Memory) (v v' : Vector α) (call : Call α)
    (err : VectorError) (hw : v.WellFormed)
    (h : v.perform t m call = some (m', v', .error err)) :
    Untouched m m' v v' ↔ Spares t m v call := by
  obtain ⟨es, hc⟩ := hw.contains
  have hclean {m' : Memory} {v' : Vector α} (he : Extended m m' v v' es []) :
      Untouched m m' v v' ↔ True := iff_true_intro ((untouched_iff hc he).mpr rfl)
  cases call with
  | resize count arg => exact resize_error hw h
  | reserve count =>
    have hspec := reserve_spec hc h
    exact hclean (hspec.growth.extended (hspec.contains hc))
  | pushBack e =>
    cases pushBack_spec hc h with
    | refused _ _ => exact hclean ((growth_refuse m v).extended hc)
  | pushBackCopy x =>
    cases pushBackCopy_spec hc h with
    | uncloned _ _ => exact hclean (extended_refl hc (attempt m)).attempt
    | refused _ he => exact hclean he
  | insert pos values =>
    obtain ⟨⟨m₁, v₁, r₁⟩, hins, hr⟩ := Option.map_eq_some_iff.mp h
    cases r₁ with
    | ok pos => cases hr
    | error err =>
      cases hr
      exact hclean (insert_error hc hins)
  | assign sized values =>
    rcases assign_spec hc h with ⟨hr, -⟩ | ⟨err, -, rfl, he⟩
    · cases hr
    · exact hclean he
  | shrinkToFit =>
    obtain ⟨rfl, he⟩ := shrinkToFit_error hc h
    exact hclean he
  | clone =>
    obtain ⟨⟨m₁, r₁⟩, hclone, hr⟩ := Option.map_eq_some_iff.mp h
    obtain ⟨values, -, hclone⟩ := Option.bind_eq_some_iff.mp hclone
    rcases cloneAll_spec hclone with ⟨copies, cs, rfl, -⟩ | ⟨err, rfl, hext⟩
    · cases hr
    · cases hr
      exact hclean (hext _ _ hc)

def grudging : Elements Nat where
  sizeof := 8
  nothrowCopy := true
  allocates n := n == 0
  clones _ _ := true

def worn : Vector Nat :=
  { data := some ⟨0, [.live ⟨0, 7⟩, .raw]⟩, size := 1, capacity := 2 }

def wornMemory : Memory :=
  { allocations := 1, elements := { next := 1 }, buffers := { next := 1 } }

theorem contains_worn : worn.Contains [⟨0, 7⟩] :=
  ⟨rfl, ⟨[.raw], rfl, by decide⟩, by decide⟩

theorem wellFormed_worn : worn.WellFormed := ⟨⟨_, contains_worn⟩, by decide⟩

theorem untouched_iff_spares_worn :
    Untouched wornMemory (refuse wornMemory) worn worn ↔
      Spares grudging wornMemory worn (.resize 3 (.value 5)) :=
  untouched_iff_spares grudging wornMemory (refuse wornMemory) worn worn (.resize 3 (.value 5))
    .allocation wellFormed_worn (by rfl)

theorem not_untouched_of_wrapped :
    (do
      let (m, v, _) ← perform grudging {} {} (.reserve 2)
      perform grudging m v (.pushBackCopy 7)) = some (wornMemory, worn, .ok ()) ∧
    worn.WellFormed ∧
    ∃ m' v', worn.perform grudging wornMemory (.resize 0xffffffffffffffff (.value 5)) =
      some (m', v', .error .allocation) ∧ v'.size = 2 ∧ ¬ Untouched wornMemory m' worn v' := by
  refine ⟨by rfl, wellFormed_worn, _, _, by rfl, by rfl, fun h => ?_⟩
  cases h.size

end Vector

end Corosig.Container
