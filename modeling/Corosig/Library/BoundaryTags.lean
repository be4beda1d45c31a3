import Mathlib.Algebra.BigOperators.Group.List.Basic
import Mathlib.Algebra.GroupWithZero.Nat
import Mathlib.Data.List.Chain
import Mathlib.Data.List.Nodup
import Mathlib.Logic.Function.Basic
import Mathlib.Tactic.Common

namespace BoundaryTags
open Function

structure Block where
  owned : Nat
  used : Bool
  deriving DecidableEq, Repr

@[ext] structure Tags where
  before : Nat → Nat
  owned : Nat → Nat
  used : Nat → Bool

def total (cs : List Block) : Nat := (cs.map Block.owned).sum

def lastOwned (b : Nat) (cs : List Block) : Nat := (cs.map Block.owned).getLastD b

def Tagged (cut : Nat → Nat) (t : Tags) : Nat → Nat → List Block → Prop
  | _, _, [] => True
  | a, b, c :: cs =>
      t.before a = cut b ∧ t.owned a = c.owned ∧ t.used a = c.used ∧ 0 < c.owned ∧
        Tagged cut t (a + c.owned) c.owned cs

def Tags.resize (cut : Nat → Nat) (n : Nat) (t : Tags) (i v : Nat) : Tags :=
  { t with
    owned := update t.owned i v
    before := if i + v < n then update t.before (i + v) (cut v) else t.before }

def Tags.mark (t : Tags) (i : Nat) (u : Bool) : Tags :=
  { t with used := update t.used i u }

def boundaries : Nat → List Block → List Nat
  | _, [] => []
  | a, c :: cs => a :: boundaries (a + c.owned) cs

inductive Stepped (t : Tags) (n : Nat) : Nat → Prop
  | first : 0 < n → Stepped t n 0
  | next {i : Nat} : Stepped t n i → i + t.owned i < n → Stepped t n (i + t.owned i)

def starts (u : Bool) : Nat → List Block → List Nat
  | _, [] => []
  | a, c :: cs => if c.used = u then a :: starts u (a + c.owned) cs else starts u (a + c.owned) cs

def held : Nat → List Block → List (Nat × Nat)
  | _, [] => []
  | a, c :: cs => if c.used then (a, c.owned) :: held (a + c.owned) cs else held (a + c.owned) cs

variable {cut : Nat → Nat} {t t' : Tags} {n a b b' i j k m : Nat} {u v : Bool} {c : Block}
  {xs ys pre mid mid' post cs : List Block}

@[simp] theorem total_nil : total [] = 0 := rfl

@[simp] theorem total_cons : total (c :: cs) = c.owned + total cs := by simp [total]

@[simp] theorem total_append : total (xs ++ ys) = total xs + total ys := by simp [total]

@[simp] theorem lastOwned_nil : lastOwned b [] = b := rfl

@[simp] theorem lastOwned_cons : lastOwned b (c :: cs) = lastOwned c.owned cs := by
  simp only [lastOwned, List.map_cons, List.getLastD_cons]

theorem lastOwned_append : lastOwned b (xs ++ ys) = lastOwned (lastOwned b xs) ys := by
  induction xs generalizing b with
  | nil => rfl
  | cons c xs ih => simp [ih]

theorem tagged_append :
    Tagged cut t a b (xs ++ ys) ↔
      Tagged cut t a b xs ∧ Tagged cut t (a + total xs) (lastOwned b xs) ys := by
  induction xs generalizing a b with
  | nil => simp [Tagged]
  | cons c xs ih =>
    simp only [List.cons_append, Tagged, ih, total_cons, lastOwned_cons, and_assoc, Nat.add_assoc]

theorem Tagged.rebase (h : Tagged cut t a b cs) (hh : cs ≠ [] → t'.before a = cut b')
    (hb : ∀ j, a < j → j < a + total cs → t'.before j = t.before j)
    (ho : ∀ j, a ≤ j → j < a + total cs → t'.owned j = t.owned j)
    (hu : ∀ j, a ≤ j → j < a + total cs → t'.used j = t.used j) : Tagged cut t' a b' cs := by
  induction cs generalizing a b b' with
  | nil => trivial
  | cons c cs ih =>
    obtain ⟨-, h2, h3, h4, h5⟩ := h
    simp only [total_cons] at hb ho hu
    refine ⟨hh (by simp), ?_, ?_, h4, ih h5 (fun hne => ?_) (fun j hj hl => ?_)
      (fun j hj hl => ho j (by omega) (by omega)) (fun j hj hl => hu j (by omega) (by omega))⟩
    · rw [ho a (Nat.le_refl a) (by omega), h2]
    · rw [hu a (Nat.le_refl a) (by omega), h3]
    · cases cs with
      | nil => exact absurd rfl hne
      | cons d cs =>
        obtain ⟨g1, -, -, g4, -⟩ := h5
        rw [hb _ (by omega) (by simp only [total_cons]; omega), g1]
    · exact hb j (by omega) (by omega)

theorem Tagged.congr (h : Tagged cut t a b cs)
    (hb : ∀ j, a ≤ j → j < a + total cs → t'.before j = t.before j)
    (ho : ∀ j, a ≤ j → j < a + total cs → t'.owned j = t.owned j)
    (hu : ∀ j, a ≤ j → j < a + total cs → t'.used j = t.used j) : Tagged cut t' a b cs := by
  refine h.rebase (fun hne => ?_) (fun j hj hl => hb j (by omega) hl) ho hu
  cases cs with
  | nil => exact absurd rfl hne
  | cons c cs =>
    obtain ⟨h1, -, -, h4, -⟩ := h
    rw [hb a (Nat.le_refl a) (by simp only [total_cons]; omega), h1]

theorem Tagged.pos (h : Tagged cut t a b cs) : ∀ c ∈ cs, 0 < c.owned := by
  induction cs generalizing a b with
  | nil => simp
  | cons d cs ih =>
    intro c hc
    rcases List.mem_cons.mp hc with rfl | hc
    · exact h.2.2.2.1
    · exact ih h.2.2.2.2 c hc

theorem total_pos (h : ∀ c ∈ cs, 0 < c.owned) (hne : cs ≠ []) : 0 < total cs := by
  cases cs with
  | nil => exact absurd rfl hne
  | cons c cs =>
    have hc := h c (by simp)
    simp only [total_cons]
    omega

theorem Tagged.at (h : Tagged cut t a b (pre ++ c :: post)) :
    t.before (a + total pre) = cut (lastOwned b pre) ∧ t.owned (a + total pre) = c.owned ∧
      t.used (a + total pre) = c.used ∧ 0 < c.owned := by
  obtain ⟨-, h1, h2, h3, h4, -⟩ := tagged_append.mp h
  exact ⟨h1, h2, h3, h4⟩

theorem Tagged.replace (mid mid' : List Block)
    (h : Tagged cut t a b (pre ++ (mid ++ post))) (hi : i = a + total pre)
    (hm : Tagged cut t' i (lastOwned b pre) mid') (ht : total mid' = total mid)
    (hh : post ≠ [] → t'.before (i + total mid) = cut (lastOwned (lastOwned b pre) mid'))
    (hb : ∀ j, j < i ∨ i + total mid < j → t'.before j = t.before j)
    (ho : ∀ j, j < i ∨ i + total mid ≤ j → t'.owned j = t.owned j)
    (hu : ∀ j, j < i ∨ i + total mid ≤ j → t'.used j = t.used j) :
    Tagged cut t' a b (pre ++ (mid' ++ post)) := by
  obtain ⟨h1, h2⟩ := tagged_append.mp h
  obtain ⟨-, h3⟩ := tagged_append.mp h2
  subst hi
  refine tagged_append.mpr ⟨h1.congr (fun j _ hl => hb j (.inl hl)) (fun j _ hl => ho j (.inl hl))
    (fun j _ hl => hu j (.inl hl)), tagged_append.mpr ⟨hm, ?_⟩⟩
  rw [ht]
  exact h3.rebase hh (fun j hj _ => hb j (.inr hj)) (fun j hj _ => ho j (.inr hj))
    (fun j hj _ => hu j (.inr hj))

theorem Tagged.split (h : Tagged cut t a b (pre ++ ⟨k + m, u⟩ :: post)) (hi : i = a + total pre)
    (hk : 0 < k) (hm : 0 < m) (hn : n = a + total (pre ++ ⟨k + m, u⟩ :: post)) :
    Tagged cut (((t.resize cut n i k).mark (i + k) v).resize cut n (i + k) m) a b
      (pre ++ ⟨k, u⟩ :: ⟨m, v⟩ :: post) := by
  obtain ⟨h1, -, h3, -⟩ := h.at
  rw [← hi] at h1 h3
  have hn' : n = i + (k + m) + total post := by
    simp only [total_append, total_cons] at hn
    omega
  refine Tagged.replace [⟨k + m, u⟩] [⟨k, u⟩, ⟨m, v⟩] h hi ?_ (by simp)
    (fun hne => ?_) (fun j hj => ?_) (fun j hj => ?_) (fun j hj => ?_)
  · have hlt : i + k < n := by omega
    refine ⟨?_, ?_, ?_, hk, ?_, ?_, ?_, hm, trivial⟩
    · simp only [Tags.resize, Tags.mark, hlt, if_true]
      split
      · rw [update_of_ne (by omega), update_of_ne (by omega), h1]
      · rw [update_of_ne (by omega), h1]
    · simp only [Tags.resize, Tags.mark]
      rw [update_of_ne (by omega), update_self]
    · simp only [Tags.resize, Tags.mark]
      rw [update_of_ne (by omega), h3]
    · simp only [Tags.resize, Tags.mark, hlt, if_true]
      split
      · rw [update_of_ne (by omega), update_self]
      · rw [update_self]
    · simp [Tags.resize, Tags.mark]
    · simp [Tags.resize, Tags.mark]
  · have hpost : 0 < total post := total_pos (fun c hc => h.pos c (by simp [hc])) hne
    have hlt : i + (k + m) < n := by omega
    simp [Tags.resize, hlt, Nat.add_assoc]
  · simp only [total_cons, total_nil] at hj
    simp only [Tags.resize, Tags.mark]
    split <;> split <;> simp only [update_of_ne (show j ≠ i + k + m by omega),
      update_of_ne (show j ≠ i + k by omega)]
  · simp only [total_cons, total_nil] at hj
    simp only [Tags.resize, Tags.mark, update_of_ne (show j ≠ i + k by omega),
      update_of_ne (show j ≠ i by omega)]
  · simp only [total_cons, total_nil] at hj
    simp only [Tags.resize, Tags.mark, update_of_ne (show j ≠ i + k by omega)]

theorem Tagged.resize_block (mid : List Block)
    (h : Tagged cut t a b (pre ++ (mid ++ post)))
    (hi : i = a + total pre) (hu : t.used i = u) (hk : k = total mid) (hpos : 0 < k)
    (hn : n = a + total (pre ++ (mid ++ post))) (hb : t.before i = cut (lastOwned b pre)) :
    Tagged cut (t.resize cut n i k) a b (pre ++ ⟨k, u⟩ :: post) := by
  have hn' : n = i + k + total post := by
    simp only [total_append] at hn
    omega
  refine Tagged.replace mid [⟨k, u⟩] h hi ?_ (by simp [hk])
    (fun hne => ?_) (fun j hj => ?_) (fun j hj => ?_) (fun j hj => rfl)
  · refine ⟨?_, by simp [Tags.resize], hu, hpos, trivial⟩
    simp only [Tags.resize]
    split
    · rw [update_of_ne (by omega), hb]
    · exact hb
  · have hpost : 0 < total post := total_pos (fun c hc => h.pos c (by simp [hc])) hne
    have hlt : i + k < n := by omega
    simp [Tags.resize, hlt, ← hk]
  · simp only [Tags.resize]
    split
    · exact update_of_ne (by omega) _ _
    · rfl
  · exact update_of_ne (by omega) _ _

theorem Tagged.merge (h : Tagged cut t a b (pre ++ ⟨k, u⟩ :: ⟨m, v⟩ :: post))
    (hi : i = a + total pre) (hn : n = a + total (pre ++ ⟨k, u⟩ :: ⟨m, v⟩ :: post)) :
    Tagged cut (t.resize cut n i (k + m)) a b (pre ++ ⟨k + m, u⟩ :: post) := by
  obtain ⟨h1, -, h3, h4⟩ := h.at
  subst hi
  exact Tagged.resize_block [⟨k, u⟩, ⟨m, v⟩] h rfl h3 (by simp)
    (Nat.add_pos_left h4 m) hn h1

theorem Tagged.keep (h : Tagged cut t a b (pre ++ ⟨k, u⟩ :: post)) (hi : i = a + total pre)
    (hn : n = a + total (pre ++ ⟨k, u⟩ :: post)) :
    Tagged cut (t.resize cut n i k) a b (pre ++ ⟨k, u⟩ :: post) := by
  obtain ⟨h1, -, h3, h4⟩ := h.at
  subst hi
  exact Tagged.resize_block [⟨k, u⟩] h rfl h3 (by simp) h4 hn h1

theorem Tagged.mark (h : Tagged cut t a b (pre ++ ⟨k, u⟩ :: post)) (hi : i = a + total pre) :
    Tagged cut (t.mark i v) a b (pre ++ ⟨k, v⟩ :: post) := by
  obtain ⟨h1, h2, -, h4⟩ := h.at
  subst hi
  refine Tagged.replace [⟨k, u⟩] [⟨k, v⟩] h rfl
    ⟨h1, h2, by simp [Tags.mark], h4, trivial⟩ (by simp) (fun hne => ?_)
    (fun _ _ => rfl) (fun _ _ => rfl) (fun j hj => ?_)
  · obtain ⟨-, h5⟩ := tagged_append.mp h
    cases post with
    | nil => exact absurd rfl hne
    | cons c post => simpa [Tags.mark] using h5.2.2.2.2.1
  · simp only [total_cons, total_nil] at hj h4
    exact update_of_ne (by omega) _ _

theorem starts_append : starts u a (xs ++ ys) = starts u a xs ++ starts u (a + total xs) ys := by
  induction xs generalizing a with
  | nil => rfl
  | cons c xs ih =>
    simp only [List.cons_append, starts, ih, total_cons, Nat.add_assoc]
    split <;> rfl

theorem mem_starts :
    i ∈ starts u a cs ↔ ∃ pre c post, cs = pre ++ c :: post ∧ c.used = u ∧ i = a + total pre := by
  constructor
  · intro h
    induction cs generalizing a with
    | nil => simp [starts] at h
    | cons c cs ih =>
      simp only [starts] at h
      split at h
      · rename_i hc
        rcases List.mem_cons.mp h with rfl | h
        · exact ⟨[], c, cs, rfl, hc, rfl⟩
        · obtain ⟨pre, d, post, rfl, hd, rfl⟩ := ih h
          exact ⟨c :: pre, d, post, rfl, hd, by simp [Nat.add_assoc]⟩
      · obtain ⟨pre, d, post, rfl, hd, rfl⟩ := ih h
        exact ⟨c :: pre, d, post, rfl, hd, by simp [Nat.add_assoc]⟩
  · rintro ⟨pre, c, post, rfl, rfl, rfl⟩
    simp [starts_append, starts]

theorem starts_subset : starts u a cs ⊆ boundaries a cs := by
  induction cs generalizing a with
  | nil => simp [starts]
  | cons c cs ih =>
    intro i hi
    simp only [starts] at hi
    simp only [boundaries, List.mem_cons]
    split at hi
    · exact (List.mem_cons.mp hi).imp_right (fun h => ih h)
    · exact .inr (ih hi)

theorem le_of_mem_boundaries (h : i ∈ boundaries a cs) : a ≤ i := by
  induction cs generalizing a with
  | nil => simp [boundaries] at h
  | cons c cs ih =>
    rcases List.mem_cons.mp h with rfl | h
    · exact Nat.le_refl i
    · exact Nat.le_trans (Nat.le_add_right a c.owned) (ih h)

theorem Tagged.boundary_fits (h : Tagged cut t a b cs) (hi : i ∈ boundaries a cs) :
    0 < t.owned i ∧ i + t.owned i ≤ a + total cs := by
  induction cs generalizing a b with
  | nil => simp [boundaries] at hi
  | cons c cs ih =>
    obtain ⟨-, h2, -, h4, h5⟩ := h
    rcases List.mem_cons.mp hi with rfl | hi
    · simp only [h2, total_cons]
      omega
    · have := ih h5 hi
      simp only [total_cons]
      omega

theorem Tagged.congr_boundaries (h : Tagged cut t a b cs)
    (he : ∀ i ∈ boundaries a cs,
      t'.before i = t.before i ∧ t'.owned i = t.owned i ∧ t'.used i = t.used i) :
    Tagged cut t' a b cs := by
  induction cs generalizing a b with
  | nil => trivial
  | cons c cs ih =>
    obtain ⟨h1, h2, h3, h4, h5⟩ := h
    obtain ⟨hb, ho, hu⟩ := he a (by simp [boundaries])
    refine ⟨hb.trans h1, ho.trans h2, hu.trans h3, h4, ih h5 fun i hi => he i ?_⟩
    exact List.mem_cons_of_mem _ hi

theorem Tagged.boundaries_apart (h : Tagged cut t a b cs) (hi : i ∈ boundaries a cs)
    (hj : j ∈ boundaries a cs) (hij : i < j) : i + t.owned i ≤ j := by
  induction cs generalizing a b with
  | nil => simp [boundaries] at hi
  | cons c cs ih =>
    obtain ⟨-, h2, -, -, h5⟩ := h
    rcases List.mem_cons.mp hj with rfl | hj
    · exact absurd (le_of_mem_boundaries hi) (by omega)
    · rcases List.mem_cons.mp hi with rfl | hi
      · rw [h2]
        exact le_of_mem_boundaries hj
      · exact ih h5 hi hj

theorem Tagged.used_of_mem_starts (h : Tagged cut t a b cs) (hi : i ∈ starts u a cs) :
    t.used i = u := by
  obtain ⟨pre, c, post, rfl, hc, rfl⟩ := mem_starts.mp hi
  exact h.at.2.2.1.trans hc

theorem Tagged.mem_boundaries (h : Tagged cut t a b cs) (hi : i ∈ boundaries a cs) :
    i ∈ starts (t.used i) a cs := by
  induction cs generalizing a b with
  | nil => simp [boundaries] at hi
  | cons c cs ih =>
    obtain ⟨-, -, h3, -, h5⟩ := h
    simp only [starts]
    rcases List.mem_cons.mp hi with rfl | hi
    · simp [h3]
    · split
      · exact List.mem_cons_of_mem _ (ih h5 hi)
      · exact ih h5 hi

theorem Tagged.boundaries_next (h : Tagged cut t a b cs) (hi : i ∈ boundaries a cs)
    (hlt : i + t.owned i < a + total cs) : i + t.owned i ∈ boundaries a cs := by
  induction cs generalizing a b with
  | nil => simp [boundaries] at hi
  | cons c cs ih =>
    obtain ⟨-, h2, -, -, h5⟩ := h
    simp only [total_cons] at hlt
    rcases List.mem_cons.mp hi with rfl | hi
    · rw [h2] at hlt ⊢
      cases cs with
      | nil => simp at hlt
      | cons d cs => simp [boundaries]
    · exact List.mem_cons_of_mem _ (ih h5 hi (by omega))

theorem Tagged.stepped_iff (h : Tagged cut t 0 0 cs) (hn : n = total cs) :
    Stepped t n i ↔ i ∈ boundaries 0 cs := by
  constructor
  · intro hs
    induction hs with
    | first hpos =>
      cases cs with
      | nil => simp [hn] at hpos
      | cons c cs => simp [boundaries]
    | next _ hlt ih => exact h.boundaries_next ih (by omega)
  · have main : ∀ {a b : Nat} {cs : List Block}, Tagged cut t a b cs → n = a + total cs →
        (cs ≠ [] → Stepped t n a) → i ∈ boundaries a cs → Stepped t n i := by
      intro a b cs
      induction cs generalizing a b with
      | nil => simp [boundaries]
      | cons c cs ih =>
        intro hc hn hs hi
        obtain ⟨-, h2, -, -, h5⟩ := hc
        simp only [total_cons] at hn
        rcases List.mem_cons.mp hi with rfl | hi
        · exact hs (by simp)
        · refine ih h5 (by omega) (fun hne => ?_) hi
          have hpos := total_pos h5.pos hne
          rw [← h2]
          exact .next (hs (by simp)) (by omega)
    exact main h (by omega) (fun hne => .first (hn ▸ total_pos h.pos hne))

theorem Tagged.exact (h : Tagged cut t a b cs) (hb : cut b = b)
    (hc : ∀ c ∈ cs.dropLast, cut c.owned = c.owned) : Tagged id t a b cs := by
  induction cs generalizing a b with
  | nil => trivial
  | cons c cs ih =>
    obtain ⟨h1, h2, h3, h4, h5⟩ := h
    refine ⟨h1.trans hb, h2, h3, h4, ?_⟩
    cases cs with
    | nil => trivial
    | cons d cs => exact ih h5 (hc c (by simp)) (fun e he => hc e (by simp [he]))

theorem held_append : held a (xs ++ ys) = held a xs ++ held (a + total xs) ys := by
  induction xs generalizing a with
  | nil => rfl
  | cons c xs ih =>
    simp only [List.cons_append, held, ih, total_cons, Nat.add_assoc]
    split <;> rfl

theorem mem_held :
    (i, k) ∈ held a cs ↔ ∃ pre post, cs = pre ++ ⟨k, true⟩ :: post ∧ i = a + total pre := by
  constructor
  · intro h
    induction cs generalizing a with
    | nil => simp [held] at h
    | cons c cs ih =>
      have later (h : (i, k) ∈ held (a + c.owned) cs) :
          ∃ pre post, c :: cs = pre ++ ⟨k, true⟩ :: post ∧ i = a + total pre := by
        obtain ⟨pre, post, rfl, rfl⟩ := ih h
        exact ⟨c :: pre, post, rfl, by simp [Nat.add_assoc]⟩
      simp only [held] at h
      split at h
      · rename_i hc
        rcases List.mem_cons.mp h with h | h
        · obtain ⟨rfl, rfl⟩ := Prod.mk.inj h
          exact ⟨[], cs, by simp [← hc], rfl⟩
        · exact later h
      · exact later h
  · rintro ⟨pre, post, rfl, rfl⟩
    simp [held_append, held]

theorem mem_starts_of_held (h : (i, k) ∈ held a cs) : i ∈ starts true a cs := by
  obtain ⟨pre, post, rfl, rfl⟩ := mem_held.mp h
  exact mem_starts.mpr ⟨pre, _, post, rfl, rfl, rfl⟩

def usedTotal (cs : List Block) : Nat := total (cs.filter Block.used)

@[simp] theorem usedTotal_nil : usedTotal [] = 0 := rfl

@[simp] theorem usedTotal_cons :
    usedTotal (c :: cs) = (if c.used then c.owned else 0) + usedTotal cs := by
  cases hc : c.used <;> simp [usedTotal, hc]

@[simp] theorem usedTotal_append : usedTotal (xs ++ ys) = usedTotal xs + usedTotal ys := by
  simp [usedTotal]

theorem usedTotal_le : usedTotal cs ≤ total cs := by
  induction cs with
  | nil => simp
  | cons c cs ih =>
    simp only [usedTotal_cons, total_cons]
    split <;> omega

def Coalesced (cs : List Block) : Prop := cs.IsChain (fun c d => c.used = true ∨ d.used = true)

def EndsUsed (cs : List Block) : Prop := ∀ c ∈ cs.getLast?, c.used = true

def StartsUsed (cs : List Block) : Prop := ∀ c ∈ cs.head?, c.used = true

theorem coalesced_cons : Coalesced (c :: cs) ↔ Coalesced cs ∧ (c.used = true ∨ StartsUsed cs) := by
  cases cs with
  | nil => simp [Coalesced, StartsUsed]
  | cons d cs => simp [Coalesced, StartsUsed, List.isChain_cons_cons, and_comm]

theorem coalesced_append : Coalesced (xs ++ c :: ys) ↔
    Coalesced xs ∧ Coalesced (c :: ys) ∧ (c.used = true ∨ EndsUsed xs) := by
  simp only [Coalesced, EndsUsed, List.isChain_append, List.head?_cons, Option.mem_def,
    Option.some.injEq, forall_eq']
  constructor
  · rintro ⟨h1, h2, h3⟩
    refine ⟨h1, h2, ?_⟩
    cases hc : c.used with
    | true => exact .inl rfl
    | false => exact .inr (fun d hd => (h3 d hd).resolve_right (by simp [hc]))
  · rintro ⟨h1, h2, h3⟩
    exact ⟨h1, h2, fun d hd => h3.symm.imp_left (fun h => h d hd)⟩

theorem coalesced_free : Coalesced (xs ++ ⟨k, false⟩ :: ys) ↔
    Coalesced xs ∧ Coalesced ys ∧ EndsUsed xs ∧ StartsUsed ys := by
  simp [coalesced_append, coalesced_cons]
  tauto

theorem coalesced_used : Coalesced (xs ++ ⟨k, true⟩ :: ys) ↔ Coalesced xs ∧ Coalesced ys := by
  simp [coalesced_append, coalesced_cons]

theorem le_of_mem_held (h : (i, k) ∈ held a cs) : a ≤ i :=
  le_of_mem_boundaries (starts_subset (mem_starts_of_held h))

theorem held_of_used : held a (⟨k, true⟩ :: cs) = (a, k) :: held (a + k) cs := rfl

theorem held_of_free : held a (⟨k, false⟩ :: cs) = held (a + k) cs := rfl

theorem held_fits (h : (i, k) ∈ held a cs) : i + k ≤ a + total cs := by
  obtain ⟨pre, post, rfl, rfl⟩ := mem_held.mp h
  simp only [total_append, total_cons]
  omega

theorem held_pos (hpos : ∀ c ∈ cs, 0 < c.owned) (h : (i, k) ∈ held a cs) : 0 < k := by
  obtain ⟨pre, post, rfl, -⟩ := mem_held.mp h
  exact hpos ⟨k, true⟩ (by simp)

theorem held_filter (hpos : ∀ c ∈ pre ++ ⟨k, true⟩ :: post, 0 < c.owned) :
    (held a (pre ++ ⟨k, true⟩ :: post)).filter (·.1 ≠ a + total pre) =
      held a pre ++ held (a + total pre + k) post := by
  have hk : 0 < k := hpos ⟨k, true⟩ (by simp)
  have hbefore : ∀ e ∈ held a pre, e.1 ≠ a + total pre := by
    rintro ⟨i, j⟩ he
    have hj := held_pos (fun c hc => hpos c (List.mem_append_left _ hc)) he
    have hle := held_fits he
    exact Nat.ne_of_lt (Nat.lt_of_lt_of_le (Nat.lt_add_of_pos_right hj) hle)
  have hafter : ∀ e ∈ held (a + total pre + k) post, e.1 ≠ a + total pre := by
    rintro ⟨i, j⟩ he
    have hle := le_of_mem_held he
    exact Nat.ne_of_gt (Nat.lt_of_lt_of_le (Nat.lt_add_of_pos_right hk) hle)
  rw [held_append, held_of_used, List.filter_append, List.filter_cons_of_neg (by simp),
    List.filter_eq_self.mpr (by simpa using hbefore),
    List.filter_eq_self.mpr (by simpa using hafter)]

theorem Tagged.agree (h : Tagged cut t a b cs) (h' : Tagged cut t' a b cs) :
    ∀ i ∈ boundaries a cs,
      t.before i = t'.before i ∧ t.owned i = t'.owned i ∧ t.used i = t'.used i := by
  intro i hi
  obtain ⟨pre, c, post, rfl, -, rfl⟩ := mem_starts.mp (h.mem_boundaries hi)
  obtain ⟨hb, ho, hu, -⟩ := h.at
  obtain ⟨hb', ho', hu', -⟩ := h'.at
  exact ⟨hb.trans hb'.symm, ho.trans ho'.symm, hu.trans hu'.symm⟩

theorem eq_of_held_shifted (hxs : StartsUsed xs) (hys : StartsUsed ys)
    (ht : k + total xs = m + total ys) (hh : held (a + k) xs = held (a + m) ys) : k = m := by
  have hne {zs : List Block} {n : Nat} (hzs : StartsUsed zs) (hnil : held n zs = []) :
      zs = [] := by
    cases zs with
    | nil => rfl
    | cons d zs =>
      have hd : d.used = true := hzs d rfl
      rw [held, if_pos hd] at hnil
      cases hnil
  cases xs with
  | nil =>
    obtain rfl := hne hys hh.symm
    simpa using ht
  | cons c xs =>
    cases ys with
    | nil => cases hne hxs hh
    | cons d ys =>
      have hc : c.used = true := hxs c rfl
      have hd : d.used = true := hys d rfl
      rw [held, held, if_pos hc, if_pos hd] at hh
      have hfst := (Prod.mk.inj (List.cons.inj hh).1).1
      omega

theorem Coalesced.unique (hx : ∀ c ∈ xs, 0 < c.owned) (hy : ∀ c ∈ ys, 0 < c.owned)
    (hc : Coalesced xs) (hc' : Coalesced ys) (ht : total xs = total ys)
    (hh : held a xs = held a ys) : xs = ys := by
  induction xs generalizing a ys with
  | nil =>
    by_contra hne
    have hpos := total_pos hy (Ne.symm hne)
    rw [← ht] at hpos
    exact absurd hpos (Nat.lt_irrefl 0)
  | cons c xs ih =>
    cases ys with
    | nil =>
      have hpos := total_pos hx (List.cons_ne_nil c xs)
      rw [ht] at hpos
      exact absurd hpos (Nat.lt_irrefl 0)
    | cons d ys =>
      obtain ⟨hpos, hxs⟩ := List.forall_mem_cons.mp hx
      obtain ⟨hpos', hys⟩ := List.forall_mem_cons.mp hy
      obtain ⟨hcs, hstart⟩ := coalesced_cons.mp hc
      obtain ⟨hcs', hstart'⟩ := coalesced_cons.mp hc'
      rw [total_cons, total_cons] at ht
      have hsame : c = d := by
        obtain ⟨k, u⟩ := c
        obtain ⟨m, v⟩ := d
        cases u with
        | true =>
          cases v with
          | true =>
            rw [held_of_used, held_of_used] at hh
            obtain ⟨-, rfl⟩ := Prod.mk.inj (List.cons.inj hh).1
            rfl
          | false =>
            rw [held_of_used, held_of_free] at hh
            have hmem : (a, k) ∈ held (a + m) ys := hh ▸ List.mem_cons_self
            exact absurd (le_of_mem_held hmem) (Nat.not_le.mpr (Nat.lt_add_of_pos_right hpos'))
        | false =>
          cases v with
          | true =>
            rw [held_of_used, held_of_free] at hh
            have hmem : (a, m) ∈ held (a + k) xs := hh ▸ List.mem_cons_self
            exact absurd (le_of_mem_held hmem) (Nat.not_le.mpr (Nat.lt_add_of_pos_right hpos))
          | false =>
            have hu := hstart.resolve_left Bool.false_ne_true
            have hu' := hstart'.resolve_left Bool.false_ne_true
            obtain rfl := eq_of_held_shifted hu hu' ht hh
            rfl
      subst hsame
      have hrest : held (a + c.owned) xs = held (a + c.owned) ys := by
        rw [held, held] at hh
        split at hh
        · exact (List.cons.inj hh).2
        · exact hh
      rw [ih hxs hys hcs hcs' (Nat.add_left_cancel ht) hrest]

def Narrow (n : Nat) : List Block → Prop
  | [] => True
  | c :: cs => (cs ≠ [] → c.owned < n) ∧ Narrow n cs

theorem narrow_append : Narrow n (xs ++ c :: ys) ↔
    (∀ d ∈ xs, d.owned < n) ∧ (ys ≠ [] → c.owned < n) ∧ Narrow n ys := by
  induction xs with
  | nil => simp [Narrow]
  | cons d xs ih => simp [Narrow, ih, and_assoc]

theorem Narrow.lastOwned_lt (h : Narrow n (xs ++ c :: ys)) (hb : b < n) : lastOwned b xs < n := by
  rcases List.eq_nil_or_concat' xs with rfl | ⟨zs, d, rfl⟩
  · exact hb
  · rw [lastOwned_append, lastOwned_cons, lastOwned_nil]
    exact (narrow_append.mp h).1 d (by simp)

theorem Tagged.narrow_iff (h : Tagged cut t a b cs) (hcut : ∀ v, cut v = v ↔ v < n) :
    (∀ i ∈ boundaries a cs, i + t.owned i < a + total cs → t.before (i + t.owned i) = t.owned i) ↔
      Narrow n cs := by
  induction cs generalizing a b with
  | nil => simp [boundaries, Narrow]
  | cons c cs ih =>
    obtain ⟨-, ho, -, -, hcs⟩ := h
    have hhead : (a + c.owned < a + (c.owned + total cs) → t.before (a + c.owned) = c.owned) ↔
        (cs ≠ [] → c.owned < n) := by
      cases cs with
      | nil => simp
      | cons d cs =>
        obtain ⟨hb, -, -, hpos, -⟩ := hcs
        have hlt : a + c.owned < a + (c.owned + total (d :: cs)) := by
          rw [total_cons]
          omega
        rw [hb, hcut]
        exact ⟨fun h _ => h hlt, fun h _ => h (List.cons_ne_nil d cs)⟩
    rw [boundaries, List.forall_mem_cons, Narrow, ← ih hcs, ho, total_cons, hhead]
    simp only [Nat.add_assoc]

theorem Tagged.owned_lt (h : Tagged cut t a b cs) (hn : Narrow n cs) (hi : i ∈ boundaries a cs)
    (hlt : i + t.owned i < a + total cs) : t.owned i < n := by
  obtain ⟨pre, c, post, rfl, -, rfl⟩ := mem_starts.mp (h.mem_boundaries hi)
  obtain ⟨-, ho, -⟩ := h.at
  rw [ho] at hlt ⊢
  refine (narrow_append.mp hn).2.1 ?_
  rintro rfl
  simp [Nat.add_assoc] at hlt

end BoundaryTags
