import Corosig.Reactor.Poll

namespace Corosig.Reactor
open Loop

variable {κ : Type}

def entries (revents : Nat → BitVec 16) (nodes : List (PollListNode κ)) (room : Nat) :
    List PollFd :=
  writeRevents revents (buildPollFds (nodes.take room))

def ReadyAt (pollFds : List PollFd) (i : Nat) : Prop :=
  ∃ pollFd, pollFds[i]? = some pollFd ∧ pollFd.revents ≠ 0

def readyCount (pollFds : List PollFd) : Nat := pollFds.countP (·.revents ≠ 0)

variable {nodes : List (PollListNode κ)} {room i : Nat} {revents : Nat → BitVec 16}

theorem entries_getElem? (revents : Nat → BitVec 16) (nodes : List (PollListNode κ))
    (room i : Nat) : (entries revents nodes room)[i]? = if i < room then
      nodes[i]?.map fun node => ⟨node.handle, node.event, revents i⟩ else none := by
  simp only [entries, writeRevents, buildPollFds, List.getElem?_mapIdx, List.getElem?_map,
    List.getElem?_take]
  split <;> simp [Option.map_map, Function.comp_def]

theorem entries_owner {pollFd : PollFd} (h : (entries revents nodes room)[i]? = some pollFd) :
    ∃ node, nodes[i]? = some node ∧ pollFd.fd = node.handle := by
  rw [entries_getElem?] at h
  split at h
  · obtain ⟨node, hn, rfl⟩ := Option.map_eq_some_iff.mp h
    exact ⟨node, hn, rfl⟩
  · cases h

theorem drop_of_getElem? {α : Type} {a : α} {xs : List α} {i : Nat} (h : xs[i]? = some a) :
    xs.drop i = a :: xs.drop (i + 1) := by
  obtain ⟨hlt, rfl⟩ := List.getElem?_eq_some_iff.mp h
  exact List.drop_eq_getElem_cons hlt

theorem cons_sublist {α : Type} {a : α} {l xs : List α} (h : (a :: l).Sublist xs) :
    ∃ k, xs[k]? = some a ∧ l.Sublist (xs.drop (k + 1)) := by
  generalize hal : a :: l = al at h
  induction h with
  | slnil => cases hal
  | cons x _ ih =>
    obtain ⟨k, hk, hl⟩ := ih hal
    exact ⟨k + 1, by simpa using hk, by simpa using hl⟩
  | cons_cons x h _ =>
    cases hal
    exact ⟨0, rfl, by simpa using h⟩

theorem cons_sublist_drop {α : Type} {a : α} {l xs : List α} {i : Nat}
    (h : (a :: l).Sublist (xs.drop i)) :
    ∃ k, i ≤ k ∧ xs[k]? = some a ∧ l.Sublist (xs.drop (k + 1)) := by
  obtain ⟨k, hk, hl⟩ := cons_sublist h
  rw [List.getElem?_drop] at hk
  rw [List.drop_drop] at hl
  exact ⟨i + k, Nat.le_add_right i k, hk, hl⟩

variable [DecidableEq κ] {σ : Type} {resume : Coros σ κ} {pollFds : List PollFd} {ret : Nat}
  {answer : PollAnswer} {s t : Polling σ κ}

-- Where cancellations have left the node of a later entry with the same descriptor in front of a
-- ready entry, that node's own entry is ready as well.
def Attributable (nodes : List (PollListNode κ)) (pollFds : List PollFd) (ret : Nat)
    (s : Polling σ κ) : Prop :=
  ∀ k owner node polled, s.handled < ret → ReadyAt pollFds s.i → nodes[s.i]? = some owner →
    s.polled = node :: polled → nodes[k]? = some node → s.i < k → owner.handle = node.handle →
    ReadyAt pollFds k

structure Aligned (nodes : List (PollListNode κ)) (pollFds : List PollFd) (s : Polling σ κ) :
    Prop where
  behind : s.polled.Sublist (nodes.drop s.i)
  own : ∀ n, .resumed n ∈ s.log → ∃ i, nodes[i]? = some n ∧ ReadyAt pollFds i

theorem Aligned.step (ha : Attributable nodes (entries revents nodes room) ret s)
    (h : Aligned nodes (entries revents nodes room) s)
    (hs : pollStep resume (entries revents nodes room) ret s = .more t) :
    Aligned nodes (entries revents nodes room) t := by
  obtain ⟨pollFd, node, polled, hlt, hfd, hp, hi, hcase⟩ := pollStep_more hs
  obtain ⟨owner, ho, hfo⟩ := entries_owner hfd
  have hbehind := h.behind
  rw [hp] at hbehind
  obtain ⟨k, hk, hnk, hsub⟩ := cons_sublist_drop hbehind
  have hrest : polled.Sublist (nodes.drop (s.i + 1)) :=
    hsub.trans (List.drop_sublist_drop_left _ (by omega))
  obtain ⟨hne, h₁, -, h₃, -⟩ | ⟨-, -, h₁, -, h₃, -⟩ | ⟨heq, hz, hq, h₃, -⟩ := hcase
  · have hki : k ≠ s.i := by
      rintro rfl
      rw [hnk] at ho
      cases ho
      exact hne hfo
    have hfrom : (node :: polled).Sublist (nodes.drop k) := by
      rw [drop_of_getElem? hnk]
      exact hsub.cons_cons node
    refine ⟨?_, h₃ ▸ h.own⟩
    rw [h₁, hp, hi]
    exact hfrom.trans (List.drop_sublist_drop_left _ (by omega))
  · exact ⟨hi ▸ h₁ ▸ hrest, h₃ ▸ h.own⟩
  · have hready : ReadyAt (entries revents nodes room) s.i := ⟨pollFd, hfd, hz⟩
    refine ⟨hi ▸ (foldlM_sublist hq).trans hrest, fun n hn => ?_⟩
    rw [h₃, List.mem_append, List.mem_cons] at hn
    obtain hn | hn | hn := hn
    · exact h.own n hn
    · cases hn
      obtain rfl | hik := Nat.eq_or_lt_of_le hk
      · exact ⟨_, hnk, hready⟩
      · exact ⟨k, hnk, ha k owner _ _ hlt hready ho hp hnk hik (hfo ▸ heq)⟩
    · simp at hn

theorem aligned_run {s : Registered σ κ} {t : Polling σ κ}
    (ha : ∀ u v, Reaches (pollPass resume answer (buildPollFds (s.mPolled.take room))) s.enter u →
      pollPass resume answer (buildPollFds (s.mPolled.take room)) u = .more v →
      Attributable s.mPolled (entries answer.revents s.mPolled room) (sizeT answer.ret) u)
    (ht : Reaches (pollPass resume answer (buildPollFds (s.mPolled.take room))) s.enter t) :
    Aligned s.mPolled (entries answer.revents s.mPolled room) t := by
  induction ht with
  | refl => exact ⟨.refl _, fun n hn => absurd hn List.not_mem_nil⟩
  | tail hu hstep ih => exact ih.step (ha _ _ hu hstep) hstep

omit [DecidableEq κ] in
theorem attributable_of_nodup (hn : (nodes.map PollListNode.handle).Nodup)
    (pollFds : List PollFd) (ret : Nat) (s : Polling σ κ) : Attributable nodes pollFds ret s := by
  intro k owner node polled _ _ ho _ hk hlt heq
  have hi : (nodes.map PollListNode.handle)[s.i]? = some owner.handle := by simp [ho]
  have hk : (nodes.map PollListNode.handle)[k]? = some owner.handle := by simp [hk, heq]
  obtain ⟨hlen, -⟩ := List.getElem?_eq_some_iff.mp hi
  exact absurd ((List.getElem?_inj hlen hn).mp (hi.trans hk.symm)) (Nat.ne_of_lt hlt)

theorem resumes_own_of_nodup {s : Registered σ κ} {t : Polling σ κ}
    (hn : (s.mPolled.map PollListNode.handle).Nodup)
    (ht : Reaches (pollPass resume answer (buildPollFds (s.mPolled.take room))) s.enter t)
    (n : PollListNode κ) (hlog : .resumed n ∈ t.log) :
    ∃ i, s.mPolled[i]? = some n ∧ ReadyAt (entries answer.revents s.mPolled room) i :=
  (aligned_run (fun u _ _ _ => attributable_of_nodup hn _ _ u) ht).own n hlog

theorem pollAndResumeImpl_resumes_own_iff (answer : PollAnswer) (resume : Coros σ κ)
    (s : Registered σ κ) (room : Nat) :
    (∀ t, Reaches (pollPass resume answer (buildPollFds (s.mPolled.take room))) s.enter t →
      ∀ n, .resumed n ∈ t.log →
        ∃ i, s.mPolled[i]? = some n ∧ ReadyAt (entries answer.revents s.mPolled room) i) ↔
    ∀ t u, Reaches (pollPass resume answer (buildPollFds (s.mPolled.take room))) s.enter t →
      pollPass resume answer (buildPollFds (s.mPolled.take room)) t = .more u →
      Attributable s.mPolled (entries answer.revents s.mPolled room) (sizeT answer.ret) t := by
  constructor
  · intro h t u ht hstep k owner node polled hlt ⟨pollFd, hfd, hz⟩ ho hp hk hik heq
    obtain ⟨fd, front, rest, -, hfd', hp', -, hcase⟩ := pollStep_more hstep
    obtain rfl := Option.some.inj (hfd.symm.trans hfd')
    obtain ⟨rfl, rfl⟩ := List.cons.inj (hp.symm.trans hp')
    obtain ⟨owner', ho', hfo⟩ := entries_owner hfd
    obtain rfl := Option.some.inj (ho.symm.trans ho')
    obtain ⟨hne, -⟩ | ⟨-, hnone, -⟩ | ⟨-, -, -, hlog, -⟩ := hcase
    · exact absurd (hfo.trans heq) hne
    · exact absurd hnone hz
    · obtain ⟨x, hx, hown⟩ := h u (ht.tail hstep) node (hlog ▸ by simp)
      obtain ⟨hlen, -⟩ := List.getElem?_eq_some_iff.mp hx
      exact (List.getElem?_inj hlen s.nodup).mp (hx.trans hk.symm) ▸ hown
  · exact fun ha t ht => (aligned_run ha ht).own

theorem pollAndResumeImpl_resumes_other :
    ¬ ∀ (answer : PollAnswer) (nodes : List (PollListNode (Fin 3))) (hn : nodes.Nodup)
      (room : Nat), answer.ret = readyCount (entries answer.revents nodes room) →
      ∀ (σ : Type) (resume : Coros σ (Fin 3)) (coros : σ) (t : Polling σ (Fin 3)),
        Reaches (pollPass resume answer (buildPollFds (nodes.take room)))
          (Registered.enter ⟨coros, nodes, hn⟩) t →
        ∀ n, .resumed n ∈ t.log →
          ∃ i, nodes[i]? = some n ∧ ReadyAt (entries answer.revents nodes room) i := by
  intro h
  obtain ⟨i, hi, fd, hfd, hz⟩ := h ⟨2, by decide, fun i => if i < 2 then 1 else 0, 0⟩
    [⟨0, 7, 1⟩, ⟨1, 5, 1⟩, ⟨2, 5, 4⟩] (by decide) 64 (by decide) Unit
    (fun c k => (c, if k = 0 then [.cancel ⟨1, 5, 1⟩] else [])) () _
    (.tail (.tail .refl rfl) rfl) ⟨2, 5, 4⟩ (by decide)
  match i with
  | 0 => cases hi
  | 1 => cases hi
  | 2 =>
    cases hfd
    exact hz rfl
  | i + 3 => cases hi

end Corosig.Reactor
