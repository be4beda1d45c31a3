import Corosig.Container.HeapClient
import Corosig.TaskRuns

namespace Corosig.Tasks
open AllocationLedger Heap

variable {V : Type} {allocates : Path → Bool} {failed : V} {w w' : Tasks V} {op : Op}
  {ops : List Op} {entries : List (Entry Path)}

-- The frames a step destroys go back to the allocator in some order; a call takes one.
inductive FrameCalls (w w' : Tasks V) : List (Entry Path) → Prop where
  | calls {freed taken : List Path} : freed.Nodup → taken.Nodup →
      (∀ p, p ∈ freed ↔ p ∈ w.frames ∧ p ∉ w'.frames) →
      (∀ p, p ∈ taken ↔ p ∈ w'.frames ∧ p ∉ w.frames) →
      FrameCalls w w' (freed.map .deallocate ++ taken.map .allocate)

inductive FrameRun (allocates : Path → Bool) (failed : V) :
    Tasks V → List Op → List (Entry Path) → Tasks V → Prop where
  | nil (w : Tasks V) : FrameRun allocates failed w [] [] w
  | cons {w w₁ w' : Tasks V} {op : Op} {ops : List Op} {entries entries' : List (Entry Path)} :
      w.step allocates failed op = some w₁ → FrameCalls w w₁ entries →
      FrameRun allocates failed w₁ ops entries' w' →
      FrameRun allocates failed w (op :: ops) (entries ++ entries') w'

def rootFrame (allocates : Path → Bool) : List Path := if allocates [] then [[]] else []

theorem frameCalls_exist (w w' : Tasks V) : ∃ entries, FrameCalls w w' entries :=
  ⟨_, .calls (w.frames \ w'.frames).nodup_toList (w'.frames \ w.frames).nodup_toList
    (fun p => by rw [Finset.mem_toList, Finset.mem_sdiff])
    (fun p => by rw [Finset.mem_toList, Finset.mem_sdiff])⟩

theorem frameRun_of_run (h : ops.foldlM (step allocates failed) w = some w') :
    ∃ entries, FrameRun allocates failed w ops entries w' := by
  induction ops generalizing w with
  | nil =>
    cases h
    exact ⟨[], .nil _⟩
  | cons op ops ih =>
    obtain ⟨w₁, hs, h⟩ := Option.bind_eq_some_iff.mp h
    obtain ⟨entries, hcalls⟩ := frameCalls_exist w w₁
    obtain ⟨entries', hrun⟩ := ih h
    exact ⟨entries ++ entries', .cons hs hcalls hrun⟩

theorem FrameRun.run (h : FrameRun allocates failed w ops entries w') :
    ops.foldlM (step allocates failed) w = some w' := by
  induction h with
  | nil => rfl
  | cons hs _ _ ih =>
    rw [List.foldlM_cons, hs]
    exact ih

theorem FrameCalls.balances (h : FrameCalls w w' entries) :
    Balances w.frames.toList entries w'.frames.toList := by
  obtain ⟨hfreed, htaken, hmem, hmem'⟩ := h
  rename_i freed taken
  have hkept := (w.frames ∩ w'.frames).nodup_toList
  have hbefore : w.frames.toList.Perm (freed ++ (w.frames ∩ w'.frames).toList) := by
    have hapart : List.Disjoint freed (w.frames ∩ w'.frames).toList := by
      intro p hp hp'
      exact ((hmem p).mp hp).2 (Finset.mem_inter.mp (Finset.mem_toList.mp hp')).2
    refine (List.perm_ext_iff_of_nodup w.frames.nodup_toList (hfreed.append hkept hapart)).mpr ?_
    intro p
    rw [List.mem_append, hmem, Finset.mem_toList, Finset.mem_toList, Finset.mem_inter]
    tauto
  have hfresh : ∀ p ∈ taken, p ∉ (w.frames ∩ w'.frames).toList := by
    intro p hp hp'
    exact ((hmem' p).mp hp).2 (Finset.mem_inter.mp (Finset.mem_toList.mp hp')).1
  have hafter : (taken ++ (w.frames ∩ w'.frames).toList).Perm w'.frames.toList := by
    refine (List.perm_ext_iff_of_nodup (htaken.append hkept hfresh) w'.frames.nodup_toList).mpr ?_
    intro p
    rw [List.mem_append, hmem', Finset.mem_toList, Finset.mem_toList, Finset.mem_inter]
    tauto
  exact ((balances_deallocate hbefore).append (balances_allocate htaken hfresh)).perm hafter

theorem FrameRun.balances (h : FrameRun allocates failed w ops entries w') :
    Balances w.frames.toList entries w'.frames.toList := by
  induction h with
  | nil => exact balances_nil (.refl _)
  | cons _ hcalls _ ih => exact hcalls.balances.append ih

theorem toList_start (allocates : Path → Bool) (failed : V) (main : Body V) :
    (start allocates failed main).frames.toList = rootFrame allocates := by
  rw [start, rootFrame]
  split
  · exact Finset.toList_singleton []
  · exact Finset.toList_empty

theorem Inv.toList_done (hi : Inv allocates w) {task : Task V} {value : V}
    (hroot : w.tasks [] = some task) (hr : task.result = some value) :
    w.frames.toList = rootFrame allocates := by
  have hsub := hi.frames_done (hi.done hroot hr)
  have hmem := hi.frames []
  rw [rootFrame]
  split
  · rename_i ha
    have hframes : w.frames = {[]} :=
      Finset.Subset.antisymm hsub (Finset.singleton_subset_iff.mpr (hmem.mpr ⟨⟨task, hroot⟩, ha⟩))
    rw [hframes, Finset.toList_singleton]
  · rename_i ha
    have hframes : w.frames = ∅ := by
      refine Finset.eq_empty_of_forall_notMem fun p hp => ?_
      obtain rfl := Finset.mem_singleton.mp (hsub hp)
      exact ha (hmem.mp hp).2
    rw [hframes, Finset.toList_empty]

theorem program_balances {main : Body V} (hmain : main.Scoped 0 ∅)
    (hrun : FrameRun allocates failed (start allocates failed main) ops entries w)
    {task : Task V} {value : V} (hroot : w.tasks [] = some task)
    (hr : task.result = some value) :
    balance [] ((rootFrame allocates).map .allocate ++
      (entries ++ (rootFrame allocates).map .deallocate)) = some [] := by
  obtain ⟨m, ⟨hi, -⟩, -⟩ := sound_run hmain hrun.run
  have hnodup : (rootFrame allocates).Nodup := by
    rw [← hi.toList_done hroot hr]
    exact w.frames.nodup_toList
  have hstart : Balances [] ((rootFrame allocates).map .allocate) (rootFrame allocates ++ []) :=
    balances_allocate hnodup fun _ _ => List.not_mem_nil
  have hmiddle := hrun.balances
  rw [toList_start, hi.toList_done hroot hr] at hmiddle
  rw [List.append_nil] at hstart
  have hend := balances_deallocate (.of_eq (List.append_nil (rootFrame allocates)).symm)
  exact (hstart.append (hmiddle.append hend)).eq_nil

theorem frames_given_back {build : Build} {buffer : MemSpan} {h : Heap} {request : Path → Request}
    (hb : Bounded buffer) (hs : Boots build buffer h) (hn : h.alloc.blocksAmount < 2 ^ 31)
    (hrequest : ∀ p, blockSize + (request p).size + (request p).alignment < 2 ^ 64)
    (hsize : ∀ p, 0 < (request p).size) {main : Body V} (hmain : main.Scoped 0 ∅)
    (hrun : FrameRun allocates failed (start allocates failed main) ops entries w)
    {task : Task V} {value : V} (hroot : w.tasks [] = some task)
    (hr : task.result = some value) :
    Client.GivesBack build request { heap := h } ((rootFrame allocates).map .allocate ++
      (entries ++ (rootFrame allocates).map .deallocate)) :=
  (Client.sound_boots hb hs hn request).givesBack hrequest hsize
    (program_balances hmain hrun hroot hr)

def frameSize : Path → Request := fun _ => ⟨96, 4, by decide, by decide⟩

theorem frames_given_back_nested : ∃ h entries, Boots .debug ⟨4096, 512⟩ h ∧
    FrameRun (· ≠ [2]) 40 (start (· ≠ [2]) 40 nested) nestedOps entries nestedEnd ∧
    Client.GivesBack .debug frameSize { heap := h }
      (.allocate [] :: (entries ++ [.deallocate []])) := by
  have e : (Allocator.construct .debug ⟨4096, 512⟩ fun _ => ⟨0, false, 0, 0, 0⟩).map
      Allocator.blocksAmount = some 32 := by
    decide +kernel
  obtain ⟨s, e, hn⟩ := Option.map_eq_some_iff.mp e
  have hb : Bounded ⟨4096, 512⟩ := show 4096 + 512 < 2 ^ 64 by decide
  have hs : Boots .debug ⟨4096, 512⟩ { alloc := s } := ⟨_, s, e, rfl⟩
  have h : nestedOps.foldlM (step (· ≠ [2]) 40) (start (· ≠ [2]) 40 nested) = some nestedEnd :=
    (Option.some_get _).symm
  obtain ⟨entries, hrun⟩ := frameRun_of_run h
  have hrequest (p : Path) : blockSize + (frameSize p).size + (frameSize p).alignment < 2 ^ 64 :=
    show 16 + 96 + 2 ^ 4 < 2 ^ 64 by decide
  have hsize (p : Path) : 0 < (frameSize p).size := show 0 < 96 by decide
  exact ⟨_, entries, hs, hrun,
    frames_given_back hb hs (hn ▸ by decide) hrequest hsize scoped_nested hrun rfl rfl⟩

end Corosig.Tasks
