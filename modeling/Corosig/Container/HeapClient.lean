import Corosig.Container.HeapOrder
import Corosig.Library.AllocationLedger
import Mathlib.Logic.Function.Basic

namespace Corosig.Heap
open AllocationLedger BoundaryTags Allocator Function

def acquire (build : Build) (h : Heap) (r : Request) : Option (Heap × Option Live) := do
  let (s, p) ← h.alloc.allocate build r
  let block := p.map fun p => ⟨p, r⟩
  return (⟨s, block.toList ++ h.live, s.used :: h.history⟩, block)

-- A client that has names for its blocks: own are those it has not given back, addr is where each
-- of them was put. The arena serves others as well, whose blocks are theirs.
structure Client (κ : Type) where
  heap : Heap
  own : List κ := []
  addr : κ → Nat := fun _ => 0
  theirs : List Live := []

namespace Client

variable {κ : Type}

def block (request : κ → Request) (m : Client κ) (id : κ) : Live := ⟨m.addr id, request id⟩

variable [DecidableEq κ]

def serve (build : Build) (request : κ → Request) (m : Client κ) : Entry κ → Option (Client κ)
  | .allocate id => do
      let (heap, block) ← m.heap.acquire build (request id)
      let block ← block
      return { m with heap, own := id :: m.own, addr := update m.addr id block.addr }
  | .deallocate id => do
      let heap ← m.heap.call build (.deallocate (m.addr id))
      return { m with heap, own := m.own.erase id }

-- An allocation that finds no memory leaves the client as it was, like the calls of the others.
inductive Step (build : Build) (request : κ → Request) (m : Client κ) :
    List (Entry κ) → Client κ → Prop where
  | own {e : Entry κ} {m' : Client κ} : m.serve build request e = some m' →
      Step build request m [e] m'
  | allocate {r : Request} {heap : Heap} {block : Option Live} : m.heap.Modest (.allocate r) →
      m.heap.acquire build r = some (heap, block) →
      Step build request m [] { m with heap, theirs := block.toList ++ m.theirs }
  | deallocate {l : Live} {heap : Heap} : l ∈ m.theirs →
      m.heap.call build (.deallocate l.addr) = some heap →
      Step build request m [] { m with heap, theirs := m.theirs.filter (·.addr ≠ l.addr) }
  | write {cells : Nat → BlockMetadata} {heap : Heap} :
      m.heap.call build (.write cells) = some heap → Step build request m [] { m with heap }

inductive Serves (build : Build) (request : κ → Request) (m : Client κ) :
    List (Entry κ) → Client κ → Prop where
  | refl : Serves build request m [] m
  | tail {entries entries' : List (Entry κ)} {m₁ m₂ : Client κ} :
      Serves build request m entries m₁ → Step build request m₁ entries' m₂ →
      Serves build request m (entries ++ entries') m₂

end Client

structure Kept (h : Heap) : Prop where
  inv : ∃ cs fs, Inv h cs fs ∧ Coalesced cs
  covered : h.Covered
  small : h.alloc.blocksAmount < 2 ^ 31

variable {build : Build} {h h' : Heap} {r : Request} {block : Option Live}

theorem Kept.step (hk : h.Kept) {c : Call} (hp : h.Permits c) (hm : h.Modest c)
    (e : h.call build c = some h') : h'.Kept := by
  obtain ⟨cs, fs, hi, hc⟩ := hk.inv
  have hs : Step build Guarded h h' := ⟨c, hp, hi.guarded hk.small hm, e⟩
  obtain ⟨cs', fs', hi', hmem, hc'⟩ := hi.step hs
  refine ⟨⟨cs', fs', hi', hc' hc⟩, hi.covered_step hk.covered hs, ?_⟩
  rw [blocksAmount, hmem]
  exact hk.small

theorem Kept.distinct (hk : h.Kept) {ls : List Live} (hl : h.live.Perm ls) :
    ls.Pairwise fun l l' => l.addr ≠ l'.addr := by
  obtain ⟨cs, fs, hi, -⟩ := hk.inv
  exact (hl.pairwise_iff fun hne => hne.symm).mp hi.distinct

theorem Kept.emptied (hk : h.Kept) (hl : h.live = []) : Emptied h.alloc := by
  obtain ⟨cs, fs, hi, hc⟩ := hk.inv
  refine hi.emptied hk.small hc (List.eq_nil_iff_forall_not_mem.mpr fun e he => ?_)
  obtain ⟨l, hmem, -⟩ := hi.covered_iff.mp hk.covered e he
  rw [hl] at hmem
  cases hmem

theorem Kept.releases (hk : h.Kept) {l : Live} (hl : l ∈ h.live) (hpos : 0 < l.request.size) :
    ∃ h', h.call build (.deallocate l.addr) = some h' := by
  obtain ⟨cs, fs, hi, -⟩ := hk.inv
  refine hi.progress (.inr ⟨l, hl, rfl⟩) (hi.guarded hk.small trivial) fun l' hl' heq => .inr ?_
  have hinside := hi.backed_inside (hi.backed l hl)
  rw [← Call.deallocate.inj heq]
  omega

theorem acquire_call (e : h.acquire build r = some (h', block)) :
    h.call build (.allocate r) = some h' ∧ h'.live = block.toList ++ h.live ∧
      ∀ l ∈ block, l.request = r := by
  obtain ⟨⟨s, p⟩, hs, e⟩ := Option.bind_eq_some_iff.mp e
  cases e
  rw [call, hs]
  cases p with
  | none =>
    refine ⟨rfl, rfl, ?_⟩
    rintro l ⟨⟩
  | some p =>
    refine ⟨rfl, rfl, ?_⟩
    rintro l ⟨⟩
    rfl

theorem call_deallocate_live {p : Nat} (e : h.call build (.deallocate p) = some h') :
    h'.live = h.live.filter (·.addr ≠ p) := by
  obtain ⟨s, -, e⟩ := Option.bind_eq_some_iff.mp e
  cases e
  rfl

theorem perm_filter_addr {ls ls' : List Live} {l : Live} (hl : ls.Perm (l :: ls'))
    (hd : (l :: ls').Pairwise fun l l' => l.addr ≠ l'.addr) :
    (ls.filter (·.addr ≠ l.addr)).Perm ls' := by
  have hrest : ls'.filter (·.addr ≠ l.addr) = ls' := by
    refine List.filter_eq_self.mpr fun l' hl' => decide_eq_true ?_
    exact ((List.pairwise_cons.mp hd).1 l' hl').symm
  have hfiltered := hl.filter (·.addr ≠ l.addr)
  rwa [List.filter_cons_of_neg (by simp), hrest] at hfiltered

namespace Client

variable {κ : Type} {request : κ → Request} {m m' : Client κ}
  {entries : List (Entry κ)} {id : κ} {live : List κ}

structure Sound (request : κ → Request) (m : Client κ) : Prop where
  kept : m.heap.Kept
  live : m.heap.live.Perm (m.own.map (m.block request) ++ m.theirs)
  nodup : m.own.Nodup

theorem Sound.mem (hm : m.Sound request) (hid : id ∈ m.own) :
    m.block request id ∈ m.heap.live :=
  hm.live.mem_iff.mpr (List.mem_append_left _ (List.mem_map_of_mem hid))

theorem Sound.deallocate_theirs (hm : m.Sound request) {l : Live} (hl : l ∈ m.theirs)
    {heap : Heap} (e : m.heap.call build (.deallocate l.addr) = some heap) :
    Sound request { m with heap, theirs := m.theirs.filter (·.addr ≠ l.addr) } := by
  have hmem : l ∈ m.heap.live := hm.live.mem_iff.mpr (List.mem_append_right _ hl)
  refine ⟨hm.kept.step (c := .deallocate _) (.inr ⟨l, hmem, rfl⟩) trivial e, ?_, hm.nodup⟩
  have hapart := (List.pairwise_append.mp (hm.kept.distinct hm.live)).2.2
  have hown : (m.own.map (m.block request)).filter (·.addr ≠ l.addr) =
      m.own.map (m.block request) :=
    List.filter_eq_self.mpr fun b hb => decide_eq_true (hapart b hb l hl)
  have hfiltered := hm.live.filter (·.addr ≠ l.addr)
  rw [List.filter_append, hown] at hfiltered
  rw [call_deallocate_live e]
  exact hfiltered

theorem sound_boots {buffer : MemSpan} (hb : Bounded buffer) (hs : Boots build buffer h)
    (hn : h.alloc.blocksAmount < 2 ^ 31) (request : κ → Request) :
    Sound request { heap := h } := by
  obtain ⟨blocks, s, e, rfl⟩ := hs
  obtain ⟨cs, fs, hf⟩ := construct_spec e
  have ha := hf.alignable hb hn
  exact ⟨⟨⟨cs, fs, hf.inv hb ha, hf.coalesced⟩, hf.covered hb ha, hn⟩, .refl _, List.nodup_nil⟩

variable [DecidableEq κ]

theorem Serves.head {m₁ : Client κ} {entries' : List (Entry κ)}
    (hs : Step build request m entries m₁) (h : Serves build request m₁ entries' m') :
    Serves build request m (entries ++ entries') m' := by
  induction h with
  | refl => simpa using Serves.tail .refl hs
  | tail _ hstep ih =>
    rw [← List.append_assoc]
    exact ih.tail hstep

theorem serves_of_serve (h : entries.foldlM (serve build request) m = some m') :
    Serves build request m entries m' := by
  induction entries generalizing m with
  | nil =>
    cases h
    exact .refl
  | cons e entries ih =>
    obtain ⟨m₁, he, h⟩ := Option.bind_eq_some_iff.mp h
    exact (ih h).head (.own he)

theorem Sound.allocate (hm : m.Sound request) (hr : m.heap.Modest (.allocate (request id)))
    (hid : id ∉ m.own) (e : m.serve build request (.allocate id) = some m') :
    m'.Sound request ∧ m'.own = id :: m.own := by
  obtain ⟨⟨heap, _ | l⟩, hacquire, e⟩ := Option.bind_eq_some_iff.mp e
  · cases e
  cases e
  obtain ⟨hcall, hlive, hrequest⟩ := acquire_call hacquire
  have hkept := hm.kept.step (c := .allocate _) trivial hr hcall
  refine ⟨⟨hkept, ?_, List.nodup_cons.mpr ⟨hid, hm.nodup⟩⟩, rfl⟩
  have hnew : Client.block request { m with
      heap, own := id :: m.own, addr := update m.addr id l.addr } id = l := by
    simp only [block, update_self, ← hrequest l rfl]
  have hold : m.own.map (Client.block request { m with
      heap, own := id :: m.own, addr := update m.addr id l.addr }) =
      m.own.map (m.block request) := by
    refine List.map_congr_left fun id' hid' => ?_
    simp only [block, update_of_ne (fun heq : id' = id => hid (heq ▸ hid'))]
  rw [hlive, List.map_cons, hnew, hold]
  exact hm.live.cons l

theorem Sound.deallocate (hm : m.Sound request) (hid : id ∈ m.own)
    (e : m.serve build request (.deallocate id) = some m') :
    m'.Sound request ∧ m'.own = m.own.erase id := by
  obtain ⟨heap, hcall, e⟩ := Option.bind_eq_some_iff.mp e
  cases e
  have hlive : m.heap.live.Perm
      (m.block request id :: ((m.own.erase id).map (m.block request) ++ m.theirs)) :=
    hm.live.trans (((List.perm_cons_erase hid).map _).append_right _)
  have hkept := hm.kept.step (c := .deallocate _) (.inr ⟨_, hm.mem hid, rfl⟩) trivial hcall
  refine ⟨⟨hkept, ?_, hm.nodup.erase id⟩, rfl⟩
  rw [call_deallocate_live hcall]
  exact perm_filter_addr hlive (hm.kept.distinct hlive)

theorem Sound.step
    (hrequest : ∀ id, blockSize + (request id).size + (request id).alignment < 2 ^ 64)
    (hm : m.Sound request) (hs : Step build request m entries m')
    (hbal : balance m.own entries = some live) : m'.Sound request ∧ m'.own = live := by
  cases hs with
  | @own e _ hserve =>
    cases e with
    | allocate id =>
      rw [balance] at hbal
      split at hbal
      · cases hbal
      · rename_i hid
        cases hbal
        exact hm.allocate (hrequest id) hid hserve
    | deallocate id =>
      rw [balance] at hbal
      split at hbal
      · rename_i hid
        cases hbal
        exact hm.deallocate hid hserve
      · cases hbal
  | allocate hr hacquire =>
    cases hbal
    obtain ⟨hcall, hlive, -⟩ := acquire_call hacquire
    refine ⟨⟨hm.kept.step (c := .allocate _) trivial hr hcall, ?_, hm.nodup⟩, rfl⟩
    rw [hlive]
    exact (hm.live.append_left _).trans (List.perm_append_comm_assoc _ _ _)
  | deallocate hl hcall =>
    cases hbal
    exact ⟨hm.deallocate_theirs hl hcall, rfl⟩
  | write hcall =>
    cases hbal
    refine ⟨⟨hm.kept.step (c := .write _) trivial trivial hcall, ?_, hm.nodup⟩, rfl⟩
    cases hcall
    exact hm.live

theorem Sound.run
    (hrequest : ∀ id, blockSize + (request id).size + (request id).alignment < 2 ^ 64)
    (hm : m.Sound request) (hs : Serves build request m entries m')
    (hbal : balance m.own entries = some live) : m'.Sound request ∧ m'.own = live := by
  induction hs generalizing live with
  | refl =>
    cases hbal
    exact ⟨hm, rfl⟩
  | tail _ hstep ih =>
    rw [balance_append] at hbal
    obtain ⟨live₁, h₁, h₂⟩ := Option.bind_eq_some_iff.mp hbal
    obtain ⟨hm₁, rfl⟩ := ih h₁
    exact hm₁.step hrequest hstep h₂

structure GivesBack (build : Build) (request : κ → Request) (m : Client κ)
    (entries : List (Entry κ)) : Prop where
  owned : ∀ taken id rest m', entries = taken ++ .deallocate id :: rest →
    Serves build request m taken m' → m'.block request id ∈ m'.heap.live ∧
      ∃ heap, m'.heap.call build (.deallocate (m'.addr id)) = some heap
  returned : ∀ m', Serves build request m entries m' →
    m'.heap.live.Perm m'.theirs ∧ (m'.theirs = [] → Emptied m'.heap.alloc)

theorem Sound.givesBack
    (hrequest : ∀ id, blockSize + (request id).size + (request id).alignment < 2 ^ 64)
    (hsize : ∀ id, 0 < (request id).size) (hm : m.Sound request)
    (hbal : balance m.own entries = some []) : GivesBack build request m entries := by
  constructor
  · rintro taken id rest m' rfl hs
    rw [balance_append] at hbal
    obtain ⟨live, htaken, hrest⟩ := Option.bind_eq_some_iff.mp hbal
    obtain ⟨hm', rfl⟩ := hm.run hrequest hs htaken
    have hid : id ∈ m'.own := by
      rw [balance] at hrest
      split at hrest
      · assumption
      · cases hrest
    exact ⟨hm'.mem hid, hm'.kept.releases (hm'.mem hid) (hsize id)⟩
  · intro m' hs
    obtain ⟨hm', hown⟩ := hm.run hrequest hs hbal
    have hlive := hm'.live
    rw [hown] at hlive
    exact ⟨hlive, fun htheirs => hm'.kept.emptied (htheirs ▸ hlive).eq_nil⟩

end Client

end Corosig.Heap
