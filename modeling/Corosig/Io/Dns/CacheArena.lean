import Corosig.Container.HeapClient
import Corosig.Io.Dns.CacheLedger

namespace Corosig.Dns.MemoryCache
open AllocationLedger Heap SortedKeys

variable {V4 V6 : Type}

-- The destructor runs no destructors: the blocks go first, then the names they were linked to.
def destroyEntries (c : MemoryCache V4 V6) : List (Entry Nat) :=
  c.addrsByExpireTime.map (fun addr => .deallocate addr.id) ++
    c.names.map fun name => .deallocate name.id

def lifetime (search : Search Text) (order : AddrSort) (history : List (CacheCall V4 V6)) :
    List (Entry Nat) :=
  entriesOf search order {} history ++ (afterCalls search order {} history).destroyEntries

theorem destroyEntries_balances (c : MemoryCache V4 V6) : Balances c.held c.destroyEntries [] := by
  have hheld : c.held.Perm (c.addrsByExpireTime.map (·.id) ++ (c.names.map (·.id) ++ [])) := by
    rw [List.append_nil]
    exact List.perm_append_comm
  have haddrs := balances_deallocate hheld
  have hnames := balances_deallocate (.refl (c.names.map (·.id) ++ []))
  rw [List.map_map] at haddrs hnames
  exact haddrs.append hnames

theorem lifetime_balances (search : Search Text) (order : AddrSort)
    (history : List (CacheCall V4 V6)) : balance [] (lifetime search order history) = some [] :=
  ((entriesOf_balances search order wellLinked_empty history).append
    (destroyEntries_balances _)).eq_nil

theorem arena_given_back {build : Build} {buffer : MemSpan} {h : Heap}
    {request : Nat → Corosig.Request} (hb : Bounded buffer) (hs : Boots build buffer h)
    (hn : h.alloc.blocksAmount < 2 ^ 31)
    (hrequest : ∀ id, blockSize + (request id).size + (request id).alignment < 2 ^ 64)
    (hsize : ∀ id, 0 < (request id).size) (search : Search Text) (order : AddrSort)
    (history : List (CacheCall V4 V6)) :
    Client.GivesBack build request { heap := h } (lifetime search order history) :=
  (Client.sound_boots hb hs hn request).givesBack hrequest hsize
    (lifetime_balances search order history)

def onePush : List (CacheCall Nat Nat) := [.push (fun _ => true) 0 [97] (.v4 [⟨5, 9⟩])]

example : lifetime linear byExpireTime onePush =
    [.allocate 0, .allocate 1, .allocate 2, .deallocate 1, .deallocate 2, .deallocate 0] := by
  decide +kernel

def fortyBytes : Nat → Corosig.Request := fun _ => ⟨40, 3, by decide, by decide⟩

theorem arena_given_back_push : ∃ h m, Boots .debug ⟨4096, 512⟩ h ∧
    Client.Serves .debug fortyBytes { heap := h } (lifetime linear byExpireTime onePush) m ∧
    m.theirs = [] ∧ Emptied m.heap.alloc := by
  have e : ((Allocator.construct .debug ⟨4096, 512⟩ fun _ => ⟨0, false, 0, 0, 0⟩).bind fun s =>
      ((lifetime linear byExpireTime onePush).foldlM
        (Client.serve .debug fortyBytes) { heap := { alloc := s } }).map fun m =>
          (s.blocksAmount, m.theirs.length)) =
      some (32, 0) := by
    decide +kernel
  simp only [Option.bind_eq_some_iff, Option.map_eq_some_iff, Prod.mk.injEq] at e
  obtain ⟨s, e, m, hserve, hn, htheirs⟩ := e
  have hs : Boots .debug ⟨4096, 512⟩ { alloc := s } := ⟨_, s, e, rfl⟩
  have hb : Bounded ⟨4096, 512⟩ := show 4096 + 512 < 2 ^ 64 by decide
  have hrequest (id : Nat) :
      blockSize + (fortyBytes id).size + (fortyBytes id).alignment < 2 ^ 64 :=
    show 16 + 40 + 2 ^ 3 < 2 ^ 64 by decide
  have hsize (id : Nat) : 0 < (fortyBytes id).size := show 0 < 40 by decide
  have hgives := arena_given_back hb hs (hn ▸ by decide) hrequest hsize linear byExpireTime onePush
  have hserves := Client.serves_of_serve hserve
  have hnone := List.length_eq_zero_iff.mp htheirs
  exact ⟨_, m, hs, hserves, hnone, (hgives.returned m hserves).2 hnone⟩

end Corosig.Dns.MemoryCache
