import Corosig.Io.Dns.CacheContents
import Corosig.Io.Dns.ResolveName

namespace SortedKeys

variable {α κ : Type} [LinearOrder κ] {key : α → κ} {xs : List α} {e : α} {k : κ}

-- A descent of the tree ends at an element that it has compared, sorted or not.
def Search.Lands (search : Search κ) : Prop :=
  ∀ keys k x, keys[search.lowerBound keys k]? = some x → ¬x < k

theorem linear_lands : (linear : Search κ).Lands := by
  intro keys k x hx
  have hsplit : keys.takeWhile (· < k) ++ keys.dropWhile (· < k) = keys :=
    List.takeWhile_append_dropWhile
  have hget : (keys.takeWhile (· < k) ++ keys.dropWhile (· < k))[(keys.takeWhile (· < k)).length]? =
      (keys.dropWhile (· < k))[0]? := by
    rw [List.getElem?_append_right (Nat.le_refl _), Nat.sub_self]
  rw [hsplit] at hget
  have hhead : (keys.dropWhile (· < k)).head? = some x := by
    rw [List.head?_eq_getElem?, ← hget]
    exact hx
  have hnot := List.head?_dropWhile_not (fun e => decide (e < k)) keys
  rw [hhead] at hnot
  simpa using hnot

theorem find_lands {search : Search κ} (hs : search.Lands)
    (h : find search key xs k = some e) : e ∈ xs ∧ key e = k := by
  obtain ⟨hget, hk⟩ := Option.filter_eq_some_iff.mp h
  have hlands := hs (xs.map key) k (key e) (by
    rw [List.getElem?_map, show xs[search.lowerBound (xs.map key) k]? = some e from hget]
    rfl)
  exact ⟨List.mem_of_getElem? hget, le_antisymm (by simpa using hk) (not_lt.mp hlands)⟩

end SortedKeys

namespace Corosig.Dns
open SortedKeys

variable {V4 V6 : Type}

abbrev Source (V4 V6 : Type) : Type :=
  (f : IpFamily) → Text → ResolvedAddress (f.Addr V4 V6) → Prop

namespace MemoryCache

def Sourced (source : Source V4 V6) (c : MemoryCache V4 V6) : Prop :=
  ∀ e ∈ c.names, ∀ b ∈ e.ips, ∀ (f : IpFamily), ∀ ip ∈ f.family.ipSource b.ips,
    source f (lowercase e.name) ⟨ip, b.expiresAt⟩

variable {source source' : Source V4 V6} {search : Search Text} {order : AddrSort}
  {alloc : Nat → Bool} {now : Int} {asciiName : Text} {f : IpFamily} {c c' : MemoryCache V4 V6}

theorem sourced_empty : Sourced source ({} : MemoryCache V4 V6) := nofun

theorem Sourced.mono (h : Sourced source c)
    (hsub : ∀ f name addr, source f name addr → source' f name addr) : Sourced source' c :=
  fun e he b hb f ip hip => hsub _ _ _ (h e he b hb f ip hip)

theorem ipSource_own {f f' : IpFamily} {ips : List (f.Addr V4 V6)} {ip : f'.Addr V4 V6}
    (h : ip ∈ f'.family.ipSource (f.family.store ips)) :
    ∃ heq : f' = f, heq ▸ ip ∈ ips := by
  cases f <;> cases f'
  · exact ⟨rfl, h⟩
  · cases h
  · cases h
  · exact ⟨rfl, h⟩

theorem sourced_nodes {parent id : Nat} {addrs : List (ResolvedAddress (f.Addr V4 V6))}
    {nodes : List (AddrStorage V4 V6)} (hname : ∀ a ∈ addrs, source f asciiName a)
    (hsorted : addrs.Pairwise fun lhs rhs => lhs.expiresAt ≤ rhs.expiresAt)
    (h : makeAddrs f.family alloc parent id (groups addrs) = some nodes) :
    ∀ b ∈ nodes, ∀ (f' : IpFamily), ∀ ip ∈ f'.family.ipSource b.ips,
      source f' asciiName ⟨ip, b.expiresAt⟩ := by
  intro b hb f' ip hip
  have hblock : b.block ∈ (groups addrs).map fun g => (g.1, f.family.store g.2) :=
    makeAddrs_blocks h ▸ List.mem_map_of_mem hb
  obtain ⟨g, hg, heq⟩ := List.mem_map.mp hblock
  obtain ⟨hexpires, hips⟩ := Prod.mk.inj heq
  rw [← hips] at hip
  obtain ⟨rfl, hip⟩ := ipSource_own hip
  rw [← hexpires]
  have hmem : (⟨ip, g.1⟩ : ResolvedAddress (f'.Addr V4 V6)) ∈ (groups addrs).flatMap ungroup :=
    List.mem_flatMap.mpr ⟨g, hg, List.mem_map_of_mem hip⟩
  rw [groups_flatten hsorted] at hmem
  exact hname _ hmem

theorem Sourced.push (h : Sourced source c) (hw : WellLinked c)
    {addrs : List (ResolvedAddress (f.Addr V4 V6))}
    (hname : ∀ a ∈ addrs, now < a.expiresAt → source f (lowercase asciiName) a)
    (hp : c.push search order f.family alloc now asciiName addrs = some c') :
    Sourced source c' := by
  obtain ⟨parent, named, nodes, hstore, hnodes, rfl⟩ := push_cases hp
  obtain ⟨hconsistent, -, -, -, hmem, -⟩ := hw.nameStore hstore
  have hnew : ∀ b ∈ nodes, ∀ (f' : IpFamily), ∀ ip ∈ f'.family.ipSource b.ips,
      source f' (lowercase asciiName) ⟨ip, b.expiresAt⟩ := by
    refine sourced_nodes (fun a ha => ?_) (order.sorted _) hnodes
    obtain ⟨ha, hlive⟩ := List.mem_filter.mp ((order.perm _).mem_iff.mp ha)
    exact hname a ha (of_decide_eq_true hlive)
  obtain ⟨e₀, he₀, hid₀, hname₀⟩ : ∃ e ∈ named.names, e.id = parent ∧
      lowercase e.name = lowercase asciiName := by
    rcases nameStore_cases hstore with ⟨e, he, rfl, rfl, rfl⟩ | ⟨-, rfl, rfl⟩
    · exact ⟨e, he, rfl, rfl⟩
    · exact ⟨_, mem_insertIdx_lowerBound.mpr (.inl rfl), rfl, lowercase_lowercase asciiName⟩
  intro e' he' b hb f' ip hip
  obtain ⟨e, he, rfl⟩ := List.mem_map.mp he'
  have hold : ∀ b ∈ e.ips, ∀ (f' : IpFamily), ∀ ip ∈ f'.family.ipSource b.ips,
      source f' (lowercase e.name) ⟨ip, b.expiresAt⟩ := by
    obtain he | ⟨hnil, -⟩ := hmem e he
    · exact h e he
    · rw [hnil]
      nofun
  rw [NameStorage.pushFront] at hb ⊢
  split at hb
  · rename_i hid
    rw [if_pos hid]
    obtain rfl := List.inj_on_of_nodup_map hconsistent.nameIds he he₀ (hid.trans hid₀.symm)
    obtain hb | hb := List.mem_append.mp hb
    · rw [hname₀]
      exact hnew b (List.mem_reverse.mp hb) f' ip hip
    · exact hold b hb f' ip hip
  · rename_i hid
    rw [if_neg hid]
    exact hold b hb f' ip hip

theorem expire_drops {addrs : List (AddrStorage V4 V6)} {names : List (NameStorage V4 V6)}
    {e' : NameStorage V4 V6} (h : e' ∈ (expire now addrs names).2) :
    ∃ e ∈ names, e'.name = e.name ∧ ∀ b ∈ e'.ips, b ∈ e.ips := by
  induction addrs generalizing names with
  | nil => exact ⟨e', h, rfl, fun _ hb => hb⟩
  | cons a addrs ih =>
    rw [expire] at h
    split at h
    · obtain ⟨e₁, he₁, hname, hips⟩ := ih h
      obtain ⟨e, he, hunlink⟩ := List.mem_filterMap.mp he₁
      refine ⟨e, he, hname.trans (NameStorage.unlink_keys hunlink).2, fun b hb => ?_⟩
      have hb₁ := hips b hb
      rw [NameStorage.unlink] at hunlink
      split at hunlink
      · simp only at hunlink
        split at hunlink
        · cases hunlink
        · cases hunlink
          exact (List.mem_filter.mp hb₁).1
      · cases hunlink
        exact hb₁
    · exact ⟨e', h, rfl, fun _ hb => hb⟩

theorem Sourced.prune (h : Sourced source c) (now : Int) : Sourced source (c.prune now) := by
  intro e' he' b hb f ip hip
  obtain ⟨e, he, hname, hips⟩ := expire_drops he'
  rw [hname]
  exact h e he b (hips b hb) f ip hip

theorem mem_pullFrom {fam : Family V4 V6 (f.Addr V4 V6)} {out : Nat}
    {addrs : List (AddrStorage V4 V6)} {a : ResolvedAddress (f.Addr V4 V6)}
    (h : a ∈ pullFrom fam now out addrs) :
    ∃ b ∈ addrs, now < a.expiresAt ∧ a.expiresAt = b.expiresAt ∧
      a.address ∈ fam.ipSource b.ips := by
  rw [pullFrom_eq, readBlocks] at h
  obtain ⟨block, hblock, ha⟩ := List.mem_flatMap.mp (List.mem_of_mem_take h)
  obtain ⟨hblock, hlive⟩ := List.mem_filter.mp hblock
  obtain ⟨b, hb, rfl⟩ := List.mem_map.mp hblock
  obtain ⟨ip, hip, rfl⟩ := List.mem_map.mp ha
  exact ⟨b, hb, of_decide_eq_true hlive, rfl, hip⟩

theorem Sourced.pull (h : Sourced source c) (hs : search.Lands) {out : Nat}
    {a : ResolvedAddress (f.Addr V4 V6)} (ha : a ∈ c.pull search f.family now asciiName out) :
    now < a.expiresAt ∧ source f (lowercase asciiName) a := by
  rw [MemoryCache.pull] at ha
  split at ha
  · rename_i e he
    rw [lookup] at he
    split at he
    · cases he
    · obtain ⟨hmem, hname⟩ := find_lands hs he
      obtain ⟨b, hb, hlive, hexpires, hip⟩ := mem_pullFrom ha
      have hsource := h e hmem b hb f a.address hip
      rw [hname, lowercase_lowercase, ← hexpires] at hsource
      exact ⟨hlive, hsource⟩
  · cases ha

end MemoryCache

end Corosig.Dns
