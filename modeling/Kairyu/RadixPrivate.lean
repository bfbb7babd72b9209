/-
  Kairyu/RadixPrivate.lean
  ========================
  **Private pages, the scratch page and session pins.**

  A single page is granted after at most one round of evictions, or refused with
  nothing changing hands.  A pin is one more holder of the matched path.
-/
import Kairyu.RadixRelease

namespace Kairyu

open Multiset

section Private

variable {c : RadixKVCache} {live : Multiset KVAllocation} {loose : Multiset PageId}
  {path : NodeId → List TokenId} {pagePath : NodeId → List PageId}

section

variable (h : Owned c live loose path pagePath)
include h

/-- Taking one page after room was made for it. -/
theorem Owned.takeOne (hroom : 1 ≤ c.numFreePages) :
    ∃ page pool, c.takeOne = (.ok page, { c with pool }) ∧
      Owned { c with pool } live (page ::ₘ loose) path pagePath := by
  obtain ⟨pages, pool, hrun, hlen, _, hcore⟩ := h.inv.core.takePages hroom
  obtain ⟨page, rfl⟩ := List.length_eq_one_iff.mp hlen
  have hledger : ledgerPages live (page ::ₘ loose) = ↑[page] + ledgerPages live loose := by
    rw [← singleton_add, ledgerPages_add]
    rfl
  rw [← hledger] at hcore
  refine ⟨page, pool, ?_, ⟨hcore, h.inv.pending, h.inv.eviction⟩, h.allocs⟩
  unfold RadixKVCache.takeOne
  rw [hrun]
  rfl

/-- The common part of `allocate_private_page` and `reserve_scratch_page`. -/
theorem Owned.onePage (error : KvError) :
    (∃ page c', ((c.ensureFree 1).andThen fun hasCapacity c =>
        if hasCapacity = false then (.error error, c) else c.takeOne) = (.ok page, c') ∧
      SameConfig c c' ∧ Keeps ∅ c c' ∧ Owned c' live (page ::ₘ loose) path pagePath) ∨
    (∃ c', ((c.ensureFree 1).andThen fun hasCapacity c =>
        if hasCapacity = false then (.error error, c) else c.takeOne) = (.error error, c') ∧
      SameConfig c c' ∧ Keeps ∅ c c' ∧ Owned c' live loose path pagePath) := by
  obtain ⟨b, c1, hrun, hconf, hnext, hshrink, hcore, hev, htrue⟩ :=
    h.inv.core.ensureFree h.inv.eviction 1
  have hkeeps := hshrink.keeps hnext ∅
  have howned : Owned c1 live loose path pagePath :=
    Owned.of_config hconf ⟨hcore, hshrink.pending h.inv.pending, hev⟩ h.allocs
  rw [hrun]
  cases b with
  | true =>
    left
    obtain ⟨page, pool, hrun2, howned2⟩ := howned.takeOne (htrue rfl)
    exact ⟨page, _, hrun2, hconf.trans ⟨⟨rfl, rfl, rfl⟩, rfl, rfl⟩, hkeeps.trans (Keeps.of_find rfl rfl), howned2⟩
  | false =>
    right
    exact ⟨c1, rfl, hconf, hkeeps, howned⟩

/-- **`allocate_private_page`** grants a page or reports that there is none. -/
theorem Owned.allocatePrivatePage :
    (∃ page c', c.allocatePrivatePage = (.ok page, c') ∧
      SameConfig c c' ∧ Keeps ∅ c c' ∧ Owned c' live (page ::ₘ loose) path pagePath) ∨
    (∃ c', c.allocatePrivatePage = (.error .noDecodePage, c') ∧
      SameConfig c c' ∧ Keeps ∅ c c' ∧ Owned c' live loose path pagePath) :=
  h.onePage .noDecodePage

theorem Owned.reserveScratchPage :
    (∃ page c', c.reserveScratchPage = (.ok page, c') ∧
      SameConfig c c' ∧ Keeps ∅ c c' ∧ Owned c' live (page ::ₘ loose) path pagePath) ∨
    (∃ c', c.reserveScratchPage = (.error .noScratchPage, c') ∧
      SameConfig c c' ∧ Keeps ∅ c c' ∧ Owned c' live loose path pagePath) :=
  h.onePage .noScratchPage

end

/-- **`free_private_pages`** returns loose pages. -/
theorem Owned.freePrivatePages {pages : List PageId} (h : Owned c live (↑pages + loose) path pagePath) :
    ∃ c', c.freePrivatePages pages = (.ok (), c') ∧ SameConfig c c' ∧ Keeps ∅ c c' ∧
      Owned c' live loose path pagePath := by
  have hcore : CoreInv c (live.map KVAllocation.node + c.pinNodes)
      (↑pages + ledgerPages live loose) path pagePath :=
    h.inv.core.owned_perm (ledgerPages_add live ↑pages loose).symm
  obtain ⟨pool, hrun, hcore'⟩ := hcore.freePages
  exact ⟨_, hrun, ⟨⟨rfl, rfl, rfl⟩, rfl, rfl⟩, Keeps.of_find rfl rfl, ⟨hcore', h.inv.pending, h.inv.eviction⟩,
    h.allocs⟩

/-- **`pin`** holds the matched prefix for a session. -/
theorem Owned.pin (h : Owned c live loose path pagePath) (session : SessionId)
    (tokens : List TokenId) (ttl : Option Int) : c.pin session tokens ttl = (.error (.alreadyPinned session), c) ∨
    (∃ c' path' pagePath', c.pin session tokens ttl = (.ok (), c') ∧
      SameArgs c c' ∧ Keeps ∅ c c' ∧ Owned c' live loose path' pagePath') := by
  unfold RadixKVCache.pin
  by_cases hmem : session ∈ c.pins
  · exact Or.inl (if_pos hmem)
  · right
    rw [if_neg hmem]
    obtain ⟨position, matched, i, c1, path1, pagePath1, hrun, w, hstore, _⟩ :=
      h.inv.matchAndLock tokens
    rw [hrun]
    have hnone : c1.pins.lookup session = none := by
      rw [hstore.config.pins]
      exact AList.lookup_eq_none.mpr hmem
    have hpins : ∀ entry : NodeId × Option Int, entry.1 = i →
        RadixKVCache.pinNodes { c1 with pins := c1.pins.insert session entry } =
          i ::ₘ c.pinNodes := by
      rintro entry rfl
      unfold RadixKVCache.pinNodes
      rw [AList.total_insert_new hnone, singleton_add, hstore.config.pins]
    have hallocs : ∀ a ∈ live, AllocOk c1.pageSize path1 pagePath1 a := fun a ha =>
      AllocOk.of_kept h.inv.core (mem_add.mpr (Or.inl (mem_map_of_mem _ ha))) hstore
        (h.allocs a ha)
    refine ⟨_, path1, pagePath1, rfl, ⟨hstore.config.pageSize, hstore.config.numPages, hstore.config.chain⟩,
      ⟨hstore.keeps.next_le, hstore.keeps.old⟩, ⟨?_, ?_, w.inv.eviction⟩, hallocs⟩
    · rw [hpins _ rfl, add_cons]
      exact w.inv.core.congr ⟨rfl, rfl, rfl⟩ rfl rfl rfl
    · rw [hpins _ rfl, add_cons]
      exact w.inv.pending

/-- **`unpin`** gives the session's lock back. -/
theorem Owned.unpin (h : Owned c live loose path pagePath) (session : SessionId) :
    c.unpin session = (.error (.notPinned session), c) ∨
    (∃ c', c.unpin session = (.ok (), c') ∧ SameArgs c c' ∧ Keeps ∅ c c' ∧ Owned c' live loose path pagePath) := by
  unfold RadixKVCache.unpin
  cases hpin : c.pins.lookup session with
  | none => exact Or.inl rfl
  | some entry =>
    right
    obtain ⟨c', hrun, hargs, hkeeps, _, _, howned⟩ := h.drop_pin hpin
    exact ⟨c', by rw [← hrun], hargs, hkeeps, howned⟩

end Private

end Kairyu
