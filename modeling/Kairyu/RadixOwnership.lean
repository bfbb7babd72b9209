/-
  Kairyu/RadixOwnership.lean
  ==========================
  **What a caller of the cache owns, call by call.**

  `live` are the allocations handed out and not yet released, `loose` the private
  and scratch pages handed out and not yet returned.  `Owned c live loose` says
  that these, the tree and the free list share out all pages, and that refcounts
  count the live allocations and the pins.  Every public call keeps it, with the
  ledger changed as the call's contract says; none of them raises unless the
  caller asks for more pages than there are or names a session wrongly.
-/
import Kairyu.RadixWalk

namespace Kairyu

open Multiset KVAllocation

/-! ### The ledger -/

namespace KVAllocation

/-- New full pages that could not be inserted into the tree. -/
def outsidePages (a : KVAllocation) : List PageId :=
  if a.treeInserted then [] else a.newFullPages

/-- The pages an allocation owns outside the tree. -/
def privatePages (a : KVAllocation) : List PageId := a.tailPage.toList ++ a.outsidePages

end KVAllocation

/-- A live allocation describes its node: the node's path is the prompt as far as
    it is in the tree, and the page counts fit the prompt. -/
structure AllocOk (pageSize : Nat) (path : NodeId → List TokenId)
    (pagePath : NodeId → List PageId) (a : KVAllocation) : Prop where
  notFreed : a.freed = false
  size : a.pageSize = pageSize
  full : a.cachedPages.length + a.newFullPages.length = a.tokens.length / pageSize
  tail : a.tailPage.toList.length = if a.tokens.length % pageSize = 0 then 0 else 1
  tokens : path a.node = a.tokens.take ((pagePath a.node).length * pageSize)
  pages : pagePath a.node = a.cachedPages ++ if a.treeInserted then a.newFullPages else []

/-- Some live allocation inserted node `i` with these pages. -/
def Owner (live : Multiset KVAllocation) (i : NodeId) (pages : List PageId) : Prop :=
  ∃ a ∈ live, a.node = i ∧ a.treeInserted = true ∧ a.newFullPages = pages

/-- The nodes held by session pins. -/
def RadixKVCache.pinNodes (c : RadixKVCache) : Multiset NodeId :=
  c.pins.total fun pin => ({pin.1} : Multiset NodeId)

/-- The pages of the ledger: private pages of live allocations, and loose pages. -/
def ledgerPages (live : Multiset KVAllocation) (loose : Multiset PageId) : Multiset PageId :=
  (live.map fun a => (a.privatePages : Multiset PageId)).sum + loose

structure Owned (c : RadixKVCache) (live : Multiset KVAllocation) (loose : Multiset PageId)
    (path : NodeId → List TokenId) (pagePath : NodeId → List PageId) : Prop where
  inv : CacheInv c (Owner live) (live.map node + c.pinNodes)
    (ledgerPages live loose) path pagePath
  allocs : ∀ a ∈ live, AllocOk c.pageSize path pagePath a

variable {c c' : RadixKVCache}

theorem SameConfig.pinNodes (h : SameConfig c c') : c'.pinNodes = c.pinNodes := by
  unfold RadixKVCache.pinNodes
  rw [h.pins]

variable {live : Multiset KVAllocation}

/-- The ledger of a state whose pins and arguments are those of `c`. -/
theorem Owned.of_config {loose : Multiset PageId} {path : NodeId → List TokenId} {pagePath : NodeId → List PageId}
    (hconf : SameConfig c c') (hinv : CacheInv c' (Owner live)
      (live.map node + c.pinNodes) (ledgerPages live loose) path pagePath)
    (hallocs : ∀ a ∈ live, AllocOk c.pageSize path pagePath a) : Owned c' live loose path pagePath := by
  rw [← hconf.pinNodes] at hinv
  rw [← hconf.pageSize] at hallocs
  exact ⟨hinv, hallocs⟩

theorem ledgerPages_cons (a : KVAllocation) (live : Multiset KVAllocation) (loose : Multiset PageId) :
    ledgerPages (a ::ₘ live) loose = ↑a.privatePages + ledgerPages live loose := by
  unfold ledgerPages
  rw [map_cons, sum_cons, add_assoc]

theorem ledgerPages_add (live : Multiset KVAllocation) (pages loose : Multiset PageId) :
    ledgerPages live (pages + loose) = pages + ledgerPages live loose := by
  unfold ledgerPages
  abel

theorem Owner.mono {live' : Multiset KVAllocation} (h : ∀ a ∈ live, a ∈ live') {i : NodeId}
    {pages : List PageId} (ho : Owner live i pages) : Owner live' i pages := by
  obtain ⟨a, ha, hrest⟩ := ho
  exact ⟨a, h a ha, hrest⟩

theorem Owner.mem_map {i : NodeId} {pages : List PageId} (ho : Owner live i pages) : i ∈ live.map node := by
  obtain ⟨a, ha, rfl, _⟩ := ho
  exact mem_map_of_mem _ ha

/-! ### Giving up a holder -/

/-- A holder other than the owners can leave without anybody else noticing. -/
theorem PendingInv.drop_holder {k : NodeId} {holders : Multiset NodeId}
    {owner : NodeId → List PageId → Prop} {Y : Set NodeId}
    (h : PendingInv c.find (k ::ₘ holders) owner Y) (hnodes : SameNodes c c')
    (howner : ∀ j pages, owner j pages → j ∈ holders) : PendingInv c'.find holders owner Y := by
  intro j m hj hf hY
  obtain ⟨m', hm', heq⟩ := hnodes.symm.find hj
  obtain ⟨_, hpages, hchildren, _, hmc⟩ := Node.unref_eq heq
  obtain ⟨hleaf, hcount, hown⟩ := h j m' hm' (hmc.trans hf) hY
  have hmem := count_pos.mpr (howner _ _ hown)
  have hjk : j ≠ k := by
    rintro rfl
    rw [count_cons_self] at hcount
    omega
  rw [count_cons_of_ne hjk] at hcount
  rw [← hchildren, ← hpages]
  exact ⟨hleaf, hcount, hown⟩

section Release

variable {c : RadixKVCache} {live : Multiset KVAllocation} {holders : Multiset NodeId}
  {owned loose : Multiset PageId} {path : NodeId → List TokenId}
  {pagePath : NodeId → List PageId} {a : KVAllocation} {n : Node}

/-- Dropping an extra holder of a walk or a pin. -/
theorem CacheInv.unlockPath {owner : NodeId → List PageId → Prop} {k : NodeId}
    (h : CacheInv c owner (k ::ₘ holders) owned path pagePath) (howner : ∀ j pages, owner j pages → j ∈ holders) :
    SameStore c (c.unlockPath k) path path pagePath pagePath ∧ SameNodes c (c.unlockPath k) ∧
      CacheInv (c.unlockPath k) owner holders owned path pagePath := by
  obtain ⟨c', hrun, hconf, hpool, hnext, _, hnodes, hcore, hev⟩ := h.core.unlockPath h.eviction
  rw [hrun]
  exact ⟨SameStore.of_sameNodes hconf hpool hnext hnodes, hnodes, hcore, h.pending.drop_holder hnodes howner, hev⟩

/-- An uncomputed node of a live allocation is that allocation's own insertion. -/
theorem Owned.own_node (h : Owned c (a ::ₘ live) loose path pagePath)
    (hn : c.find a.node = some n) (hf : n.computed = false) :
    a.treeInserted = true ∧ a.newFullPages = n.pages ∧ n.children.entries = [] ∧
      a.node ∉ live.map node + c.pinNodes := by
  obtain ⟨hleaf, hcount, a', ha', hnode, hins, hpages⟩ :=
    h.inv.pending a.node n hn hf (Set.notMem_empty _)
  rw [map_cons, cons_add, count_cons_self, Nat.add_eq_right] at hcount
  have hnot : a.node ∉ live.map node + c.pinNodes :=
    count_eq_zero.mp hcount
  have haa : a' = a := by
    rcases mem_cons.mp ha' with rfl | hlive
    · rfl
    · exact absurd (mem_add.mpr (Or.inl (hnode ▸ mem_map_of_mem _ hlive))) hnot
  subst haa
  exact ⟨hins, hpages, hleaf, hnot⟩

end Release

/-! ### Pins -/

section Pins

variable {c : RadixKVCache} {live : Multiset KVAllocation} {loose : Multiset PageId}
  {path : NodeId → List TokenId} {pagePath : NodeId → List PageId}

variable (h : Owned c live loose path pagePath)
include h

/-- The allocation counter, hit statistics and event log are not part of the ledger. -/
theorem Owned.congr {c' : RadixKVCache} (hargs : SameArgs c c') (hpool : c'.pool = c.pool) (hnodes : c'.nodes = c.nodes)
    (hnext : c'.nextNode = c.nextNode) (hpins : c'.pins = c.pins)
    (hev : c'.eviction = c.eviction) : Owned c' live loose path pagePath := by
  have hfind : c'.find = c.find := by
    unfold RadixKVCache.find
    rw [hnodes]
  have hpinNodes : c'.pinNodes = c.pinNodes := by
    unfold RadixKVCache.pinNodes
    rw [hpins]
  refine ⟨⟨?_, ?_, ?_⟩, ?_⟩
  · rw [hpinNodes]
    exact h.inv.core.congr hargs hpool hnodes hnext
  · rw [hfind, hpinNodes]
    exact h.inv.pending
  · have hsame : c'.isEvictable = c.isEvictable := by
      funext j
      exact RadixKVCache.isEvictable_congr (by rw [hfind])
    rw [hev, hsame]
    exact h.inv.eviction
  · rw [hargs.pageSize]
    exact h.allocs

/-- Removing a pin unlocks its path. -/
theorem Owned.drop_pin {session : SessionId} {entry : NodeId × Option Int} (hpin : c.pins.lookup session = some entry) :
    ∃ c', { c with pins := c.pins.erase session }.unlockPath entry.1 = c' ∧ SameArgs c c' ∧
      Keeps ∅ c c' ∧ c'.pins = c.pins.erase session ∧ SameNodes c c' ∧ Owned c' live loose path pagePath := by
  let c1 : RadixKVCache := { c with pins := c.pins.erase session }
  have hpins : c.pinNodes = entry.1 ::ₘ c1.pinNodes := by
    unfold RadixKVCache.pinNodes
    rw [AList.total_eq_of_lookup hpin, singleton_add]
  have hinv : CacheInv c1 (Owner live)
      (entry.1 ::ₘ (live.map node + c1.pinNodes)) (ledgerPages live loose)
      path pagePath := by
    have h0 := h.inv
    rw [hpins, add_cons] at h0
    exact ⟨h0.core.congr ⟨rfl, rfl, rfl⟩ rfl rfl rfl, h0.pending, h0.eviction⟩
  obtain ⟨hstore, hnodes, hinv'⟩ := hinv.unlockPath fun j pages ho =>
    mem_add.mpr (Or.inl ho.mem_map)
  exact ⟨c1.unlockPath entry.1, rfl, ⟨hstore.config.pageSize, hstore.config.numPages, hstore.config.chain⟩,
    ⟨hstore.keeps.next_le, hstore.keeps.old⟩, hstore.config.pins, hnodes,
    Owned.of_config hstore.config hinv' h.allocs⟩

/-- **`_expire_pins`** only gives up pins. -/
theorem Owned.expirePins : SameArgs c c.expirePins ∧ Keeps ∅ c c.expirePins ∧ SameNodes c c.expirePins ∧
      Owned c.expirePins live loose path pagePath := by
  -- by induction on the sessions still to expire, all of them still pinned
  have hfold : ∀ (expired : List ((_ : SessionId) × (NodeId × Option Int))) (c : RadixKVCache),
      expired.NodupKeys → (∀ e ∈ expired, c.pins.lookup e.1 = some e.2) →
      Owned c live loose path pagePath →
      ∃ c', expired.foldl (fun c entry =>
        { c with pins := c.pins.erase entry.1 }.unlockPath entry.2.1) c = c' ∧ SameArgs c c' ∧
        Keeps ∅ c c' ∧ SameNodes c c' ∧ Owned c' live loose path pagePath := by
    intro expired
    induction expired with
    | nil =>
      intro c _ _ h
      exact ⟨c, rfl, SameArgs.refl c, Keeps.refl ∅ c, SameNodes.refl c, h⟩
    | cons e expired ih =>
      intro c hnodup hmem h
      rw [List.nodupKeys_cons] at hnodup
      obtain ⟨c1, hrun, hargs, hkeeps, hpins, hnodes, howned⟩ :=
        h.drop_pin (hmem e List.mem_cons_self)
      have hmem1 : ∀ e' ∈ expired, c1.pins.lookup e'.1 = some e'.2 := by
        intro e' he'
        have hne : e'.1 ≠ e.1 := fun heq =>
          hnodup.1 (heq ▸ List.mem_keys_of_mem he')
        rw [hpins, AList.lookup_erase_ne hne]
        exact hmem e' (List.mem_cons_of_mem _ he')
      obtain ⟨c', hloop, hargs', hkeeps', hnodes', howned'⟩ := ih c1 hnodup.2 hmem1 howned
      refine ⟨c', ?_, hargs.trans hargs', hkeeps.trans hkeeps', hnodes.trans hnodes', howned'⟩
      rw [List.foldl_cons, hrun]
      exact hloop
  have hnodup : (c.pins.entries.reverse.filter fun entry =>
      entry.2.2.any fun expiry => decide (expiry ≤ (c.allocTick : Int))).NodupKeys :=
    List.NodupKeys.sublist List.filter_sublist
      ((List.perm_nodupKeys (List.reverse_perm _)).mpr c.pins.nodupKeys)
  obtain ⟨c', hloop, hrest⟩ := hfold _ c hnodup (fun e he =>
    AList.mem_entries_iff.mp (List.mem_reverse.mp (List.mem_of_mem_filter he))) h
  have hrun : c.expirePins = c' := hloop
  rw [hrun]
  exact hrest

end Pins

theorem mem_treePages {page : PageId} : page ∈ c.treePages ↔ ∃ i n, c.find i = some n ∧ page ∈ n.pages :=
  AList.mem_total

end Kairyu
