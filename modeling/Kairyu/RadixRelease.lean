/-
  Kairyu/RadixRelease.lean
  ========================
  **The calls that give pages back**: `mark_computed`, `free`,
  `commit_and_release` and `release_preempted`.

  A release gives up the allocation's lock and returns every page the ledger
  charges to it, except those that stay in the tree.
-/
import Kairyu.RadixAllocate

namespace Kairyu

open Function Multiset KvResult
open KVAllocation (node outsidePages privatePages)

section Mark

variable {c : RadixKVCache} {live : Multiset KVAllocation} {holders : Multiset NodeId}
  {owned loose : Multiset PageId} {path : NodeId → List TokenId}
  {pagePath : NodeId → List PageId} {a : KVAllocation} {i : NodeId} {n : Node}

/-- `_emit_stored` only appends to the event log. -/
theorem emitStored_eq (c : RadixKVCache) (i : NodeId) :
    c.emitStored i = { c with events := (c.emitStored i).events } := by
  unfold RadixKVCache.emitStored
  split
  · rfl
  · rfl

/-- Whether or not it has to write the flag, `mark_computed` leaves the
    allocation's node computed, and nothing pending there. -/
theorem markComputed_core (h : CoreInv c holders owned path pagePath)
    (hpend : PendingInv c.find holders (Owner live) {a.node})
    (hev : EvictionInv c.eviction c.isEvictable ∅) (hn : c.find a.node = some n)
    (hmark : n.computed = false → a.treeInserted = true ∧ a.newFullPages ≠ []) :
    ∃ c', c.markComputed a = c' ∧ SameConfig c c' ∧ c'.nextNode = c.nextNode ∧
      c'.find = update c.find a.node (some { n with computed := true }) ∧
      CoreInv c' holders owned path pagePath ∧ PendingInv c'.find holders (Owner live) ∅ ∧
      EvictionInv c'.eviction c'.isEvictable ∅ := by
  -- the two branches produce the same node store
  have hstore : ∀ c' : RadixKVCache, c'.find = update c.find a.node (some { n with computed := true }) →
      c'.eviction = c.eviction →
      PendingInv c'.find holders (Owner live) ∅ ∧ EvictionInv c'.eviction c'.isEvictable ∅ := by
    intro c' hfind hevict
    refine ⟨?_, ?_⟩
    · intro j m hj hf _
      rw [hfind] at hj
      rcases of_update_some hj with ⟨rfl, rfl⟩ | ⟨hja, hj⟩
      · cases hf
      · exact hpend j m hj hf hja
    · have hsame : c'.isEvictable = c.isEvictable := by
        funext j
        by_cases hja : j = a.node
        · subst hja
          rw [RadixKVCache.isEvictable_of_find hn, RadixKVCache.isEvictable_of_find (by rw [hfind, update_self])]
        · exact RadixKVCache.isEvictable_congr (by rw [hfind, update_of_ne hja])
      rw [hevict, hsame]
      exact hev
  unfold RadixKVCache.markComputed
  rw [RadixKVCache.node_of_find hn]
  by_cases hcond : a.treeInserted = true ∧ a.newFullPages ≠ [] ∧ n.computed = false
  · rw [if_pos hcond, emitStored_eq]
    generalize (c.emitStored a.node).events = events
    have hcore : CoreInv { c with events } holders owned path pagePath := h.congr ⟨rfl, rfl, rfl⟩ rfl rfl rfl
    have hfind := RadixKVCache.find_modifyNode hn fun n => { n with computed := true }
    obtain ⟨hpend', hev'⟩ := hstore _ hfind rfl
    exact ⟨_, rfl, ⟨⟨rfl, rfl, rfl⟩, rfl, rfl⟩, rfl, hfind, hcore.mark hn, hpend', hev'⟩
  · rw [if_neg hcond]
    have hcomp : n.computed = true := by
      cases hc : n.computed with
      | true => rfl
      | false =>
        obtain ⟨hins, hne⟩ := hmark hc
        exact absurd ⟨hins, hne, hc⟩ hcond
    have hfind : c.find = update c.find a.node (some { n with computed := true }) := by
      have hself : ({ n with computed := true } : Node) = n := by rw [← hcomp]
      rw [hself, ← hn, update_eq_self]
    obtain ⟨hpend', hev'⟩ := hstore c hfind rfl
    exact ⟨c, rfl, SameConfig.refl c, rfl, hfind, h, hpend', hev'⟩

/-- The root is computed, so a pending node has a parent. -/
theorem CoreInv.ne_root_of_pending (h : CoreInv c holders owned path pagePath)
    (hi : c.find i = some n) (hf : n.computed = false) : i ≠ rootId := by
  obtain ⟨r, hr, _, _, _, hcomp⟩ := h.tree.root
  exact RadixKVCache.ne_of_computed hr hcomp hi hf

variable (h : Owned c (a ::ₘ live) loose path pagePath)
include h

/-- Splitting off one allocation from the ledger. -/
theorem Owned.core_cons : CoreInv c (a.node ::ₘ (live.map node + c.pinNodes))
      (↑a.outsidePages + (↑a.tailPage.toList + ledgerPages live loose)) path pagePath := by
  have hcore := h.inv.core
  rw [ledgerPages_cons, map_cons, cons_add] at hcore
  refine hcore.owned_perm ?_
  unfold privatePages
  rw [← coe_add]
  abel

theorem Owned.pending_cons (Y : Set NodeId) :
    PendingInv c.find (a.node ::ₘ (live.map node + c.pinNodes)) (Owner (a ::ₘ live)) Y := by
  intro j m hj hf _
  have hpend := h.inv.pending j m hj hf (Set.notMem_empty j)
  rw [map_cons, cons_add] at hpend
  exact hpend

theorem Owned.node_of_cons : ∃ n, c.find a.node = some n ∧
      (n.computed = false → a.treeInserted = true ∧ a.newFullPages ≠ []) := by
  obtain ⟨n, hn⟩ := h.core_cons.held a.node (mem_cons_self _ _)
  refine ⟨n, hn, fun hf => ?_⟩
  obtain ⟨hins, hpages, _, _⟩ := h.own_node hn hf
  rw [hpages]
  exact ⟨hins, (h.inv.core.tree.shape _ _ hn (h.inv.core.ne_root_of_pending hn hf)).1⟩

/-- **`mark_computed`** keeps the ledger. -/
theorem Owned.markComputed : SameConfig c (c.markComputed a) ∧ Keeps {a.node} c (c.markComputed a) ∧
      Owned (c.markComputed a) (a ::ₘ live) loose path pagePath := by
  obtain ⟨n, hn, hmark⟩ := h.node_of_cons
  obtain ⟨c', hrun, hconf, hnext, hfind, hcore, hpend, hev⟩ :=
    markComputed_core h.inv.core (fun j m hj hf _ => h.inv.pending j m hj hf (Set.notMem_empty j))
      h.inv.eviction hn hmark
  rw [hrun]
  exact ⟨hconf, Keeps.of_mark hn hnext hfind, Owned.of_config hconf ⟨hcore, hpend, hev⟩ h.allocs⟩

end Mark

/-! ### Releasing an allocation -/

section Release

variable {c : RadixKVCache} {live : Multiset KVAllocation} {holders : Multiset NodeId}
  {owned loose : Multiset PageId} {path : NodeId → List TokenId}
  {pagePath : NodeId → List PageId} {a : KVAllocation} {n : Node}

/-- Only its own node is charged to an allocation. -/
theorem Owner.of_cons {i : NodeId} {pages : List PageId} (h : Owner (a ::ₘ live) i pages) (hne : i ≠ a.node) :
    Owner live i pages := by
  obtain ⟨b, hb, hnode, hrest⟩ := h
  rcases mem_cons.mp hb with rfl | hb
  · exact absurd hnode.symm hne
  · exact ⟨b, hb, hnode, hrest⟩

theorem outsidePages_inserted (h : a.treeInserted = true) : a.outsidePages = [] := by
  unfold outsidePages
  rw [h]
  rfl

theorem outsidePages_private (h : a.treeInserted = false) : a.outsidePages = a.newFullPages := by
  unfold outsidePages
  rw [h]
  rfl

theorem outsidePages_none (h : a.newFullPages = []) : a.outsidePages = [] := by
  unfold outsidePages
  rw [h]
  exact ite_self _

/-- **`_release`**: the node becomes computed, the lock goes, and full pages that
    never entered the tree return to the pool. -/
theorem release_core (h : CoreInv c (a.node ::ₘ holders) (↑a.outsidePages + owned) path pagePath)
    (hpend : PendingInv c.find (a.node ::ₘ holders) (Owner (a ::ₘ live)) {a.node})
    (hev : EvictionInv c.eviction c.isEvictable ∅) (hn : c.find a.node = some n)
    (hmark : n.computed = false → a.treeInserted = true ∧ a.newFullPages ≠ []) (hlive : ∀ b ∈ live, b.node ∈ holders) :
    ∃ c', c.release a = (.ok (), c') ∧ SameConfig c c' ∧ Keeps {a.node} c c' ∧
      CacheInv c' (Owner live) holders owned path pagePath := by
  -- nothing but the allocation's own node can be charged to it
  have hpend' : PendingInv c.find (a.node ::ₘ holders) (Owner live) {a.node} := by
    intro j m hj hf hja
    obtain ⟨hleaf, hcount, howner⟩ := hpend j m hj hf hja
    exact ⟨hleaf, hcount, howner.of_cons hja⟩
  obtain ⟨c1, hrun1, hconf1, hnext1, hfind1, hcore1, hpend1, hev1⟩ :=
    markComputed_core h hpend' hev hn hmark
  have hinv1 : CacheInv c1 (Owner live) (a.node ::ₘ holders) (↑a.outsidePages + owned) path
      pagePath := ⟨hcore1, hpend1, hev1⟩
  obtain ⟨hstore2, _, hinv2⟩ := hinv1.unlockPath fun j pages ho => by
    obtain ⟨b, hb, rfl, _⟩ := ho
    exact hlive b hb
  have hkeeps2 : Keeps {a.node} c (c1.unlockPath a.node) :=
    (Keeps.of_mark hn hnext1 hfind1).trans (hstore2.keeps.widen (Set.empty_subset _))
  unfold RadixKVCache.release
  rw [hrun1]
  by_cases hpriv : a.treeInserted = false ∧ a.newFullPages ≠ []
  · rw [if_pos hpriv]
    rw [outsidePages_private hpriv.1] at hinv2
    obtain ⟨pool, hrun3, hcore3⟩ := hinv2.core.freePages
    exact ⟨_, hrun3, hconf1.trans (hstore2.config.trans ⟨⟨rfl, rfl, rfl⟩, rfl, rfl⟩),
      hkeeps2.trans (Keeps.of_find rfl rfl), hcore3, hinv2.pending, hinv2.eviction⟩
  · rw [if_neg hpriv]
    have hout : a.outsidePages = [] := by
      cases hins : a.treeInserted with
      | true => exact outsidePages_inserted hins
      | false =>
        by_contra hne
        rw [outsidePages_private hins] at hne
        exact hpriv ⟨hins, hne⟩
    rw [hout, coe_nil, zero_add] at hinv2
    exact ⟨_, rfl, hconf1.trans hstore2.config, hkeeps2, hinv2⟩

/-- **`free`** returns the allocation's private pages and leaves its full pages
    computed in the tree. -/
theorem Owned.free (h : Owned c (a ::ₘ live) loose path pagePath) :
    ∃ c', c.free a = (.ok { a with freed := true }, c') ∧ SameConfig c c' ∧ Keeps {a.node} c c' ∧
      Owned c' live loose path pagePath := by
  obtain ⟨n, hn, hmark⟩ := h.node_of_cons
  obtain ⟨c1, hrun1, hconf1, hkeeps1, hinv1⟩ := release_core h.core_cons (h.pending_cons _) h.inv.eviction hn hmark
    fun b hb => mem_add.mpr (Or.inl (mem_map_of_mem _ hb))
  obtain ⟨pool, hrun2, hcore2⟩ := hinv1.core.freeIfAny
  have hconf2 : SameConfig c { c1 with pool } := hconf1.trans ⟨⟨rfl, rfl, rfl⟩, rfl, rfl⟩
  refine ⟨_, ?_, hconf2, hkeeps1.trans (Keeps.of_find rfl rfl),
    Owned.of_config hconf2 ⟨hcore2, hinv1.pending, hinv1.eviction⟩ fun b hb =>
      h.allocs b (mem_cons_of_mem hb)⟩
  unfold RadixKVCache.free
  rw [if_neg (by rw [(h.allocs a (mem_cons_self a live)).notFreed]; decide), hrun1,
    andThen_ok, hrun2, andThen_ok]

end Release

/-! ### Preemption -/

section Preempt

variable {c : RadixKVCache} {live : Multiset KVAllocation} {loose : Multiset PageId}
  {path : NodeId → List TokenId} {pagePath : NodeId → List PageId} {a : KVAllocation}

/-- A node that is computed or gone is no exception. -/
theorem PendingInv.settle {find : NodeId → Option Node} {holders : Multiset NodeId} {owner : NodeId → List PageId → Prop}
    {i : NodeId} (h : PendingInv find holders owner {i}) (hi : ∀ n, find i = some n → n.computed = true) :
    PendingInv find holders owner ∅ := by
  intro j m hj hf _
  refine h j m hj hf ?_
  rintro rfl
  rw [hi m hj] at hf
  cases hf

/-- Discarding the suffix: no assertion fires. -/
theorem discard_core {holders : Multiset NodeId} {owned : Multiset PageId} {n : Node}
    (h : Owned c (a ::ₘ live) loose path pagePath) {c1 : RadixKVCache} (hholders : holders = live.map node + c.pinNodes)
    (hconf1 : SameConfig c c1) (hnodes1 : SameNodes c c1)
    (hcore1 : CoreInv c1 holders (↑a.outsidePages + (↑a.tailPage.toList + owned)) path pagePath)
    (hev1 : EvictionInv c1.eviction c1.isEvictable ∅) (hn1 : c1.find a.node = some n) :
    ∃ c', c1.discardSuffix a = (.ok (), c') ∧ SameConfig c c' ∧ c'.nextNode = c1.nextNode ∧ Shrinks c1 c' ∧
      CacheInv c' (Owner live) holders (↑a.tailPage.toList + owned) path pagePath := by
  obtain ⟨n0, hn0, heq0⟩ := hnodes1.symm.find hn1
  obtain ⟨_, hpages0, hchildren0, _, hcomp0⟩ := Node.unref_eq heq0
  -- away from the allocation's own node nothing pending changes hands
  have hpend1 : PendingInv c1.find holders (Owner live) {a.node} := by
    intro j m hj hf hja
    obtain ⟨m0, hm0, heq⟩ := hnodes1.symm.find hj
    obtain ⟨_, hpages, hchildren, _, hcomp⟩ := Node.unref_eq heq
    obtain ⟨hleaf, hcount, howner⟩ := h.pending_cons ∅ j m0 hm0 (hcomp.trans hf) (Set.notMem_empty j)
    rw [count_cons_of_ne hja] at hcount
    rw [← hchildren, ← hpages, hholders]
    exact ⟨hleaf, hcount, howner.of_cons hja⟩
  have hcomputed : ¬ (a.treeInserted = true ∧ a.newFullPages ≠ []) → n.computed = true := by
    intro hmark
    obtain ⟨n', hn', hpending⟩ := h.node_of_cons
    cases hn0.symm.trans hn'
    rw [← hcomp0]
    exact Bool.eq_true_of_not_eq_false fun hf => hmark (hpending hf)
  have hsettled : n.computed = true → PendingInv c1.find holders (Owner live) ∅ := by
    intro hcomp
    refine hpend1.settle fun m hm => ?_
    cases hn1.symm.trans hm
    exact hcomp
  unfold RadixKVCache.discardSuffix
  rw [RadixKVCache.node_of_find hn1]
  by_cases hnil : a.newFullPages = []
  · rw [if_pos hnil]
    rw [outsidePages_none hnil, coe_nil, zero_add] at hcore1
    exact ⟨c1, rfl, hconf1, rfl, Shrinks.refl c1, hcore1, hsettled (hcomputed fun hmark => hmark.2 hnil), hev1⟩
  rw [if_neg hnil]
  cases hins : a.treeInserted with
  | false =>
    rw [outsidePages_private hins] at hcore1
    obtain ⟨pool, hrun, hcore⟩ := hcore1.freePages
    exact ⟨_, hrun, hconf1.trans ⟨⟨rfl, rfl, rfl⟩, rfl, rfl⟩, rfl, Shrinks.of_find rfl, hcore,
      hsettled (hcomputed fun hmark => Bool.false_ne_true (hins.symm.trans hmark.1)), hev1⟩
  | true =>
    rw [outsidePages_inserted hins, coe_nil, zero_add] at hcore1
    cases hc : n.computed with
    | true =>
      exact ⟨c1, rfl, hconf1, rfl, Shrinks.refl c1, hcore1, hsettled hc, hev1⟩
    | false =>
      rw [if_pos ⟨rfl, rfl⟩]
      obtain ⟨_, hpages, hleaf, hfree⟩ := h.own_node hn0 (hcomp0.trans hc)
      rw [hpages0] at hpages
      rw [hchildren0] at hleaf
      rw [← hholders] at hfree
      have hroot := hcore1.ne_root_of_pending hn1 hc
      obtain ⟨p, _, hp1, _⟩ := hcore1.tree.up a.node n hn1 hroot
      obtain ⟨pn, hpn, hedge, _⟩ := hcore1.tree.parent_of hn1 hroot hp1
      have hzero : n.refCount = 0 := by
        rw [hcore1.refs a.node n hn1 hroot, countP_eq_zero]
        intro k hk hpre
        obtain ⟨m, hm⟩ := hcore1.held k hk
        exact hfree ((hcore1.tree.eq_of_leaf hn1 hleaf hm hpre) ▸ hk)
      simp only [hp1]
      rw [if_neg (by
        rw [RadixKVCache.node_of_find hpn]
        simp [hzero, hleaf, hpages, hedge])]
      obtain ⟨pool, c', hpool, hgone, hconf', hnext', hnodes', hshrink', hcore', hev'⟩ :=
        hcore1.remove hev1 (fun j hj => absurd hj (Set.notMem_empty j)) hn1 hleaf hp1 hpn hfree c1.events
      have hcut : (c1.invalidateEvictable a.node).detach a.node = _ :=
        CoreInv.detach_with c1 a.node c1.pool (c1.eviction.invalidate a.node) c1.events
      refine ⟨c', ?_, hconf1.trans hconf', hnext', hshrink', hcore', ?_, hev'⟩
      · rw [CoreInv.detach_with] at hgone
        rw [hcut, hpages]
        unfold RadixKVCache.freePages
        simp only [hpool, andThen_ok]
        rw [← hgone]
      · refine (hshrink'.pending hpend1).settle fun m hm => ?_
        have hfind : c'.find = (c1.detach a.node).find := by
          unfold RadixKVCache.find
          rw [hnodes']
        rw [hfind, CoreInv.find_detach hn1 hp1 hpn, update_self] at hm
        cases hm

/-- **`release_preempted`** gives the allocation back without storing anything. -/
theorem Owned.releasePreempted {decodePages : List PageId}
    (h : Owned c (a ::ₘ live) (↑decodePages + loose) path pagePath) :
    ∃ c', c.releasePreempted a decodePages = (.ok { a with freed := true }, c') ∧
      SameConfig c c' ∧ Keeps ∅ c c' ∧ Owned c' live loose path pagePath := by
  obtain ⟨n, hn, _⟩ := h.node_of_cons
  obtain ⟨c1, hrun1, hconf1, _, hnext1, _, hnodes1, hcore1, hev1⟩ :=
    h.core_cons.unlockPath h.inv.eviction
  obtain ⟨n1, hn1, _⟩ := hnodes1.find hn
  obtain ⟨c2, hrun2, hconf2, hnext2, hshrink2, hinv2⟩ :=
    discard_core h rfl hconf1 hnodes1 hcore1 hev1 hn1
  have hcore2 : CoreInv c2 (live.map node + c.pinNodes)
      (↑(a.tailPage.toList ++ decodePages) + ledgerPages live loose) path pagePath := by
    refine hinv2.core.owned_perm ?_
    rw [ledgerPages_add, ← coe_add]
    abel
  obtain ⟨pool, hrun3, hcore3⟩ := hcore2.freeIfAny
  have hconf3 : SameConfig c { c2 with pool } := hconf2.trans ⟨⟨rfl, rfl, rfl⟩, rfl, rfl⟩
  have hkeeps3 : Keeps ∅ c { c2 with pool } := (hnodes1.keeps hnext1 ∅).trans
    ((hshrink2.keeps hnext2 ∅).trans (Keeps.of_find rfl rfl))
  refine ⟨_, ?_, hconf3, hkeeps3, Owned.of_config hconf3 ⟨hcore3, hinv2.pending, hinv2.eviction⟩ fun b hb =>
    h.allocs b (mem_cons_of_mem hb)⟩
  unfold RadixKVCache.releasePreempted
  rw [if_neg (by rw [(h.allocs a (mem_cons_self a live)).notFreed]; decide)]
  rw [hrun1, hrun2, andThen_ok, hrun3, andThen_ok]

end Preempt

/-! ### Committing generated pages -/

section Commit

variable {c : RadixKVCache} {live : Multiset KVAllocation} {holders : Multiset NodeId} {owned loose : Multiset PageId}
  {path : NodeId → List TokenId} {pagePath : NodeId → List PageId} {a : KVAllocation} {p : NodeId} {pn : Node}
  {key : List TokenId} {decodePages : List PageId}

/-- **`commitChild`** hangs a computed, unlocked leaf below `p`: its lock is taken
    while the event goes out and given back before the call ends. -/
theorem CoreInv.commitChild {pages : List PageId} (h : CoreInv c (p ::ₘ holders) (↑pages + owned) path pagePath)
    (hev : EvictionInv c.eviction c.isEvictable ∅) (hpn : c.find p = some pn)
    (hfree : pn.children.lookup (key.take c.pageSize) = none) (hpages : pages ≠ [])
    (hkey : key.length = pages.length * c.pageSize) : ∃ child, SameConfig c (c.commitChild p key pages) ∧
      (c.commitChild p key pages).nextNode = c.nextNode + 1 ∧ (c.commitChild p key pages).find = update (update c.find p
        (some { pn with children := pn.children.insert (key.take c.pageSize) c.nextNode }))
        c.nextNode (some child) ∧ child.computed = true ∧ CoreInv (c.commitChild p key pages) (p ::ₘ holders) owned
        (update path c.nextNode (path p ++ key)) (update pagePath c.nextNode (pagePath p ++ pages)) ∧
      EvictionInv (c.commitChild p key pages).eviction (c.commitChild p key pages).isEvictable ∅ := by
  obtain ⟨c1, child, hrun, hconf1, _, hnext1, hfind1, _, _, hparent, _, hrefs, _, hcore1, hev1⟩ :=
    h.insertChild hev hpn hfree hpages hkey
  have hc : c.commitChild p key pages =
      (RadixKVCache.modifyNode { c1 with events := (c1.emitStored c.nextNode).events } c.nextNode fun n =>
        { n with computed := true, refCount := 0 }).refreshEvictable c.nextNode := by
    unfold RadixKVCache.commitChild
    rw [hrun]
    rw [← emitStored_eq]
  generalize (c1.emitStored c.nextNode).events = events at hc
  let c3 : RadixKVCache := RadixKVCache.modifyNode { c1 with events } c.nextNode fun n =>
    { n with computed := true, refCount := 0 }
  have hchild : c1.find c.nextNode = some child := by rw [hfind1, update_self]
  have hfind3 : c3.find = update (update c.find p
      (some { pn with children := pn.children.insert (key.take c.pageSize) c.nextNode }))
      c.nextNode (some { child with computed := true, refCount := 0 }) := by
    refine (RadixKVCache.find_modifyNode hchild _).trans ?_
    show update c1.find _ _ = _
    rw [hfind1, update_idem]
  have hcore2 : CoreInv { c1 with events } (c.nextNode ::ₘ holders) owned
      (update path c.nextNode (path p ++ key))
      (update pagePath c.nextNode (pagePath p ++ pages)) := hcore1.congr ⟨rfl, rfl, rfl⟩ rfl rfl rfl
  have hcore3 := hcore2.unlock (f := fun n => { n with computed := true, refCount := 0 }) hchild hparent
    (by rw [hrefs]) fun _ => rfl
  rw [hc]
  refine ⟨_, hconf1.trans ⟨⟨rfl, rfl, rfl⟩, rfl, rfl⟩, hnext1, hfind3, rfl,
    hcore3.congr ⟨rfl, rfl, rfl⟩ rfl rfl rfl, ?_⟩
  refine RadixKVCache.refreshEvictable_eviction ?_ fun j hj => Or.inl hj
  exact RadixKVCache.modifyNode_eviction hev1 _

/-- Of a list without repetitions, what is not among the first `k` is the rest. -/
theorem filter_notMem_take {candidates : List PageId} (hnodup : candidates.Nodup) (k : Nat) :
    candidates.filter (fun p => p ∉ candidates.take k) = candidates.drop k := by
  have hdisj : ∀ p ∈ candidates.drop k, p ∉ candidates.take k := by
    intro p hdrop htake
    have hsplit : (candidates.take k ++ candidates.drop k).Nodup := by
      rw [List.take_append_drop]
      exact hnodup
    exact (List.nodup_append.mp hsplit).2.2 p htake p hdrop rfl
  conv_lhs => rw [← List.take_append_drop k candidates]
  rw [List.filter_append, List.filter_eq_nil_iff.mpr, List.nil_append, List.filter_eq_self.mpr]
  · intro p hp
    simpa using hdisj p hp
  · intro p hp
    simpa using hp

/-- A commit before its release: `kept` went from the ledger into the tree, below
    the allocation's node, which is the only node that may look out of place. -/
structure Committing (c : RadixKVCache) (live : Multiset KVAllocation) (loose : Multiset PageId)
    (path : NodeId → List TokenId) (pagePath : NodeId → List PageId) (a : KVAllocation)
    (candidates kept : List PageId) (c' : RadixKVCache) (path' : NodeId → List TokenId)
    (pagePath' : NodeId → List PageId) : Prop where
  config : SameConfig c c'
  core : CoreInv c' (a.node ::ₘ (live.map KVAllocation.node + c.pinNodes))
    (↑a.outsidePages + (↑(candidates.filter fun p => p ∉ kept) + ledgerPages live loose))
    path' pagePath'
  pending : PendingInv c'.find (a.node ::ₘ (live.map KVAllocation.node + c.pinNodes))
    (Owner (a ::ₘ live)) {a.node}
  eviction : EvictionInv c'.eviction c'.isEvictable ∅
  next_le : c.nextNode ≤ c'.nextNode
  old : ∀ j m, c.find j = some m → ∃ m', c'.find j = some m' ∧ m'.computed = m.computed ∧
    path' j = path j ∧ pagePath' j = pagePath j
  new : ∀ j m', c'.find j = some m' → (∃ m, c.find j = some m) ∨ j = c.nextNode

theorem Committing.keeps {candidates kept : List PageId} {c' : RadixKVCache}
    {path' : NodeId → List TokenId} {pagePath' : NodeId → List PageId}
    (h : Committing c live loose path pagePath a candidates kept c' path' pagePath') : Keeps ∅ c c' where
  next_le := h.next_le
  old := by
    intro j m' hj hlt
    rcases h.new j m' hj with ⟨m, hm⟩ | rfl
    · obtain ⟨m2, hm2, hcomp, _⟩ := h.old j m hm
      rw [hj] at hm2
      cases hm2
      exact ⟨m, hm, fun _ => hcomp, fun hc => hcomp.trans hc⟩
    · exact absurd hlt (Nat.lt_irrefl _)

/-- The ledger of a release with decode pages. -/
theorem Owned.core_candidates (h : Owned c (a ::ₘ live) (↑decodePages + loose) path pagePath) :
    CoreInv c (a.node ::ₘ (live.map node + c.pinNodes))
      (↑a.outsidePages + (↑(a.tailPage.toList ++ decodePages) + ledgerPages live loose)) path pagePath := by
  refine h.core_cons.owned_perm ?_
  rw [ledgerPages_add, ← coe_add]
  abel

/-- Keeping nothing changes nothing. -/
theorem Committing.nothing {candidates : List PageId} (hev : EvictionInv c.eviction c.isEvictable ∅)
    (hcore : CoreInv c (a.node ::ₘ (live.map node + c.pinNodes)) (↑a.outsidePages + (↑candidates + ledgerPages live loose)) path pagePath)
    (hpend : PendingInv c.find (a.node ::ₘ (live.map node + c.pinNodes)) (Owner (a ::ₘ live)) {a.node}) :
    Committing c live loose path pagePath a candidates [] c path pagePath where
  config := SameConfig.refl c
  core := by
    have hself : candidates.filter (fun p => p ∉ ([] : List PageId)) = candidates :=
      List.filter_eq_self.mpr fun p _ => by simp
    rw [hself]
    exact hcore
  pending := hpend
  eviction := hev
  next_le := le_rfl
  old := fun _ m hj => ⟨m, hj, rfl, rfl, rfl⟩
  new := fun _ m' hj => Or.inl ⟨m', hj⟩

/-- The part of a commit before the release.  When another request has already
    stored that block nothing is kept. -/
theorem Owned.commitPages (h : Owned c (a ::ₘ live) (↑decodePages + loose) path pagePath) (hins : a.treeInserted = true)
    {extra : Nat} (hpos : 0 < extra) (hle : extra ≤ (a.tailPage.toList ++ decodePages).length)
    (hkey : key.length = extra * c.pageSize) : ∃ kept c' path' pagePath',
      c.commitPages a key ((a.tailPage.toList ++ decodePages).take extra) = (kept, c') ∧
      Committing c live loose path pagePath a (a.tailPage.toList ++ decodePages) kept c' path' pagePath' := by
  obtain ⟨n, hn, _⟩ := h.node_of_cons
  set candidates := a.tailPage.toList ++ decodePages with hcandidates
  have hout := outsidePages_inserted hins
  have hcore : CoreInv c (a.node ::ₘ (live.map node + c.pinNodes))
      (↑candidates + ledgerPages live loose) path pagePath := by
    refine h.core_candidates.owned_perm ?_
    rw [hout, coe_nil, zero_add]
  have hnodup : candidates.Nodup :=
    coe_nodup.mp (nodup_add.mp (nodup_add.mp hcore.nodup).2.1).1
  have hpend := h.pending_cons {a.node}
  unfold RadixKVCache.commitPages
  rw [RadixKVCache.node_of_find hn]
  have htakeLen : (candidates.take extra).length = extra := List.length_take_of_le hle
  cases hlook : n.children.lookup (key.take c.pageSize) with
  | some existing =>
    obtain ⟨hroot, m, hm, _⟩ := h.inv.core.tree.down a.node n _ existing hn hlook
    have hdiff : ¬ ((c.node existing).key = key ∧ (c.node existing).pages = candidates.take extra) := by
      -- the tree and the ledger share no page
      rintro ⟨_, hpages⟩
      rw [RadixKVCache.node_of_find hm] at hpages
      obtain ⟨page, hpage⟩ := List.exists_mem_of_length_pos (by rw [htakeLen]; exact hpos)
      have htree : page ∈ c.treePages := mem_treePages.mpr ⟨existing, m, hm, by rw [hpages]; exact hpage⟩
      have howned : page ∈ (↑candidates + ledgerPages live loose : Multiset PageId) :=
        mem_add.mpr (Or.inl (List.mem_of_mem_take hpage))
      have hdisj := (nodup_add.mp hcore.nodup).2.2
      exact disjoint_left.mp hdisj (mem_add.mpr (Or.inr htree)) howned
    simp only
    rw [if_neg hdiff]
    exact ⟨[], c, path, pagePath, rfl, Committing.nothing h.inv.eviction h.core_candidates hpend⟩
  | none =>
    have hne : candidates.take extra ≠ [] := by
      rw [← List.length_pos_iff, htakeLen]
      exact hpos
    have hsplit : CoreInv c (a.node ::ₘ (live.map node + c.pinNodes))
        (↑(candidates.take extra) + (↑(candidates.drop extra) + ledgerPages live loose)) path
        pagePath := by
      refine hcore.owned_perm ?_
      rw [← add_assoc, coe_add, List.take_append_drop]
    obtain ⟨child, hconf', hnext', hfind', hchild, hcore', hev'⟩ :=
      hsplit.commitChild h.inv.eviction hn hlook hne (by rw [htakeLen]; exact hkey)
    have hfwd : ∀ j m, c.find j = some m → ∃ m', (c.commitChild a.node key
        (candidates.take extra)).find j = some m' ∧ m'.computed = m.computed ∧
        update path c.nextNode (path a.node ++ key) j = path j ∧
        update pagePath c.nextNode (pagePath a.node ++ candidates.take extra) j =
          pagePath j := by
      intro j m hj
      have hjn := h.inv.core.tree.ne_next hj
      rw [update_of_ne hjn, update_of_ne hjn, hfind', update_of_ne hjn]
      obtain ⟨own, hown⟩ := RadixKVCache.find_relink hn _ hj
      exact ⟨_, hown, rfl, rfl, rfl⟩
    refine ⟨candidates.take extra, _, _, _, rfl, hconf', ?_, ?_, hev', by rw [hnext']; exact Nat.le_succ _, hfwd, ?_⟩
    · rw [filter_notMem_take hnodup, hout, coe_nil, zero_add]
      exact hcore'
    · intro j m hj hf hja
      rw [hfind'] at hj
      have hjn : j ≠ c.nextNode := by
        rintro rfl
        rw [update_self] at hj
        cases hj
        rw [hf] at hchild
        cases hchild
      rw [update_of_ne hjn, update_of_ne hja] at hj
      exact hpend j m hj hf hja
    · intro j m' hj
      rw [hfind'] at hj
      by_cases hjn : j = c.nextNode
      · exact Or.inr hjn
      · left
        rw [update_of_ne hjn] at hj
        obtain ⟨m, _, hm, _⟩ := RadixKVCache.find_of_relink hn hj
        exact ⟨m, hm⟩

/-- The full pages that a commit adds beyond the prompt's: the sequence is written
    up to, and not including, its last sampled token. -/
def KVAllocation.extraFull (a : KVAllocation) (pageSize : Nat) (outputTokens : List TokenId) : Nat :=
  (if outputTokens = [] then (a.tokens ++ outputTokens).length
    else (a.tokens ++ outputTokens).length - 1) / pageSize - a.tokens.length / pageSize

/-- **`commit_and_release`** gives the allocation back. -/
theorem Owned.commitAndRelease {outputTokens : List TokenId}
    (h : Owned c (a ::ₘ live) (↑decodePages + loose) path pagePath)
    (hcover : a.extraFull c.pageSize outputTokens ≤ (a.tailPage.toList ++ decodePages).length) : ∃ c' path' pagePath',
      c.commitAndRelease a outputTokens decodePages = (.ok { a with freed := true }, c') ∧
      SameConfig c c' ∧ Keeps {a.node} c c' ∧ Owned c' live loose path' pagePath' := by
  obtain ⟨n, hn, hmark⟩ := h.node_of_cons
  have hok := h.allocs a (mem_cons_self a live)
  set candidates := a.tailPage.toList ++ decodePages with hcandidates
  set sequence := a.tokens ++ outputTokens with hsequence
  set extra := a.extraFull c.pageSize outputTokens with hextra
  set key := (sequence.drop (a.tokens.length / c.pageSize * c.pageSize)).take
    (extra * c.pageSize) with hkeydef
  -- the committed pages lie within the written sequence
  have hroom : (a.tokens.length / c.pageSize + extra) * c.pageSize ≤ sequence.length ∨ extra = 0 := by
    rcases Nat.eq_zero_or_pos extra with hzero | hpos
    · exact Or.inr hzero
    · left
      have hwritten : a.tokens.length / c.pageSize + extra =
          (if outputTokens = [] then sequence.length else sequence.length - 1) / c.pageSize := by
        have hdef : extra = (if outputTokens = [] then sequence.length else sequence.length - 1) /
          c.pageSize - a.tokens.length / c.pageSize := rfl
        omega
      rw [hwritten]
      refine (Nat.div_mul_le_self _ _).trans ?_
      split
      · exact le_rfl
      · exact Nat.sub_le _ _
  have hcommit : ∃ kept c1 path1 pagePath1,
      (if extra > 0 ∧ a.treeInserted = true then c.commitPages a key (candidates.take extra)
        else ([], c)) = (kept, c1) ∧
      Committing c live loose path pagePath a candidates kept c1 path1 pagePath1 := by
    by_cases hcond : extra > 0 ∧ a.treeInserted = true
    · rw [if_pos hcond]
      have hkeylen : key.length = extra * c.pageSize := by
        have hfit := hroom.resolve_right (by omega)
        rw [Nat.add_mul] at hfit
        rw [List.length_take, List.length_drop]
        exact Nat.min_eq_left (by omega)
      exact h.commitPages hcond.2 hcond.1 hcover hkeylen
    · rw [if_neg hcond]
      exact ⟨[], c, path, pagePath, rfl, Committing.nothing h.inv.eviction h.core_candidates (h.pending_cons _)⟩
  obtain ⟨kept, c1, path1, pagePath1, hrun1, hstate⟩ := hcommit
  -- the release
  obtain ⟨n1, hn1, hcomp1, _⟩ := hstate.old a.node n hn
  obtain ⟨c2, hrun2, hconf2, hkeeps2, hinv2⟩ := release_core hstate.core hstate.pending
    hstate.eviction hn1 (fun hf => hmark (hcomp1.symm.trans hf))
    fun b hb => mem_add.mpr (Or.inl (mem_map_of_mem _ hb))
  obtain ⟨pool, hrun3, hcore3⟩ := hinv2.core.freeIfAny
  have hconf3 : SameConfig c { c2 with pool } := hstate.config.trans (hconf2.trans ⟨⟨rfl, rfl, rfl⟩, rfl, rfl⟩)
  have hkeeps3 : Keeps {a.node} c { c2 with pool } := (hstate.keeps.widen (Set.empty_subset _)).trans
    (hkeeps2.trans (Keeps.of_find rfl rfl))
  refine ⟨_, path1, pagePath1, ?_, hconf3, hkeeps3, Owned.of_config hconf3 ⟨hcore3, hinv2.pending, hinv2.eviction⟩ ?_⟩
  · unfold RadixKVCache.commitAndRelease
    rw [if_neg (by rw [hok.notFreed]; decide)]
    dsimp only
    erw [hrun1]
    rw [hrun2, andThen_ok, hrun3, andThen_ok]
  · intro b hb
    have hokb := h.allocs b (mem_cons_of_mem hb)
    obtain ⟨m, hm⟩ := h.core_cons.held b.node (mem_cons_of_mem (mem_add.mpr (Or.inl (mem_map_of_mem _ hb))))
    obtain ⟨_, _, _, hpathb, hpagesb⟩ := hstate.old b.node m hm
    exact ⟨hokb.notFreed, hokb.size, hokb.full, hokb.tail,
      by rw [hpathb, hpagesb]; exact hokb.tokens, by rw [hpagesb]; exact hokb.pages⟩

end Commit

end Kairyu
