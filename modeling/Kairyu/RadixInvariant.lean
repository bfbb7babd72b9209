/-
  Kairyu/RadixInvariant.lean
  ==========================
  **The invariant of the radix KV cache, and what each private method does to it.**

  Three groups of facts hold between public calls.

    * `CoreInv`: the node store is a radix tree, every page id has exactly one
      owner, and a node's refcount counts the holders below it.
    * `PendingInv`: a node whose KV is not yet written is a leaf held by the one
      allocation that inserted it.
    * `EvictionInv` (its own file): the eviction index is exact.

  `holders` are the nodes that something keeps a lock on: live allocations, pins,
  and inside a call the walk that is under way.  `owned` are the pages outside the
  tree and the free list.  Both are ghost arguments, as are the two path maps.
-/
import Kairyu.RadixEviction
import Kairyu.RadixTree
import Mathlib.Algebra.BigOperators.Group.Multiset.Basic
import Mathlib.Algebra.Order.Group.Multiset
import Mathlib.Data.Multiset.Range
import Mathlib.Tactic.Abel

namespace Kairyu

open Function Multiset RadixKVCache Multiset

/-! ### Definitions -/

namespace RadixKVCache

/-- The node store as a function. -/
def find (c : RadixKVCache) : NodeId → Option Node := fun i => c.nodes.lookup i

/-- The pages held by tree nodes. -/
def treePages (c : RadixKVCache) : Multiset PageId :=
  c.nodes.total fun n => (n.pages : Multiset PageId)

end RadixKVCache

/-- The hash columns of a node that continues the tokens `before`; without a sink
    they stay empty. -/
def Node.HashOk (n : Node) (chain : Option (List TokenId → BlockHash)) (pageSize : Nat)
    (before : List TokenId) : Prop :=
  match chain with
  | none => n.prefixTokens = [] ∧ n.blockHashes = []
  | some hash => n.prefixTokens = before ++ n.key ∧
      n.blockHashes = extendPrefixHashChain hash before n.key pageSize

structure CoreInv (c : RadixKVCache) (holders : Multiset NodeId) (owned : Multiset PageId)
    (path : NodeId → List TokenId) (pagePath : NodeId → List PageId) : Prop where
  tree : TreeInv c.pageSize c.find c.nextNode path pagePath
  hash : ∀ i n before, c.find i = some n → path i = before ++ n.key →
    n.HashOk c.chain c.pageSize before
  pool_size : c.pool.numPages = c.numPages
  partition : (c.pool.freeList : Multiset PageId) + c.treePages + owned =
    range c.numPages
  held : ∀ h ∈ holders, ∃ n, c.find h = some n
  refs : ∀ i n, c.find i = some n → i ≠ rootId →
    n.refCount = holders.countP fun h => path i <+: path h

/-- Uncomputed nodes outside `Y` are leaves with a single holder, which owns them. -/
def PendingInv (find : NodeId → Option Node) (holders : Multiset NodeId)
    (owner : NodeId → List PageId → Prop) (Y : Set NodeId) : Prop :=
  ∀ i n, find i = some n → n.computed = false → i ∉ Y →
    n.children.entries = [] ∧ holders.count i = 1 ∧ owner i n.pages

/-- Two states of one cache: the constructor arguments agree. -/
structure SameArgs (c c' : RadixKVCache) : Prop where
  pageSize : c'.pageSize = c.pageSize
  numPages : c'.numPages = c.numPages
  chain : c'.chain = c.chain

/-- The constructor arguments, the pins and the allocation counter agree. -/
structure SameConfig (c c' : RadixKVCache) : Prop extends SameArgs c c' where
  pins : c'.pins = c.pins
  allocTick : c'.allocTick = c.allocTick

namespace SameArgs

theorem refl (c : RadixKVCache) : SameArgs c c := ⟨rfl, rfl, rfl⟩

theorem trans {a b c : RadixKVCache} (h : SameArgs a b) (h' : SameArgs b c) : SameArgs a c :=
  ⟨h'.pageSize.trans h.pageSize, h'.numPages.trans h.numPages, h'.chain.trans h.chain⟩

end SameArgs

namespace SameConfig

theorem refl (c : RadixKVCache) : SameConfig c c := ⟨SameArgs.refl c, rfl, rfl⟩

theorem trans {a b c : RadixKVCache} (h : SameConfig a b) (h' : SameConfig b c) : SameConfig a c :=
  ⟨h.toSameArgs.trans h'.toSameArgs, h'.pins.trans h.pins, h'.allocTick.trans h.allocTick⟩

end SameConfig

/-- Node identities are never reused, a computed node stays computed, and only
    nodes in `X` may become computed. -/
structure Keeps (X : Set NodeId) (c c' : RadixKVCache) : Prop where
  next_le : c.nextNode ≤ c'.nextNode
  old : ∀ i n', c'.find i = some n' → i < c.nextNode → ∃ n, c.find i = some n ∧
    (i ∉ X → n'.computed = n.computed) ∧ (n.computed = true → n'.computed = true)

namespace Keeps

variable {X : Set NodeId} {a b c : RadixKVCache}

theorem refl (X : Set NodeId) (c : RadixKVCache) : Keeps X c c where
  next_le := le_rfl
  old := fun _ n' h _ => ⟨n', h, fun _ => rfl, id⟩

theorem trans (h : Keeps X a b) (h' : Keeps X b c) : Keeps X a c where
  next_le := h.next_le.trans h'.next_le
  old := by
    intro i n'' hi hlt
    obtain ⟨n', hn', hsame', hmono'⟩ := h'.old i n'' hi (hlt.trans_le h.next_le)
    obtain ⟨n, hn, hsame, hmono⟩ := h.old i n' hn' hlt
    exact ⟨n, hn, fun hX => (hsame' hX).trans (hsame hX), fun hc => hmono' (hmono hc)⟩

theorem widen {Y : Set NodeId} (h : Keeps X a b) (hXY : X ⊆ Y) : Keeps Y a b where
  next_le := h.next_le
  old := by
    intro i n' hi hlt
    obtain ⟨n, hn, hsame, hmono⟩ := h.old i n' hi hlt
    exact ⟨n, hn, fun hY => hsame fun hX => hY (hXY hX), hmono⟩

theorem of_find (hfind : b.find = a.find) (hnext : b.nextNode = a.nextNode) : Keeps X a b where
  next_le := hnext.ge
  old := fun _ n' h _ => ⟨n', hfind ▸ h, fun _ => rfl, id⟩

theorem of_mark {i : NodeId} {n : Node} (hn : a.find i = some n) (hnext : b.nextNode = a.nextNode)
    (hfind : b.find = update a.find i (some { n with computed := true })) : Keeps {i} a b where
  next_le := hnext.ge
  old := by
    intro j n' hj _
    rw [hfind] at hj
    rcases of_update_some hj with ⟨rfl, rfl⟩ | ⟨hji, hj⟩
    · exact ⟨n, hn, fun hX => absurd rfl hX, fun _ => rfl⟩
    · exact ⟨n', hj, fun _ => rfl, id⟩

end Keeps

/-! ### Reading and writing single nodes -/

namespace RadixKVCache

variable {c : RadixKVCache} {i : NodeId} {n : Node}

theorem node_of_find (h : c.find i = some n) : c.node i = n := by
  unfold node
  rw [show c.nodes.lookup i = some n from h]
  rfl

theorem find_modifyNode (h : c.find i = some n) (f : Node → Node) :
    (c.modifyNode i f).find = update c.find i (some (f n)) := by
  show (fun j => (c.nodes.modify i f).lookup j) = _
  rw [AList.modify_of_lookup h, AList.lookup_insert_update]
  rfl

/-- When one node gets other children, every node keeps its other columns. -/
theorem find_relink {p : NodeId} {pn : Node} (hpn : c.find p = some pn)
    (links : Dict (List TokenId) NodeId) (h : c.find i = some n) :
    ∃ own, update c.find p (some { pn with children := links }) i = some { n with children := own } := by
  by_cases hip : i = p
  · subst hip
    cases hpn.symm.trans h
    exact ⟨links, update_self ..⟩
  · exact ⟨n.children, by rw [update_of_ne hip]; exact h⟩

theorem find_of_relink {p : NodeId} {pn : Node} {links : Dict (List TokenId) NodeId} (hpn : c.find p = some pn)
    (h : update c.find p (some { pn with children := links }) i = some n) :
    ∃ m own, c.find i = some m ∧ n = { m with children := own } := by
  rcases of_update_some h with ⟨rfl, rfl⟩ | ⟨hip, h⟩
  · exact ⟨pn, links, hpn, rfl⟩
  · exact ⟨n, n.children, h, rfl⟩

theorem isEvictable_of_find (h : c.find i = some n) :
    c.isEvictable i = decide (i ≠ rootId ∧ n.children.entries = [] ∧ n.refCount = 0) := by
  unfold isEvictable
  rw [show c.nodes.lookup i = some n from h]

theorem isEvictable_iff : c.isEvictable i = true ↔
    i ≠ rootId ∧ ∃ n, c.find i = some n ∧ n.children.entries = [] ∧ n.refCount = 0 := by
  cases h : c.find i with
  | none =>
    unfold isEvictable
    rw [show c.nodes.lookup i = none from h]
    simp
  | some n =>
    rw [isEvictable_of_find h]
    simp

/-- Eligibility reads nothing but the node itself. -/
theorem isEvictable_congr {c' : RadixKVCache} (h : c'.find i = c.find i) : c'.isEvictable i = c.isEvictable i := by
  unfold isEvictable
  rw [show c'.nodes.lookup i = c.nodes.lookup i from h]

/-- A computed node is not a pending one. -/
theorem ne_of_computed {j : NodeId} {m : Node} (hi : c.find i = some n) (hcomp : n.computed = true)
    (hj : c.find j = some m) (hf : m.computed = false) : j ≠ i := by
  rintro rfl
  cases hi.symm.trans hj
  exact Bool.false_ne_true (hf.symm.trans hcomp)

/-! ### Bookkeeping calls -/

@[simp] theorem touch_pageSize (c : RadixKVCache) (i : NodeId) : (c.touch i).pageSize = c.pageSize := by
  unfold touch
  simp only
  split
  · rfl
  · rfl

/-- A stamped node is settled: it is re-indexed exactly when that can matter. -/
theorem touch_spec {X : Set NodeId} (h : EvictionInv c.eviction c.isEvictable X) (hX : ∀ j ∈ X, j = i) :
    ∃ eviction, c.touch i = { c with eviction } ∧ EvictionInv eviction c.isEvictable ∅ := by
  have hstamp : EvictionInv
      { c.eviction with
        clock := c.eviction.clock + 1
        lastAccess := update c.eviction.lastAccess i (c.eviction.clock + 1) }
      c.isEvictable {i} :=
    (h.weaken hX fun _ _ => rfl).stamp (Set.mem_singleton i) _ _
  unfold touch
  simp only
  split
  · exact ⟨_, rfl, hstamp.refresh fun j hj => Or.inl hj⟩
  · next hout =>
    rw [not_or] at hout
    refine ⟨_, rfl, ?_, hstamp.index_version, ?_, ?_, hstamp.heap_version⟩
    · intro j _
      by_cases hji : j = i
      · subst hji
        exact ⟨fun hin => absurd hin hout.1, fun hev => absurd hev hout.2⟩
      · exact hstamp.mem_index j hji
    · intro j stamp _ hlook
      by_cases hji : j = i
      · subst hji
        exact absurd (AList.mem_iff_lookup.mpr ⟨stamp, hlook⟩) hout.1
      · exact hstamp.entry_mem j stamp hji hlook
    · intro entry hentry _ hlook
      by_cases hji : entry.node = i
      · exact absurd (AList.mem_iff_lookup.mpr ⟨_, hlook⟩) (hji ▸ hout.1)
      · exact hstamp.entry_current entry hentry hji hlook

/-- Editing a node leaves the others as eligible as they were. -/
theorem modifyNode_eviction (h : EvictionInv c.eviction c.isEvictable ∅) (f : Node → Node) :
    EvictionInv c.eviction (c.modifyNode i f).isEvictable {i} :=
  h.weaken (Set.empty_subset _) fun _ hj => isEvictable_congr (AList.lookup_modify_ne _ hj f)

/-- Re-indexing a node settles it. -/
theorem refreshEvictable_eviction {X Y : Set NodeId}
    (h : EvictionInv c.eviction c.isEvictable X) (hXY : ∀ j ∈ X, j = i ∨ j ∈ Y) :
    EvictionInv (c.refreshEvictable i).eviction (c.refreshEvictable i).isEvictable Y :=
  h.refresh hXY

end RadixKVCache

/-! ### The core invariant -/

namespace CoreInv

variable {c c' : RadixKVCache} {holders : Multiset NodeId} {owned : Multiset PageId}
  {path : NodeId → List TokenId} {pagePath : NodeId → List PageId} {i p : NodeId} {n : Node}

/-- The core facts read the store, the pool and the constructor arguments only. -/
theorem congr (h : CoreInv c holders owned path pagePath) (hconf : SameArgs c c')
    (hpool : c'.pool = c.pool) (hnodes : c'.nodes = c.nodes) (hnext : c'.nextNode = c.nextNode) :
    CoreInv c' holders owned path pagePath := by
  have hfind : c'.find = c.find := by
    unfold find
    rw [hnodes]
  have htree : c'.treePages = c.treePages := by
    unfold treePages
    rw [hnodes]
  refine ⟨?_, ?_, ?_, ?_, ?_, ?_⟩
  · rw [hconf.pageSize, hfind, hnext]
    exact h.tree
  · rw [hfind, hconf.chain, hconf.pageSize]
    exact h.hash
  · rw [hpool, hconf.numPages]
    exact h.pool_size
  · rw [hpool, htree, hconf.numPages]
    exact h.partition
  · rw [hfind]
    exact h.held
  · rw [hfind]
    exact h.refs

theorem owned_perm (h : CoreInv c holders owned path pagePath) {owned' : Multiset PageId}
    (heq : owned' = owned) : CoreInv c holders owned' path pagePath := heq ▸ h

/-! #### Pages -/

/-- No page id occurs twice among all owners. -/
theorem nodup (h : CoreInv c holders owned path pagePath) :
    ((c.pool.freeList : Multiset PageId) + c.treePages + owned).Nodup := by
  rw [h.partition]
  exact nodup_range _

theorem treePages_of_find (hi : c.find i = some n) : ∃ rest : Multiset PageId,
    c.treePages = (n.pages : Multiset PageId) + rest :=
  ⟨_, AList.total_eq_of_lookup hi _⟩

variable {pages : List PageId}

/-- Pages with an owner outside the free list can be freed. -/
theorem pool_free_ok (h : CoreInv c holders owned path pagePath)
    (hsub : (pages : Multiset PageId) ≤ c.treePages + owned) : ∃ pool', c.pool.free pages = .ok pool' ∧
      pool'.freeList = pages.reverse ++ c.pool.freeList ∧ pool'.numPages = c.pool.numPages := by
  obtain ⟨rest, hrest⟩ := Multiset.le_iff_exists_add.mp hsub
  have hall : (c.pool.freeList : Multiset PageId) + ((pages : Multiset PageId) + rest) =
      range c.numPages := by
    rw [← hrest, ← add_assoc]
    exact h.partition
  have hnodup : ((c.pool.freeList : Multiset PageId) + ((pages : Multiset PageId) + rest)).Nodup := by
    rw [hall]
    exact nodup_range _
  have hdisj := (nodup_add.mp hnodup).2.2
  refine PagePool.free_ok ?_ ?_
  · exact (nodup_add.mp (nodup_add.mp hnodup).2.1).1
  · intro q hq
    constructor
    · have hmem : q ∈ range c.numPages := by
        rw [← hall]
        exact mem_add.mpr (Or.inr (mem_add.mpr (Or.inl hq)))
      rw [h.pool_size]
      exact mem_range.mp hmem
    · intro hfree
      exact disjoint_left.mp hdisj hfree (mem_add.mpr (Or.inl hq))

/-- Handing out `count` free pages. -/
theorem takePages (h : CoreInv c holders owned path pagePath) {count : Nat}
    (hle : count ≤ c.numFreePages) : ∃ pages pool, c.takePages count = (.ok pages, { c with pool }) ∧
      pages.length = count ∧ pool.freeList.length + count = c.numFreePages ∧
      CoreInv { c with pool } holders (↑pages + owned) path pagePath := by
  obtain ⟨pool', hpool, hfree, hnum⟩ := PagePool.allocate_ok hle
  refine ⟨c.pool.freeList.take count, pool', ?_, ?_, ?_, ?_⟩
  · unfold RadixKVCache.takePages
    rw [hpool]
  · exact List.length_take_of_le hle
  · rw [hfree, List.length_drop]
    exact Nat.sub_add_cancel hle
  · refine ⟨h.tree, h.hash, hnum.trans h.pool_size, ?_, h.held, h.refs⟩
    show (pool'.freeList : Multiset PageId) + c.treePages + _ = range c.numPages
    have hsplit : (c.pool.freeList : Multiset PageId) =
        ↑(c.pool.freeList.take count) + ↑(c.pool.freeList.drop count) := by
      rw [coe_add, List.take_append_drop]
    rw [hfree, ← h.partition, hsplit]
    abel

section

variable (h : CoreInv c holders (↑pages + owned) path pagePath)
include h

/-- Returning owned pages. -/
theorem pool_freed {pool' : PagePool} (hlist : pool'.freeList = pages.reverse ++ c.pool.freeList)
    (hnum : pool'.numPages = c.pool.numPages) : CoreInv { c with pool := pool' } holders owned path pagePath := by
  refine ⟨h.tree, h.hash, hnum.trans h.pool_size, ?_, h.held, h.refs⟩
  show (pool'.freeList : Multiset PageId) + c.treePages + owned = range c.numPages
  have hrev : (pages.reverse : Multiset PageId) = pages := coe_reverse pages
  rw [hlist, ← h.partition, ← coe_add, hrev]
  abel

theorem freePages : ∃ pool, c.freePages pages = (.ok (), { c with pool }) ∧
      CoreInv { c with pool } holders owned path pagePath := by
  have hsub : (pages : Multiset PageId) ≤ c.treePages + (↑pages + owned) :=
    (le_add_right _ _).trans (le_add_left _ _)
  obtain ⟨pool', hpool, hfree, hnum⟩ := h.pool_free_ok hsub
  refine ⟨pool', ?_, h.pool_freed hfree hnum⟩
  unfold RadixKVCache.freePages
  rw [hpool]

theorem freeIfAny : ∃ pool, c.freeIfAny pages = (.ok (), { c with pool }) ∧
      CoreInv { c with pool } holders owned path pagePath := by
  unfold RadixKVCache.freeIfAny
  by_cases hnil : pages = []
  · subst hnil
    exact ⟨c.pool, if_pos rfl, by simpa using h⟩
  · rw [if_neg hnil]
    exact h.freePages

end

/-! #### Locks -/

section

variable (h : CoreInv c holders owned path pagePath) (hi : c.find i = some n)
include h hi

/-- One node becomes computed, or changes its refcount by what the change of
    holders asks for. -/
theorem set_flags {holders' : Multiset NodeId} {f : Node → Node}
    (hf : f n = { n with refCount := (f n).refCount, computed := (f n).computed })
    (hcomp : n.computed = true → (f n).computed = true) (hheld : ∀ h ∈ holders', ∃ m, c.find h = some m)
    (hother : ∀ j m, c.find j = some m → j ≠ rootId → j ≠ i →
      holders'.countP (fun h => path j <+: path h) = holders.countP fun h => path j <+: path h)
    (hself : i ≠ rootId → (f n).refCount = holders'.countP fun h => path i <+: path h) :
    CoreInv (c.modifyNode i f) holders' owned path pagePath := by
  have hfind := find_modifyNode hi f
  have hkey : (f n).key = n.key := by rw [hf]
  have hpages : (f n).pages = n.pages := by rw [hf]
  have hchildren : (f n).children = n.children := by rw [hf]
  have hparent : (f n).parent = n.parent := by rw [hf]
  refine ⟨?_, ?_, h.pool_size, ?_, ?_, ?_⟩
  · rw [hfind]
    exact h.tree.update_meta hi ⟨hkey, hpages, hparent, hcomp⟩ hchildren
  · rw [hfind]
    intro j m before hj hpath
    rcases of_update_some hj with ⟨rfl, rfl⟩ | ⟨hji, hj⟩
    · rw [hkey] at hpath
      have hok := h.hash j n before hi hpath
      rw [hf]
      exact hok
    · exact h.hash j m before hj hpath
  · have htotal : (c.modifyNode i f).treePages = c.treePages :=
      AList.total_modify f _ fun v hv => by
        have hvn : v = n := Option.some.inj (hv.symm.trans hi)
        rw [hvn, hpages]
    rw [htotal]
    exact h.partition
  · intro k hk
    obtain ⟨m, hm⟩ := hheld k hk
    rw [hfind]
    by_cases hki : k = i
    · exact ⟨f n, by rw [hki, update_self]⟩
    · exact ⟨m, by rw [update_of_ne hki]; exact hm⟩
  · rw [hfind]
    intro j m hj hroot
    rcases of_update_some hj with ⟨rfl, rfl⟩ | ⟨hji, hj⟩
    · exact hself hroot
    · rw [hother j m hj hroot hji]
      exact h.refs j m hj hroot

/-- A holder at node `i` counts at `i` and at whatever its parent counts at. -/
theorem countP_child
    (hroot : i ≠ rootId) (hp : n.parent = some p) (others : Multiset NodeId) {j : NodeId} {m : Node}
    (hj : c.find j = some m) : (i ::ₘ others).countP (fun k => path j <+: path k) =
      (p ::ₘ others).countP (fun k => path j <+: path k) + if j = i then 1 else 0 := by
  have hiff := h.tree.isPathTree.prefix_edge_iff (h.tree.edge_of hi hroot hp) ⟨m, hj⟩
  have hlt := h.tree.path_lt hi hroot hp
  rw [countP_cons, countP_cons]
  by_cases hji : j = i
  · subst hji
    have hnot : ¬ path j <+: path p := fun hpre => absurd hpre.length_le (by omega)
    rw [if_pos List.prefix_rfl, if_neg hnot, if_pos rfl]
  · have hsame : path j <+: path i ↔ path j <+: path p := by
      rw [hiff]
      exact or_iff_right hji
    rw [if_neg hji, if_congr hsame rfl rfl]
    rfl

/-- A holder at the root locks nothing. -/
theorem countP_root (hroot : i ≠ rootId)
    (others : Multiset NodeId) : (rootId ::ₘ others).countP (fun k => path i <+: path k) =
      others.countP fun k => path i <+: path k := by
  rw [countP_cons, if_neg]
  · rfl
  · intro hpre
    exact hroot ((h.tree.isPathTree.prefix_root_iff ⟨n, hi⟩).mp hpre)

end

theorem drop_root (h : CoreInv c (rootId ::ₘ holders) owned path pagePath) :
    CoreInv c holders owned path pagePath where
  tree := h.tree
  hash := h.hash
  pool_size := h.pool_size
  partition := h.partition
  held := fun k hk => h.held k (mem_cons_of_mem hk)
  refs := fun j m hj hroot => (h.refs j m hj hroot).trans (h.countP_root hj hroot holders)

theorem add_root (h : CoreInv c holders owned path pagePath) :
    CoreInv c (rootId ::ₘ holders) owned path pagePath where
  tree := h.tree
  hash := h.hash
  pool_size := h.pool_size
  partition := h.partition
  held := by
    intro k hk
    rcases mem_cons.mp hk with rfl | hk
    · obtain ⟨r, hr, _⟩ := h.tree.root
      exact ⟨r, hr⟩
    · exact h.held k hk
  refs := fun j m hj hroot => (h.refs j m hj hroot).trans (h.countP_root hj hroot holders).symm

/-- The walk steps down to a child and locks it. -/
theorem lock (h : CoreInv c (p ::ₘ holders) owned path pagePath) (hi : c.find i = some n) (hp : n.parent = some p) :
    CoreInv (c.modifyNode i fun n => { n with refCount := n.refCount + 1 }) (i ::ₘ holders) owned path pagePath := by
  have hroot := h.tree.root_parent hi hp
  refine h.set_flags hi rfl id ?_ ?_ ?_
  · intro k hk
    rcases mem_cons.mp hk with rfl | hk
    · exact ⟨n, hi⟩
    · exact h.held k (mem_cons_of_mem hk)
  · intro j m hj _ hji
    rw [h.countP_child hi hroot hp holders hj, if_neg hji, Nat.add_zero]
  · intro _
    rw [h.countP_child hi hroot hp holders hi, if_pos rfl, ← h.refs i n hi hroot]

/-- The release of a lock steps up to the parent. -/
theorem unlock {f : Node → Node} (h : CoreInv c (i ::ₘ holders) owned path pagePath)
    (hi : c.find i = some n) (hp : n.parent = some p)
    (hf : f n = { n with refCount := n.refCount - 1, computed := (f n).computed })
    (hcomp : n.computed = true → (f n).computed = true) :
    CoreInv (c.modifyNode i f) (p ::ₘ holders) owned path pagePath := by
  have hroot := h.tree.root_parent hi hp
  have hrefs : (f n).refCount = n.refCount - 1 := by rw [hf]
  refine h.set_flags hi (by rw [hrefs]; exact hf) hcomp ?_ ?_ ?_
  · intro k hk
    rcases mem_cons.mp hk with rfl | hk
    · obtain ⟨pn, hpn, _⟩ := h.tree.parent_of hi hroot hp
      exact ⟨pn, hpn⟩
    · exact h.held k (mem_cons_of_mem hk)
  · intro j m hj _ hji
    rw [h.countP_child hi hroot hp holders hj, if_neg hji, Nat.add_zero]
  · intro _
    rw [hrefs, h.refs i n hi hroot, h.countP_child hi hroot hp holders hi, if_pos rfl, Nat.add_sub_cancel]

/-- Writing a node's KV changes no link and no lock. -/
theorem mark (h : CoreInv c holders owned path pagePath) (hi : c.find i = some n) :
    CoreInv (c.modifyNode i fun n => { n with computed := true }) holders owned path pagePath :=
  h.set_flags hi rfl (fun _ => rfl) h.held (fun _ _ _ _ _ => rfl) (h.refs i n hi)

end CoreInv

end Kairyu
