/-
  Kairyu/RadixEdits.lean
  ======================
  **The private methods that reshape the tree keep the invariant.**

  One specification per method of `RadixKVCache` that edits links or locks:
  `_split`, the insertion of a child, `_unlock_path`, the detachment of a leaf,
  and `_ensure_free` with its eviction loop.  Each says that the method does not
  raise, what it does to the node store, and that the core facts and the eviction
  index survive.
-/
import Kairyu.RadixInvariant
import Mathlib.Data.Finset.Card
import Mathlib.Data.Finset.Max

namespace Kairyu

open Function List RadixKVCache AList

/-! ### Leaves -/

namespace TreeInv

variable {pageSize : Nat} {nodes : NodeId → Option Node} {next : NodeId}
  {path : NodeId → List TokenId} {pagePath : NodeId → List PageId} {i j p : NodeId} {n m : Node}

/-- A child's parent is not a leaf. -/
theorem parent_children (T : TreeInv pageSize nodes next path pagePath) (hi : nodes i = some n)
    (hroot : i ≠ rootId) (hp : n.parent = some p) {pn : Node} (hpn : nodes p = some pn) : pn.children.entries ≠ [] := by
  intro hleaf
  obtain ⟨qn, hqn, hlook, _⟩ := T.parent_of hi hroot hp
  rw [hpn] at hqn
  cases hqn
  rw [lookup_of_eq_empty hleaf] at hlook
  cases hlook

/-- Only the leaf itself lies below a leaf. -/
theorem eq_of_leaf (T : TreeInv pageSize nodes next path pagePath) (hi : nodes i = some n)
    (hleaf : n.children.entries = []) (hj : nodes j = some m) (hpre : path i <+: path j) : i = j := by
  by_contra hne
  obtain ⟨k, t, ⟨tn, qn, ht, hroot, hparent, _, _⟩, _⟩ :=
    T.isPathTree.edge_towards ⟨n, hi⟩ ⟨m, hj⟩ hpre hne
  exact T.parent_children ht hroot hparent hi hleaf

end TreeInv

namespace CoreInv

variable {c : RadixKVCache} {holders : Multiset NodeId} {owned : Multiset PageId}
  {path : NodeId → List TokenId} {pagePath : NodeId → List PageId} {i p : NodeId} {n pn : Node}

section

variable (h : CoreInv c holders owned path pagePath)
include h

theorem find_next : c.nodes.lookup c.nextNode = none :=
  h.tree.lookup_next

/-- The next identity is nobody's. -/
theorem held_ne_next (hi : i ∈ holders) : i ≠ c.nextNode := by
  obtain ⟨m, hm⟩ := h.held i hi
  exact h.tree.ne_next hm

/-- No holder sees what the path of the next identity is set to. -/
theorem countP_fresh {others : Multiset NodeId}
    (hothers : ∀ k ∈ others, k ∈ holders) (hi : i ≠ c.nextNode) (word : List TokenId) :
    others.countP (fun k => update path c.nextNode word i <+: update path c.nextNode word k) =
      others.countP fun k => path i <+: path k := by
  refine Multiset.countP_congr rfl fun k hk => ?_
  rw [update_of_ne (h.held_ne_next (hothers k hk)), update_of_ne hi]

/-- An unlocked node is nobody's. -/
theorem notMem_holders (hi : c.find i = some n)
    (hroot : i ≠ rootId) (hzero : n.refCount = 0) : i ∉ holders := by
  intro hmem
  rw [h.refs i n hi hroot] at hzero
  exact Multiset.countP_eq_zero.mp hzero i hmem prefix_rfl

end

/-! ### Inserting a child -/

/-- The columns of a new node under `p`. -/
theorem newNode_spec (h : CoreInv c holders owned path pagePath) (hpn : c.find p = some pn)
    (key : List TokenId) (pages : List PageId) :
    (c.newNode key pages p).key = key ∧ (c.newNode key pages p).pages = pages ∧
    (c.newNode key pages p).parent = some p ∧ (c.newNode key pages p).children = ∅ ∧
    (c.newNode key pages p).computed = false ∧ (c.newNode key pages p).HashOk c.chain c.pageSize (path p) := by
  -- the parent's `prefixTokens` column holds its path
  have hprefix : ∀ hash, c.chain = some hash → pn.prefixTokens = path p := by
    intro hash hchain
    have hsplit : ∃ before, path p = before ++ pn.key := by
      by_cases hroot : p = rootId
      · obtain ⟨r, hr, _, hkey, _⟩ := h.tree.root
        rw [hroot, hr] at hpn
        cases hpn
        exact ⟨path p, by rw [hkey, append_nil]⟩
      · obtain ⟨q, _, _, _, _, hpath, _⟩ := h.tree.up p pn hpn hroot
        exact ⟨_, hpath⟩
    obtain ⟨before, hbefore⟩ := hsplit
    have hok := h.hash p pn before hpn hbefore
    unfold Node.HashOk at hok
    rw [hchain] at hok
    rw [hok.1, hbefore]
  unfold newNode Node.HashOk
  cases hchain : c.chain with
  | none => exact ⟨rfl, rfl, rfl, rfl, rfl, rfl, rfl⟩
  | some hash =>
    rw [node_of_find hpn, hprefix hash hchain]
    exact ⟨rfl, rfl, rfl, rfl, rfl, rfl, rfl⟩

/-- The store after a locked child is hung below `p`. -/
theorem add_child {c' : RadixKVCache} {child : Node}
    (h : CoreInv c (p ::ₘ holders) (↑child.pages + owned) path pagePath)
    (hpn : c.find p = some pn) (hfree : pn.children.lookup (child.key.take c.pageSize) = none)
    (hparent : child.parent = some p) (hchildren : child.children = ∅)
    (hpages : child.pages ≠ []) (hkey : child.key.length = child.pages.length * c.pageSize)
    (hrefs : child.refCount = 1) (hhash : child.HashOk c.chain c.pageSize (path p))
    (hconf : SameConfig c c') (hpool : c'.pool = c.pool)
    (hnodes : c'.nodes = (c.nodes.insert c.nextNode child).modify p fun n =>
      { n with children := n.children.insert (child.key.take c.pageSize) c.nextNode })
    (hnext : c'.nextNode = c.nextNode + 1) : c'.find = update (update c.find p
      (some { pn with children := pn.children.insert (child.key.take c.pageSize) c.nextNode }))
      c.nextNode (some child) ∧ CoreInv c' (c.nextNode ::ₘ holders) owned
      (update path c.nextNode (path p ++ child.key)) (update pagePath c.nextNode (pagePath p ++ child.pages)) := by
  have hpnext : p ≠ c.nextNode := h.tree.ne_next hpn
  have hfind : c'.find = update (update c.find p
      (some { pn with children := pn.children.insert (child.key.take c.pageSize) c.nextNode }))
      c.nextNode (some child) := by
    have hlook : (c.nodes.insert c.nextNode child).lookup p = some pn :=
      (lookup_insert_ne hpnext).trans hpn
    show (fun j => c'.nodes.lookup j) = _
    rw [hnodes, modify_of_lookup hlook, lookup_insert_update, lookup_insert_update, update_comm hpnext.symm]
    rfl
  refine ⟨hfind, ?_⟩
  have htree := h.tree.insert_leaf hpn hfree hparent hchildren hpages hkey hfind
  have hchild : c'.find c.nextNode = some child := by rw [hfind, update_self]
  have hchildroot : c.nextNode ≠ rootId := by
    obtain ⟨r, hr, _⟩ := h.tree.root
    exact (h.tree.ne_next hr).symm
  -- an old node keeps everything but possibly its children
  have hback : ∀ j m, c'.find j = some m → j ≠ c.nextNode →
      ∃ m' own, c.find j = some m' ∧ m = { m' with children := own } := by
    intro j m hj hjn
    rw [hfind, update_of_ne hjn] at hj
    exact find_of_relink hpn hj
  have hheld : ∀ k ∈ c.nextNode ::ₘ holders, ∃ m, c'.find k = some m := by
    intro k hk
    rcases Multiset.mem_cons.mp hk with rfl | hk
    · exact ⟨child, hchild⟩
    · obtain ⟨m, hm⟩ := h.held k (Multiset.mem_cons_of_mem hk)
      rw [hfind, update_of_ne (h.tree.ne_next hm)]
      obtain ⟨own, hown⟩ := find_relink hpn _ hm
      exact ⟨_, hown⟩
  have hold : ∀ k ∈ holders, k ≠ c.nextNode := fun k hk => h.held_ne_next (Multiset.mem_cons_of_mem hk)
  refine ⟨?_, ?_, ?_, ?_, hheld, ?_⟩
  · rw [hconf.pageSize, hnext]
    exact htree
  · intro j m before hj hpath
    rw [hconf.chain, hconf.pageSize]
    by_cases hjn : j = c.nextNode
    · subst hjn
      rw [hchild] at hj
      cases hj
      rw [update_self] at hpath
      have hbefore : path p = before := append_cancel_right hpath
      rw [← hbefore]
      exact hhash
    · obtain ⟨m', _, hm', rfl⟩ := hback j m hj hjn
      rw [update_of_ne hjn] at hpath
      exact h.hash j m' before hm' hpath
  · rw [hpool, hconf.numPages]
    exact h.pool_size
  · have htotal : c'.treePages = ↑child.pages + c.treePages := by
      unfold treePages
      rw [hnodes, total_modify]
      · exact total_insert_new h.find_next _ _
      · exact fun _ _ => rfl
    rw [hpool, htotal, hconf.numPages, ← h.partition]
    abel
  · intro j m hj hroot
    by_cases hjn : j = c.nextNode
    · -- nobody but the new holder lies at or below the new leaf
      subst hjn
      rw [hchild] at hj
      cases hj
      have hzero : holders.countP (fun k =>
          update path c.nextNode (path p ++ child.key) c.nextNode <+:
            update path c.nextNode (path p ++ child.key) k) = 0 := by
        rw [Multiset.countP_eq_zero]
        intro k hk hle
        obtain ⟨m', hm'⟩ := hheld k (Multiset.mem_cons_of_mem hk)
        have hleaf : child.children.entries = [] := by rw [hchildren]; rfl
        exact hold k hk (htree.eq_of_leaf hchild hleaf hm' hle).symm
      rw [Multiset.countP_cons, hzero, if_pos prefix_rfl, hrefs]
    · obtain ⟨m', own, hm', rfl⟩ := hback j m hj hjn
      have hiff := htree.isPathTree.prefix_edge_iff
        (htree.edge_of hchild hchildroot hparent) ⟨_, hj⟩
      rw [update_of_ne hpnext] at hiff
      rw [h.refs j m' hm' hroot, Multiset.countP_cons, Multiset.countP_cons,
        h.countP_fresh (fun k hk => Multiset.mem_cons_of_mem hk) hjn]
      congr 1
      have hsame : path j <+: path p ↔ update path c.nextNode (path p ++ child.key) j <+:
          update path c.nextNode (path p ++ child.key) c.nextNode := by
        rw [hiff, or_iff_right hjn, update_of_ne hjn]
      exact if_congr hsame rfl rfl

/-- **`insertChild`** hangs a locked, uncomputed leaf below the walk's node. -/
theorem insertChild {key : List TokenId} {pages : List PageId}
    (h : CoreInv c (p ::ₘ holders) (↑pages + owned) path pagePath) (hev : EvictionInv c.eviction c.isEvictable ∅)
    (hpn : c.find p = some pn) (hfree : pn.children.lookup (key.take c.pageSize) = none)
    (hpages : pages ≠ []) (hkey : key.length = pages.length * c.pageSize) :
    ∃ c' child, c.insertChild p key pages = (c.nextNode, c') ∧ SameConfig c c' ∧
      c'.pool = c.pool ∧ c'.nextNode = c.nextNode + 1 ∧ c'.find = update (update c.find p
        (some { pn with children := pn.children.insert (key.take c.pageSize) c.nextNode })) c.nextNode (some child) ∧
      child.key = key ∧ child.pages = pages ∧ child.parent = some p ∧ child.children = ∅ ∧
      child.refCount = 1 ∧ child.computed = false ∧ CoreInv c' (c.nextNode ::ₘ holders) owned
        (update path c.nextNode (path p ++ key)) (update pagePath c.nextNode (pagePath p ++ pages)) ∧
      EvictionInv c'.eviction c'.isEvictable ∅ := by
  obtain ⟨hnkey, hnpages, hnparent, hnchildren, hncomp, hnhash⟩ := h.newNode_spec hpn key pages
  -- the child object, the state that holds it, and the stamped state
  let child : Node := { c.newNode key pages p with refCount := 1 }
  let c1 : RadixKVCache :=
    { c with nodes := c.nodes.insert c.nextNode child, nextNode := c.nextNode + 1 }
  have hev1 : EvictionInv c1.eviction c1.isEvictable {c.nextNode} :=
    hev.weaken (Set.empty_subset _) fun j hj => isEvictable_congr (lookup_insert_ne hj)
  obtain ⟨eviction, htouch, hev2⟩ := touch_spec hev1 fun j hj => hj
  let c2 : RadixKVCache := modifyNode { c1 with eviction } p fun n =>
    { n with children := n.children.insert (key.take c.pageSize) c.nextNode }
  have hc2 : c.insertChild p key pages = (c.nextNode, c2.refreshEvictable p) := by
    show (c.nextNode, ((c1.touch c.nextNode).modifyNode p fun n => { n with
      children := n.children.insert (key.take (c1.touch c.nextNode).pageSize)
        c.nextNode }).refreshEvictable p) = _
    rw [htouch]
  have hck : child.key = key := hnkey
  have hcp : child.pages = pages := hnpages
  have hnodes : c2.nodes = (c.nodes.insert c.nextNode child).modify p fun n =>
      { n with children := n.children.insert (child.key.take c.pageSize) c.nextNode } := by
    rw [hck]
    rfl
  have hconf : SameConfig c (c2.refreshEvictable p) := ⟨⟨rfl, rfl, rfl⟩, rfl, rfl⟩
  have hcore0 : CoreInv c (p ::ₘ holders) (↑child.pages + owned) path pagePath := by
    rw [hcp]
    exact h
  obtain ⟨hfind, hcore⟩ := hcore0.add_child hpn (by rw [hck]; exact hfree) hnparent hnchildren
    (by rw [hcp]; exact hpages) (by rw [hck, hcp]; exact hkey) rfl hnhash hconf rfl hnodes rfl
  rw [hck] at hfind hcore
  rw [hcp] at hcore
  -- only the parent's eligibility changed since the stamp
  exact ⟨c2.refreshEvictable p, child, hc2, hconf, rfl, rfl, hfind, hck, hcp, hnparent, hnchildren, rfl, hncomp, hcore,
    refreshEvictable_eviction
      (modifyNode_eviction (c := { c1 with eviction }) hev2 _) fun j hj => Or.inl hj⟩

/-! ### Splitting a node -/

/-- The digests of the first `keep` pages are the first `keep` digests. -/
theorem extendPrefixHashChain_take (hash : List TokenId → BlockHash) (before key : List TokenId)
    {pageSize keep pages : Nat} (hpos : 0 < pageSize) (hkey : key.length = pages * pageSize) (hle : keep ≤ pages) :
    extendPrefixHashChain hash before (key.take (keep * pageSize)) pageSize =
      (extendPrefixHashChain hash before key pageSize).take keep := by
  have hmul : keep * pageSize ≤ key.length := by
    rw [hkey]
    exact Nat.mul_le_mul_right _ hle
  unfold extendPrefixHashChain
  rw [length_take, Nat.min_eq_left hmul, Nat.mul_div_cancel _ hpos, hkey,
    Nat.mul_div_cancel _ hpos, ← map_take, take_range, Nat.min_eq_left hle]
  refine map_congr_left fun j hj => ?_
  have hj' : (j + 1) * pageSize ≤ keep * pageSize :=
    Nat.mul_le_mul_right _ (mem_range.mp hj)
  rw [take_take, Nat.min_eq_left hj']

/-- The digests of the remaining pages continue over the longer prefix. -/
theorem extendPrefixHashChain_drop (hash : List TokenId → BlockHash) (before key : List TokenId)
    {pageSize keep pages : Nat} (hpos : 0 < pageSize) (hkey : key.length = pages * pageSize) (hle : keep ≤ pages) :
    extendPrefixHashChain hash (before ++ key.take (keep * pageSize)) (key.drop (keep * pageSize)) pageSize =
      (extendPrefixHashChain hash before key pageSize).drop keep := by
  unfold extendPrefixHashChain
  rw [length_drop, hkey, ← Nat.sub_mul, Nat.mul_div_cancel _ hpos, Nat.mul_div_cancel _ hpos, ← map_drop]
  have hrange : (List.range pages).drop keep = (List.range (pages - keep)).map (keep + ·) := by
    have hsplit := range_add (n := keep) (m := pages - keep)
    rw [Nat.add_sub_cancel' hle] at hsplit
    rw [hsplit, drop_left' length_range]
  rw [hrange, map_map]
  refine map_congr_left fun j _ => ?_
  rw [append_assoc, ← take_add]
  rw [← Nat.add_mul]
  congr 1

/-- Cutting a node in two moves no page in or out of the tree. -/
theorem total_halve {nodes : Dict NodeId Node} {next : NodeId} {upper lower : Node}
    {f : Node → Node} (hpi : p ≠ i) (hinext : i ≠ next) (hi : nodes.lookup i = some n)
    (hnext : nodes.lookup next = none) (hf : ∀ m, (f m).pages = m.pages)
    (hpages : (upper.pages : Multiset PageId) + ↑lower.pages = ↑n.pages) :
    (((nodes.modify p f).insert next upper).modify i fun _ => lower).total (fun m => (m.pages : Multiset PageId)) =
      nodes.total fun m => (m.pages : Multiset PageId) := by
  have hlook : ((nodes.modify p f).insert next upper).lookup i = some n := by
    rw [lookup_insert_if, if_neg hinext, lookup_modify_ne _ hpi.symm, hi]
  have hfresh : (nodes.modify p f).lookup next = none := by
    rw [lookup_modify, hnext]
    simp
  have hbefore := total_insert_new hfresh upper fun m => (m.pages : Multiset PageId)
  rw [total_eq_of_lookup hlook, total_modify f _ fun m _ => by rw [hf m], ← hpages, add_assoc] at hbefore
  rw [modify_of_lookup hlook]
  exact add_left_cancel hbefore

/-- The store after node `i` is cut into `upper` and `lower`. -/
theorem halve {c' : RadixKVCache} {upper lower : Node} {keep : Nat}
    (h : CoreInv c holders owned path pagePath) (hi : c.find i = some n)
    (hp : n.parent = some p) (hpn : c.find p = some pn)
    (hkeep : 0 < keep) (hlt : keep < n.pages.length)
    (hukey : upper.key = n.key.take (keep * c.pageSize)) (hupages : upper.pages = n.pages.take keep)
    (huparent : upper.parent = some p) (hurefs : upper.refCount = n.refCount)
    (huchildren : upper.children = (∅ : Dict (List TokenId) NodeId).insert (lower.key.take c.pageSize) i)
    (huhash : upper.HashOk c.chain c.pageSize (path p))
    (hlower : lower = { n with
      key := n.key.drop (keep * c.pageSize)
      pages := n.pages.drop keep
      blockHashes := n.blockHashes.drop keep
      parent := some c.nextNode })
    (hconf : SameConfig c c') (hpool : c'.pool = c.pool)
    (hnodes : c'.nodes = ((c.nodes.modify p fun parent =>
      { parent with
        children := parent.children.insert (upper.key.take c.pageSize) c.nextNode }).insert
          c.nextNode upper).modify i fun _ => lower)
    (hnext : c'.nextNode = c.nextNode + 1) :
    c'.find = update (update (update c.find p
      (some { pn with children := pn.children.insert (upper.key.take c.pageSize) c.nextNode }))
      c.nextNode (some upper)) i (some lower) ∧
    CoreInv c' holders owned (update path c.nextNode (path p ++ upper.key))
      (update pagePath c.nextNode (pagePath p ++ upper.pages)) := by
  have hroot := h.tree.root_parent hi hp
  have hpos := h.tree.page_pos
  obtain ⟨_, hlen⟩ := h.tree.shape i n hi hroot
  obtain ⟨_, _, _, hipath, _⟩ := h.tree.parent_of hi hroot hp
  have hpi : p ≠ i := h.tree.parent_ne hi hroot hp
  have hinext : i ≠ c.nextNode := h.tree.ne_next hi
  have hfind : c'.find = update (update (update c.find p
      (some { pn with children := pn.children.insert (upper.key.take c.pageSize) c.nextNode }))
      c.nextNode (some upper)) i (some lower) := by
    have hlook : (insert c.nextNode upper (c.nodes.insert p { pn with
        children := pn.children.insert (upper.key.take c.pageSize) c.nextNode })).lookup i =
        some n := by
      rw [lookup_insert_ne hinext, lookup_insert_ne hpi.symm]
      exact hi
    show (fun j => c'.nodes.lookup j) = _
    rw [hnodes, modify_of_lookup hpn, modify_of_lookup hlook,
      lookup_insert_update, lookup_insert_update, lookup_insert_update]
    rfl
  refine ⟨hfind, ?_⟩
  have htree := h.tree.split_node hi hp hpn hkeep hlt hukey hupages
    huparent huchildren (by rw [hlower]) (by rw [hlower]) (by rw [hlower]) (by rw [hlower]) hfind
  have hupper : c'.find c.nextNode = some upper := by
    rw [hfind, update_of_ne hinext.symm, update_self]
  have hback : ∀ j m, c'.find j = some m → j ≠ c.nextNode → j ≠ i →
      ∃ m' own, c.find j = some m' ∧ m = { m' with children := own } := by
    intro j m hj hjn hji
    rw [hfind, update_of_ne hji, update_of_ne hjn] at hj
    exact find_of_relink hpn hj
  have hati : ∀ m, c'.find i = some m → m = lower := by
    intro m hm
    rw [hfind, update_self] at hm
    exact (Option.some.inj hm).symm
  refine ⟨?_, ?_, ?_, ?_, ?_, ?_⟩
  · rw [hconf.pageSize, hnext]
    exact htree
  · intro j m before hj hpath
    rw [hconf.chain, hconf.pageSize]
    by_cases hjn : j = c.nextNode
    · subst hjn
      rw [hupper] at hj
      cases hj
      rw [update_self] at hpath
      have hbefore : path p = before := append_cancel_right hpath
      rw [← hbefore]
      exact huhash
    rw [update_of_ne hjn] at hpath
    by_cases hji : j = i
    · subst hji
      cases hati m hj
      have hbefore : before = path p ++ n.key.take (keep * c.pageSize) := by
        have hcut : path j = path p ++ n.key.take (keep * c.pageSize) ++ lower.key := by
          rw [hipath, hlower, append_assoc, take_append_drop]
        exact append_cancel_right (hpath.symm.trans hcut)
      have hok := h.hash j n (path p) hi hipath
      rw [hbefore, hlower]
      unfold Node.HashOk at hok ⊢
      cases hchain : c.chain with
      | none =>
        rw [hchain] at hok
        rw [hok.1, hok.2]
        exact ⟨rfl, drop_nil⟩
      | some hash =>
        rw [hchain] at hok
        refine ⟨?_, ?_⟩
        · rw [hok.1, append_assoc, take_append_drop]
        · rw [hok.2]
          exact (extendPrefixHashChain_drop hash _ _ hpos hlen hlt.le).symm
    · obtain ⟨m', _, hm', rfl⟩ := hback j m hj hjn hji
      exact h.hash j m' before hm' hpath
  · rw [hpool, hconf.numPages]
    exact h.pool_size
  · have htotal : c'.treePages = c.treePages := by
      unfold treePages
      rw [hnodes]
      exact total_halve hpi hinext hi h.find_next (fun _ => rfl)
        (by rw [hupages, hlower, Multiset.coe_add, take_append_drop])
    rw [hpool, htotal, hconf.numPages]
    exact h.partition
  · intro k hk
    obtain ⟨m, hm⟩ := h.held k hk
    rw [hfind]
    by_cases hki : k = i
    · exact ⟨lower, by rw [hki, update_self]⟩
    rw [update_of_ne hki, update_of_ne (h.held_ne_next hk)]
    obtain ⟨own, hown⟩ := find_relink hpn _ hm
    exact ⟨_, hown⟩
  · intro j m hj hjroot
    by_cases hjn : j = c.nextNode
    · -- whoever lies below the upper half lies below node `i`
      subst hjn
      rw [hupper] at hj
      cases hj
      rw [hurefs, h.refs i n hi hroot, update_self]
      refine Multiset.countP_congr rfl fun k hk => ?_
      rw [update_of_ne (h.held_ne_next hk), hukey]
      refine propext ⟨fun hpre => ?_, fun hpre => ?_⟩
      · refine List.IsPrefix.trans ?_ hpre
        rw [hipath, prefix_append_right_inj]
        exact take_prefix _ _
      · refine h.tree.isPathTree.prefix_of_edge (h.tree.edge_of hi hroot hp) (h.held k hk)
          (List.IsPrefix.trans ?_ hpre)
        rw [prefix_append_right_inj]
        exact take_prefix_take_left (Nat.le_mul_of_pos_left _ hkeep)
    · rw [h.countP_fresh (fun _ hk => hk) hjn]
      by_cases hji : j = i
      · subst hji
        cases hati m hj
        rw [hlower]
        exact h.refs j n hi hroot
      · obtain ⟨m', _, hm', rfl⟩ := hback j m hj hjn hji
        exact h.refs j m' hm' hjroot

/-- **`_split`** does not raise (the stored digests agree with the recomputed
    ones), keeps every page and every lock where it was, and leaves node `i` with
    its end of the path. -/
theorem split {keep : Nat} (h : CoreInv c holders owned path pagePath)
    (hev : EvictionInv c.eviction c.isEvictable ∅) (hi : c.find i = some n)
    (hp : n.parent = some p) (hpn : c.find p = some pn) (hkeep : 0 < keep) (hlt : keep < n.pages.length) :
    ∃ c' upper lower, c.split i keep = (.ok c.nextNode, c') ∧ SameConfig c c' ∧
      c'.pool = c.pool ∧ c'.nextNode = c.nextNode + 1 ∧ c'.find = update (update (update c.find p
        (some { pn with children := pn.children.insert (n.key.take c.pageSize) c.nextNode }))
        c.nextNode (some upper)) i (some lower) ∧
      upper.key = n.key.take (keep * c.pageSize) ∧ upper.pages = n.pages.take keep ∧
      upper.parent = some p ∧ upper.computed = n.computed ∧ upper.children.entries ≠ [] ∧
      lower.computed = n.computed ∧ lower.children = n.children ∧
      lower.key = n.key.drop (keep * c.pageSize) ∧ lower.pages = n.pages.drop keep ∧ lower.parent = some c.nextNode ∧
      CoreInv c' holders owned (update path c.nextNode (path p ++ n.key.take (keep * c.pageSize)))
        (update pagePath c.nextNode (pagePath p ++ n.pages.take keep)) ∧
      EvictionInv c'.eviction c'.isEvictable ∅ := by
  have hroot := h.tree.root_parent hi hp
  have hpos := h.tree.page_pos
  obtain ⟨hnekey, hlen⟩ := h.tree.shape i n hi hroot
  obtain ⟨pn0, hpn0, hedge, hipath, hipages⟩ := h.tree.parent_of hi hroot hp
  obtain ⟨hnkey, hnpages, hnparent, hnchildren, hncomp, hnhash⟩ :=
    h.newNode_spec hpn (n.key.take (keep * c.pageSize)) (n.pages.take keep)
  have hihash := h.hash i n (path p) hi hipath
  -- the two halves
  let upper0 : Node := { c.newNode (n.key.take (keep * c.pageSize)) (n.pages.take keep) p with
    refCount := n.refCount, computed := n.computed }
  let lower : Node := { n with
    key := n.key.drop (keep * c.pageSize)
    pages := n.pages.drop keep
    blockHashes := n.blockHashes.drop keep
    parent := some c.nextNode }
  let upper : Node := { upper0 with
    children := (∅ : Dict (List TokenId) NodeId).insert (lower.key.take c.pageSize) i }
  have hukey : upper.key = n.key.take (keep * c.pageSize) := hnkey
  have hupages : upper.pages = n.pages.take keep := hnpages
  have hfirst : upper.key.take c.pageSize = n.key.take c.pageSize := by
    rw [hukey, take_take, Nat.min_eq_left (Nat.le_mul_of_pos_left _ hkeep)]
  have hdigest : upper0.blockHashes = n.blockHashes.take keep := by
    unfold Node.HashOk at hnhash hihash
    cases hchain : c.chain with
    | none =>
      rw [hchain] at hnhash hihash
      rw [hnhash.2, hihash.2, take_nil]
    | some hash =>
      rw [hchain] at hnhash hihash
      rw [hnhash.2, hihash.2, hnkey]
      exact extendPrefixHashChain_take hash _ _ hpos hlen hlt.le
  let c1 : RadixKVCache := { c with
    nodes := ((c.nodes.modify p fun parent =>
      { parent with children := parent.children.insert (upper.key.take c.pageSize) c.nextNode }).insert
        c.nextNode upper).modify i fun _ => lower
    nextNode := c.nextNode + 1
    eviction := { c.eviction with
      lastAccess := update c.eviction.lastAccess c.nextNode (c.eviction.lastAccess i) } }
  let c2 : RadixKVCache :=
    ((c1.refreshEvictable p).refreshEvictable c.nextNode).refreshEvictable i
  have hsplit : c.split i keep = (.ok c.nextNode, c2) := by
    unfold RadixKVCache.split
    rw [node_of_find hi]
    simp only [hp]
    rw [if_neg (not_not.mpr hdigest)]
  have huhash : upper.HashOk c.chain c.pageSize (path p) := hnhash
  have hconf : SameConfig c c2 := ⟨⟨rfl, rfl, rfl⟩, rfl, rfl⟩
  obtain ⟨hfind, hcore⟩ := h.halve hi hp hpn hkeep hlt hukey hupages hnparent rfl rfl
    huhash rfl hconf rfl rfl rfl
  rw [hfirst] at hfind
  rw [hukey, hupages] at hcore
  have huchildren : upper.children.entries ≠ [] := by
    intro hnil
    have hlook := lookup_of_eq_empty hnil (lower.key.take c.pageSize)
    rw [lookup_insert] at hlook
    cases hlook
  refine ⟨c2, upper, lower, hsplit, hconf, rfl, rfl, hfind, hukey, hupages, hnparent, rfl, huchildren,
    rfl, rfl, rfl, rfl, rfl, hcore, ?_⟩
  -- the three nodes that changed are re-indexed one after the other
  have hsame : ∀ j, j ∉ ({p, c.nextNode, i} : Set NodeId) → c1.isEvictable j = c.isEvictable j := by
    intro j hj
    simp only [Set.mem_insert_iff, not_or] at hj
    refine isEvictable_congr ?_
    have hfind1 : c1.find = c2.find := rfl
    rw [hfind1, hfind, update_of_ne hj.2.2, update_of_ne hj.2.1, update_of_ne hj.1]
  have hev1 : EvictionInv c1.eviction c1.isEvictable {p, c.nextNode, i} :=
    (hev.weaken (Set.empty_subset _) hsame).stamp (by simp) _ _
  have hev2 := refreshEvictable_eviction hev1
    fun j hj => hj
  have hev3 := refreshEvictable_eviction hev2
    fun j hj => hj
  exact refreshEvictable_eviction hev3 fun j hj => Or.inl hj

end CoreInv

/-! ### Releasing a path -/

/-- A node without its refcount. -/
def Node.unref (n : Node) : Node := { n with refCount := 0 }

/-- The two states have the same nodes up to refcounts. -/
def SameNodes (c c' : RadixKVCache) : Prop :=
  ∀ j, (c'.find j).map Node.unref = (c.find j).map Node.unref

namespace SameNodes

variable {a b c : RadixKVCache} {j : NodeId} {n : Node}

theorem refl (c : RadixKVCache) : SameNodes c c := fun _ => rfl

theorem symm (h : SameNodes a b) : SameNodes b a := fun j => (h j).symm

theorem trans (h : SameNodes a b) (h' : SameNodes b c) : SameNodes a c :=
  fun j => (h' j).trans (h j)

theorem find (h : SameNodes a b) (hj : a.find j = some n) : ∃ n', b.find j = some n' ∧ n'.unref = n.unref := by
  have heq := h j
  rw [hj, Option.map_some, Option.map_eq_some_iff] at heq
  exact heq

end SameNodes

theorem Node.unref_eq {n n' : Node} (h : n'.unref = n.unref) :
    n'.key = n.key ∧ n'.pages = n.pages ∧ n'.children = n.children ∧ n'.parent = n.parent ∧
      n'.computed = n.computed := by
  cases n
  obtain ⟨rfl, rfl, rfl, rfl, _, rfl, _, _⟩ := h
  exact ⟨rfl, rfl, rfl, rfl, rfl⟩

theorem SameNodes.keeps {a b : RadixKVCache} (h : SameNodes a b) (hnext : b.nextNode = a.nextNode)
    (X : Set NodeId) : Keeps X a b where
  next_le := hnext.ge
  old := by
    intro i n' hi _
    obtain ⟨n, hn, heq⟩ := h.symm.find hi
    have hcomp := (Node.unref_eq heq).2.2.2.2
    exact ⟨n, hn, fun _ => hcomp.symm, fun hc => hcomp.symm.trans hc⟩

namespace CoreInv

variable {c : RadixKVCache} {holders : Multiset NodeId} {owned : Multiset PageId}
  {path : NodeId → List TokenId} {pagePath : NodeId → List PageId} {i p : NodeId} {n pn : Node}

/-- The release loop, with the ancestors of the current node as its measure. -/
theorem unlockLoop (keys : Finset NodeId) : ∀ (fuel : Nat) {c : RadixKVCache} {i : NodeId},
    (∀ j, j ∈ keys ↔ ∃ m, c.find j = some m) → (keys.filter fun j => path j <+: path i).card ≤ fuel →
    CoreInv c (i ::ₘ holders) owned path pagePath → EvictionInv c.eviction c.isEvictable ∅ →
    ∃ c', unlockLoop fuel c i = c' ∧ SameConfig c c' ∧ c'.pool = c.pool ∧
      c'.nextNode = c.nextNode ∧ c'.events = c.events ∧ SameNodes c c' ∧
      CoreInv c' holders owned path pagePath ∧ EvictionInv c'.eviction c'.isEvictable ∅ := by
  intro fuel
  induction fuel with
  | zero =>
    intro c i hkeys hcard h _
    have hmem : i ∈ keys.filter fun j => path j <+: path i :=
      Finset.mem_filter.mpr
        ⟨(hkeys i).mpr (h.held i (Multiset.mem_cons_self i holders)), prefix_rfl⟩
    rw [Finset.card_eq_zero.mp (Nat.le_zero.mp hcard)] at hmem
    exact absurd hmem (Finset.notMem_empty i)
  | succ fuel ih =>
    intro c i hkeys hcard h hev
    by_cases hroot : i = rootId
    · subst hroot
      refine ⟨c, ?_, SameConfig.refl c, rfl, rfl, rfl, SameNodes.refl c, h.drop_root, hev⟩
      simp [RadixKVCache.unlockLoop]
    · obtain ⟨n, hi⟩ := h.held i (Multiset.mem_cons_self i holders)
      obtain ⟨p, pn, hp, hpn, _⟩ := h.tree.up i n hi hroot
      let c1 : RadixKVCache := c.modifyNode i fun n => { n with refCount := n.refCount - 1 }
      let c2 : RadixKVCache := c1.refreshEvictable i
      have hfind : c2.find = update c.find i (some { n with refCount := n.refCount - 1 }) :=
        find_modifyNode hi _
      have hcore : CoreInv c2 (p ::ₘ holders) owned path pagePath :=
        (h.unlock hi hp rfl id).congr ⟨rfl, rfl, rfl⟩ rfl rfl rfl
      have hev2 : EvictionInv c2.eviction c2.isEvictable ∅ :=
        refreshEvictable_eviction (modifyNode_eviction hev _) fun j hj => Or.inl hj
      have hkeys2 : ∀ j, j ∈ keys ↔ ∃ m, c2.find j = some m := by
        intro j
        rw [hkeys j, hfind]
        by_cases hji : j = i
        · subst hji
          simp [hi]
        · rw [update_of_ne hji]
      have hcard2 : (keys.filter fun j => path j <+: path p).card ≤ fuel := by
        have hlt : (keys.filter fun j => path j <+: path p).card <
            (keys.filter fun j => path j <+: path i).card := by
          apply Finset.card_lt_card
          rw [Finset.ssubset_iff_of_subset]
          · refine ⟨i, Finset.mem_filter.mpr ⟨(hkeys i).mpr ⟨n, hi⟩, prefix_rfl⟩, ?_⟩
            intro hmem
            have hle := (Finset.mem_filter.mp hmem).2.length_le
            have hplt := h.tree.path_lt hi hroot hp
            omega
          · intro j hj
            obtain ⟨hjk, hjp⟩ := Finset.mem_filter.mp hj
            refine Finset.mem_filter.mpr ⟨hjk, ?_⟩
            exact (h.tree.isPathTree.prefix_edge_iff (h.tree.edge_of hi hroot hp) ((hkeys j).mp hjk)).mpr (Or.inr hjp)
        omega
      obtain ⟨c', hloop, hconf, hpool, hnext, hevents, hnodes, hcore', hev'⟩ :=
        ih hkeys2 hcard2 hcore hev2
      have hstep : SameConfig c c2 := ⟨⟨rfl, rfl, rfl⟩, rfl, rfl⟩
      refine ⟨c', ?_, hstep.trans hconf, hpool, hnext, hevents, SameNodes.trans ?_ hnodes, hcore', hev'⟩
      · have hnode : (((c.modifyNode i fun n => { n with refCount := n.refCount - 1 }).refreshEvictable i).node i).parent =
            some p := by
          rw [node_of_find (by rw [hfind, update_self])]
          exact hp
        rw [RadixKVCache.unlockLoop, if_neg hroot]
        simp only [hnode]
        exact hloop
      · intro j
        rw [hfind]
        by_cases hji : j = i
        · subst hji
          rw [update_self, hi]
          rfl
        · rw [update_of_ne hji]

/-- **`_unlock_path`** gives up one holder and touches nothing but refcounts. -/
theorem unlockPath (h : CoreInv c (i ::ₘ holders) owned path pagePath) (hev : EvictionInv c.eviction c.isEvictable ∅) :
    ∃ c', c.unlockPath i = c' ∧ SameConfig c c' ∧ c'.pool = c.pool ∧
      c'.nextNode = c.nextNode ∧ c'.events = c.events ∧ SameNodes c c' ∧
      CoreInv c' holders owned path pagePath ∧ EvictionInv c'.eviction c'.isEvictable ∅ := by
  have hkeys : ∀ j, j ∈ c.nodes.keys.toFinset ↔ ∃ m, c.find j = some m := by
    intro j
    rw [mem_toFinset]
    exact mem_iff_lookup
  refine unlockLoop c.nodes.keys.toFinset _ hkeys ?_ h hev
  calc (c.nodes.keys.toFinset.filter fun j => path j <+: path i).card
      ≤ c.nodes.keys.toFinset.card := Finset.card_filter_le _ _
    _ ≤ c.nodes.keys.length := toFinset_card_le _
    _ = c.nodes.entries.length := length_map _

end CoreInv

end Kairyu
