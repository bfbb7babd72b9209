/-
  Kairyu/RadixReclaim.lean
  ========================
  **Taking nodes out of the tree.**

  A leaf that nobody holds can be unlinked; `_ensure_free` does so, oldest first,
  until enough pages are free.  It never raises and it never removes a held node.
-/
import Kairyu.RadixEdits

namespace Kairyu

open Function RadixKVCache

/-- State `c'` has lost some nodes of `c` and is otherwise the same tree. -/
def Shrinks (c c' : RadixKVCache) : Prop :=
  ∀ j n', c'.find j = some n' → ∃ n, c.find j = some n ∧ n' = { n with children := n'.children } ∧
    (n.children.entries = [] → n'.children.entries = [])

namespace Shrinks

variable {a b c : RadixKVCache}

theorem refl (c : RadixKVCache) : Shrinks c c := fun _ n' h => ⟨n', h, rfl, id⟩

theorem of_find (h : b.find = a.find) : Shrinks a b := fun _ n' hj => ⟨n', h ▸ hj, rfl, id⟩

theorem trans (h : Shrinks a b) (h' : Shrinks b c) : Shrinks a c := by
  intro j n'' hj
  obtain ⟨n', hn', heq', hleaf'⟩ := h' j n'' hj
  obtain ⟨n, hn, heq, hleaf⟩ := h j n' hn'
  refine ⟨n, hn, ?_, fun hnil => hleaf' (hleaf hnil)⟩
  rw [heq', heq]

theorem keeps (h : Shrinks a b) (hnext : b.nextNode = a.nextNode) (X : Set NodeId) : Keeps X a b where
  next_le := hnext.ge
  old := by
    intro i n' hi _
    obtain ⟨n, hn, heq, _⟩ := h i n' hi
    have hcomp : n'.computed = n.computed := by rw [heq]
    exact ⟨n, hn, fun _ => hcomp, fun hc => hcomp.trans hc⟩

/-- What is pending stays pending while nodes are evicted around it. -/
theorem pending {holders : Multiset NodeId} {owner : NodeId → List PageId → Prop}
    {Y : Set NodeId} (h : Shrinks a b) (hp : PendingInv a.find holders owner Y) :
    PendingInv b.find holders owner Y := by
  intro j n' hj hcomp hY
  obtain ⟨n, hn, heq, hleaf⟩ := h j n' hj
  have hcomp' : n.computed = false := by rw [heq] at hcomp; exact hcomp
  obtain ⟨hnil, hcount, hown⟩ := hp j n hn hcomp' hY
  have hpages : n'.pages = n.pages := by rw [heq]
  exact ⟨hleaf hnil, hcount, by rw [hpages]; exact hown⟩

end Shrinks

namespace CoreInv

variable {c : RadixKVCache} {holders : Multiset NodeId} {owned : Multiset PageId}
  {path : NodeId → List TokenId} {pagePath : NodeId → List PageId} {i p : NodeId} {n pn : Node}

theorem find_detach (hi : c.find i = some n) (hp : n.parent = some p) (hpn : c.find p = some pn) :
    (c.detach i).find = update (update c.find p
      (some { pn with children := pn.children.erase (n.key.take c.pageSize) })) i none := by
  unfold detach
  rw [node_of_find hi]
  simp only [hp]
  rw [← find_modifyNode hpn fun pn =>
    { pn with children := pn.children.erase (n.key.take c.pageSize) }]
  funext j
  rw [update_apply]
  exact AList.lookup_erase_if _ i j

theorem detach_eq (c : RadixKVCache) (i : NodeId) : c.detach i = { c with nodes := (c.detach i).nodes } := by
  unfold detach
  simp only
  split
  · rfl
  · rfl

theorem detach_config (c : RadixKVCache) (i : NodeId) : SameConfig c (c.detach i) := by
  rw [detach_eq]
  exact ⟨⟨rfl, rfl, rfl⟩, rfl, rfl⟩

theorem detach_shrinks (h : CoreInv c holders owned path pagePath) (hi : c.find i = some n)
    (hp : n.parent = some p) (hpn : c.find p = some pn) : Shrinks c (c.detach i) := by
  intro j m hj
  rw [find_detach hi hp hpn] at hj
  by_cases hji : j = i
  · rw [hji, update_self] at hj
    cases hj
  rw [update_of_ne hji] at hj
  rcases of_update_some hj with ⟨rfl, rfl⟩ | ⟨hjp, hj⟩
  · refine ⟨pn, hpn, rfl, fun hnil => ?_⟩
    exact absurd hnil (h.tree.parent_children hi (h.tree.root_parent hi hp) hp hpn)
  · exact ⟨m, hj, rfl, id⟩

/-- Unlinking a leaf that nobody holds hands its pages to the caller. -/
theorem detach (h : CoreInv c holders owned path pagePath) (hi : c.find i = some n)
    (hleaf : n.children.entries = []) (hp : n.parent = some p) (hpn : c.find p = some pn)
    (hfree : i ∉ holders) : CoreInv (c.detach i) holders (↑n.pages + owned) path pagePath := by
  have hpi : p ≠ i := h.tree.parent_ne hi (h.tree.root_parent hi hp) hp
  have hfind := find_detach hi hp hpn
  have hconf := detach_config c i
  have hpool : (c.detach i).pool = c.pool := by rw [detach_eq]
  have hnext : (c.detach i).nextNode = c.nextNode := by rw [detach_eq]
  have hshrink := h.detach_shrinks hi hp hpn
  refine ⟨?_, ?_, ?_, ?_, ?_, ?_⟩
  · rw [hconf.pageSize, hnext]
    exact h.tree.remove_leaf hi hleaf hp hpn hfind
  · intro j m before hj hpath
    rw [hconf.chain, hconf.pageSize]
    obtain ⟨m', hm', heq, _⟩ := hshrink j m hj
    rw [heq] at hpath ⊢
    exact h.hash j m' before hm' hpath
  · rw [hpool, hconf.numPages]
    exact h.pool_size
  · have htotal : c.treePages = ↑n.pages + (c.detach i).treePages := by
      have hlook : (c.nodes.modify p fun parent =>
          { parent with children := parent.children.erase (n.key.take c.pageSize) }).lookup i =
          some n := by
        rw [AList.lookup_modify_ne _ hpi.symm]
        exact hi
      have hsum := AList.total_eq_of_lookup hlook fun m => (m.pages : Multiset PageId)
      rw [AList.total_modify] at hsum
      · unfold RadixKVCache.detach
        rw [node_of_find hi]
        simp only [hp]
        exact hsum
      · exact fun _ _ => rfl
    have hpart := h.partition
    rw [htotal] at hpart
    rw [hpool, hconf.numPages, ← hpart]
    abel
  · intro k hk
    obtain ⟨m, hm⟩ := h.held k hk
    have hki : k ≠ i := fun hki => hfree (hki ▸ hk)
    rw [hfind, update_of_ne hki]
    by_cases hkp : k = p
    · exact ⟨_, by rw [hkp, update_self]⟩
    · exact ⟨m, by rw [update_of_ne hkp]; exact hm⟩
  · intro j m hj hroot
    obtain ⟨m', hm', heq, _⟩ := hshrink j m hj
    rw [heq]
    exact h.refs j m' hm' hroot

/-- After a leaf is unlinked only its parent awaits re-indexing. -/
theorem detach_eviction {X : Set NodeId} (hi : c.find i = some n) (hp : n.parent = some p) (hpn : c.find p = some pn)
    (hev : EvictionInv c.eviction c.isEvictable X) (hX : ∀ j ∈ X, j = i) :
    EvictionInv (c.eviction.invalidate i) (c.detach i).isEvictable {p} := by
  have hfind := find_detach hi hp hpn
  have hgone : (c.detach i).isEvictable i = false := by
    rw [← Bool.not_eq_true, isEvictable_iff]
    rintro ⟨_, m, hm, _⟩
    rw [hfind, update_self] at hm
    cases hm
  have hsame : ∀ j, j ∉ ({i, p} : Set NodeId) → (c.detach i).isEvictable j = c.isEvictable j := by
    intro j hj
    simp only [Set.mem_insert_iff, not_or] at hj
    refine isEvictable_congr ?_
    rw [hfind, update_of_ne hj.1, update_of_ne hj.2]
  have hwide : EvictionInv c.eviction (c.detach i).isEvictable {i, p} :=
    hev.weaken (fun j hj => Or.inl (hX j hj)) hsame
  exact hwide.invalidate (Or.inl hgone) fun j hj => hj

/-- Unlinking reads and writes the node store only. -/
theorem detach_with (c : RadixKVCache) (i : NodeId) (pool : PagePool) (eviction : EvictionIndex)
    (events : List KvEvent) : RadixKVCache.detach { c with pool, eviction, events } i =
      { c.detach i with pool, eviction, events } := by
  unfold RadixKVCache.detach
  rw [show RadixKVCache.node { c with pool, eviction, events } i = c.node i from rfl]
  simp only
  cases (c.node i).parent with
  | none => rfl
  | some p => rfl

/-- A leaf that nobody holds goes: its pages become free and its parent is re-indexed. -/
theorem remove {X : Set NodeId} (h : CoreInv c holders owned path pagePath)
    (hev : EvictionInv c.eviction c.isEvictable X) (hX : ∀ j ∈ X, j = i) (hi : c.find i = some n)
    (hleaf : n.children.entries = []) (hp : n.parent = some p) (hpn : c.find p = some pn) (hfree : i ∉ holders)
    (events : List KvEvent) : ∃ pool c', c.pool.free n.pages = .ok pool ∧
      (RadixKVCache.detach { c with pool, eviction := c.eviction.invalidate i, events } i).refreshEvictable p = c' ∧
      SameConfig c c' ∧ c'.nextNode = c.nextNode ∧ c'.nodes = (c.detach i).nodes ∧ Shrinks c c' ∧
      CoreInv c' holders owned path pagePath ∧ EvictionInv c'.eviction c'.isEvictable ∅ := by
  have hsub : (n.pages : Multiset PageId) ≤ c.treePages + owned := by
    obtain ⟨rest, hrest⟩ := treePages_of_find hi
    rw [hrest, add_assoc]
    exact Multiset.le_add_right _ _
  obtain ⟨pool, hpool, hlist, hnum⟩ := h.pool_free_ok hsub
  obtain ⟨⟨h1, h2, h3⟩, h4, h5⟩ := detach_config c i
  have hdetach : (c.detach i).pool = c.pool ∧ (c.detach i).nextNode = c.nextNode := by
    rw [detach_eq]
    exact ⟨rfl, rfl⟩
  -- seen from the final state, the node was unlinked before its pages were freed
  rw [← hdetach.1] at hlist hnum
  have hcore := (h.detach hi hleaf hp hpn hfree).pool_freed hlist hnum
  refine ⟨pool, _, hpool, rfl, ?_⟩
  rw [detach_with]
  exact ⟨⟨⟨h1, h2, h3⟩, h4, h5⟩, hdetach.2, rfl, h.detach_shrinks hi hp hpn, hcore.congr ⟨rfl, rfl, rfl⟩ rfl rfl rfl,
    RadixKVCache.refreshEvictable_eviction
      (detach_eviction hi hp hpn hev hX) fun j hj => Or.inl hj⟩

/-- **One eviction round**: the victim's pages become free, its node goes. -/
theorem evict {victim : NodeId} (h : CoreInv c holders owned path pagePath)
    (hev : EvictionInv c.eviction c.isEvictable {victim}) (hvictim : c.isEvictable victim = true) :
    ∃ c', c.evict victim = (.ok (), c') ∧ SameConfig c c' ∧ c'.nextNode = c.nextNode ∧
      Shrinks c c' ∧ c'.nodes.entries.length + 1 = c.nodes.entries.length ∧
      CoreInv c' holders owned path pagePath ∧ EvictionInv c'.eviction c'.isEvictable ∅ := by
  obtain ⟨hroot, n, hi, hleaf, hzero⟩ := isEvictable_iff.mp hvictim
  obtain ⟨p, pn, hp, hpn, _⟩ := h.tree.up victim n hi hroot
  have hpi : p ≠ victim := h.tree.parent_ne hi hroot hp
  have hemit : c.emitRemoved victim = { c with events := (c.emitRemoved victim).events } := by
    unfold emitRemoved
    split
    · rfl
    · rfl
  obtain ⟨pool, c', hpool, hgone, hconf, hnext, hnodes, hshrink, hcore, hev'⟩ := h.remove hev (fun j hj => hj) hi
    hleaf hp hpn (h.notMem_holders hi hroot hzero) (c.emitRemoved victim).events
  refine ⟨c', ?_, hconf, hnext, hshrink, ?_, hcore, hev'⟩
  · unfold RadixKVCache.evict
    rw [node_of_find hi, hemit]
    unfold RadixKVCache.freePages
    simp only [hpool, hp]
    rw [← hgone]
    rfl
  · rw [hnodes]
    unfold RadixKVCache.detach
    rw [node_of_find hi]
    simp only [hp]
    have hlook : (c.nodes.modify p fun parent =>
        { parent with children := parent.children.erase (n.key.take c.pageSize) }).lookup victim =
        some n := by
      rw [AList.lookup_modify_ne _ hpi.symm]
      exact hi
    rw [AList.length_erase_of_lookup hlook]
    exact AList.length_modify _ _ _

/-! ### Making room -/

theorem ensureFreeLoop (needed : Nat) : ∀ (fuel : Nat) {c : RadixKVCache}, c.nodes.entries.length ≤ fuel →
    CoreInv c holders owned path pagePath → EvictionInv c.eviction c.isEvictable ∅ →
    ∃ b c', ensureFreeLoop needed fuel c = (.ok b, c') ∧ SameConfig c c' ∧
      c'.nextNode = c.nextNode ∧ Shrinks c c' ∧ CoreInv c' holders owned path pagePath ∧
      EvictionInv c'.eviction c'.isEvictable ∅ ∧ (b = true → needed ≤ c'.numFreePages) := by
  intro fuel
  induction fuel with
  | zero =>
    intro c hlen h _
    obtain ⟨r, hr, _⟩ := h.tree.root
    have hnil : c.nodes.entries = [] := List.eq_nil_of_length_eq_zero (Nat.le_zero.mp hlen)
    have hnone : c.find rootId = none := AList.lookup_of_eq_empty hnil rootId
    rw [hnone] at hr
    cases hr
  | succ fuel ih =>
    intro c hlen h hev
    unfold RadixKVCache.ensureFreeLoop
    by_cases henough : needed ≤ c.numFreePages
    · rw [if_pos henough]
      exact ⟨true, c, rfl, SameConfig.refl c, rfl, Shrinks.refl c, h, hev, fun _ => henough⟩
    rw [if_neg henough]
    rcases hev.popOldest with ⟨e', hpop, hev', _⟩ | ⟨victim, e', hpop, hvictim, hev'⟩
    · rw [hpop]
      exact ⟨false, { c with eviction := e' }, rfl, ⟨⟨rfl, rfl, rfl⟩, rfl, rfl⟩, rfl,
        Shrinks.of_find rfl, h.congr ⟨rfl, rfl, rfl⟩ rfl rfl rfl, hev', fun ht => (by cases ht)⟩
    · rw [hpop]
      have hcore : CoreInv { c with eviction := e' } holders owned path pagePath :=
        h.congr ⟨rfl, rfl, rfl⟩ rfl rfl rfl
      obtain ⟨c1, hrun, hconf, hnext, hshrink, hcount, hcore1, hev1⟩ :=
        hcore.evict hev' hvictim
      have hlen1 : c1.nodes.entries.length ≤ fuel := by
        have hcount' : c1.nodes.entries.length + 1 = c.nodes.entries.length := hcount
        omega
      obtain ⟨b, c', hloop, hconf', hnext', hshrink', hcore', hev2, htrue⟩ := ih hlen1 hcore1 hev1
      refine ⟨b, c', ?_,
        SameConfig.trans ⟨⟨hconf.pageSize, hconf.numPages, hconf.chain⟩, hconf.pins, hconf.allocTick⟩ hconf',
        hnext'.trans hnext, Shrinks.trans hshrink hshrink', hcore', hev2, htrue⟩
      simp only [hrun]
      exact hloop

/-- **`_ensure_free`** keeps the invariant and reports success when there is room. -/
theorem ensureFree (h : CoreInv c holders owned path pagePath)
    (hev : EvictionInv c.eviction c.isEvictable ∅) (needed : Nat) :
    ∃ b c', c.ensureFree needed = (.ok b, c') ∧ SameConfig c c' ∧
      c'.nextNode = c.nextNode ∧ Shrinks c c' ∧ CoreInv c' holders owned path pagePath ∧
      EvictionInv c'.eviction c'.isEvictable ∅ ∧ (b = true → needed ≤ c'.numFreePages) :=
  ensureFreeLoop needed _ le_rfl h hev

end CoreInv

end Kairyu
