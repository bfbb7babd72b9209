/-
  Kairyu/RadixMap.lean
  ====================
  **The radix tree as a flat prefix map.**

  `RadixKVCache.Maps` reads the map off the tree by following parents: a computed
  node assigns each of its pages to the tokens from the root up to that page.  In
  every state of a run this is the map `Cached` of the invariant, so both walks
  stop at its longest stored prefix, and neither a walk nor a split changes it.
-/
import Kairyu.RadixRuns

namespace Kairyu

open Function List Nat

/-- The tokens on the path from the root to a node. -/
inductive RadixKVCache.Spells (c : RadixKVCache) : NodeId → List TokenId → Prop
  | root : c.Spells rootId []
  | child {p i : NodeId} {n : Node} {before : List TokenId} (h : c.Spells p before)
      (hi : c.nodes.lookup i = some n) (hp : n.parent = some p) : c.Spells i (before ++ n.key)

/-- The map from page-aligned token prefixes whose node is computed to page ids. -/
def RadixKVCache.Maps (c : RadixKVCache) (pre : List TokenId) (page : PageId) : Prop :=
  ∃ p i n before k, c.Spells p before ∧ c.nodes.lookup i = some n ∧ n.parent = some p ∧
    n.computed = true ∧ n.pages[k]? = some page ∧
    pre = before ++ n.key.take ((k + 1) * c.pageSize)

/-- `length` is how far the map stores page-aligned prefixes of `tokens`. -/
def RadixKVCache.LongestMapped (c : RadixKVCache) (tokens : List TokenId) (length : Nat) : Prop :=
  length ≤ tokens.length ∧ c.pageSize ∣ length ∧
    (0 < length → ∃ page, c.Maps (tokens.take length) page) ∧
    ∀ k, k * c.pageSize ≤ tokens.length →
      (∃ page, c.Maps (tokens.take (k * c.pageSize)) page) → k * c.pageSize ≤ length

/-! ### The map of the invariant -/

section Map

variable {c : RadixKVCache} {owner : NodeId → List PageId → Prop} {holders : Multiset NodeId}
  {owned : Multiset PageId} {path : NodeId → List TokenId} {pagePath : NodeId → List PageId}
  {i p : NodeId} {n : Node} {pre : List TokenId} {page : PageId}

section

variable (h : CoreInv c holders owned path pagePath)
include h

theorem spells_iff (hi : c.find i = some n) {w : List TokenId} : c.Spells i w ↔ w = path i := by
  constructor
  · intro hsp
    clear hi
    induction hsp with
    | root => exact h.tree.root_path.symm
    | child _ hi hp ih =>
      obtain ⟨_, _, _, hpath, _⟩ := h.tree.parent_of hi (h.tree.root_parent hi hp) hp
      rw [hpath, ih]
  · rintro rfl
    refine h.tree.climb (P := fun i => c.Spells i (path i)) ?_ ?_ hi
    · rw [h.tree.root_path]
      exact .root
    · intro i p n pn hi hroot hp _ ih
      obtain ⟨_, _, _, hpath, _⟩ := h.tree.parent_of hi hroot hp
      rw [hpath]
      exact .child ih hi hp

/-- An entry belongs to one page of one computed node. -/
theorem maps_iff : c.Maps pre page ↔ ∃ p i n k, c.find i = some n ∧ n.parent = some p ∧ n.computed = true ∧
      n.pages[k]? = some page ∧ pre = path p ++ n.key.take ((k + 1) * c.pageSize) := by
  have hparent : ∀ {i p : NodeId} {n : Node}, c.find i = some n → n.parent = some p →
      ∃ pn, c.find p = some pn := by
    intro i p n hi hp
    obtain ⟨pn, hpn, _⟩ := h.tree.parent_of hi (h.tree.root_parent hi hp) hp
    exact ⟨pn, hpn⟩
  constructor
  · rintro ⟨p, i, n, before, k, hsp, hi, hp, hcomp, hpage, hpre⟩
    obtain ⟨pn, hpn⟩ := hparent hi hp
    rw [(spells_iff h hpn).mp hsp] at hpre
    exact ⟨p, i, n, k, hi, hp, hcomp, hpage, hpre⟩
  · rintro ⟨p, i, n, k, hi, hp, hcomp, hpage, hpre⟩
    obtain ⟨pn, hpn⟩ := hparent hi hp
    exact ⟨p, i, n, path p, k, (spells_iff h hpn).mpr rfl, hi, hp, hcomp, hpage, hpre⟩

/-- A page of a node sits behind the pages of its parent's path. -/
theorem take_path_of_parent (hi : c.find i = some n) (hp : n.parent = some p) (k : Nat) :
    (path i).take (((pagePath p).length + k + 1) * c.pageSize) = path p ++ n.key.take ((k + 1) * c.pageSize) := by
  obtain ⟨pn, hpn, _, hpath, _⟩ := h.tree.parent_of hi (h.tree.root_parent hi hp) hp
  have hlen : ((pagePath p).length + k + 1) * c.pageSize =
      (path p).length + (k + 1) * c.pageSize := by
    rw [h.tree.length_path hpn, add_assoc, add_mul]
  rw [hpath, hlen, take_length_add_append]

end

theorem CacheInv.maps_iff_cached (h : CacheInv c owner holders owned path pagePath) :
    c.Maps pre page ↔ Cached c path pagePath pre page := by
  rw [maps_iff h.core]
  constructor
  · rintro ⟨p, i, n, k, hi, hp, hcomp, hpage, hpre⟩
    obtain ⟨pn, hpn, _, _, hpages⟩ := h.core.tree.parent_of hi (h.core.tree.root_parent hi hp) hp
    refine ⟨i, n, (pagePath p).length + k, hi, hcomp, ?_, ?_⟩
    · rw [hpages, List.getElem?_append_right (Nat.le_add_right _ _), Nat.add_sub_cancel_left]
      exact hpage
    · rw [hpre, take_path_of_parent h.core hi hp]
  · rintro ⟨i, n, m, hi, hcomp, hpage, hpre⟩
    -- climb to the node that holds page `m` of the path; its ancestors are computed too
    refine h.core.tree.climb (P := fun i => ∀ n, c.find i = some n → n.computed = true →
      (pagePath i)[m]? = some page → pre = (path i).take ((m + 1) * c.pageSize) →
      ∃ p i n k, c.find i = some n ∧ n.parent = some p ∧ n.computed = true ∧
        n.pages[k]? = some page ∧ pre = path p ++ n.key.take ((k + 1) * c.pageSize))
      ?_ ?_ hi n hi hcomp hpage hpre
    · intro n _ _ hpage _
      rw [h.core.tree.root_pages] at hpage
      cases hpage
    · intro i p n pn hi hroot hp hpn ih n' hi' hcomp hpage hpre
      cases hi.symm.trans hi'
      obtain ⟨_, _, _, hpath, hpages⟩ := h.core.tree.parent_of hi hroot hp
      rw [hpages] at hpage
      by_cases hm : m < (pagePath p).length
      · have hpcomp := h.computed_of_child hpn (h.core.tree.parent_children hi hroot hp hpn)
        rw [List.getElem?_append_left hm] at hpage
        refine ih pn hpn hpcomp hpage ?_
        rw [hpre, hpath, take_append_of_le_length]
        rw [h.core.tree.length_path hpn]
        exact mul_le_mul_right _ hm
      · have hle := not_lt.mp hm
        rw [List.getElem?_append_right hle] at hpage
        refine ⟨p, i, n, m - (pagePath p).length, hi, hp, hcomp, hpage, ?_⟩
        rw [hpre, ← take_path_of_parent h.core hi hp, Nat.add_sub_cancel' hle]

/-! ### Splitting -/

/-- Cutting a node in two, computed or not, moves its entries to the halves. -/
theorem split_maps (h : CacheInv c owner holders owned path pagePath) (hi : c.find i = some n)
    (hp : n.parent = some p) {keep : Nat} (hkeep : 0 < keep) (hlt : keep < n.pages.length) :
    ∃ c', c.split i keep = (.ok c.nextNode, c') ∧ ∀ pre page, c'.Maps pre page ↔ c.Maps pre page := by
  have hroot := h.core.tree.root_parent hi hp
  obtain ⟨pn, hpn, _⟩ := h.core.tree.parent_of hi hroot hp
  have hinext : i ≠ c.nextNode := h.core.tree.ne_next hi
  have hpnext : p ≠ c.nextNode := h.core.tree.ne_next hpn
  obtain ⟨c', upper, lower, hrun, hconf, _, _, hfind, hukey, hupages, huparent, hucomp, _, hlcomp, _,
    hlkey, hlpages, hlparent, hcore, _⟩ := h.core.split h.eviction hi hp hpn hkeep hlt
  have hupper : c'.find c.nextNode = some upper := by
    rw [hfind, update_of_ne hinext.symm, update_self]
  have hlower : c'.find i = some lower := by rw [hfind, update_self]
  have hpath : ∀ {j q : NodeId} {m : Node}, c.find j = some m → m.parent = some q →
      update path c.nextNode (path p ++ n.key.take (keep * c.pageSize)) q = path q := by
    intro j q m hj hq
    obtain ⟨qn, hqn, _⟩ := h.core.tree.parent_of hj (h.core.tree.root_parent hj hq) hq
    rw [update_of_ne (h.core.tree.ne_next hqn)]
  refine ⟨c', hrun, fun pre page => ?_⟩
  rw [maps_iff h.core, maps_iff hcore, hconf.pageSize]
  constructor
  · rintro ⟨q, j, m, k, hj, hq, hcomp, hpage, hpre⟩
    by_cases hji : j = i
    · -- an entry of the lower half
      subst hji
      rw [hlower] at hj
      cases hj
      rw [hlparent] at hq
      cases hq
      refine ⟨p, j, n, keep + k, hi, hp, hlcomp.symm.trans hcomp, ?_, ?_⟩
      · rw [hlpages, List.getElem?_drop] at hpage
        exact hpage
      · have hk : (keep + k + 1) * c.pageSize = keep * c.pageSize + (k + 1) * c.pageSize := by
          rw [add_assoc, add_mul]
        rw [hpre, update_self, hlkey, append_assoc, hk, take_add]
    by_cases hjn : j = c.nextNode
    · -- an entry of the upper half
      subst hjn
      rw [hupper] at hj
      cases hj
      rw [huparent] at hq
      cases hq
      rw [hupages] at hpage
      have hk : k < keep := by
        have hlen := (List.getElem?_eq_some_iff.mp hpage).1
        rw [length_take] at hlen
        omega
      rw [List.getElem?_take_of_lt hk] at hpage
      refine ⟨p, i, n, k, hi, hp, hucomp.symm.trans hcomp, hpage, ?_⟩
      rw [hpre, update_of_ne hpnext, hukey, take_take, min_eq_left (mul_le_mul_right _ hk)]
    · rw [hfind, update_of_ne hji, update_of_ne hjn] at hj
      obtain ⟨m', _, hm', rfl⟩ := RadixKVCache.find_of_relink hpn hj
      rw [hpath hm' hq] at hpre
      exact ⟨q, j, m', k, hm', hq, hcomp, hpage, hpre⟩
  · rintro ⟨q, j, m, k, hj, hq, hcomp, hpage, hpre⟩
    by_cases hji : j = i
    · subst hji
      rw [hi] at hj
      cases hj
      rw [hp] at hq
      cases hq
      rcases lt_or_ge k keep with hk | hk
      · refine ⟨p, c.nextNode, upper, k, hupper, huparent, hucomp.trans hcomp, ?_, ?_⟩
        · rw [hupages, List.getElem?_take_of_lt hk]
          exact hpage
        · rw [hpre, update_of_ne hpnext, hukey, take_take, min_eq_left (mul_le_mul_right _ hk)]
      · refine ⟨c.nextNode, j, lower, k - keep, hlower, hlparent, hlcomp.trans hcomp, ?_, ?_⟩
        · rw [hlpages, List.getElem?_drop, Nat.add_sub_cancel' hk]
          exact hpage
        · have hk' : (k + 1) * c.pageSize = keep * c.pageSize + (k - keep + 1) * c.pageSize := by
            rw [← add_mul]
            congr 1
            omega
          rw [hpre, update_self, hlkey, append_assoc, hk', take_add]
    · have hjn : j ≠ c.nextNode := h.core.tree.ne_next hj
      obtain ⟨own, hown⟩ := RadixKVCache.find_relink hpn _ hj
      refine ⟨q, j, { m with children := own }, k, ?_, hq, hcomp, hpage, ?_⟩
      · rw [hfind, update_of_ne hji, update_of_ne hjn]
        exact hown
      · rw [hpath hj hq]
        exact hpre

end Map

/-! ### Every state of a run -/

section Runs

variable {numPages pageSize : Nat} {chain : Option (List TokenId → BlockHash)} {s : Ledger}

theorem LongestStored.longestMapped {c : RadixKVCache} {owner : NodeId → List PageId → Prop}
    {holders : Multiset NodeId} {owned : Multiset PageId} {path : NodeId → List TokenId}
    {pagePath : NodeId → List PageId} (h : CacheInv c owner holders owned path pagePath)
    {tokens : List TokenId} {position : Nat}
    (hlong : LongestStored c.pageSize (Cached c path pagePath) tokens position) : c.LongestMapped tokens position := by
  obtain ⟨q, rfl⟩ := hlong.aligned
  refine ⟨hlong.le, ⟨q, rfl⟩, ?_, ?_⟩
  · intro hq
    have hq' : 0 < q := Nat.pos_of_mul_pos_left hq
    obtain ⟨page, hpage⟩ := hlong.reached q hq' (by rw [mul_comm])
    exact ⟨page, h.maps_iff_cached.mpr (by rw [mul_comm]; exact hpage)⟩
  · rintro k hk ⟨page, hpage⟩
    by_contra hlt
    -- a longer entry has the one just behind `position` below it
    have hqk : q + 1 ≤ k := by
      by_contra hle
      exact hlt (by rw [mul_comm]; exact mul_le_mul_left _ (by omega))
    have hlen : (tokens.take (k * c.pageSize)).length = k * c.pageSize := length_take_of_le hk
    obtain ⟨page', hpage'⟩ := Cached.shorter h.core (h.maps_iff_cached.mp hpage) (succ_pos q)
      (by rw [hlen]; exact mul_le_mul_right _ hqk)
    have hnext : c.pageSize * q + c.pageSize = (q + 1) * c.pageSize := by
      rw [add_mul, one_mul, mul_comm]
    rw [take_take, min_eq_left (mul_le_mul_right _ hqk)] at hpage'
    refine hlong.maximal ?_ page' ?_
    · rw [hnext]
      exact (mul_le_mul_right _ hqk).trans hk
    · rw [hnext]
      exact hpage'

/-- The allocation of a three-token prompt in pages of two: one full page, one tail. -/
def firstPrompt : KVAllocation :=
  { tokens := [1, 2, 3], cachedPages := [], newFullPages := [0], tailPage := some 1, node := 1
    pageSize := 2 }

/-- The ledger once its prefill is done. -/
def warmed (c : RadixKVCache) : Ledger := ((admitted c).call (.markComputed firstPrompt)).2

end Runs

end Kairyu
