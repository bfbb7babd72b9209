/-
  Kairyu/RadixWalk.lean
  =====================
  **`peek_cached_tokens` and `_match_and_lock` find the longest stored prefix.**

  Both walks go down from the root, a computed child at a time.  A walk at node
  `i` has read the first `position` tokens, which are the path of `i`; it stops
  when the next page is incomplete, not stored, or not computed.  The locking walk
  also splits the last node when it matches only part of it, which leaves the
  stored map alone.
-/
import Kairyu.RadixPrefix

namespace Kairyu

open Function List RadixKVCache Nat

/-- The invariant between the steps of a call: core facts, pending nodes with
    their owner, and an exact eviction index. -/
structure CacheInv (c : RadixKVCache) (owner : NodeId → List PageId → Prop)
    (holders : Multiset NodeId) (owned : Multiset PageId) (path : NodeId → List TokenId)
    (pagePath : NodeId → List PageId) : Prop where
  core : CoreInv c holders owned path pagePath
  pending : PendingInv c.find holders owner ∅
  eviction : EvictionInv c.eviction c.isEvictable ∅

/-- The step kept every node and reference, the free pages and the stored map. -/
structure SameStore (c c' : RadixKVCache) (path path' : NodeId → List TokenId)
    (pagePath pagePath' : NodeId → List PageId) : Prop where
  config : SameConfig c c'
  pool : c'.pool = c.pool
  keeps : Keeps ∅ c c'
  kept : ∀ j m, c.find j = some m → ∃ m', c'.find j = some m' ∧ m'.computed = m.computed ∧
    path' j = path j ∧ pagePath' j = pagePath j
  cached : ∀ pre page, Cached c' path' pagePath' pre page ↔ Cached c path pagePath pre page

namespace SameStore

variable {c c' c'' : RadixKVCache} {path path' path'' : NodeId → List TokenId}
  {pagePath pagePath' pagePath'' : NodeId → List PageId}

theorem trans (h : SameStore c c' path path' pagePath pagePath')
    (h' : SameStore c' c'' path' path'' pagePath' pagePath'') : SameStore c c'' path path'' pagePath pagePath'' where
  config := h.config.trans h'.config
  pool := h'.pool.trans h.pool
  keeps := h.keeps.trans h'.keeps
  kept := by
    intro j m hj
    obtain ⟨m', hm', hcomp, hpath, hpages⟩ := h.kept j m hj
    obtain ⟨m'', hm'', hcomp', hpath', hpages'⟩ := h'.kept j m' hm'
    exact ⟨m'', hm'', hcomp'.trans hcomp, hpath'.trans hpath, hpages'.trans hpages⟩
  cached := fun pre page => (h'.cached pre page).trans (h.cached pre page)

theorem of_sameNodes (hconf : SameConfig c c') (hpool : c'.pool = c.pool)
    (hnext : c'.nextNode = c.nextNode) (hnodes : SameNodes c c') : SameStore c c' path path pagePath pagePath where
  config := hconf
  pool := hpool
  keeps := hnodes.keeps hnext ∅
  kept := by
    intro j m hj
    obtain ⟨m', hm', heq⟩ := hnodes.find hj
    exact ⟨m', hm', (Node.unref_eq heq).2.2.2.2, rfl, rfl⟩
  cached := fun _ _ => Cached.congr hconf.pageSize hnodes

end SameStore

/-- `position` is the length of the longest page-aligned prefix of `tokens` that
    `stored` holds. -/
structure LongestStored (pageSize : Nat) (stored : List TokenId → PageId → Prop)
    (tokens : List TokenId) (position : Nat) : Prop where
  le : position ≤ tokens.length
  aligned : pageSize ∣ position
  reached : ∀ k, 0 < k → k * pageSize ≤ position → ∃ page, stored (tokens.take (k * pageSize)) page
  maximal : position + pageSize ≤ tokens.length →
    ∀ page, ¬ stored (tokens.take (position + pageSize)) page

theorem LongestStored.unique {pageSize : Nat} {stored : List TokenId → PageId → Prop}
    {tokens : List TokenId} {a b : Nat}
    (ha : LongestStored pageSize stored tokens a) (hb : LongestStored pageSize stored tokens b) : a = b := by
  have haux : ∀ {a b : Nat}, LongestStored pageSize stored tokens a →
      LongestStored pageSize stored tokens b → ¬ a < b := by
    intro a b ha hb hlt
    obtain ⟨x, hx⟩ := ha.aligned
    obtain ⟨y, hy⟩ := hb.aligned
    have hxy : x < y := by
      rw [hx, hy] at hlt
      exact Nat.lt_of_mul_lt_mul_left hlt
    have hstep : a + pageSize = (x + 1) * pageSize := by
      rw [hx, succ_mul, mul_comm]
    have hle : (x + 1) * pageSize ≤ b := by
      rw [hy, mul_comm pageSize y]
      exact mul_le_mul_right _ hxy
    obtain ⟨page, hpage⟩ := hb.reached (x + 1) (succ_pos x) hle
    rw [← hstep] at hpage hle
    exact ha.maximal (hle.trans hb.le) page hpage
  exact le_antisymm (not_lt.mp (haux hb ha)) (not_lt.mp (haux ha hb))

namespace CacheInv

variable {c c' : RadixKVCache} {owner : NodeId → List PageId → Prop} {holders : Multiset NodeId}
  {owned : Multiset PageId} {path : NodeId → List TokenId} {pagePath : NodeId → List PageId}
  {tokens : List TokenId} {position : Nat} {i : NodeId} {n : Node}

section

variable (h : CacheInv c owner holders owned path pagePath)
include h

/-- A node with a child is computed. -/
theorem computed_of_child (hi : c.find i = some n) (hchild : n.children.entries ≠ []) : n.computed = true := by
  cases hcomp : n.computed with
  | true => rfl
  | false => exact absurd (h.pending i n hi hcomp (Set.notMem_empty i)).1 hchild

/-- The pages on the path of a computed node are what the map stores for it. -/
theorem stored_of_path (hi : c.find i = some n) (hcomp : n.computed = true) {k : Nat} (hk : 0 < k)
    (hle : k * c.pageSize ≤ (path i).length) :
    ∃ page, Cached c path pagePath ((path i).take (k * c.pageSize)) page := by
  have hk' : k - 1 < (pagePath i).length := by
    rw [h.core.tree.length_path hi] at hle
    have := Nat.le_of_mul_le_mul_right hle h.core.tree.page_pos
    omega
  exact ⟨_, i, n, k - 1, hi, hcomp, List.getElem?_eq_getElem hk', by rw [Nat.sub_add_cancel hk]⟩

/-- Whatever the map stores one page beyond node `i` hangs below a computed child
    of `i` that starts with that page. -/
theorem child_of_stored (hi : c.find i = some n) {block : List TokenId} {page : PageId}
    (hblock : block.length = c.pageSize) (hstored : ∃ rest, Cached c path pagePath (path i ++ block ++ rest) page) :
    ∃ k m, n.children.lookup block = some k ∧ c.find k = some m ∧ m.computed = true ∧
      ∀ rest page, Cached c path pagePath (path i ++ block ++ rest) page →
        ∃ j jn, c.find j = some jn ∧ path k <+: path j ∧ path i ++ block ++ rest <+: path j := by
  have hpos := h.core.tree.page_pos
  have hT := h.core.tree.isPathTree
  -- the child through which such a path runs
  have hthrough : ∀ {rest page}, Cached c path pagePath (path i ++ block ++ rest) page →
      ∃ k m j jn, n.children.lookup block = some k ∧ c.find k = some m ∧ m.computed = true ∧
        c.find j = some jn ∧ path k <+: path j ∧ path i ++ block ++ rest <+: path j := by
    rintro rest page ⟨j, jn, l, hj, hcomp, _, hpre⟩
    have hwhole : path i ++ block ++ rest <+: path j := by
      rw [hpre]
      exact take_prefix _ _
    have hblockj : path i ++ block <+: path j := (prefix_append _ _).trans hwhole
    have hij : path i <+: path j := (prefix_append _ _).trans hblockj
    have hne : i ≠ j := by
      rintro rfl
      have hle := hblockj.length_le
      rw [length_append] at hle
      omega
    obtain ⟨key, k, hedge, hkj⟩ := hT.edge_towards ⟨n, hi⟩ ⟨jn, hj⟩ hij hne
    have hkey := hT.page_le_edge hedge
    obtain ⟨m, pn, hk, hkroot, hkp, rfl, _⟩ := id hedge
    obtain ⟨qn, hqn, hlook, hkpath, _⟩ := h.core.tree.parent_of hk hkroot hkp
    rw [hi] at hqn
    cases hqn
    have hfirst : m.key.take c.pageSize = block := by
      refine hT.take_page_of_prefix hedge hblock ?_
      refine prefix_of_prefix_length_le hblockj hkj ?_
      rw [length_append, hkpath, length_append]
      omega
    rw [hfirst] at hlook
    refine ⟨k, m, j, jn, hlook, hk, ?_, hj, hkj, hwhole⟩
    -- an uncomputed child is a leaf, so it would be `j` itself
    cases hmc : m.computed with
    | true => rfl
    | false =>
      have hleaf := (h.pending k m hk hmc (Set.notMem_empty k)).1
      have hkj' := h.core.tree.eq_of_leaf hk hleaf hj hkj
      subst hkj'
      rw [hk] at hj
      cases hj
      rw [hmc] at hcomp
      exact hcomp
  obtain ⟨rest, hrest⟩ := hstored
  obtain ⟨k, m, _, _, hlook, hk, hcomp, _⟩ := hthrough hrest
  refine ⟨k, m, hlook, hk, hcomp, fun rest page hc => ?_⟩
  obtain ⟨k', m', j, jn, hlook', _, _, hj, hkj, hwhole⟩ := hthrough hc
  rw [hlook] at hlook'
  cases hlook'
  exact ⟨j, jn, hj, hkj, hwhole⟩

end

/-! ### One step down -/

/-- Where a walk may stop. -/
theorem longest_at (h : CacheInv c owner holders owned path pagePath) (hi : c.find i = some n)
    (hcomp : n.computed = true) (hle : position ≤ tokens.length) (haligned : c.pageSize ∣ position)
    (hpath : (path i).take position = tokens.take position) (hlong : position ≤ (path i).length)
    (hmax : position + c.pageSize ≤ tokens.length →
      ∀ page, ¬ Cached c path pagePath (tokens.take (position + c.pageSize)) page) :
    LongestStored c.pageSize (Cached c path pagePath) tokens position where
  le := hle
  aligned := haligned
  reached := by
    intro k hk hkle
    have heq : tokens.take (k * c.pageSize) = (path i).take (k * c.pageSize) := by
      have hcut := congrArg (List.take (k * c.pageSize)) hpath
      rw [take_take, take_take, min_eq_left hkle] at hcut
      exact hcut.symm
    rw [heq]
    exact h.stored_of_path hi hcomp hk (hkle.trans hlong)
  maximal := hmax

/-- A node's path is as long as the tokens read so far. -/
theorem walk_length (hpath : path i = tokens.take position) (hle : position ≤ tokens.length) :
    (path i).length = position := by
  rw [hpath, length_take, min_eq_left hle]

theorem walk_aligned (h : CacheInv c owner holders owned path pagePath) (hi : c.find i = some n)
    (hpath : path i = tokens.take position) (hle : position ≤ tokens.length) : c.pageSize ∣ position := by
  have hdvd := h.core.tree.isPathTree.page_dvd ⟨n, hi⟩
  rw [walk_length hpath hle] at hdvd
  exact hdvd

/-- Tokens read past node `i`. -/
theorem walk_take (hpath : path i = tokens.take position) (extra : Nat) :
    tokens.take (position + extra) = path i ++ (tokens.drop position).take extra := by
  rw [hpath, take_add]

section

variable (h : CacheInv c owner holders owned path pagePath) (hi : c.find i = some n)
include h hi

/-- A walk stops at a node without a computed child for the next page. -/
theorem longest_here
    (hcomp : n.computed = true) (hpath : path i = tokens.take position) (hle : position ≤ tokens.length)
    (hnone : ((tokens.drop position).take c.pageSize).length = c.pageSize → ∀ k,
      n.children.lookup ((tokens.drop position).take c.pageSize) = some k → (c.node k).computed = false) :
    LongestStored c.pageSize (Cached c path pagePath) tokens position := by
  refine h.longest_at hi hcomp hle (h.walk_aligned hi hpath hle) ?_ (walk_length hpath hle).ge ?_
  · rw [hpath, take_take, min_self]
  · intro hmore page hc
    have hfirst : ((tokens.drop position).take c.pageSize).length = c.pageSize := by
      rw [length_take, length_drop]
      omega
    rw [walk_take hpath] at hc
    obtain ⟨k, m, hlook, hk, hcomp, _⟩ :=
      h.child_of_stored hi hfirst ⟨[], by rw [append_nil]; exact hc⟩
    rw [← node_of_find hk, hnone hfirst k hlook] at hcomp
    cases hcomp

/-- **A step to a computed child**: how far the child agrees with the input. -/
theorem walk_step
    (hpath : path i = tokens.take position) {k : NodeId} {m : Node}
    (hfirst : ((tokens.drop position).take c.pageSize).length = c.pageSize)
    (hlook : n.children.lookup ((tokens.drop position).take c.pageSize) = some k)
    (hk : c.find k = some m) {common : Nat}
    (hcommon : common = commonPages c.pageSize (m.key.length / c.pageSize) (tokens.drop position) m.key) :
    m.parent = some i ∧ k ≠ rootId ∧ m.key.length / c.pageSize = m.pages.length ∧ 0 < common ∧ common ≤ m.pages.length ∧
    (tokens.drop position).take (common * c.pageSize) = m.key.take (common * c.pageSize) ∧
    position + common * c.pageSize ≤ tokens.length ∧
    (common < m.pages.length → position + common * c.pageSize + c.pageSize ≤ tokens.length → ∀ page,
      ¬ Cached c path pagePath (tokens.take (position + common * c.pageSize + c.pageSize)) page) := by
  have hpos := h.core.tree.page_pos
  obtain ⟨hkroot, m', hm', hparent, hblock⟩ := h.core.tree.down i n _ k hi hlook
  rw [hk] at hm'
  cases hm'
  obtain ⟨hne, hlen⟩ := h.core.tree.shape k m hk hkroot
  obtain ⟨qn, hqn, _, hkpath, _⟩ := h.core.tree.parent_of hk hkroot hparent
  have hwhole : m.key.length / c.pageSize = m.pages.length := by
    rw [hlen, Nat.mul_div_cancel _ hpos]
  have hwholepos : 0 < m.pages.length := length_pos_iff.mpr hne
  rw [hwhole] at hcommon
  have hle : common ≤ m.pages.length := by
    rw [hcommon]
    exact commonPages_le _ _ _
  have hcpos : 0 < common := by
    rw [hcommon]
    exact commonPages_pos hwholepos hblock.symm
  have heq : (tokens.drop position).take (common * c.pageSize) = m.key.take (common * c.pageSize) := by
    rw [hcommon]
    exact take_commonPages _ _ _
  have hkeylen : (m.key.take (common * c.pageSize)).length = common * c.pageSize := by
    rw [length_take, hlen]
    exact min_eq_left (mul_le_mul_right _ hle)
  have hroom : position + common * c.pageSize ≤ tokens.length := by
    rw [← heq, length_take, length_drop] at hkeylen
    have hcp : 0 < common * c.pageSize := Nat.mul_pos hcpos hpos
    omega
  refine ⟨hparent, hkroot, hwhole, hcpos, hle, heq, hroom, ?_⟩
  intro hlt hmore page hc
  -- the stored word runs through the child, so it agrees with the child's next page
  have hstep : position + common * c.pageSize + c.pageSize = position + (common + 1) * c.pageSize := by
    rw [succ_mul, add_assoc]
  rw [hstep, walk_take hpath] at hc
  have hsplit : (tokens.drop position).take ((common + 1) * c.pageSize) =
      (tokens.drop position).take c.pageSize ++
        ((tokens.drop position).drop c.pageSize).take (common * c.pageSize) := by
    rw [succ_mul, add_comm, take_add]
  rw [hsplit, ← append_assoc] at hc
  obtain ⟨k', m', hlook', hk', _, hall⟩ := h.child_of_stored hi hfirst ⟨_, hc⟩
  rw [hlook] at hlook'
  cases hlook'
  obtain ⟨j, jn, _, hkj, hword⟩ := hall _ _ hc
  rw [append_assoc, ← hsplit] at hword
  have hkeylen' : (common + 1) * c.pageSize ≤ m.key.length := by
    rw [hlen]
    exact mul_le_mul_right _ hlt
  have hkword : path i ++ m.key.take ((common + 1) * c.pageSize) <+: path j := by
    refine List.IsPrefix.trans ?_ hkj
    rw [hkpath, prefix_append_right_inj]
    exact take_prefix _ _
  have hlens : ((tokens.drop position).take ((common + 1) * c.pageSize)).length =
      (m.key.take ((common + 1) * c.pageSize)).length := by
    rw [length_take, length_take, min_eq_left hkeylen', length_drop]
    exact min_eq_left (by omega)
  have hpre : (tokens.drop position).take ((common + 1) * c.pageSize) <+:
      m.key.take ((common + 1) * c.pageSize) := by
    rw [← prefix_append_right_inj (path i)]
    refine prefix_of_prefix_length_le hword hkword ?_
    rw [length_append, length_append, hlens]
  rw [hcommon] at hlt hpre hlens
  exact take_commonPages_ne _ _ _ hlt (hpre.eq_of_length hlens)

end

/-! ### The read-only probe -/

section

variable (h : CacheInv c owner holders owned path pagePath)
include h

/-- The probe's loop stops at the longest stored prefix. -/
theorem peekLoop : ∀ (fuel : Nat)
    {i : NodeId} {n : Node} {position : Nat}, c.find i = some n → n.computed = true →
    path i = tokens.take position → position ≤ tokens.length → tokens.length < position + fuel →
    LongestStored c.pageSize (Cached c path pagePath) tokens (c.peekLoop tokens fuel i position).1 := by
  intro fuel
  have hpos := h.core.tree.page_pos
  induction fuel with
  | zero =>
    intro i n position _ _ _ hle hfuel
    omega
  | succ fuel ih =>
    intro i n position hi hcomp hpath hle hfuel
    have hlen := walk_length hpath hle
    unfold RadixKVCache.peekLoop
    simp only [node_of_find hi]
    by_cases hshort : ((tokens.drop position).take c.pageSize).length < c.pageSize
    · rw [if_pos hshort]
      exact h.longest_here hi hcomp hpath hle fun hfirst => absurd hfirst hshort.ne
    rw [if_neg hshort]
    have hfirst : ((tokens.drop position).take c.pageSize).length = c.pageSize :=
      le_antisymm (length_take_le _ _) (not_lt.mp hshort)
    cases hlook : n.children.lookup ((tokens.drop position).take c.pageSize) with
    | none =>
      refine h.longest_here hi hcomp hpath hle fun _ k hk => ?_
      cases hlook.symm.trans hk
    | some k =>
      obtain ⟨_, m, hk, _⟩ := h.core.tree.down i n _ k hi hlook
      simp only [node_of_find hk]
      by_cases hmc : m.computed = false
      · rw [if_pos hmc]
        refine h.longest_here hi hcomp hpath hle fun _ k' hk' => ?_
        cases hlook.symm.trans hk'
        rw [node_of_find hk]
        exact hmc
      rw [if_neg hmc]
      obtain ⟨hparent, hkroot, hwhole, hcpos, hcle, heq, hroom, hmax⟩ :=
        h.walk_step hi hpath hfirst hlook hk rfl
      obtain ⟨_, _, _, hkpath, _⟩ := h.core.tree.parent_of hk hkroot hparent
      have hkeylen := (h.core.tree.shape k m hk hkroot).2
      have hmtrue : m.computed = true := by simpa using hmc
      generalize commonPages c.pageSize (m.key.length / c.pageSize) (tokens.drop position) m.key =
        common at heq hroom hmax hcpos hcle ⊢
      rw [hwhole]
      by_cases hpart : common < m.pages.length
      · rw [if_pos hpart]
        have hbound : position + common * c.pageSize ≤ (path k).length := by
          rw [hkpath, length_append, hlen, hkeylen]
          exact Nat.add_le_add_left (Nat.mul_le_mul_right _ hcle) _
        refine h.longest_at hk hmtrue hroom ?_ ?_ hbound (hmax hpart)
        · exact Nat.dvd_add (h.walk_aligned hi hpath hle) (Nat.dvd_mul_left _ _)
        · rw [walk_take hpath, hkpath, ← hlen, take_append, Nat.add_sub_cancel_left,
            take_of_length_le (le_add_right _ _), hlen, heq]
      · rw [if_neg hpart]
        obtain rfl : common = m.pages.length := le_antisymm hcle (not_lt.mp hpart)
        rw [← hkeylen] at heq hroom
        rw [take_length] at heq
        refine ih hk hmtrue ?_ hroom ?_
        · rw [walk_take hpath, hkpath, heq]
        · have hpage := h.core.tree.page_le_key hk hkroot
          omega

/-- **`peek_cached_tokens` returns the length of the longest stored prefix.** -/
theorem peekCachedTokens (tokens : List TokenId) :
    LongestStored c.pageSize (Cached c path pagePath) tokens (c.peekCachedTokens tokens) := by
  obtain ⟨r, hr, _, _, _, hcomp⟩ := h.core.tree.root
  refine h.peekLoop _ hr hcomp ?_ (zero_le _) (by omega)
  rw [h.core.tree.root_path, take_zero]

end

/-! ### The locking walk -/

/-- Splitting a computed node keeps the invariant and the stored map. -/
theorem split (h : CacheInv c owner holders owned path pagePath) (hi : c.find i = some n)
    (hcomp : n.computed = true) {p : NodeId} (hp : n.parent = some p) {keep : Nat}
    (hkeep : 0 < keep) (hlt : keep < n.pages.length) :
    ∃ c' upper path' pagePath', c.split i keep = (.ok c.nextNode, c') ∧ c'.find c.nextNode = some upper ∧
      upper.key = n.key.take (keep * c.pageSize) ∧ upper.pages = n.pages.take keep ∧
      upper.parent = some p ∧ upper.computed = true ∧ SameStore c c' path path' pagePath pagePath' ∧
      CacheInv c' owner holders owned path' pagePath' := by
  have hroot := h.core.tree.root_parent hi hp
  obtain ⟨pn, hpn, _, hipath, hipages⟩ := h.core.tree.parent_of hi hroot hp
  have hpcomp : pn.computed = true :=
    h.computed_of_child hpn (h.core.tree.parent_children hi hroot hp hpn)
  have hinext : i ≠ c.nextNode := h.core.tree.ne_next hi
  obtain ⟨c', upper, lower, hrun, hconf, hpool, hnext, hfind, hukey, hupages, huparent, hucomp, _,
    hlcomp, _, _, _, _, hcore, hev⟩ := h.core.split h.eviction hi hp hpn hkeep hlt
  have hupper : c'.find c.nextNode = some upper := by
    rw [hfind, update_of_ne hinext.symm, update_self]
  -- how a node of the new state relates to the old one
  have hback : ∀ j m, c'.find j = some m → (j = c.nextNode ∧ m = upper) ∨
      ∃ m', c.find j = some m' ∧ m'.computed = m.computed ∧ (m.computed = false → m' = m) := by
    intro j m hj
    rw [hfind] at hj
    rcases of_update_some hj with ⟨rfl, rfl⟩ | ⟨hji, hj⟩
    · refine Or.inr ⟨n, hi, hlcomp.symm, fun hf => ?_⟩
      rw [hlcomp, hcomp] at hf
      cases hf
    rcases of_update_some hj with ⟨rfl, rfl⟩ | ⟨hjn, hj⟩
    · exact Or.inl ⟨rfl, rfl⟩
    rcases of_update_some hj with ⟨rfl, rfl⟩ | ⟨hjp, hj⟩
    · refine Or.inr ⟨pn, hpn, rfl, fun hf => ?_⟩
      rw [show pn.computed = false from hf] at hpcomp
      cases hpcomp
    · exact Or.inr ⟨m, hj, rfl, fun _ => rfl⟩
  have hfwd : ∀ j m, c.find j = some m → ∃ m', c'.find j = some m' ∧ m'.computed = m.computed ∧
      update path c.nextNode (path p ++ n.key.take (keep * c.pageSize)) j = path j ∧
      update pagePath c.nextNode (pagePath p ++ n.pages.take keep) j = pagePath j := by
    intro j m hj
    have hjn := h.core.tree.ne_next hj
    rw [update_of_ne hjn, update_of_ne hjn, hfind]
    by_cases hji : j = i
    · subst hji
      rw [hi] at hj
      cases hj
      exact ⟨lower, update_self .., hlcomp, rfl, rfl⟩
    rw [update_of_ne hji, update_of_ne hjn]
    obtain ⟨own, hown⟩ := find_relink hpn _ hj
    exact ⟨_, hown, rfl, rfl, rfl⟩
  refine ⟨c', upper, _, _, hrun, hupper, hukey, hupages, huparent, hucomp.trans hcomp,
    ⟨hconf, hpool, ⟨by rw [hnext]; exact le_succ _, ?_⟩, hfwd, ?_⟩, ⟨hcore, ?_, hev⟩⟩
  · intro j m hj hlt
    rcases hback j m hj with ⟨rfl, _⟩ | ⟨m', hm', hcomp', _⟩
    · exact absurd hlt (lt_irrefl _)
    · exact ⟨m', hm', fun _ => hcomp'.symm, fun hc => hcomp'.symm.trans hc⟩
  rotate_left
  · intro j m hj hf _
    rcases hback j m hj with ⟨_, rfl⟩ | ⟨m', hm', _, heq⟩
    · rw [hucomp, hcomp] at hf
      cases hf
    · rw [heq hf] at hm'
      exact h.pending j m hm' hf (Set.notMem_empty j)
  · intro pre page
    constructor
    · rintro ⟨j, m, l, hj, hjc, hpage, hpre⟩
      rcases hback j m hj with ⟨rfl, rfl⟩ | ⟨m', hm', hmc, _⟩
      · -- a page of the upper half lies on the path of node `i`
        have hlen := hcore.tree.length_path hupper
        rw [hconf.pageSize] at hlen hpre
        rw [update_self] at hpage hpre
        rw [update_self, update_self] at hlen
        have hl := (List.getElem?_eq_some_iff.mp hpage).1
        refine ⟨i, n, l, hi, hcomp, ?_, ?_⟩
        · rw [hipages, ← take_append_drop keep n.pages, ← append_assoc, List.getElem?_append_left hl]
          exact hpage
        · have hle : (l + 1) * c.pageSize ≤
              (path p ++ n.key.take (keep * c.pageSize)).length := by
            rw [hlen]
            exact mul_le_mul_right _ hl
          rw [hpre, hipath]
          conv_rhs => rw [← take_append_drop (keep * c.pageSize) n.key, ← append_assoc]
          rw [take_append_of_le_length hle]
      · obtain ⟨_, _, _, hpath', hpages'⟩ := hfwd j m' hm'
        rw [hpath', hconf.pageSize] at hpre
        rw [hpages'] at hpage
        exact ⟨j, m', l, hm', hmc.trans hjc, hpage, hpre⟩
    · rintro ⟨j, m, l, hj, hjc, hpage, hpre⟩
      obtain ⟨m', hm', hmc, hpath', hpages'⟩ := hfwd j m hj
      refine ⟨j, m', l, hm', hmc.trans hjc, ?_, ?_⟩
      · rw [hpages']
        exact hpage
      · rw [hpath', hconf.pageSize]
        exact hpre

/-- The walk locks a computed child of its node and moves there. -/
theorem lockNode {p : NodeId} (h : CacheInv c owner (p ::ₘ holders) owned path pagePath)
    (hi : c.find i = some n) (hcomp : n.computed = true) (hp : n.parent = some p) :
    SameStore c (c.lockNode i) path path pagePath pagePath ∧
      (c.lockNode i).find i = some { n with refCount := n.refCount + 1 } ∧
      CacheInv (c.lockNode i) owner (i ::ₘ holders) owned path pagePath := by
  have hroot := h.core.tree.root_parent hi hp
  obtain ⟨pn, hpn, _⟩ := h.core.tree.parent_of hi hroot hp
  have hpcomp : pn.computed = true :=
    h.computed_of_child hpn (h.core.tree.parent_children hi hroot hp hpn)
  let c1 : RadixKVCache := c.modifyNode i fun n => { n with refCount := n.refCount + 1 }
  obtain ⟨eviction, hlock, hev⟩ := touch_spec (c := c1)
    (modifyNode_eviction h.eviction _) fun j hj => hj
  have hfind : c1.find = update c.find i (some { n with refCount := n.refCount + 1 }) :=
    find_modifyNode hi _
  have hnodes : SameNodes c c1 := by
    intro j
    rw [hfind]
    by_cases hji : j = i
    · subst hji
      rw [update_self, hi]
      rfl
    · rw [update_of_ne hji]
  rw [show c.lockNode i = { c1 with eviction } from hlock]
  refine ⟨SameStore.of_sameNodes ⟨⟨rfl, rfl, rfl⟩, rfl, rfl⟩ rfl rfl hnodes, ?_,
    (h.core.lock hi hp).congr ⟨rfl, rfl, rfl⟩ rfl rfl rfl, ?_, hev⟩
  · show c1.find i = _
    rw [hfind, update_self]
  · -- neither the child nor its parent is pending, so nobody gains or loses a holder
    intro j m hj hf hY
    obtain ⟨m', hm', heq⟩ := hnodes.symm.find hj
    obtain ⟨_, hpages, hchildren, _, hmc⟩ := Node.unref_eq heq
    obtain ⟨hleaf, hcount, hown⟩ := h.pending j m' hm' (hmc.trans hf) hY
    rw [Multiset.count_cons_of_ne (ne_of_computed hpn hpcomp hm' (hmc.trans hf))] at hcount
    rw [Multiset.count_cons_of_ne (ne_of_computed hi hcomp hm' (hmc.trans hf)), ← hchildren, ← hpages]
    exact ⟨hleaf, hcount, hown⟩

/-- A walk under way: it holds its node, and has read that node's path. -/
structure Walk (c : RadixKVCache) (owner : NodeId → List PageId → Prop)
    (holders : Multiset NodeId) (owned : Multiset PageId) (path : NodeId → List TokenId)
    (pagePath : NodeId → List PageId) (tokens : List TokenId) (i : NodeId) (position : Nat)
    (matched : List PageId) : Prop where
  inv : CacheInv c owner (i ::ₘ holders) owned path pagePath
  computed : ∃ n, c.find i = some n ∧ n.computed = true
  path_eq : path i = tokens.take position
  pages_eq : pagePath i = matched
  le : position ≤ tokens.length

/-- The matching loop. -/
theorem matchLoop (tokens : List TokenId) : ∀ (fuel : Nat) {c : RadixKVCache}
    {path : NodeId → List TokenId} {pagePath : NodeId → List PageId} {i : NodeId} {position : Nat}
    {matched : List PageId}, Walk c owner holders owned path pagePath tokens i position matched →
    tokens.length < position + fuel → ∃ position' matched' i' c' path' pagePath',
      matchLoop tokens fuel c i position matched = (.ok (position', matched', i'), c') ∧
      Walk c' owner holders owned path' pagePath' tokens i' position' matched' ∧
      SameStore c c' path path' pagePath pagePath' ∧
      LongestStored c'.pageSize (Cached c' path' pagePath') tokens position' := by
  intro fuel
  induction fuel with
  | zero =>
    intro c path pagePath i position matched w hfuel
    have := w.le
    omega
  | succ fuel ih =>
    intro c path pagePath i position matched w hfuel
    obtain ⟨h, ⟨n, hi, hcomp⟩, hpath, hpages, hle⟩ := id w
    have hpos := h.core.tree.page_pos
    have hsame : SameStore c c path path pagePath pagePath :=
      SameStore.of_sameNodes (SameConfig.refl c) rfl rfl (SameNodes.refl c)
    unfold RadixKVCache.matchLoop
    simp only [node_of_find hi]
    by_cases hshort : ((tokens.drop position).take c.pageSize).length < c.pageSize
    · rw [if_pos hshort]
      exact ⟨position, matched, i, c, path, pagePath, rfl, w, hsame,
        h.longest_here hi hcomp hpath hle fun hfirst => absurd hfirst hshort.ne⟩
    rw [if_neg hshort]
    have hfirst : ((tokens.drop position).take c.pageSize).length = c.pageSize :=
      le_antisymm (length_take_le _ _) (not_lt.mp hshort)
    cases hlook : n.children.lookup ((tokens.drop position).take c.pageSize) with
    | none =>
      refine ⟨position, matched, i, c, path, pagePath, rfl, w, hsame,
        h.longest_here hi hcomp hpath hle fun _ k hk => ?_⟩
      cases hlook.symm.trans hk
    | some k =>
      obtain ⟨_, m, hk, _⟩ := h.core.tree.down i n _ k hi hlook
      simp only [node_of_find hk]
      by_cases hmc : m.computed = false
      · rw [if_pos hmc]
        refine ⟨position, matched, i, c, path, pagePath, rfl, w, hsame,
          h.longest_here hi hcomp hpath hle fun _ k' hk' => ?_⟩
        cases hlook.symm.trans hk'
        rw [node_of_find hk]
        exact hmc
      rw [if_neg hmc]
      have hmtrue : m.computed = true := by simpa using hmc
      obtain ⟨hparent, hkroot, hwhole, hcpos, hcle, heq, hroom, _⟩ :=
        h.walk_step hi hpath hfirst hlook hk rfl
      generalize commonPages c.pageSize (m.key.length / c.pageSize) (tokens.drop position) m.key =
        common at heq hroom hcpos hcle ⊢
      rw [hwhole]
      -- the node to lock: the child, or its matching upper part
      have htarget : ∃ t tn c1 path1 pagePath1,
          (if common < m.pages.length then c.split k common else (.ok k, c)) = (.ok t, c1) ∧ c1.find t = some tn ∧
          tn.parent = some i ∧ tn.computed = true ∧
          tn.key = (tokens.drop position).take tn.key.length ∧ 0 < tn.key.length ∧
          position + tn.key.length ≤ tokens.length ∧
          SameStore c c1 path path1 pagePath pagePath1 ∧
          CacheInv c1 owner (i ::ₘ holders) owned path1 pagePath1 := by
        have hkeylen := (h.core.tree.shape k m hk hkroot).2
        by_cases hpart : common < m.pages.length
        · rw [if_pos hpart]
          obtain ⟨c1, upper, path1, pagePath1, hrun, hupper, hukey, _, huparent, hucomp, hsame,
            hinv⟩ := h.split hk hmtrue hparent hcpos hpart
          have hulen : upper.key.length = common * c.pageSize := by
            rw [hukey, length_take, hkeylen]
            exact min_eq_left (mul_le_mul_right _ hcle)
          refine ⟨c.nextNode, upper, c1, path1, pagePath1, hrun, hupper, huparent, hucomp, ?_, ?_, ?_, hsame, hinv⟩
          · rw [hulen, heq]
            exact hukey
          · rw [hulen]
            exact Nat.mul_pos hcpos hpos
          · rw [hulen]
            exact hroom
        · rw [if_neg hpart]
          obtain rfl : common = m.pages.length := le_antisymm hcle (not_lt.mp hpart)
          rw [← hkeylen] at heq hroom
          refine ⟨k, m, c, path, pagePath, rfl, hk, hparent, hmtrue, ?_, ?_, hroom, hsame, h⟩
          · rw [heq, take_length]
          · have := h.core.tree.page_le_key hk hkroot
            omega
      obtain ⟨t, tn, c1, path1, pagePath1, hrun, ht, htp, htc, htkey, htpos, htroom, hsame, hinv⟩ :=
        htarget
      rw [hrun, KvResult.andThen_ok]
      obtain ⟨hsame2, hfind2, hinv2⟩ := hinv.lockNode ht htc htp
      have htroot := hinv.core.tree.root_parent ht htp
      obtain ⟨_, _, _, htpath, htpages⟩ := hinv.core.tree.parent_of ht htroot htp
      obtain ⟨_, _, _, hpath1, hpages1⟩ := hsame.kept i n hi
      simp only [node_of_find hfind2]
      have hwalk : Walk (c1.lockNode t) owner holders owned path1 pagePath1 tokens t
          (position + tn.key.length) (matched ++ tn.pages) := by
        refine ⟨hinv2, ⟨_, hfind2, htc⟩, ?_, ?_, htroom⟩
        · rw [htpath, hpath1, walk_take hpath, ← htkey]
        · rw [htpages, hpages1, hpages]
      obtain ⟨position', matched', i', c', path', pagePath', hloop, hwalk', hsame', hlongest⟩ :=
        ih hwalk (by omega)
      exact ⟨position', matched', i', c', path', pagePath', hloop, hwalk',
        hsame.trans (hsame2.trans hsame'), hlongest⟩

/-- **`_match_and_lock`** locks the longest stored prefix of its input, and
    changes neither the stored map nor what any node stands for. -/
theorem matchAndLock (h : CacheInv c owner holders owned path pagePath) (tokens : List TokenId) :
    ∃ position matched i c' path' pagePath', c.matchAndLock tokens = (.ok (position, matched, i), c') ∧
      Walk c' owner holders owned path' pagePath' tokens i position matched ∧
      SameStore c c' path path' pagePath pagePath' ∧
      LongestStored c'.pageSize (Cached c' path' pagePath') tokens position := by
  obtain ⟨r, hr, _, _, _, hcomp⟩ := h.core.tree.root
  obtain ⟨eviction, htouch, hev⟩ := touch_spec h.eviction fun j hj =>
    absurd hj (Set.notMem_empty j)
  let c1 : RadixKVCache := { c with eviction }
  have hsame1 : SameStore c c1 path path pagePath pagePath :=
    SameStore.of_sameNodes ⟨⟨rfl, rfl, rfl⟩, rfl, rfl⟩ rfl rfl (SameNodes.refl c)
  have hwalk : Walk c1 owner holders owned path pagePath tokens rootId 0 [] := by
    refine ⟨⟨h.core.add_root.congr ⟨rfl, rfl, rfl⟩ rfl rfl rfl, ?_, hev⟩, ⟨r, hr, hcomp⟩, ?_, h.core.tree.root_pages,
      zero_le _⟩
    · intro j m hj hf hY
      rw [Multiset.count_cons_of_ne (ne_of_computed hr hcomp hj hf)]
      exact h.pending j m hj hf hY
    · rw [h.core.tree.root_path, take_zero]
  obtain ⟨position, matched, i, c', path', pagePath', hloop, hwalk', hsame, hlongest⟩ :=
    matchLoop tokens (tokens.length + 1) hwalk (by omega)
  refine ⟨position, matched, i, c', path', pagePath', ?_, hwalk', hsame1.trans hsame, hlongest⟩
  unfold RadixKVCache.matchAndLock
  rw [htouch]
  exact hloop

end CacheInv

end Kairyu
