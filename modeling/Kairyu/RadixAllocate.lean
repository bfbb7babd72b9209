/-
  Kairyu/RadixAllocate.lean
  =========================
  **`allocate`**: pins expire, the longest stored prefix is locked, room is made,
  pages are taken, and the uncached full pages enter the tree as an uncomputed
  leaf, unless an uncomputed sibling of another request already sits there.

  On success the caller owns one more allocation whose cached pages are those the
  prefix map assigns; on failure the ledger is as it was.
-/
import Kairyu.RadixOwnership

namespace Kairyu

open Function Multiset KVAllocation CacheInv

/-- What a successful `allocate` guarantees. -/
structure Allocated (c : RadixKVCache) (path : NodeId → List TokenId)
    (pagePath : NodeId → List PageId) (tokens : List TokenId) (live : Multiset KVAllocation)
    (loose : Multiset PageId) (a : KVAllocation) (c' : RadixKVCache)
    (path' : NodeId → List TokenId) (pagePath' : NodeId → List PageId) : Prop where
  owned : Owned c' (a ::ₘ live) loose path' pagePath'
  args : SameArgs c c'
  keeps : Keeps ∅ c c'
  longest : LongestStored c.pageSize (Cached c path pagePath) tokens a.numCachedTokens
  cachedPages : ∀ m page, a.cachedPages[m]? = some page →
    Cached c path pagePath (tokens.take ((m + 1) * c.pageSize)) page

/-- What a failed `allocate` leaves: the ledger as it was. -/
structure AllocateFull (c : RadixKVCache) (live : Multiset KVAllocation) (loose : Multiset PageId)
    (c' : RadixKVCache) (path' : NodeId → List TokenId) (pagePath' : NodeId → List PageId) :
    Prop where
  owned : Owned c' live loose path' pagePath'
  args : SameArgs c c'
  keeps : Keeps ∅ c c'

section Attach

variable {c : RadixKVCache} {live : Multiset KVAllocation} {loose : Multiset PageId}
  {path : NodeId → List TokenId} {pagePath : NodeId → List PageId} {tokens : List TokenId}
  {i : NodeId} {position : Nat} {matched : List PageId}

variable {owner : NodeId → List PageId → Prop} {holders : Multiset NodeId} {owned : Multiset PageId}

/-- The number of whole pages read by a walk. -/
theorem CacheInv.Walk.length_matched (w : Walk c owner holders owned path pagePath tokens i position matched) :
    position = matched.length * c.pageSize := by
  obtain ⟨n, hn, _⟩ := w.computed
  rw [← walk_length w.path_eq w.le, w.inv.core.tree.length_path hn, w.pages_eq]

variable {tail newFull : List PageId}

theorem toList_head {l : List PageId} (h : l.length ≤ 1) : l.head?.toList = l := by
  rcases l with _ | ⟨p, _ | ⟨q, rest⟩⟩
  · rfl
  · rfl
  · simp at h

/-- An allocation as `allocate` builds it from a walk describes the node it ends at. -/
theorem allocOk_of_walk {pageSize : Nat} (hpos : 0 < pageSize) {node : NodeId} {inserted : Bool}
    {path : NodeId → List TokenId}
    {pagePath : NodeId → List PageId}
    (hposition : position = matched.length * pageSize) (hle : position ≤ tokens.length)
    (hfull : newFull.length = (tokens.length - position) / pageSize)
    (htail : tail.length = if (tokens.length - position) % pageSize = 0 then 0 else 1)
    (hpath : path node = tokens.take ((matched ++ if inserted then newFull else []).length * pageSize))
    (hpages : pagePath node = matched ++ if inserted then newFull else []) :
    AllocOk pageSize path pagePath
      { tokens, cachedPages := matched, newFullPages := newFull, tailPage := tail.head?, node,
        treeInserted := inserted, pageSize } where
  notFreed := rfl
  size := rfl
  full := by
    show matched.length + newFull.length = tokens.length / pageSize
    have hsplit : tokens.length = pageSize * matched.length + (tokens.length - position) := by
      rw [Nat.mul_comm]
      omega
    conv_rhs => rw [hsplit, Nat.mul_add_div hpos]
    rw [hfull]
  tail := by
    show tail.head?.toList.length = if tokens.length % pageSize = 0 then 0 else 1
    have hmod : tokens.length % pageSize = (tokens.length - position) % pageSize := by
      have hsplit : tokens.length = (tokens.length - position) + matched.length * pageSize := by omega
      conv_lhs => rw [hsplit, Nat.add_mul_mod_self_right]
    rw [hmod, ← htail, toList_head]
    rw [htail]
    split <;> omega
  tokens := by
    rw [hpath, hpages]
  pages := hpages

/-- Taking the full pages and then the tail page. -/
theorem CacheInv.Walk.takePages (w : Walk c owner holders owned path pagePath tokens i position matched)
    {full last : Nat} (hle : full + last ≤ c.numFreePages) :
    ∃ newFull tail pool1 pool, c.takePages full = (.ok newFull, { c with pool := pool1 }) ∧
      RadixKVCache.takePages { c with pool := pool1 } last = (.ok tail, { c with pool }) ∧
      newFull.length = full ∧ tail.length = last ∧
      Walk { c with pool } owner holders (↑tail + (↑newFull + owned)) path pagePath tokens i position matched := by
  obtain ⟨newFull, pool1, htake1, hlen1, hnum1, hcore1⟩ :=
    w.inv.core.takePages ((Nat.le_add_right _ _).trans hle)
  have hroom : last ≤ pool1.freeList.length := by omega
  obtain ⟨tail, pool, htake2, hlen2, _, hcore2⟩ := hcore1.takePages hroom
  exact ⟨newFull, tail, pool1, pool, htake1, htake2, hlen1, hlen2, ⟨hcore2, w.inv.pending, w.inv.eviction⟩,
    w.computed, w.path_eq, w.pages_eq, w.le⟩

/-- **The last part of `allocate`**: the new pages join the tree below the walk's
    node, or stay private when there are none or a sibling is in the way. -/
theorem CacheInv.Walk.attach (w : Walk c (Owner live) (live.map node + c.pinNodes)
      (↑tail + (↑newFull + ledgerPages live loose)) path pagePath tokens i position matched)
    (hallocs : ∀ a ∈ live, AllocOk c.pageSize path pagePath a)
    (hfull : newFull.length = (tokens.length - position) / c.pageSize)
    (htail : tail.length = if (tokens.length - position) % c.pageSize = 0 then 0 else 1)
    {key : List TokenId}
    (hkey : key = (tokens.drop position).take (newFull.length * c.pageSize)) :
    ∃ c' node path' pagePath',
      (if newFull.length = 0 ∨ key.take c.pageSize ∈ (c.node i).children then (i, c)
        else c.insertChild i key newFull) = (node, c') ∧ SameConfig c c' ∧ Keeps ∅ c c' ∧
      Owned c'
        ({ tokens, cachedPages := matched, newFullPages := newFull, tailPage := tail.head?, node, treeInserted :=
             decide (newFull.length = 0 ∨ ¬ key.take c.pageSize ∈ (c.node i).children),
           pageSize := c.pageSize } ::ₘ live) loose path' pagePath' := by
  obtain ⟨h, ⟨n, hi, hcomp⟩, hpath, hpages, hle⟩ := id w
  have hpos := h.core.tree.page_pos
  have hposition := w.length_matched
  have htailList : tail.head?.toList = tail := by
    apply toList_head
    rw [htail]
    split <;> omega
  have hkeyLen : key.length = newFull.length * c.pageSize := by
    rw [hkey, List.length_take, List.length_drop, hfull]
    exact Nat.min_eq_left (Nat.div_mul_le_self _ _)
  by_cases hstay : newFull.length = 0 ∨ key.take c.pageSize ∈ (c.node i).children
  · -- nothing to insert: the allocation holds the walk's node
    rw [if_pos hstay]
    have hinserted : decide (newFull.length = 0 ∨ ¬ key.take c.pageSize ∈ (c.node i).children) = true →
        newFull = [] := by
      intro hdec
      rcases of_decide_eq_true hdec with hzero | hnot
      · exact List.eq_nil_of_length_eq_zero hzero
      · exact List.eq_nil_of_length_eq_zero (hstay.resolve_right hnot)
    generalize decide (newFull.length = 0 ∨ ¬ key.take c.pageSize ∈ (c.node i).children) =
      inserted at hinserted ⊢
    have hpriv : (↑(tail ++ if inserted then [] else newFull) : Multiset PageId) =
        ↑tail + ↑newFull := by
      cases inserted with
      | false => rfl
      | true =>
        rw [hinserted rfl]
        rfl
    have hnode : (matched ++ if inserted then newFull else []) = matched := by
      cases inserted with
      | false => exact List.append_nil _
      | true =>
        rw [hinserted rfl]
        exact List.append_nil _
    refine ⟨c, i, path, pagePath, rfl, SameConfig.refl c, Keeps.refl ∅ c, ?_, ?_⟩
    · refine ⟨?_, ?_, h.eviction⟩
      · rw [ledgerPages_cons, map_cons, cons_add]
        unfold privatePages outsidePages
        rw [htailList]
        rw [hpriv, add_assoc]
        exact h.core
      · intro j m hj hf hY
        rw [map_cons, cons_add]
        obtain ⟨hleaf, hcount, hown⟩ := h.pending j m hj hf hY
        exact ⟨hleaf, hcount, hown.mono fun _ ha => mem_cons_of_mem ha⟩
    · intro a ha
      rcases mem_cons.mp ha with rfl | ha
      · refine allocOk_of_walk hpos hposition hle hfull htail ?_ ?_
        · rw [hnode, ← hposition]
          exact hpath
        · rw [hnode]
          exact hpages
      · exact hallocs a ha
  · rw [if_neg hstay]
    rw [not_or] at hstay
    have hne : newFull ≠ [] := fun hnil => hstay.1 (by rw [hnil]; rfl)
    have hfree : n.children.lookup (key.take c.pageSize) = none := by
      have hnot := hstay.2
      rw [RadixKVCache.node_of_find hi] at hnot
      exact AList.lookup_eq_none.mpr hnot
    have hcore : CoreInv c (i ::ₘ (live.map node + c.pinNodes))
        (↑newFull + (↑tail + ledgerPages live loose)) path pagePath :=
      h.core.owned_perm (by abel)
    obtain ⟨c', child, hrun, hconf, _, hnext, hfind, _, hcpages, _, hcchildren, _, _, hcore', hev'⟩ := hcore.insertChild h.eviction hi hfree hne hkeyLen
    have hins : decide (newFull.length = 0 ∨ ¬ key.take c.pageSize ∈ (c.node i).children) = true :=
      decide_eq_true (Or.inr hstay.2)
    have hholder : ∀ k ∈ live.map node + c.pinNodes, k ≠ c.nextNode :=
      fun k hk => h.core.held_ne_next (mem_cons_of_mem hk)
    refine ⟨c', c.nextNode, update path c.nextNode (path i ++ key),
      update pagePath c.nextNode (pagePath i ++ newFull), hrun, hconf,
      ⟨by rw [hnext]; exact Nat.le_succ _, ?_⟩, Owned.of_config hconf ⟨?_, ?_, hev'⟩ ?_⟩
    · intro j m hj hlt
      rw [hfind, update_of_ne hlt.ne] at hj
      obtain ⟨m', _, hm', rfl⟩ := RadixKVCache.find_of_relink hi hj
      exact ⟨m', hm', fun _ => rfl, id⟩
    · rw [ledgerPages_cons, map_cons, cons_add]
      unfold privatePages outsidePages
      rw [htailList]
      simp only [hins, if_true, List.append_nil]
      exact hcore'
    · intro j m hj hf hY
      rw [map_cons, cons_add]
      rw [hfind] at hj
      rcases of_update_some hj with ⟨rfl, rfl⟩ | ⟨hjn, hj⟩
      · -- the new leaf is pending and the new allocation owns it
        refine ⟨by rw [hcchildren]; rfl, ?_, _, mem_cons_self _ _, rfl, hins, hcpages.symm⟩
        rw [count_cons_self, count_eq_zero.mpr]
        exact fun hmem => hholder _ hmem rfl
      · have hji : j ≠ i := by
          rintro rfl
          rw [update_self] at hj
          cases hj
          rw [show n.computed = false from hf] at hcomp
          cases hcomp
        rw [update_of_ne hji] at hj
        obtain ⟨hleaf, hcount, hown⟩ := h.pending j m hj hf hY
        rw [count_cons_of_ne hji] at hcount
        refine ⟨hleaf, ?_, hown.mono fun _ ha => mem_cons_of_mem ha⟩
        rw [count_cons_of_ne hjn]
        exact hcount
    · intro a ha
      rcases mem_cons.mp ha with rfl | ha
      · refine allocOk_of_walk hpos hposition hle hfull htail ?_ ?_
        · rw [update_self, hins, if_pos rfl, hpath, hkey, List.length_append, Nat.add_mul, ← hposition, List.take_add]
        · rw [update_self, hins, if_pos rfl, hpages]
      · have hok := hallocs a ha
        have hne := hholder a.node (mem_add.mpr (Or.inl (mem_map_of_mem _ ha)))
        exact ⟨hok.notFreed, hok.size, hok.full, hok.tail,
          by rw [update_of_ne hne, update_of_ne hne]; exact hok.tokens,
          by rw [update_of_ne hne]; exact hok.pages⟩

end Attach

/-! ### The call -/

section Allocate

variable {c : RadixKVCache} {live : Multiset KVAllocation} {loose : Multiset PageId}
  {path : NodeId → List TokenId} {pagePath : NodeId → List PageId}

/-- A live allocation keeps its description while nodes are kept. -/
theorem AllocOk.of_kept {c' : RadixKVCache} {holders : Multiset NodeId} {owned : Multiset PageId}
    {path' : NodeId → List TokenId} {pagePath' : NodeId → List PageId} {a : KVAllocation}
    (h : CoreInv c holders owned path pagePath) (ha : a.node ∈ holders)
    (hsame : SameStore c c' path path' pagePath pagePath')
    (hok : AllocOk c.pageSize path pagePath a) : AllocOk c'.pageSize path' pagePath' a := by
  obtain ⟨n, hn⟩ := h.held a.node ha
  obtain ⟨_, _, _, hpath, hpages⟩ := hsame.kept a.node n hn
  rw [hsame.config.pageSize]
  exact ⟨hok.notFreed, hok.size, hok.full, hok.tail, by rw [hpath, hpages]; exact hok.tokens,
    by rw [hpages]; exact hok.pages⟩

theorem LongestStored.congr {pageSize : Nat} {stored stored' : List TokenId → PageId → Prop}
    {tokens : List TokenId} {position : Nat} (h : LongestStored pageSize stored tokens position)
    (hiff : ∀ pre page, stored' pre page ↔ stored pre page) : LongestStored pageSize stored' tokens position where
  le := h.le
  aligned := h.aligned
  reached := fun k hk hle => by
    obtain ⟨page, hpage⟩ := h.reached k hk hle
    exact ⟨page, (hiff _ _).mpr hpage⟩
  maximal := fun hmore page hpage => h.maximal hmore page ((hiff _ _).mp hpage)

/-- **`allocate`** succeeds as specified or reports a full cache; it raises nothing
    else. -/
theorem Owned.allocate (h : Owned c live loose path pagePath) (tokens : List TokenId) :
    (∃ a c' path' pagePath', c.allocate tokens = (.ok a, c') ∧
      Allocated c path pagePath tokens live loose a c' path' pagePath') ∨ (∃ needed c' path' pagePath',
      c.allocate tokens = (.error (.cacheFull needed c'.numFreePages), c') ∧
      AllocateFull c live loose c' path' pagePath') := by
  -- expiry of pins
  have h0 : Owned { c with allocTick := c.allocTick + 1 } live loose path pagePath :=
    h.congr ⟨rfl, rfl, rfl⟩ rfl rfl rfl rfl rfl
  obtain ⟨hargs1, hkeeps1, hnodes1, h1⟩ := h0.expirePins
  set c1 := RadixKVCache.expirePins { c with allocTick := c.allocTick + 1 } with hc1
  have hargs1' : SameArgs c c1 := ⟨hargs1.pageSize, hargs1.numPages, hargs1.chain⟩
  have hkeeps1' : Keeps ∅ c c1 := ⟨hkeeps1.next_le, hkeeps1.old⟩
  -- the locking walk
  obtain ⟨position, matched, i, c2, path2, pagePath2, hmatch, w, hstore, hlongest⟩ :=
    h1.inv.matchAndLock tokens
  have hposition := w.length_matched
  have hargs2 : SameArgs c c2 := hargs1'.trans hstore.config.toSameArgs
  have hallocs2 : ∀ a ∈ live, AllocOk c2.pageSize path2 pagePath2 a := fun a ha =>
    AllocOk.of_kept h1.inv.core
      (mem_add.mpr (Or.inl (mem_map_of_mem _ ha))) hstore (h1.allocs a ha)
  have hcached2 : ∀ pre page, Cached c2 path2 pagePath2 pre page ↔ Cached c path pagePath pre page :=
    fun pre page => (hstore.cached pre page).trans (Cached.congr hargs1.pageSize hnodes1)
  -- making room
  obtain ⟨b, c3, hroom, hconf3, hnext3, hshrink3, hcore3, hev3, htrue⟩ :=
    w.inv.core.ensureFree w.inv.eviction ((tokens.length - position) / c2.pageSize +
      if (tokens.length - position) % c2.pageSize = 0 then 0 else 1)
  have hargs3 : SameArgs c c3 := hargs2.trans hconf3.toSameArgs
  have hkeeps3 : Keeps ∅ c c3 := hkeeps1'.trans (hstore.keeps.trans (hshrink3.keeps hnext3 ∅))
  have hconf13 : SameConfig c1 c3 := hstore.config.trans hconf3
  have hinv3 : CacheInv c3 (Owner live) (i ::ₘ (live.map node + c1.pinNodes))
      (ledgerPages live loose) path2 pagePath2 :=
    ⟨hcore3, hshrink3.pending w.inv.pending, hev3⟩
  rw [← hconf13.pinNodes] at hinv3
  rw [← hconf3.pageSize] at hallocs2
  cases b with
  | false =>
    right
    obtain ⟨hstore4, _, hinv4⟩ := hinv3.unlockPath fun j pages ho =>
      mem_add.mpr (Or.inl ho.mem_map)
    refine ⟨(tokens.length - position) / c2.pageSize + if (tokens.length - position) % c2.pageSize = 0 then 0 else 1,
      c3.unlockPath i, path2, pagePath2, ?_, Owned.of_config hstore4.config hinv4 hallocs2,
      hargs3.trans hstore4.config.toSameArgs, hkeeps3.trans hstore4.keeps⟩
    unfold RadixKVCache.allocate
    simp only [← hc1, hmatch, KvResult.andThen_ok]
    rw [hroom]
    unfold RadixKVCache.numFreePages
    rw [hstore4.pool]
  | true =>
    left
    have w3 : Walk c3 (Owner live) (live.map node + c3.pinNodes)
        (ledgerPages live loose) path2 pagePath2 tokens i position matched := by
      refine ⟨hinv3, ?_, w.path_eq, w.pages_eq, w.le⟩
      obtain ⟨m, hm⟩ := hcore3.held i (mem_cons_self _ _)
      obtain ⟨n, hn, heq, _⟩ := hshrink3 i m hm
      obtain ⟨n', hn', hcomp⟩ := w.computed
      rw [hn] at hn'
      cases hn'
      exact ⟨m, hm, by rw [heq]; exact hcomp⟩
    obtain ⟨newFull, tail, pool1, pool, htake4, htake5, hfull, htail, w5⟩ := w3.takePages (htrue rfl)
    let c5 : RadixKVCache := { c3 with pool }
    have hps5 : c5.pageSize = c2.pageSize := hconf3.pageSize
    -- the allocation record
    obtain ⟨c6, node, path', pagePath', hattach, hconf6, hkeeps6, howned⟩ :=
      Walk.attach (c := c5) w5 hallocs2 (by rw [hfull, hps5]) (by rw [htail, hps5]) rfl
    have hargs5 : SameArgs c3 c5 := ⟨rfl, rfl, rfl⟩
    have hkeeps5 : Keeps ∅ c3 c5 := Keeps.of_find rfl rfl
    have hargs : SameArgs c c6 := hargs3.trans (hargs5.trans hconf6.toSameArgs)
    have hkeeps : Keeps ∅ c c6 := hkeeps3.trans (hkeeps5.trans hkeeps6)
    refine ⟨_, { c6 with
        hitTokens := c6.hitTokens + position
        totalTokens := c6.totalTokens + tokens.length }, path', pagePath', ?_,
      howned.congr ⟨rfl, rfl, rfl⟩ rfl rfl rfl rfl rfl, ⟨hargs.pageSize, hargs.numPages, hargs.chain⟩,
      ⟨hkeeps.next_le, hkeeps.old⟩, ?_, ?_⟩
    · unfold RadixKVCache.allocate
      simp only [← hc1, hmatch, KvResult.andThen_ok]
      rw [hroom]
      simp only
      rw [htake4, KvResult.andThen_ok, htake5, KvResult.andThen_ok, ← hfull, hattach]
      simp only [hconf6.pageSize]
      rfl
    · show LongestStored c.pageSize (Cached c path pagePath) tokens (matched.length * c5.pageSize)
      rw [hps5, ← hposition, ← hargs2.pageSize]
      exact hlongest.congr fun pre page => (hcached2 pre page).symm
    · intro m page hm
      have hm' : matched[m]? = some page := hm
      obtain ⟨n, hn, hcomp⟩ := w.computed
      rw [← hcached2]
      refine ⟨i, n, m, hn, hcomp, by rw [w.pages_eq]; exact hm', ?_⟩
      rw [w.path_eq, List.take_take, ← hargs2.pageSize]
      congr 1
      have hlt := (List.getElem?_eq_some_iff.mp hm').1
      rw [hposition]
      exact (Nat.min_eq_left (Nat.mul_le_mul_right _ hlt)).symm

end Allocate

end Kairyu
