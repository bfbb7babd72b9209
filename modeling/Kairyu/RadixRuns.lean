/-
  Kairyu/RadixRuns.lean
  =====================
  **Whole runs of the cache.**

  Callers draw allocations, private pages and scratch pages, give them back, and
  pin and unpin sessions, in any order.  A `Ledger` is the cache next to what its
  callers hold; `CacheRun` is what a finite sequence of calls makes of a fresh
  cache.  Callers keep three promises (`Ledger.Permits`): an allocation is released
  once, the private pages they return are pages they hold, and those given to a
  commit reach as far as the committed outputs.

  In every state of a run each page id has exactly one owner, each refcount counts
  the holders in its subtree, and no call trips over the pool or an assertion.
-/
import Kairyu.RadixPrivate

namespace Kairyu

open RadixKVCache Multiset

/-! ### Calls and ledgers -/

inductive CacheCall where
  | allocate (tokens : List TokenId)
  | markComputed (a : KVAllocation)
  | free (a : KVAllocation)
  | commitAndRelease (a : KVAllocation) (outputTokens : List TokenId) (decodePages : List PageId)
  | releasePreempted (a : KVAllocation) (decodePages : List PageId)
  | allocatePrivatePage
  | freePrivatePages (pages : List PageId)
  | reserveScratchPage
  | pin (session : SessionId) (tokens : List TokenId) (ttlAllocations : Option Int)
  | unpin (session : SessionId)

/-- A cache, the allocations its callers hold and have released, and the private
    and scratch pages they hold. -/
structure Ledger where
  cache : RadixKVCache
  live : List KVAllocation := []
  released : List KVAllocation := []
  loose : List PageId := []

open Ledger

namespace Ledger

/-- What callers promise. -/
def Permits (s : Ledger) : CacheCall → Prop
  | .markComputed a => a ∈ s.live ∨ a ∈ s.released
  | .free a => a ∈ s.live
  | .commitAndRelease a outputTokens decodePages =>
    a ∈ s.live ∧ decodePages.Subperm s.loose ∧
      a.extraFull s.cache.pageSize outputTokens ≤ (a.tailPage.toList ++ decodePages).length
  | .releasePreempted a decodePages => a ∈ s.live ∧ decodePages.Subperm s.loose
  | .freePrivatePages pages => pages.Subperm s.loose
  | .allocate _ | .allocatePrivatePage | .reserveScratchPage | .pin _ _ _ | .unpin _ => True

/-- A grant enters the ledger; a raised error leaves what callers hold as it was. -/
def settle {α : Type} (s : Ledger) (result : KvResult α) (grant : Ledger → α → Ledger) :
    Option KvError × Ledger :=
  match result with
  | (.ok value, cache) => (none, grant { s with cache } value)
  | (.error e, cache) => (some e, { s with cache })

/-- The allocation and the pages handed over with it leave the caller. -/
def giveBack (a : KVAllocation) (pages : List PageId) (s : Ledger) (freed : KVAllocation) : Ledger :=
  { s with
    live := s.live.erase a
    released := freed :: s.released
    loose := s.loose.diff pages }

def call (s : Ledger) : CacheCall → Option KvError × Ledger
  | .allocate tokens =>
    s.settle (s.cache.allocate tokens) fun s a => { s with live := a :: s.live }
  | .markComputed a => (none, { s with cache := s.cache.markComputed a })
  | .free a => s.settle (s.cache.free a) (giveBack a [])
  | .commitAndRelease a outputTokens decodePages =>
    s.settle (s.cache.commitAndRelease a outputTokens decodePages) (giveBack a decodePages)
  | .releasePreempted a decodePages =>
    s.settle (s.cache.releasePreempted a decodePages) (giveBack a decodePages)
  | .allocatePrivatePage =>
    s.settle s.cache.allocatePrivatePage fun s page => { s with loose := page :: s.loose }
  | .freePrivatePages pages =>
    s.settle (s.cache.freePrivatePages pages) fun s _ => { s with loose := s.loose.diff pages }
  | .reserveScratchPage =>
    s.settle s.cache.reserveScratchPage fun s page => { s with loose := page :: s.loose }
  | .pin session tokens ttl => s.settle (s.cache.pin session tokens ttl) fun s _ => s
  | .unpin session => s.settle (s.cache.unpin session) fun s _ => s

/-- Every page with the place it is recorded at: the pool, the tree, the live
    allocations and the callers' private and scratch pages. -/
def pages (s : Ledger) : List PageId :=
  s.cache.pool.freeList ++ s.cache.nodes.entries.flatMap (fun entry => entry.2.pages) ++
    s.live.flatMap KVAllocation.privatePages ++ s.loose

end Ledger

/-- The states a finite sequence of permitted calls makes of a fresh cache. -/
inductive CacheRun (numPages pageSize : Nat) (chain : Option (List TokenId → BlockHash)) :
    Ledger → Prop
  | fresh {c : RadixKVCache} (hc : create numPages pageSize chain = some c) :
      CacheRun numPages pageSize chain { cache := c }
  | call {s : Ledger} (hs : CacheRun numPages pageSize chain s) (request : CacheCall)
      (hreq : s.Permits request) : CacheRun numPages pageSize chain (s.call request).2

/-- Node `j` lies in the subtree of `i`: following parents from `j` meets `i`. -/
inductive RadixKVCache.InSubtree (c : RadixKVCache) (i : NodeId) : NodeId → Prop
  | self : c.InSubtree i i
  | child {j p : NodeId} {n : Node} (hj : c.nodes.lookup j = some n) (hp : n.parent = some p)
      (h : c.InSubtree i p) : c.InSubtree i j

/-- The errors by which the cache turns a caller down.  A pool error, a failed
    assertion or a repeated release is none of them. -/
def KvError.IsRefusal : KvError → Prop
  | .cacheFull _ _ | .noDecodePage | .noScratchPage | .alreadyPinned _ | .notPinned _ => True
  | .alreadyFreed | .pool _ | .assertion _ => False

/-! ### The invariant of a run -/

/-- The ledger is owned as it says, and nothing a caller gave back is still
    waiting to be marked. -/
structure Ledger.Ok (s : Ledger) (path : NodeId → List TokenId) (pagePath : NodeId → List PageId) :
    Prop where
  owned : Owned s.cache ↑s.live ↑s.loose path pagePath
  settled : ∀ a ∈ s.released, a.node < s.cache.nextNode ∧
    ∀ n, s.cache.find a.node = some n → n.computed = true

/-- What a call leaves: a good ledger of the same cache, and no error but a refusal. -/
def Ledger.CallOk (s : Ledger) (result : Option KvError × Ledger) : Prop :=
  SameArgs s.cache result.2.cache ∧ (∃ path pagePath, result.2.Ok path pagePath) ∧
    ∀ e, result.1 = some e → e.IsRefusal

section Steps

variable {s : Ledger} {path path' : NodeId → List TokenId} {pagePath pagePath' : NodeId → List PageId}
  {a : KVAllocation} {c' : RadixKVCache} {decodePages : List PageId} {X : Set NodeId}

/-- What was settled stays settled: its node does not come back, and marking is
    never undone. -/
theorem Ledger.Ok.still_settled (h : s.Ok path pagePath) (hkeeps : Keeps X s.cache c') :
    ∀ b ∈ s.released, b.node < c'.nextNode ∧ ∀ n, c'.find b.node = some n → n.computed = true := by
  intro b hb
  obtain ⟨hlt, hcomp⟩ := h.settled b hb
  refine ⟨hlt.trans_le hkeeps.next_le, fun n' hn' => ?_⟩
  obtain ⟨n, hn, _, hmono⟩ := hkeeps.old b.node n' hn' hlt
  exact hmono (hcomp n hn)

theorem coe_live_of_mem (ha : a ∈ s.live) : (↑s.live : Multiset KVAllocation) = a ::ₘ ↑(s.live.erase a) := by
  rw [← coe_erase, cons_erase (mem_coe.mpr ha)]

theorem coe_loose_of_subperm {pages : List PageId} (h : pages.Subperm s.loose) :
    (↑s.loose : Multiset PageId) = ↑pages + ↑(s.loose.diff pages) := by
  rw [← coe_sub, add_tsub_cancel_of_le (coe_le.mpr h)]

/-- A release leaves its node computed or gone: while the node was pending nobody
    else held it, and a pending node of the new state has a holder. -/
theorem Ledger.Ok.gaveBack (h : s.Ok path pagePath) (ha : a ∈ s.live) (hkeeps : Keeps X s.cache c')
    (howned : Owned c' ↑(s.live.erase a) ↑(s.loose.diff decodePages) path' pagePath') :
    (giveBack a decodePages { s with cache := c' } { a with freed := true }).Ok path' pagePath' := by
  refine ⟨howned, ?_⟩
  intro b hb
  rcases List.mem_cons.mp hb with rfl | hb
  · have hlive := h.owned
    rw [coe_live_of_mem ha] at hlive
    obtain ⟨n0, hn0, _⟩ := hlive.node_of_cons
    have hlt := hlive.inv.core.tree.fresh _ _ hn0
    refine ⟨hlt.trans_le hkeeps.next_le, fun n' hn' => ?_⟩
    obtain ⟨n, hn, _, hmono⟩ := hkeeps.old a.node n' hn' hlt
    cases hf : n'.computed with
    | true => rfl
    | false =>
      have hn_false : n.computed = false := by
        cases hc : n.computed with
        | false => rfl
        | true => rw [hmono hc] at hf; cases hf
      obtain ⟨_, _, _, hfree⟩ := hlive.own_node hn hn_false
      obtain ⟨_, _, howner⟩ := howned.inv.pending a.node n' hn' hf (Set.notMem_empty _)
      exact absurd (mem_add.mpr (Or.inl howner.mem_map)) hfree
  · exact h.still_settled hkeeps b hb

/-- A call that grants nothing and refuses nothing new. -/
theorem Ledger.Ok.refused {e : KvError} (h : s.Ok path pagePath) (hargs : SameArgs s.cache c')
    (hkeeps : Keeps X s.cache c') (howned : Owned c' ↑s.live ↑s.loose path' pagePath') (he : e.IsRefusal) :
    s.CallOk (some e, { s with cache := c' }) := by
  refine ⟨hargs, ⟨path', pagePath', howned, h.still_settled hkeeps⟩, ?_⟩
  intro e' he'
  cases he'
  exact he

theorem Ledger.Ok.granted {live : List KVAllocation} {loose : List PageId} (h : s.Ok path pagePath)
    (hargs : SameArgs s.cache c') (hkeeps : Keeps X s.cache c') (howned : Owned c' ↑live ↑loose path' pagePath') :
    s.CallOk (none, { s with cache := c', live := live, loose := loose }) := by
  refine ⟨hargs, ⟨path', pagePath', howned, h.still_settled hkeeps⟩, ?_⟩
  intro e he
  cases he

/-! ### One step -/

variable (h : s.Ok path pagePath)
include h

theorem Ledger.Ok.allocate (tokens : List TokenId) : s.CallOk (s.call (.allocate tokens)) := by
  unfold call
  rcases h.owned.allocate tokens with ⟨a, c', path', pagePath', hrun, hok⟩ |
    ⟨needed, c', path', pagePath', hrun, hfull⟩
  · simp only [hrun]
    exact h.granted hok.args hok.keeps hok.owned
  · simp only [hrun]
    exact h.refused hfull.args hfull.keeps hfull.owned trivial

/-- Marking a released allocation again finds nothing to mark. -/
theorem Ledger.Ok.markComputed (hreq : a ∈ s.live ∨ a ∈ s.released) : s.CallOk (s.call (.markComputed a)) := by
  unfold call
  rcases hreq with ha | ha
  · have hlive := h.owned
    rw [coe_live_of_mem ha] at hlive
    obtain ⟨hconf, hkeeps, howned⟩ := hlive.markComputed
    rw [← coe_live_of_mem ha] at howned
    exact h.granted hconf.toSameArgs hkeeps howned
  · have hcomp : (s.cache.node a.node).computed = true := by
      cases hn : s.cache.find a.node with
      | some n =>
        rw [node_of_find hn]
        exact (h.settled a ha).2 n hn
      | none =>
        unfold node
        rw [show s.cache.nodes.lookup a.node = none from hn]
        rfl
    have hself : s.cache.markComputed a = s.cache := by
      unfold RadixKVCache.markComputed
      rw [if_neg]
      rintro ⟨_, _, hf⟩
      rw [hcomp] at hf
      cases hf
    simp only [hself]
    exact h.granted (SameArgs.refl _) (Keeps.refl ∅ _) h.owned

theorem Ledger.Ok.free (ha : a ∈ s.live) : s.CallOk (s.call (.free a)) := by
  have hlive := h.owned
  rw [coe_live_of_mem ha] at hlive
  obtain ⟨c', hrun, hconf, hkeeps, howned⟩ := hlive.free
  unfold call
  simp only [hrun]
  exact ⟨hconf.toSameArgs, ⟨path, pagePath, h.gaveBack ha hkeeps howned⟩, fun e he => by cases he⟩

theorem Ledger.Ok.commitAndRelease {outputTokens : List TokenId} (ha : a ∈ s.live)
    (hpages : decodePages.Subperm s.loose)
    (hcover : a.extraFull s.cache.pageSize outputTokens ≤ (a.tailPage.toList ++ decodePages).length) :
    s.CallOk (s.call (.commitAndRelease a outputTokens decodePages)) := by
  have hlive := h.owned
  rw [coe_live_of_mem ha, coe_loose_of_subperm hpages] at hlive
  obtain ⟨c', path', pagePath', hrun, hconf, hkeeps, howned⟩ := hlive.commitAndRelease hcover
  unfold call
  simp only [hrun]
  exact ⟨hconf.toSameArgs, ⟨path', pagePath', h.gaveBack ha hkeeps howned⟩, fun e he => by cases he⟩

theorem Ledger.Ok.releasePreempted (ha : a ∈ s.live) (hpages : decodePages.Subperm s.loose) :
    s.CallOk (s.call (.releasePreempted a decodePages)) := by
  have hlive := h.owned
  rw [coe_live_of_mem ha, coe_loose_of_subperm hpages] at hlive
  obtain ⟨c', hrun, hconf, hkeeps, howned⟩ := hlive.releasePreempted
  unfold call
  simp only [hrun]
  exact ⟨hconf.toSameArgs, ⟨path, pagePath, h.gaveBack ha hkeeps howned⟩, fun e he => by cases he⟩

theorem Ledger.Ok.freePrivatePages {pages : List PageId}
    (hpages : pages.Subperm s.loose) : s.CallOk (s.call (.freePrivatePages pages)) := by
  have hloose := h.owned
  rw [coe_loose_of_subperm hpages] at hloose
  obtain ⟨c', hrun, hconf, hkeeps, howned⟩ := hloose.freePrivatePages
  unfold call
  simp only [hrun]
  exact h.granted hconf.toSameArgs hkeeps howned

/-- **One step**: a permitted call keeps the ledger and raises refusals only. -/
theorem Ledger.Ok.call {request : CacheCall} (hreq : s.Permits request) : s.CallOk (s.call request) := by
  cases request with
  | allocate tokens => exact h.allocate tokens
  | markComputed a => exact h.markComputed hreq
  | free a => exact h.free hreq
  | commitAndRelease a outputTokens decodePages =>
    exact h.commitAndRelease hreq.1 hreq.2.1 hreq.2.2
  | releasePreempted a decodePages => exact h.releasePreempted hreq.1 hreq.2
  | allocatePrivatePage =>
    unfold Ledger.call
    rcases h.owned.allocatePrivatePage with ⟨page, c', hrun, hconf, hkeeps, howned⟩ |
      ⟨c', hrun, hconf, hkeeps, howned⟩
    · simp only [hrun]
      exact h.granted hconf.toSameArgs hkeeps howned
    · simp only [hrun]
      exact h.refused hconf.toSameArgs hkeeps howned trivial
  | freePrivatePages pages => exact h.freePrivatePages hreq
  | reserveScratchPage =>
    unfold Ledger.call
    rcases h.owned.reserveScratchPage with ⟨page, c', hrun, hconf, hkeeps, howned⟩ |
      ⟨c', hrun, hconf, hkeeps, howned⟩
    · simp only [hrun]
      exact h.granted hconf.toSameArgs hkeeps howned
    · simp only [hrun]
      exact h.refused hconf.toSameArgs hkeeps howned trivial
  | pin session tokens ttl =>
    unfold Ledger.call
    rcases h.owned.pin session tokens ttl with hrun | ⟨c', path', pagePath', hrun, hargs, hkeeps, howned⟩
    · simp only [hrun]
      exact h.refused (SameArgs.refl _) (Keeps.refl ∅ _) h.owned trivial
    · simp only [hrun]
      exact h.granted hargs hkeeps howned
  | unpin session =>
    unfold Ledger.call
    rcases h.owned.unpin session with hrun | ⟨c', hrun, hargs, hkeeps, howned⟩
    · simp only [hrun]
      exact h.refused (SameArgs.refl _) (Keeps.refl ∅ _) h.owned trivial
    · simp only [hrun]
      exact h.granted hargs hkeeps howned

end Steps

/-! ### Whole runs -/

section Runs

variable {numPages pageSize : Nat} {chain : Option (List TokenId → BlockHash)} {s : Ledger}

/-- A fresh cache owes nothing: all pages are free and the tree is its root. -/
theorem Owned.create {c : RadixKVCache} (hc : create numPages pageSize chain = some c) :
    c.numPages = numPages ∧ c.pageSize = pageSize ∧ c.chain = chain ∧ Owned c 0 0 (fun _ => []) (fun _ => []) := by
  unfold RadixKVCache.create at hc
  split at hc
  · cases hc
  next hps =>
  obtain ⟨pool, hpool, rfl⟩ := Option.map_eq_some_iff.mp hc
  obtain ⟨hfree, hsize⟩ := PagePool.create_spec hpool
  have hfind : ∀ i n, ((∅ : Dict NodeId Node).insert rootId
      { refCount := 1, computed := true }).lookup i = some n → i = rootId ∧
      n = { refCount := 1, computed := true } := by
    intro i n hi
    rcases AList.of_lookup_insert hi with ⟨_, rfl⟩ | ⟨_, hi⟩
    · exact ⟨by assumption, rfl⟩
    · cases hi
  have hroot : ∀ i n, ((∅ : Dict NodeId Node).insert rootId
      { refCount := 1, computed := true }).lookup i = some n → i ≠ rootId → False :=
    fun i n hi hne => hne (hfind i n hi).1
  refine ⟨rfl, rfl, rfl, ⟨⟨⟨⟨?_, ?_, rfl, rfl, ?_, ?_, ?_, ?_⟩, ?_, hsize, ?_, ?_, ?_⟩, ?_, ?_⟩, ?_⟩⟩
  · exact Nat.le_of_not_lt hps
  · exact ⟨_, AList.lookup_insert _, rfl, rfl, rfl, rfl⟩
  · intro i n hi
    rw [(hfind i n hi).1]
    exact Nat.lt_succ_self _
  · exact fun i n hi hne => (hroot i n hi hne).elim
  · intro p pn b i hp hb
    rw [(hfind p pn hp).2] at hb
    cases hb
  · exact fun i n hi hne => (hroot i n hi hne).elim
  · intro i n before hi hpath
    rw [(hfind i n hi).2] at hpath ⊢
    have hnil : before = [] := (List.append_eq_nil_iff.mp hpath.symm).1
    subst hnil
    cases chain with
    | none => exact ⟨rfl, rfl⟩
    | some hash => exact ⟨rfl, by simp [extendPrefixHashChain]⟩
  · show (↑pool.freeList : Multiset PageId) + 0 + 0 = _
    rw [hfree, add_zero, add_zero]
    rfl
  · intro h hh
    exact absurd hh (notMem_zero h)
  · exact fun i n hi hne => (hroot i n hi hne).elim
  · intro i n hi hf _
    rw [(hfind i n hi).2] at hf
    cases hf
  · refine ⟨?_, ?_, ?_, ?_, ?_⟩
    · intro i _
      constructor
      · intro hi
        cases hi
      · intro hev
        obtain ⟨hne, n, hn, _⟩ := isEvictable_iff.mp hev
        exact (hroot i n hn hne).elim
    · intro i stamp hi
      cases hi
    · intro i stamp _ hi
      cases hi
    · intro entry hentry
      cases hentry
    · intro entry hentry
      cases hentry
  · intro a ha
    exact absurd ha (notMem_zero a)

/-- **Every run** keeps its ledger. -/
theorem CacheRun.ok (hrun : CacheRun numPages pageSize chain s) :
    s.cache.numPages = numPages ∧ s.cache.pageSize = pageSize ∧ ∃ path pagePath, s.Ok path pagePath := by
  induction hrun with
  | fresh hc =>
    obtain ⟨hpages, hsize, _, howned⟩ := Owned.create hc
    exact ⟨hpages, hsize, _, _, howned, fun a ha => by cases ha⟩
  | call _ request hreq ih =>
    obtain ⟨hpages, hsize, path, pagePath, hok⟩ := ih
    obtain ⟨hargs, hok', _⟩ := hok.call hreq
    exact ⟨hargs.numPages.trans hpages, hargs.pageSize.trans hsize, hok'⟩

end Runs

/-! ### Owners and holders -/

section Owners

variable {numPages pageSize : Nat} {chain : Option (List TokenId → BlockHash)} {s : Ledger}
  {c : RadixKVCache} {path : NodeId → List TokenId} {pagePath : NodeId → List PageId}

/-- The subtree of a node holds the nodes whose paths continue its path. -/
theorem inSubtree_iff {holders : Multiset NodeId} {owned : Multiset PageId}
    (h : CoreInv c holders owned path pagePath) {i j : NodeId} {n m : Node}
    (hi : c.find i = some n) (hj : c.find j = some m) : c.InSubtree i j ↔ path i <+: path j := by
  have T := h.tree.isPathTree
  constructor
  · intro hsub
    clear hj
    induction hsub with
    | self => exact List.prefix_rfl
    | child hj hp _ ih =>
      obtain ⟨_, _, _, hpath, _⟩ := h.tree.parent_of hj (h.tree.root_parent hj hp) hp
      rw [hpath]
      exact ih.trans (List.prefix_append _ _)
  · refine h.tree.climb (P := fun j => path i <+: path j → c.InSubtree i j) ?_ ?_ hj
    · intro hpre
      rw [(T.prefix_root_iff ⟨n, hi⟩).mp hpre]
      exact .self
    · intro j p m pn hj hroot hp _ ih hpre
      rcases (T.prefix_edge_iff (h.tree.edge_of hj hroot hp) ⟨n, hi⟩).mp hpre with rfl | hup
      · exact .self
      · exact .child hj hp (ih hup)

theorem pinNodes_eq (c : RadixKVCache) : c.pinNodes = ↑(c.pins.entries.map fun entry => entry.2.1) := by
  unfold pinNodes AList.total
  induction c.pins.entries with
  | nil => rfl
  | cons entry rest ih =>
    rw [List.map_cons, List.sum_cons, ih, List.map_cons, ← cons_coe, singleton_add]

theorem coe_flatMap {α : Type*} (l : List α) (f : α → List PageId) :
    (↑(l.flatMap f) : Multiset PageId) = (l.map fun a => (↑(f a) : Multiset PageId)).sum := by
  induction l with
  | nil => rfl
  | cons a l ih => rw [List.flatMap_cons, ← coe_add, ih, List.map_cons, List.sum_cons]

theorem Ledger.Ok.pages_perm (h : s.Ok path pagePath) : s.pages.Perm (List.range s.cache.numPages) := by
  rw [← coe_eq_coe]
  have hpart := h.owned.inv.core.partition
  unfold pages
  rw [← coe_add, ← coe_add, ← coe_add, coe_flatMap, coe_flatMap, add_assoc]
  exact hpart

open Classical in
/-- **Page ownership over whole runs.**  In every state that a sequence of calls
    reaches, each page id is recorded at exactly one place, each refcount is the
    number of live allocations and pins in the node's subtree, and whatever a
    caller may ask next, nothing but a refusal is raised: in particular the pool
    never objects to a page that is returned to it. -/
theorem page_has_one_owner (hrun : CacheRun numPages pageSize chain s) :
    (∀ page, s.pages.count page = if page < numPages then 1 else 0) ∧
    (∀ i n, s.cache.nodes.lookup i = some n → i ≠ rootId →
      n.refCount = s.live.countP (fun a => s.cache.InSubtree i a.node) +
        s.cache.pins.entries.countP (fun entry => s.cache.InSubtree i entry.2.1)) ∧
    (∀ request, s.Permits request → ∀ e, (s.call request).1 = some e → e.IsRefusal) := by
  obtain ⟨hpages, _, path, pagePath, hok⟩ := hrun.ok
  refine ⟨?_, ?_, ?_⟩
  · intro page
    rw [hok.pages_perm.count_eq, hpages, List.nodup_range.count]
    simp only [List.mem_range]
  · intro i n hi hroot
    have hcore := hok.owned.inv.core
    have hsub : ∀ j ∈ Multiset.map KVAllocation.node ↑s.live + s.cache.pinNodes,
        (path i <+: path j ↔ s.cache.InSubtree i j) := by
      intro j hj
      obtain ⟨m, hm⟩ := hcore.held j hj
      exact (inSubtree_iff hcore hi hm).symm
    rw [hcore.refs i n hi hroot, countP_congr rfl fun j hj => by simpa using hsub j hj,
      countP_add, pinNodes_eq, map_coe, coe_countP, coe_countP,
      List.countP_map, List.countP_map]
    rfl
  · exact fun request hreq => (hok.call hreq).2.2

/-- The ledger after a prompt of three tokens was admitted to four pages of two. -/
def admitted (c : RadixKVCache) : Ledger := (call { cache := c } (.allocate [1, 2, 3])).2

theorem page_has_one_owner_admitted : ∃ c, create 4 2 none = some c ∧
    (admitted c).live.length = 1 ∧ (admitted c).cache.numFreePages = 2 ∧
    ∀ page, (admitted c).pages.count page = if page < 4 then 1 else 0 := by
  refine ⟨_, rfl, rfl, rfl, ?_⟩
  have hrun : CacheRun 4 2 none (admitted _) := .call (.fresh rfl) (.allocate [1, 2, 3]) trivial
  exact (page_has_one_owner hrun).1

end Owners

end Kairyu
