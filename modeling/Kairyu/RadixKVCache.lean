/-
  Kairyu/RadixKVCache.lean
  ========================
  **The radix tree over paged KV blocks** (`engine/core/radix_kv.py`), as a
  state-passing embedding.

  Node keys are token sequences whose length is a multiple of the page size;
  children are keyed by their first page, so partial pages are never shared.
  Nodes carry refcounts (live allocations and session pins) and an LRU stamp;
  eviction removes refcount-0 leaves, oldest first.

  Reading guide.

    * A Python node object is an entry of `nodes`; its identity is a `NodeId`
      that is never reused.  A detached node leaves the dictionary.
    * The node columns `last_access` and `eviction_version` are kept with the
      eviction heap in `EvictionIndex`, which is all that reads them.
    * `heapq` is modelled by a sorted list: `heappush` inserts in order,
      `heappop` takes the head, `heapify` sorts.
    * An event sink is present exactly when `chain` holds the digest of a token
      tuple (the hex SHA-256 of its `repr`).  Deliveries are recorded in `events`;
      the sink neither raises nor re-enters, so the flags `publishing`,
      `evicting` and `_releasing`, which a call resets before it returns, have no
      observer and are left out.  So is the DRAM tier (no tier is attached).
    * A raising call returns the error next to the state it leaves behind.
-/
import Kairyu.Dict
import Kairyu.PagePool
import Mathlib.Data.List.Sort
import Mathlib.Data.Prod.Lex

namespace Kairyu

abbrev TokenId := Int
abbrev NodeId := Nat
abbrev BlockHash := String
abbrev SessionId := String

/-! ### Nodes, allocations, events -/

structure Node where
  key : List TokenId := []
  pages : List PageId := []
  children : Dict (List TokenId) NodeId := ∅
  parent : Option NodeId := none
  refCount : Nat := 0
  computed : Bool := false
  /-- What has been fed to `prefix_hasher`: the tokens of the whole prefix. -/
  prefixTokens : List TokenId := []
  blockHashes : List BlockHash := []

/-- The root object; its key is empty and it is never evicted. -/
def rootId : NodeId := 0

structure KVAllocation where
  tokens : List TokenId
  cachedPages : List PageId
  newFullPages : List PageId
  tailPage : Option PageId
  node : NodeId
  freed : Bool := false
  treeInserted : Bool := true
  pageSize : Nat := 16
deriving DecidableEq

namespace KVAllocation

def pages (a : KVAllocation) : List PageId :=
  a.cachedPages ++ a.newFullPages ++ a.tailPage.toList

/-- Prompt tokens whose KV is already computed — prefill can skip them. -/
def numCachedTokens (a : KVAllocation) : Nat := a.cachedPages.length * a.pageSize

end KVAllocation

inductive KvEvent where
  | blockStored (blockHashes : List BlockHash) (parentBlockHash : Option BlockHash)
      (tokenIds : List TokenId) (blockSize : Nat)
  | blockRemoved (blockHashes : List BlockHash)
deriving DecidableEq, Repr

inductive KvError where
  | cacheFull (needed free : Nat)           -- `KVCacheFull` of `allocate`
  | noDecodePage                            -- `KVCacheFull` of `allocate_private_page`
  | noScratchPage                           -- `KVCacheFull` of `reserve_scratch_page`
  | alreadyFreed
  | alreadyPinned (session : SessionId)
  | notPinned (session : SessionId)
  | pool (error : PoolError)
  | assertion (message : String)
deriving DecidableEq, Repr

/-! ### The eviction heap and index -/

structure HeapEntry where
  lastAccess : Nat
  sequence : Nat
  version : Nat
  node : NodeId
deriving DecidableEq, Repr

/-- Heap entries are compared as the tuples they are in the source. -/
def HeapEntry.rank (e : HeapEntry) : Nat ×ₗ Nat ×ₗ Nat ×ₗ Nat :=
  toLex (e.lastAccess, toLex (e.sequence, toLex (e.version, e.node)))

def HeapEntry.le (a b : HeapEntry) : Prop := a.rank ≤ b.rank

instance : DecidableRel HeapEntry.le := fun a b => inferInstanceAs (Decidable (a.rank ≤ b.rank))

structure EvictionIndex where
  clock : Nat := 0
  sequence : Nat := 0
  heap : List HeapEntry := []
  /-- `_evictable_index`: node to `(version, sequence)`. -/
  index : Dict NodeId (Nat × Nat) := ∅
  lastAccess : NodeId → Nat := fun _ => 0
  version : NodeId → Nat := fun _ => 0

namespace EvictionIndex

def entryFor (e : EvictionIndex) (i : NodeId) (stamp : Nat × Nat) : HeapEntry :=
  { lastAccess := e.lastAccess i, sequence := stamp.2, version := stamp.1, node := i }

def maybeCompact (e : EvictionIndex) : EvictionIndex :=
  if e.heap.length ≤ 64 ∨ e.heap.length ≤ 2 * e.index.entries.length then e
  else
    { e with
      heap := (e.index.entries.map fun entry => e.entryFor entry.1 entry.2).insertionSort
        HeapEntry.le }

/-- Invalidate stale heap state and index the node if it is eligible now. -/
def refresh (e : EvictionIndex) (evictable : Bool) (i : NodeId) : EvictionIndex :=
  let version := e.version i + 1
  let e := { e with
    version := Function.update e.version i version
    index := e.index.erase i }
  let e :=
    if evictable then
      let stamp := (version, e.sequence + 1)
      { e with
        sequence := e.sequence + 1
        index := e.index.insert i stamp
        heap := e.heap.orderedInsert HeapEntry.le (e.entryFor i stamp) }
    else e
  e.maybeCompact

def invalidate (e : EvictionIndex) (i : NodeId) : EvictionIndex :=
  maybeCompact
    { e with
      version := Function.update e.version i (e.version i + 1)
      index := e.index.erase i }

/-- The `while self._eviction_heap` loop: skip entries the index no longer backs,
    drop an entry whose node moved on, return the first live one. -/
def popLoop (evictable : NodeId → Bool) : Nat → EvictionIndex → Option NodeId × EvictionIndex
  | 0, e => (none, e)
  | fuel + 1, e =>
    match e.heap with
    | [] => (none, e)
    | entry :: heap =>
      let e := { e with heap }
      if e.index.lookup entry.node ≠ some (entry.version, entry.sequence) then
        popLoop evictable fuel e
      else if e.lastAccess entry.node ≠ entry.lastAccess ∨ evictable entry.node = false then
        popLoop evictable fuel (e.invalidate entry.node)
      else (some entry.node, { e with index := e.index.erase entry.node })

/-- The heap shrinks in every round, so its length bounds the loop. -/
def popOldest (evictable : NodeId → Bool) (e : EvictionIndex) : Option NodeId × EvictionIndex :=
  popLoop evictable e.heap.length e

end EvictionIndex

/-! ### The cache -/

structure RadixKVCache where
  numPages : Nat
  pageSize : Nat
  pool : PagePool
  nodes : Dict NodeId Node
  nextNode : NodeId
  eviction : EvictionIndex
  allocTick : Nat
  pins : Dict SessionId (NodeId × Option Int)
  hitTokens : Nat
  totalTokens : Nat
  chain : Option (List TokenId → BlockHash)
  events : List KvEvent

/-- A call's result next to the state it leaves, whether or not it raised. -/
abbrev KvResult (α : Type) := Except KvError α × RadixKVCache

/-- Sequence two calls; a raised error skips the rest. -/
def KvResult.andThen {α β : Type} (r : KvResult α) (f : α → RadixKVCache → KvResult β) :
    KvResult β :=
  match r with
  | (.ok a, c) => f a c
  | (.error e, c) => (.error e, c)

@[simp] theorem KvResult.andThen_ok {α β : Type} (a : α) (c : RadixKVCache)
    (f : α → RadixKVCache → KvResult β) : KvResult.andThen (.ok a, c) f = f a c := rfl

namespace RadixKVCache

/-- `RadixKVCache(num_pages, page_size, event_sink)`. -/
def create (numPages pageSize : Nat) (chain : Option (List TokenId → BlockHash) := none) :
    Option RadixKVCache :=
  if pageSize < 1 then none
  else
    (PagePool.create numPages).map fun pool =>
      { numPages
        pageSize
        pool
        nodes := (∅ : Dict NodeId Node).insert rootId { refCount := 1, computed := true }
        nextNode := rootId + 1
        eviction := {}
        allocTick := 0
        pins := ∅
        hitTokens := 0
        totalTokens := 0
        chain
        events := [] }

def numFreePages (c : RadixKVCache) : Nat := c.pool.numFree

/-- Dereference a node.  References held by the tree, by live allocations and by
    pins always resolve; the default stands for an evicted object, which nobody
    marks again. -/
def node (c : RadixKVCache) (i : NodeId) : Node := (c.nodes.lookup i).getD { computed := true }

def modifyNode (c : RadixKVCache) (i : NodeId) (f : Node → Node) : RadixKVCache :=
  { c with nodes := c.nodes.modify i f }

/-! ### Matching without mutation -/

/-- The number of leading whole pages on which `tokens` and `key` agree, looking
    at no more than `wholePages` of them. -/
def commonPages (pageSize : Nat) : (wholePages : Nat) → (tokens key : List TokenId) → Nat
  | 0, _, _ => 0
  | wholePages + 1, tokens, key =>
    if tokens.take pageSize = key.take pageSize then
      commonPages pageSize wholePages (tokens.drop pageSize) (key.drop pageSize) + 1
    else 0

def peekLoop (c : RadixKVCache) (tokens : List TokenId) : Nat → NodeId → Nat → Nat × Bool
  | 0, _, position => (position, false)
  | fuel + 1, i, position =>
    let firstPage := (tokens.drop position).take c.pageSize
    if firstPage.length < c.pageSize then (position, false)
    else
      match (c.node i).children.lookup firstPage with
      | none => (position, true)
      | some childId =>
        let child := c.node childId
        if child.computed = false then (position, false)
        else
          let wholePages := child.key.length / c.pageSize
          let common := commonPages c.pageSize wholePages (tokens.drop position) child.key
          if common < wholePages then (position + common * c.pageSize, true)
          else peekLoop c tokens fuel childId (position + child.key.length)

/-- Each round consumes at least one token, which bounds the walk. -/
def peekCachedPrefix (c : RadixKVCache) (tokens : List TokenId) : Nat × Bool :=
  c.peekLoop tokens (tokens.length + 1) rootId 0

/-- The computed page-aligned prefix length, without mutation. -/
def peekCachedTokens (c : RadixKVCache) (tokens : List TokenId) : Nat :=
  (c.peekCachedPrefix tokens).1

/-! ### LRU and eviction bookkeeping -/

def isEvictable (c : RadixKVCache) (i : NodeId) : Bool :=
  match c.nodes.lookup i with
  | none => false
  | some n => decide (i ≠ rootId ∧ n.children.entries = [] ∧ n.refCount = 0)

def refreshEvictable (c : RadixKVCache) (i : NodeId) : RadixKVCache :=
  { c with eviction := c.eviction.refresh (c.isEvictable i) i }

def invalidateEvictable (c : RadixKVCache) (i : NodeId) : RadixKVCache :=
  { c with eviction := c.eviction.invalidate i }

def touch (c : RadixKVCache) (i : NodeId) : RadixKVCache :=
  let clock := c.eviction.clock + 1
  let c := { c with eviction := { c.eviction with
    clock
    lastAccess := Function.update c.eviction.lastAccess i clock } }
  if i ∈ c.eviction.index ∨ c.isEvictable i = true then c.refreshEvictable i else c

/-! ### Hash chain and events -/

/-- `_extend_prefix_hash_chain`: one digest at every page boundary of `tokens`,
    each over the whole prefix up to that boundary. -/
def extendPrefixHashChain (hash : List TokenId → BlockHash) (prefixTokens tokens : List TokenId)
    (pageSize : Nat) : List BlockHash :=
  (List.range (tokens.length / pageSize)).map fun j =>
    hash (prefixTokens ++ tokens.take ((j + 1) * pageSize))

/-- A node object under `parent` with its hash chain initialised; without a sink
    the chain columns stay empty. -/
def newNode (c : RadixKVCache) (key : List TokenId) (pages : List PageId) (parent : NodeId) : Node :=
  match c.chain with
  | none => { key, pages, parent := some parent }
  | some hash =>
    let prefixTokens := (c.node parent).prefixTokens
    { key
      pages
      parent := some parent
      prefixTokens := prefixTokens ++ key
      blockHashes := extendPrefixHashChain hash prefixTokens key c.pageSize }

def emitStored (c : RadixKVCache) (i : NodeId) : RadixKVCache :=
  if c.chain.isNone then c
  else
    let n := c.node i
    let parentHash := n.parent.bind fun p => (c.node p).blockHashes.getLast?
    { c with events := c.events ++ [.blockStored n.blockHashes parentHash n.key c.pageSize] }

def emitRemoved (c : RadixKVCache) (i : NodeId) : RadixKVCache :=
  if c.chain.isNone then c
  else { c with events := c.events ++ [.blockRemoved (c.node i).blockHashes] }

/-! ### Splitting, matching and locking -/

/-- Split node `i` so its first `keepPages` pages become a new parent.  The
    original object keeps the tail segment so that allocations and pins stay
    valid; the new upper node inherits the refcount because every lock on the old
    node locked its whole key. -/
def split (c : RadixKVCache) (i : NodeId) (keepPages : Nat) : KvResult NodeId :=
  let n := c.node i
  let splitTokens := keepPages * c.pageSize
  match n.parent with
  | none => (.error (.assertion "root is never split"), c)
  | some p =>
    let upperId := c.nextNode
    let upper : Node := { c.newNode (n.key.take splitTokens) (n.pages.take keepPages) p with
      refCount := n.refCount
      computed := n.computed }
    if upper.blockHashes ≠ n.blockHashes.take keepPages then
      (.error (.assertion "split prefix hash diverged from stored chain"), c)
    else
      let lower : Node := { n with
        key := n.key.drop splitTokens
        pages := n.pages.drop keepPages
        blockHashes := n.blockHashes.drop keepPages
        parent := some upperId }
      let upper : Node := { upper with
        children := (∅ : Dict (List TokenId) NodeId).insert (lower.key.take c.pageSize) i }
      let nodes := c.nodes.modify p fun parent =>
        { parent with children := parent.children.insert (upper.key.take c.pageSize) upperId }
      let c := { c with
        nodes := (nodes.insert upperId upper).modify i fun _ => lower
        nextNode := c.nextNode + 1
        eviction := { c.eviction with
          lastAccess := Function.update c.eviction.lastAccess upperId (c.eviction.lastAccess i) } }
      (.ok upperId, ((c.refreshEvictable p).refreshEvictable upperId).refreshEvictable i)

/-- Add one lock to node `i` and stamp it. -/
def lockNode (c : RadixKVCache) (i : NodeId) : RadixKVCache :=
  (c.modifyNode i fun n => { n with refCount := n.refCount + 1 }).touch i

def matchLoop (tokens : List TokenId) :
    Nat → RadixKVCache → NodeId → Nat → List PageId → KvResult (Nat × List PageId × NodeId)
  | 0, c, i, position, matched => (.ok (position, matched, i), c)
  | fuel + 1, c, i, position, matched =>
    let firstPage := (tokens.drop position).take c.pageSize
    if firstPage.length < c.pageSize then (.ok (position, matched, i), c)
    else
      match (c.node i).children.lookup firstPage with
      | none => (.ok (position, matched, i), c)
      | some childId =>
        let child := c.node childId
        if child.computed = false then (.ok (position, matched, i), c)
        else
          let wholePages := child.key.length / c.pageSize
          let common := commonPages c.pageSize wholePages (tokens.drop position) child.key
          let target : KvResult NodeId :=
            if common < wholePages then c.split childId common else (.ok childId, c)
          target.andThen fun childId c =>
            let c := c.lockNode childId
            let child := c.node childId
            matchLoop tokens fuel c childId (position + child.key.length) (matched ++ child.pages)

/-- Walk the tree, splitting on partial matches; lock and stamp the path. -/
def matchAndLock (c : RadixKVCache) (tokens : List TokenId) :
    KvResult (Nat × List PageId × NodeId) :=
  matchLoop tokens (tokens.length + 1) (c.touch rootId) rootId 0 []

def unlockLoop : Nat → RadixKVCache → NodeId → RadixKVCache
  | 0, c, _ => c
  | fuel + 1, c, current =>
    if current = rootId then c
    else
      let c := c.modifyNode current fun n => { n with refCount := n.refCount - 1 }
      let c := c.refreshEvictable current
      match (c.node current).parent with
      | none => c
      | some p => unlockLoop fuel c p

/-- A path to the root visits every node at most once. -/
def unlockPath (c : RadixKVCache) (i : NodeId) : RadixKVCache :=
  unlockLoop c.nodes.entries.length c i

/-! ### Pages -/

def takePages (c : RadixKVCache) (count : Nat) : KvResult (List PageId) :=
  match c.pool.allocate count with
  | .error e => (.error (.pool e), c)
  | .ok (pages, pool) => (.ok pages, { c with pool })

def freePages (c : RadixKVCache) (pages : List PageId) : KvResult Unit :=
  match c.pool.free pages with
  | .error e => (.error (.pool e), c)
  | .ok pool => (.ok (), { c with pool })

/-- `if pages: self._pool.free(pages)`. -/
def freeIfAny (c : RadixKVCache) (pages : List PageId) : KvResult Unit :=
  if pages = [] then (.ok (), c) else c.freePages pages

/-- Unlink leaf `i` from its parent and drop it. -/
def detach (c : RadixKVCache) (i : NodeId) : RadixKVCache :=
  let n := c.node i
  match n.parent with
  | none => c
  | some p =>
    { c with
      nodes := (c.nodes.modify p fun parent =>
        { parent with children := parent.children.erase (n.key.take c.pageSize) }).erase i }

/-- One round of the eviction loop for an already selected victim. -/
def evict (c : RadixKVCache) (victim : NodeId) : KvResult Unit :=
  let n := c.node victim
  let c := c.emitRemoved victim
  (c.freePages n.pages).andThen fun _ c =>
    match n.parent with
    | none => (.error (.assertion "an eviction victim has a parent"), c)
    | some p =>
      let c := (c.invalidateEvictable victim).detach victim
      (.ok (), c.refreshEvictable p)

def ensureFreeLoop (needed : Nat) : Nat → RadixKVCache → KvResult Bool
  | 0, c => (.ok (decide (needed ≤ c.numFreePages)), c)
  | fuel + 1, c =>
    if needed ≤ c.numFreePages then (.ok true, c)
    else
      match c.eviction.popOldest c.isEvictable with
      | (none, eviction) => (.ok false, { c with eviction })
      | (some victim, eviction) =>
        (evict { c with eviction } victim).andThen fun _ c => ensureFreeLoop needed fuel c

/-- Evict leaves until `needed` pages are free; every round removes one node. -/
def ensureFree (c : RadixKVCache) (needed : Nat) : KvResult Bool :=
  ensureFreeLoop needed c.nodes.entries.length c

/-! ### Allocation -/

def expirePins (c : RadixKVCache) : RadixKVCache :=
  let expired := c.pins.entries.reverse.filter fun entry =>
    entry.2.2.any fun expiry => decide (expiry ≤ (c.allocTick : Int))
  expired.foldl (fun c entry => { c with pins := c.pins.erase entry.1 }.unlockPath entry.2.1) c

/-- A locked child of `parent`, stamped and entered under its first page. -/
def insertChild (c : RadixKVCache) (parent : NodeId) (key : List TokenId) (pages : List PageId) :
    NodeId × RadixKVCache :=
  let childId := c.nextNode
  let child : Node := { c.newNode key pages parent with refCount := 1 }
  let c := { c with nodes := c.nodes.insert childId child, nextNode := c.nextNode + 1 }
  let c := c.touch childId
  let c := c.modifyNode parent fun n =>
    { n with children := n.children.insert (key.take c.pageSize) childId }
  (childId, c.refreshEvictable parent)

def allocate (c : RadixKVCache) (tokens : List TokenId) : KvResult KVAllocation :=
  let c := expirePins { c with allocTick := c.allocTick + 1 }
  (c.matchAndLock tokens).andThen fun (matchedTokens, cachedPages, node) c =>
    let suffixLen := tokens.length - matchedTokens
    let fullPagesNeeded := suffixLen / c.pageSize
    let tailTokens := suffixLen % c.pageSize
    let needed := fullPagesNeeded + (if tailTokens = 0 then 0 else 1)
    match c.ensureFree needed with
    | (.error e, c) => (.error e, c.unlockPath node)
    | (.ok false, c) => (.error (.cacheFull needed c.numFreePages), c.unlockPath node)
    | (.ok true, c) =>
      (c.takePages fullPagesNeeded).andThen fun newFullPages c =>
      (c.takePages (if tailTokens = 0 then 0 else 1)).andThen fun tail c =>
        let key := (tokens.drop matchedTokens).take (fullPagesNeeded * c.pageSize)
        -- an uncomputed sibling may own this key (in-flight prefill of the same
        -- prefix); then the pages stay private instead of colliding
        let collides := (key.take c.pageSize) ∈ (c.node node).children
        let treeInserted := decide (fullPagesNeeded = 0 ∨ ¬ collides)
        let (node, c) :=
          if fullPagesNeeded = 0 ∨ collides then (node, c)
          else c.insertChild node key newFullPages
        let c := { c with
          hitTokens := c.hitTokens + matchedTokens
          totalTokens := c.totalTokens + tokens.length }
        (.ok { tokens, cachedPages, newFullPages, tailPage := tail.head?, node, treeInserted,
               pageSize := c.pageSize }, c)

/-- Record that the allocation's prefill KV has been written (prefill done). -/
def markComputed (c : RadixKVCache) (a : KVAllocation) : RadixKVCache :=
  if a.treeInserted = true ∧ a.newFullPages ≠ [] ∧ (c.node a.node).computed = false then
    (c.emitStored a.node).modifyNode a.node fun n => { n with computed := true }
  else c

/-! ### Release -/

def release (c : RadixKVCache) (a : KVAllocation) : KvResult Unit :=
  let c := (c.markComputed a).unlockPath a.node
  if a.treeInserted = false ∧ a.newFullPages ≠ [] then c.freePages a.newFullPages
  else (.ok (), c)

def free (c : RadixKVCache) (a : KVAllocation) : KvResult KVAllocation :=
  if a.freed = true then (.error .alreadyFreed, c)
  else
    (c.release a).andThen fun _ c =>
    (c.freeIfAny a.tailPage.toList).andThen fun _ c =>
    (.ok { a with freed := true }, c)

/-- The committed tail of a finished request enters the tree as a computed,
    unlocked child of the allocation's node. -/
def commitChild (c : RadixKVCache) (parent : NodeId) (key : List TokenId) (pages : List PageId) :
    RadixKVCache :=
  let (childId, c) := c.insertChild parent key pages
  let c := c.emitStored childId
  let c := c.modifyNode childId fun n => { n with computed := true, refCount := 0 }
  c.refreshEvictable childId

/-- Fold the committed pages into the tree below the allocation's node.  Returns
    the pages that stay there. -/
def commitPages (c : RadixKVCache) (a : KVAllocation) (key : List TokenId)
    (candidatePages : List PageId) : List PageId × RadixKVCache :=
  match (c.node a.node).children.lookup (key.take c.pageSize) with
  | none => (candidatePages, c.commitChild a.node key candidatePages)
  | some existing =>
    -- a prior attempt delivered this transition but failed later
    if (c.node existing).key = key ∧ (c.node existing).pages = candidatePages then
      (candidatePages, c)
    else ([], c)

/-- Finish a request: fold fully generated pages into the radix tree.  The last
    sampled token's KV slot is never written, so the committable length is capped
    below it. -/
def commitAndRelease (c : RadixKVCache) (a : KVAllocation) (outputTokens : List TokenId)
    (decodePages : List PageId) : KvResult KVAllocation :=
  if a.freed = true then (.error .alreadyFreed, c)
  else
    let sequence := a.tokens ++ outputTokens
    let promptFull := a.tokens.length / c.pageSize
    let writtenLen := if outputTokens = [] then sequence.length else sequence.length - 1
    let sequenceFull := writtenLen / c.pageSize
    let extraFull := sequenceFull - promptFull
    let candidates := a.tailPage.toList ++ decodePages
    let key := (sequence.drop (promptFull * c.pageSize)).take (extraFull * c.pageSize)
    let (kept, c) :=
      if extraFull > 0 ∧ a.treeInserted = true then c.commitPages a key (candidates.take extraFull)
      else ([], c)
    let leftover := candidates.filter fun p => p ∉ kept
    (c.release a).andThen fun _ c =>
    (c.freeIfAny leftover).andThen fun _ c =>
    (.ok { a with freed := true }, c)

/-- Give up the full pages a preempted request brought, once its lock is gone: an
    uncomputed suffix leaves the tree, and pages that never entered it are freed. -/
def discardSuffix (c : RadixKVCache) (a : KVAllocation) : KvResult Unit :=
  let n := c.node a.node
  if a.newFullPages = [] then (.ok (), c)
  else if a.treeInserted = true ∧ n.computed = false then
    match n.parent with
    | none => (.error (.assertion "parent is not None"), c)
    | some p =>
      if n.refCount ≠ 0 ∨ n.children.entries ≠ [] ∨ n.pages ≠ a.newFullPages ∨
          (c.node p).children.lookup (n.key.take c.pageSize) ≠ some a.node then
        (.error (.assertion "a discarded suffix is an unlocked leaf of its owner"), c)
      else
        let c := (c.invalidateEvictable a.node).detach a.node
        (c.freePages a.newFullPages).andThen fun _ c => (.ok (), c.refreshEvictable p)
  else if a.treeInserted = false then c.freePages a.newFullPages
  else (.ok (), c)

/-- Release a preempted or aborted request WITHOUT marking its KV computed.  Its
    private pages and an exclusively inserted uncomputed suffix return to the
    pool at once; computed matched prefixes are only unlocked. -/
def releasePreempted (c : RadixKVCache) (a : KVAllocation) (decodePages : List PageId := []) :
    KvResult KVAllocation :=
  if a.freed = true then (.error .alreadyFreed, c)
  else
    ((c.unlockPath a.node).discardSuffix a).andThen fun _ c =>
    (c.freeIfAny (a.tailPage.toList ++ decodePages)).andThen fun _ c =>
    (.ok { a with freed := true }, c)

/-! ### Private pages and session pins -/

/-- The single page of `self._pool.allocate(1)[0]`. -/
def takeOne (c : RadixKVCache) : KvResult PageId :=
  (c.takePages 1).andThen fun pages c =>
    match pages with
    | p :: _ => (.ok p, c)
    | [] => (.error (.assertion "a batch of one page has a head"), c)

/-- One non-shared page (decode growth beyond the prompt allocation). -/
def allocatePrivatePage (c : RadixKVCache) : KvResult PageId :=
  (c.ensureFree 1).andThen fun hasCapacity c =>
    if hasCapacity = false then (.error .noDecodePage, c) else c.takeOne

def freePrivatePages (c : RadixKVCache) (pages : List PageId) : KvResult Unit :=
  c.freePages pages

/-- Take one page permanently out of circulation. -/
def reserveScratchPage (c : RadixKVCache) : KvResult PageId :=
  (c.ensureFree 1).andThen fun hasCapacity c =>
    if hasCapacity = false then (.error .noScratchPage, c) else c.takeOne

/-- Hold the matched prefix path against eviction, for at most `ttlAllocations`
    calls of `allocate`. -/
def pin (c : RadixKVCache) (session : SessionId) (tokens : List TokenId)
    (ttlAllocations : Option Int) : KvResult Unit :=
  if session ∈ c.pins then (.error (.alreadyPinned session), c)
  else
    (c.matchAndLock tokens).andThen fun (_, _, node) c =>
      let expiry := ttlAllocations.map fun ttl => (c.allocTick : Int) + ttl
      (.ok (), { c with pins := c.pins.insert session (node, expiry) })

def unpin (c : RadixKVCache) (session : SessionId) : KvResult Unit :=
  match c.pins.lookup session with
  | none => (.error (.notPinned session), c)
  | some entry => (.ok (), { c with pins := c.pins.erase session }.unlockPath entry.1)

end RadixKVCache

end Kairyu
