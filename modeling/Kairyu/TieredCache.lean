/-
  Kairyu/TieredCache.lean
  =======================
  **The radix cache with a host tier attached** (`engine/core/radix_kv.py`).

  Pages of an evicted node are offloaded before they return to the pool, and an allocation
  restores what the tier still has of its prompt before it takes new pages.  The calls that
  reach the tier are here; the others are those of `RadixKVCache`.

  Reading guide.

    * What the copies and the host bytes do is a `DramBackend`, asked once per call of the
      tier; `calls` counts them.
    * `tier_keys` is the column of digests at the page boundaries of a node, here computed
      from the prefix when it is read.
    * The hash chain is on from the attachment, so the cache has an event sink; it accepts
      every event.  The counters of `dram_tier_stats` are left out.
-/
import Kairyu.KvTierRuns
import Kairyu.RadixRuns

namespace Kairyu

open Effect

/-- What the copies of each call of the tier do, and what the host bytes hash to. -/
structure DramBackend where
  submits : Nat → Bool
  completes : Nat → Bool
  checksums : Nat → Option (Nat → Checksum)
  records : Nat → Bool

inductive TieredError where
  | kv (error : KvError)
  | tier (failure : TierFailure)
deriving DecidableEq

/-- `getattr(error, "source_reusable", False)` -/
def TieredError.sourceReusable : TieredError → Bool
  | .kv _ => false
  | .tier failure => failure.sourceReusable

/-- `getattr(error, "destination_reusable", False)` -/
def TieredError.destinationReusable : TieredError → Bool
  | .kv _ => false
  | .tier failure => failure.destinationReusable

structure TieredCache where
  cache : RadixKVCache
  tier : TierSystem
  /-- The full digest of a token prefix. -/
  digest : List TokenId → TierKey
  minRestoreTokens : Nat
  backend : DramBackend
  calls : Nat := 0

namespace TieredCache

open RadixKVCache (extendPrefixHashChain)

abbrev Op (α : Type) := Effect TieredCache TieredError α

def onCache {α : Type} (f : RadixKVCache → KvResult α) : Op α := fun s =>
  match f s.cache with
  | (.ok a, cache) => (.ok a, { s with cache })
  | (.error e, cache) => (.error (.kv e), { s with cache })

def onTier {α : Type} (m : DramBackend → Nat → TierSystem.Op α) : Op α := fun s =>
  match m s.backend s.calls s.tier with
  | (.ok a, tier) => (.ok a, { s with tier, calls := s.calls + 1 })
  | (.error e, tier) => (.error (.tier e), { s with tier, calls := s.calls + 1 })

/-- `attach_dram_tier` -/
def attach (cache : RadixKVCache) (tier : TierSystem) (digest : List TokenId → TierKey) (minRestoreTokens : Nat)
    (backend : DramBackend) : Option TieredCache :=
  if minRestoreTokens < cache.pageSize ∨ minRestoreTokens % cache.pageSize ≠ 0 then none
  else if cache.totalTokens ≠ 0 ∨ (cache.node rootId).children.entries ≠ [] then none
  else some { cache, tier, digest, minRestoreTokens, backend }

def tierKeys (s : TieredCache) (i : NodeId) : List TierKey :=
  let n := s.cache.node i
  extendPrefixHashChain s.digest (n.prefixTokens.take (n.prefixTokens.length - n.key.length)) n.key s.cache.pageSize

def offload (keys : List TierKey) (pages : List PageId) : Op Bool :=
  onTier fun b n => TierSystem.offload keys pages (b.submits n) (b.completes n) (b.checksums n) (b.records n)

def restore (keys : List TierKey) (pages : List PageId) : Op Bool :=
  onTier fun b n => TierSystem.restore keys pages (b.submits n) (b.completes n) (b.checksums n) (b.records n)

/-! ### Evicting -/

/-- Offload the pages of a victim.  Unless the source is known to be settled, the victim
    stays where it was. -/
def offloadVictim (offloadToDram : Bool) (victim : NodeId) : Op Unit := do
  let s ← get
  let n := s.cache.node victim
  if offloadToDram = true ∧ n.computed = true then
    handle
      (do let _ ← offload (s.tierKeys victim) n.pages)
      fun error =>
        if error.sourceReusable = true then pure ()
        else do
          modify fun s => { s with cache := s.cache.refreshEvictable victim }
          raise error
  else pure ()

def evictVictim (offloadToDram : Bool) (victim : NodeId) : Op Unit := do
  offloadVictim offloadToDram victim
  onCache (·.evict victim)

def ensureFreeLoop (needed : Nat) (offloadToDram : Bool) : Nat → Op Bool
  | 0 => do
    let s ← get
    return decide (needed ≤ s.cache.numFreePages)
  | fuel + 1 => do
    let s ← get
    if needed ≤ s.cache.numFreePages then return true
    else
      let (victim, eviction) := s.cache.eviction.popOldest s.cache.isEvictable
      modify fun s => { s with cache := { s.cache with eviction } }
      match victim with
      | none => return false
      | some victim => do
        evictVictim offloadToDram victim
        ensureFreeLoop needed offloadToDram fuel

def ensureFree (needed : Nat) (offloadToDram : Bool) : Op Bool := do
  let s ← get
  ensureFreeLoop needed offloadToDram s.cache.nodes.entries.length

/-! ### Restoring -/

/-- `-(-a // b)` -/
def ceilDiv (a b : Nat) : Nat := (a + b - 1) / b

def availableDramPrefixPages (candidateKeys : List TierKey) : Op Nat := do
  let s ← get
  let minimumPages := ceilDiv s.minRestoreTokens s.cache.pageSize
  if candidateKeys.length < minimumPages then return 0
  else do
    let available ← onTier fun _ _ => TierSystem.onTier (KvTier.availablePrefix candidateKeys minimumPages)
    return if minimumPages ≤ available then available else 0

/-- What an allocation has matched: the tokens, their pages and the node locked last. -/
abbrev Matched := Nat × List PageId × NodeId

/-- The restored pages become one computed child with the lock of the allocation. -/
def publishRestored (tokens : List TokenId) (found : Matched) (keys : List TierKey) (pages : List PageId) : Op Matched := do
  let s ← get
  let (matchedTokens, cachedPages, node) := found
  let restoredTokens := pages.length * s.cache.pageSize
  let key := (tokens.drop matchedTokens).take restoredTokens
  if extendPrefixHashChain s.digest (s.cache.node node).prefixTokens key s.cache.pageSize ≠ keys then do
    onCache (·.freePages pages)
    raise (.kv (.assertion "restored DRAM identities differ from radix keys"))
  else
    let (child, cache) := s.cache.insertChild node key pages
    let cache := (cache.emitStored child).modifyNode child fun n => { n with computed := true }
    modify fun s => { s with cache := cache.refreshEvictable child }
    return (matchedTokens + restoredTokens, cachedPages ++ pages, child)

/-- Copy pages back into freshly taken ones.  A failure that is settled falls back to
    computing them again; otherwise the taken pages never return to the pool. -/
def restorePages (tokens : List TokenId) (found : Matched) (keys : List TierKey) : Op Matched := do
  let pages ← onCache (·.takePages keys.length)
  let restored ← handle (restore keys pages) fun error =>
    if error.destinationReusable = true then return false else raise error
  if restored = true then publishRestored tokens found keys pages
  else do
    onCache (·.freePages pages)
    return found

def restoreFromDram (tokens : List TokenId) (found : Matched) : Op Matched := do
  let s ← get
  let (matchedTokens, _, node) := found
  let fullSuffixTokens := (tokens.length - matchedTokens) / s.cache.pageSize * s.cache.pageSize
  if fullSuffixTokens < s.minRestoreTokens then return found
  -- an uncomputed sibling belongs to an in-flight prefill
  else if (tokens.drop matchedTokens).take s.cache.pageSize ∈ (s.cache.node node).children then return found
  else do
    let candidateKeys := extendPrefixHashChain s.digest (s.cache.node node).prefixTokens
      ((tokens.drop matchedTokens).take fullSuffixTokens) s.cache.pageSize
    let available ← availableDramPrefixPages candidateKeys
    if available = 0 then return found
    else do
      -- offloading here could push out the very pages to be restored
      let room ← ensureFree available false
      if room = true then restorePages tokens found (candidateKeys.take available)
      else return found

/-! ### Allocation -/

/-- `try: m except: self._unlock_path(node); raise` -/
def unlocking {α : Type} (node : NodeId) (m : Op α) : Op α :=
  handle m fun error => do
    modify fun s => { s with cache := s.cache.unlockPath node }
    raise error

/-- The allocation of what was not matched. -/
def takeSuffix (tokens : List TokenId) (found : Matched) (c : RadixKVCache) : KvResult KVAllocation :=
  let (matchedTokens, cachedPages, node) := found
  let suffixLen := tokens.length - matchedTokens
  let fullPagesNeeded := suffixLen / c.pageSize
  let tailTokens := suffixLen % c.pageSize
  (c.takePages fullPagesNeeded).andThen fun newFullPages c =>
  (c.takePages (if tailTokens = 0 then 0 else 1)).andThen fun tail c =>
    let key := (tokens.drop matchedTokens).take (fullPagesNeeded * c.pageSize)
    let collides := (key.take c.pageSize) ∈ (c.node node).children
    let treeInserted := decide (fullPagesNeeded = 0 ∨ ¬ collides)
    let (node, c) :=
      if fullPagesNeeded = 0 ∨ collides then (node, c)
      else c.insertChild node key newFullPages
    let c := { c with
      hitTokens := c.hitTokens + matchedTokens
      totalTokens := c.totalTokens + tokens.length }
    (.ok { tokens, cachedPages, newFullPages, tailPage := tail.head?, node, treeInserted, pageSize := c.pageSize }, c)

def allocate (tokens : List TokenId) : Op KVAllocation := do
  modify fun s => { s with cache := RadixKVCache.expirePins { s.cache with allocTick := s.cache.allocTick + 1 } }
  let matched ← onCache (·.matchAndLock tokens)
  let found ← unlocking matched.2.2 (restoreFromDram tokens matched)
  let s ← get
  let suffixLen := tokens.length - found.1
  let needed := suffixLen / s.cache.pageSize + (if suffixLen % s.cache.pageSize = 0 then 0 else 1)
  let hasCapacity ← unlocking found.2.2 (ensureFree needed true)
  if hasCapacity = true then onCache (takeSuffix tokens found)
  else
    let s ← get
    modify fun s => { s with cache := s.cache.unlockPath found.2.2 }
    raise (.kv (.cacheFull needed s.cache.numFreePages))

def allocatePrivatePage : Op PageId := do
  let hasCapacity ← ensureFree 1 true
  if hasCapacity = true then onCache (·.takeOne) else raise (.kv .noDecodePage)

def reserveScratchPage : Op PageId := do
  let hasCapacity ← ensureFree 1 true
  if hasCapacity = true then onCache (·.takeOne) else raise (.kv .noScratchPage)

/-- The cached prefix with what the tier has of the rest. -/
def peekCachedOrRestorableTokens (tokens : List TokenId) : Op Nat := do
  let s ← get
  let (matchedTokens, restoreAllowed) := s.cache.peekCachedPrefix tokens
  let fullSuffixTokens := (tokens.length - matchedTokens) / s.cache.pageSize * s.cache.pageSize
  if restoreAllowed = false ∨ fullSuffixTokens < s.minRestoreTokens then return matchedTokens
  else do
    let allKeys := extendPrefixHashChain s.digest [] (tokens.take (matchedTokens + fullSuffixTokens)) s.cache.pageSize
    let available ← availableDramPrefixPages (allKeys.drop (matchedTokens / s.cache.pageSize))
    return matchedTokens + available * s.cache.pageSize

/-! ### Runs -/

inductive Call where
  | cache (call : CacheCall)
  | peek (tokens : List TokenId)

def discarding {α : Type} (m : Op α) : Op Unit := do
  let _ ← m

def perform : Call → Op Unit
  | .cache (.allocate tokens) => discarding (allocate tokens)
  | .cache (.markComputed a) => modify fun s => { s with cache := s.cache.markComputed a }
  | .cache (.free a) => discarding (onCache (·.free a))
  | .cache (.commitAndRelease a outputTokens decodePages) =>
    discarding (onCache (·.commitAndRelease a outputTokens decodePages))
  | .cache (.releasePreempted a decodePages) => discarding (onCache (·.releasePreempted a decodePages))
  | .cache .allocatePrivatePage => discarding allocatePrivatePage
  | .cache (.freePrivatePages pages) => onCache (·.freePrivatePages pages)
  | .cache .reserveScratchPage => discarding reserveScratchPage
  | .cache (.pin session tokens ttlAllocations) => onCache (·.pin session tokens ttlAllocations)
  | .cache (.unpin session) => onCache (·.unpin session)
  | .peek tokens => discarding (peekCachedOrRestorableTokens tokens)

def step (s : TieredCache) (call : Call) : TieredCache := (perform call s).2

def run (s : TieredCache) (calls : List Call) : TieredCache := calls.foldl step s

end TieredCache

end Kairyu
