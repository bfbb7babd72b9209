/-
  Kairyu/TieredCacheRuns.lean
  ===========================
  **Eviction with a host tier whose copies all complete.**

  Between the tier's calls no copy is ambiguous, so an eviction should always be able to give
  its pages back.  It can, unless a key of the victim is in quarantine: a corrupt host page
  puts its key there, the prefix is computed again, and from then on its node can be neither
  offloaded nor evicted.
-/
import Kairyu.KvTierQuiet
import Kairyu.TieredCache

namespace Kairyu

open RadixKVCache TierSystem

namespace RadixKVCache

/-! ### What names a node's pages -/

/-- Two caches whose nodes have the same tokens and the same computed flags. -/
structure SameTags (c c' : RadixKVCache) : Prop where
  pageSize : c'.pageSize = c.pageSize
  computed : ∀ i, (c'.node i).computed = (c.node i).computed
  key : ∀ i, (c'.node i).key = (c.node i).key
  prefixTokens : ∀ i, (c'.node i).prefixTokens = (c.node i).prefixTokens

theorem SameTags.trans {a b c : RadixKVCache} (h : SameTags a b) (h' : SameTags b c) : SameTags a c where
  pageSize := h'.pageSize.trans h.pageSize
  computed i := (h'.computed i).trans (h.computed i)
  key i := (h'.key i).trans (h.key i)
  prefixTokens i := (h'.prefixTokens i).trans (h.prefixTokens i)

theorem sameTags_refreshEvictable (c : RadixKVCache) (i : NodeId) : SameTags c (c.refreshEvictable i) where
  pageSize := rfl
  computed _ := rfl
  key _ := rfl
  prefixTokens _ := rfl

/-- An update that keeps one field of a node keeps it in every node. -/
theorem node_modifyNode_field {φ : Type} (field : Node → φ) (f : Node → Node) (hf : ∀ n, field (f n) = field n)
    (c : RadixKVCache) (i j : NodeId) : field ((c.modifyNode i f).node j) = field (c.node j) := by
  show field (((c.nodes.modify i f).lookup j).getD _) = field ((c.nodes.lookup j).getD _)
  rw [AList.lookup_modify]
  split
  · cases c.nodes.lookup j with
    | none => rfl
    | some n => exact hf n
  · rfl

theorem sameTags_unlockLoop (fuel : Nat) (c : RadixKVCache) (i : NodeId) : SameTags c (unlockLoop fuel c i) := by
  induction fuel generalizing c i with
  | zero => exact ⟨rfl, fun _ => rfl, fun _ => rfl, fun _ => rfl⟩
  | succ fuel ih =>
    have hunlock : SameTags c (c.modifyNode i fun n => { n with refCount := n.refCount - 1 }) := by
      refine ⟨rfl, ?_, ?_, ?_⟩
      · apply node_modifyNode_field Node.computed
        exact fun _ => rfl
      · apply node_modifyNode_field Node.key
        exact fun _ => rfl
      · apply node_modifyNode_field Node.prefixTokens
        exact fun _ => rfl
    have hstep := hunlock.trans (sameTags_refreshEvictable _ i)
    unfold unlockLoop
    split
    · exact ⟨rfl, fun _ => rfl, fun _ => rfl, fun _ => rfl⟩
    · simp only
      split
      · exact hstep
      · exact hstep.trans (ih _ _)

theorem sameTags_unlockPath (c : RadixKVCache) (i : NodeId) : SameTags c (c.unlockPath i) := sameTags_unlockLoop _ c i

/-! ### The page size never changes -/

/-- A result whose cache has a given page size. -/
def Sized {α : Type} (n : Nat) (r : KvResult α) : Prop := r.2.pageSize = n

variable {n : Nat} {α β : Type}

theorem sized_andThen {r : KvResult α} {f : α → RadixKVCache → KvResult β} (hr : Sized n r)
    (hf : ∀ a c, c.pageSize = n → Sized n (f a c)) : Sized n (r.andThen f) := by
  obtain ⟨result, c⟩ := r
  cases result with
  | error e => exact hr
  | ok a => exact hf a c hr

theorem sized_ite {p : Prop} [Decidable p] {r r' : KvResult α} (h : Sized n r) (h' : Sized n r') :
    Sized n (if p then r else r') := by
  split
  · exact h
  · exact h'

variable {c : RadixKVCache}

theorem sized_of {r : Except KvError α} (hc : c.pageSize = n) : Sized n (r, c) := hc

theorem sized_split (hc : c.pageSize = n) (i : NodeId) (keepPages : Nat) : Sized n (c.split i keepPages) := by
  unfold split
  simp only
  split
  · exact hc
  · exact sized_ite (sized_of hc) (sized_of hc)

theorem sized_matchLoop (tokens : List TokenId) (fuel : Nat) (hc : c.pageSize = n) (i : NodeId) (position : Nat)
    (matched : List PageId) : Sized n (matchLoop tokens fuel c i position matched) := by
  induction fuel generalizing c i position matched with
  | zero => exact hc
  | succ fuel ih =>
    apply sized_ite (sized_of hc)
    split
    · exact hc
    · apply sized_ite (sized_of hc)
      apply sized_andThen (sized_ite (sized_split hc _ _) (sized_of hc))
      intro child c' hc'
      apply ih
      unfold lockNode
      rw [touch_pageSize]
      exact hc'

theorem sized_matchAndLock (hc : c.pageSize = n) (tokens : List TokenId) : Sized n (c.matchAndLock tokens) := by
  apply sized_matchLoop
  rw [touch_pageSize]
  exact hc

theorem unlockPath_pageSize (c : RadixKVCache) (i : NodeId) : (c.unlockPath i).pageSize = c.pageSize :=
  (sameTags_unlockPath c i).pageSize

theorem sized_takePages (hc : c.pageSize = n) (count : Nat) : Sized n (c.takePages count) := by
  unfold takePages
  split <;> exact hc

theorem sized_freePages (hc : c.pageSize = n) (pages : List PageId) : Sized n (c.freePages pages) := by
  unfold freePages
  split <;> exact hc

theorem sized_freeIfAny (hc : c.pageSize = n) (pages : List PageId) : Sized n (c.freeIfAny pages) :=
  sized_ite (sized_of hc) (sized_freePages hc pages)

theorem detach_pageSize (c : RadixKVCache) (i : NodeId) : (c.detach i).pageSize = c.pageSize := by
  unfold detach
  simp only
  split <;> rfl

theorem emitStored_pageSize (c : RadixKVCache) (i : NodeId) : (c.emitStored i).pageSize = c.pageSize := by
  unfold emitStored
  split <;> rfl

theorem emitRemoved_pageSize (c : RadixKVCache) (i : NodeId) : (c.emitRemoved i).pageSize = c.pageSize := by
  unfold emitRemoved
  split <;> rfl

theorem sized_evict (hc : c.pageSize = n) (victim : NodeId) : Sized n (c.evict victim) := by
  apply sized_andThen (sized_freePages ((emitRemoved_pageSize c victim).trans hc) _)
  intro _ c' hc'
  split
  · exact hc'
  · exact (detach_pageSize _ victim).trans hc'

theorem expirePins_pageSize (c : RadixKVCache) : c.expirePins.pageSize = c.pageSize := by
  have hloop : ∀ (expired : List (Sigma fun _ : SessionId => NodeId × Option Int)) (c : RadixKVCache),
      (expired.foldl (fun c entry => { c with pins := c.pins.erase entry.1 }.unlockPath entry.2.1) c).pageSize =
        c.pageSize := by
    intro expired
    induction expired with
    | nil => exact fun _ => rfl
    | cons entry expired ih =>
      intro c
      exact (ih _).trans (unlockPath_pageSize _ _)
  exact hloop _ c

theorem insertChild_pageSize (c : RadixKVCache) (parent : NodeId) (key : List TokenId) (pages : List PageId) :
    (c.insertChild parent key pages).2.pageSize = c.pageSize := touch_pageSize _ _

theorem markComputed_pageSize (c : RadixKVCache) (a : KVAllocation) : (c.markComputed a).pageSize = c.pageSize := by
  unfold markComputed
  split
  · exact emitStored_pageSize c a.node
  · rfl

theorem sized_release (hc : c.pageSize = n) (a : KVAllocation) : Sized n (c.release a) := by
  have hunlocked : ((c.markComputed a).unlockPath a.node).pageSize = n :=
    (unlockPath_pageSize _ _).trans ((markComputed_pageSize c a).trans hc)
  exact sized_ite (sized_freePages hunlocked _) (sized_of hunlocked)

theorem sized_free (hc : c.pageSize = n) (a : KVAllocation) : Sized n (c.free a) := by
  apply sized_ite (sized_of hc)
  apply sized_andThen (sized_release hc a)
  intro _ c' hc'
  apply sized_andThen (sized_freeIfAny hc' _)
  exact fun _ _ h => h

theorem commitPages_pageSize (c : RadixKVCache) (a : KVAllocation) (key : List TokenId) (pages : List PageId) :
    (c.commitPages a key pages).2.pageSize = c.pageSize := by
  unfold commitPages
  split
  · exact (emitStored_pageSize _ _).trans (insertChild_pageSize c _ _ _)
  · split <;> rfl

variable (hc : c.pageSize = n)
include hc

theorem sized_commitAndRelease (a : KVAllocation) (outputTokens : List TokenId)
    (decodePages : List PageId) : Sized n (c.commitAndRelease a outputTokens decodePages) := by
  apply sized_ite (sized_of hc)
  have hcommit : ∀ {p : Prop} [Decidable p] {key : List TokenId} {pages : List PageId},
      (if p then c.commitPages a key pages else ([], c)).2.pageSize = n := by
    intro p _ key pages
    split
    · exact (commitPages_pageSize c a key pages).trans hc
    · exact hc
  apply sized_andThen (sized_release hcommit a)
  intro _ c' hc'
  apply sized_andThen (sized_freeIfAny hc' _)
  exact fun _ _ h => h

theorem sized_discardSuffix (a : KVAllocation) : Sized n (c.discardSuffix a) := by
  apply sized_ite (sized_of hc)
  apply sized_ite
  · split
    · exact hc
    · apply sized_ite (sized_of hc)
      apply sized_andThen (sized_freePages ((detach_pageSize (c.invalidateEvictable a.node) a.node).trans hc) _)
      exact fun _ _ h => h
  · exact sized_ite (sized_freePages hc _) (sized_of hc)

theorem sized_releasePreempted (a : KVAllocation) (decodePages : List PageId) :
    Sized n (c.releasePreempted a decodePages) := by
  apply sized_ite (sized_of hc)
  apply sized_andThen (sized_discardSuffix ((unlockPath_pageSize c _).trans hc) a)
  intro _ c' hc'
  apply sized_andThen (sized_freeIfAny hc' _)
  exact fun _ _ h => h

theorem sized_takeOne : Sized n c.takeOne := by
  apply sized_andThen (sized_takePages hc 1)
  intro pages c' hc'
  split <;> exact hc'

theorem sized_pin (session : SessionId) (tokens : List TokenId) (ttlAllocations : Option Int) :
    Sized n (c.pin session tokens ttlAllocations) := by
  apply sized_ite (sized_of hc)
  apply sized_andThen (sized_matchAndLock hc tokens)
  exact fun _ _ h => h

theorem sized_unpin (session : SessionId) : Sized n (c.unpin session) := by
  unfold unpin
  split
  · exact hc
  · exact (unlockPath_pageSize _ _).trans hc

end RadixKVCache

/-! ### States in which no copy is ambiguous -/

/-- Every copy that is submitted completes, and host bytes can be read. -/
structure DramBackend.Completes (b : DramBackend) : Prop where
  submits : ∀ n, b.submits n = true
  completes : ∀ n, b.completes n = true
  readable : ∀ n, (b.checksums n).isSome = true

namespace TieredCache

open Effect
open RadixKVCache (Sized extendPrefixHashChain)

structure Steady (s : TieredCache) : Prop where
  quiet : s.tier.Quiet
  pageSize : 1 ≤ s.cache.pageSize
  minimum : 1 ≤ s.minRestoreTokens
  digests : ∀ tokens, fullSha256 (s.digest tokens) = true
  backend : s.backend.Completes

/-- A computed node has a page whose key is in quarantine. -/
def Wedged (s : TieredCache) : Prop :=
  ∃ i, (s.cache.node i).computed = true ∧ ∃ key ∈ s.tierKeys i, key ∈ s.tier.tier.quarantinedKeys

/-- A call that raises an error of the tier leaves a wedged cache, or met two equal digests. -/
def Blamed (e : TieredError) (s : TieredCache) : Prop :=
  s.Steady ∧ ∀ failure, e = .tier failure → s.Wedged ∨ failure = KvTier.duplicateKeys

variable {s : TieredCache} {cache : RadixKVCache} {α : Type}

theorem Steady.onCache (hs : s.Steady) (hsize : cache.pageSize = s.cache.pageSize) : Steady { s with cache } :=
  { hs with pageSize := hsize.symm ▸ hs.pageSize }

theorem Steady.onTier (hs : s.Steady) {tier : TierSystem} {calls : Nat} (hquiet : tier.Quiet) :
    Steady { s with tier, calls } :=
  { hs with quiet := hquiet }

theorem onCache_spec {f : RadixKVCache → KvResult α} (hf : ∀ c, Sized c.pageSize (f c)) :
    Triple Steady (onCache f) (fun _ => Steady) Blamed := by
  intro s hs
  have hsize := hf s.cache
  unfold onCache
  rcases heq : f s.cache with ⟨_ | a, cache⟩
  · rw [heq] at hsize
    exact ⟨hs.onCache hsize, fun _ h => TieredError.noConfusion h⟩
  · rw [heq] at hsize
    exact hs.onCache hsize

theorem Wedged.retag (hw : s.Wedged) (htags : SameTags s.cache cache) : Wedged { s with cache } := by
  obtain ⟨i, hcomputed, key, hkey, hquar⟩ := hw
  refine ⟨i, (htags.computed i).trans hcomputed, key, ?_, hquar⟩
  unfold tierKeys at hkey ⊢
  simp only
  rw [htags.key i, htags.prefixTokens i, htags.pageSize]
  exact hkey

theorem Blamed.retag {e : TieredError} (h : Blamed e s) (htags : SameTags s.cache cache) :
    Blamed e { s with cache } := by
  refine ⟨h.1.onCache htags.pageSize, fun failure he => ?_⟩
  exact (h.2 failure he).imp (·.retag htags) id

/-- The cache raises no error of the tier. -/
theorem onCache_raises {f : RadixKVCache → KvResult α} {P : TieredCache → Prop} {φ : Prop} :
    Triple P (onCache f) (fun _ _ => True) (fun e _ => ∀ failure, e = .tier failure → φ) := by
  intro s _
  unfold onCache
  rcases f s.cache with ⟨_ | _, _⟩
  · exact fun _ h => TieredError.noConfusion h
  · trivial

/-- A call of the tier changes the tier and the number of calls. -/
theorem onTier_spec {m : DramBackend → Nat → TierSystem.Op α} {op : TierSystem.Op α} {Q : α → TierSystem → Prop}
    {E : TierFailure → TierSystem → Prop} (hop : m s.backend s.calls = op) (hm : Triple (· = s.tier) op Q E) :
    Triple (· = s) (onTier m) (fun a s' => ∃ tier, s' = { s with tier, calls := s.calls + 1 } ∧ Q a tier)
      (fun e s' => ∃ tier failure, s' = { s with tier, calls := s.calls + 1 } ∧ e = .tier failure ∧ E failure tier) := by
  rintro s rfl
  have hrun := hm s.tier rfl
  unfold onTier
  rw [hop]
  rcases heq : op s.tier with ⟨e | a, tier⟩
  · rw [heq] at hrun
    exact ⟨tier, e, rfl, rfl, hrun⟩
  · rw [heq] at hrun
    exact ⟨tier, rfl, hrun⟩

/-! ### Evictions -/

/-- What an offload leaves as it was when its source may not be reused. -/
def Refused (s s' : TieredCache) : Prop :=
  s'.cache = s.cache ∧ s'.digest = s.digest ∧ s'.tier.tier = s.tier.tier

theorem offload_spec (hs : s.Steady) (keys : List TierKey) (pages : List PageId) :
    Triple (· = s) (offload keys pages) (fun _ => Steady)
      (fun e s' => s'.Steady ∧ (e.sourceReusable = false → s.Refused s' ∧ s.tier.tier.Retained keys pages)) := by
  have hquiet := TierSystem.offload_quiet hs.quiet keys pages (s.backend.checksums s.calls) (s.backend.records s.calls)
  have hop : TierSystem.offload keys pages (s.backend.submits s.calls) (s.backend.completes s.calls)
      (s.backend.checksums s.calls) (s.backend.records s.calls) =
      TierSystem.offload keys pages true true (s.backend.checksums s.calls) (s.backend.records s.calls) := by
    rw [hs.backend.submits, hs.backend.completes]
  refine triple_mono (onTier_spec hop hquiet) ?_ ?_
  · rintro _ _ ⟨tier, rfl, htier⟩
    exact hs.onTier htier
  · rintro _ _ ⟨tier, failure, rfl, rfl, htier, hretained⟩
    refine ⟨hs.onTier htier, fun hfalse => ?_⟩
    obtain ⟨hsame, hretained⟩ := hretained hfalse
    exact ⟨⟨rfl, rfl, hsame⟩, hretained⟩

theorem offload_refuses (hs : s.Steady) {keys : List TierKey} {pages : List PageId}
    (hretained : s.tier.tier.Retained keys pages) : Triple (· = s) (offload keys pages) (fun _ _ => False)
      (fun e _ => ∃ failure, e = .tier failure ∧ failure.sourceReusable = false) := by
  refine triple_mono (onTier_spec rfl (hs.quiet.offload_refuses hretained _ _ _ _)) ?_ ?_
  · rintro _ _ ⟨_, _, hfalse⟩
    exact hfalse
  · rintro _ _ ⟨_, failure, _, rfl, hfalse⟩
    exact ⟨failure, rfl, hfalse⟩

/-- A node whose offload is refused has a quarantined key. -/
theorem Steady.wedged (hs : s.Steady) {victim : NodeId} (hcomputed : (s.cache.node victim).computed = true)
    (hretained : s.tier.tier.Retained (s.tierKeys victim) (s.cache.node victim).pages) : s.Wedged :=
  ⟨victim, hcomputed, ((hs.quiet.retained_iff _ _).mp hretained).2.2⟩

theorem Wedged.refused {s s' : TieredCache} (hw : s.Wedged) (h : s.Refused s') : s'.Wedged := by
  obtain ⟨i, hcomputed, key, hkey, hquar⟩ := hw
  obtain ⟨hcache, hdigest, htier⟩ := h
  refine ⟨i, hcache ▸ hcomputed, key, ?_, htier ▸ hquar⟩
  unfold tierKeys at hkey ⊢
  rw [hcache, hdigest]
  exact hkey

/-- Its node is computed, and its pages are what the tier refuses to take. -/
def Unmovable (s : TieredCache) (victim : NodeId) : Prop :=
  (s.cache.node victim).computed = true ∧ s.tier.tier.Retained (s.tierKeys victim) (s.cache.node victim).pages

theorem offloadVictim_spec (hs : s.Steady) (offloadToDram : Bool) (victim : NodeId) :
    Triple (· = s) (offloadVictim offloadToDram victim) (fun _ => Steady)
      (fun e s' => Blamed e s' ∧ s.Unmovable victim) := by
  apply triple_get_bind
  rintro s rfl
  apply triple_ite
  · rintro ⟨_, hcomputed⟩
    apply triple_handle
    · apply triple_bind (offload_spec hs _ _)
      exact fun _ => triple_pure fun _ h => h
    · intro e
      apply triple_ite
      · exact fun _ => triple_pure fun _ h => h.1
      · intro hnot
        apply triple_of_forall
        rintro s' ⟨hs', hretained⟩
        obtain ⟨hrefused, hretained⟩ := hretained (Bool.eq_false_iff.mpr hnot)
        apply triple_modify_raise
        have hwedged := (hs.wedged hcomputed hretained).refused hrefused
        exact ⟨Blamed.retag ⟨hs', fun _ _ => Or.inl hwedged⟩ (sameTags_refreshEvictable _ _), hcomputed, hretained⟩
  · intro _
    apply triple_return
    exact hs

theorem offloadVictim_refuses (hs : s.Steady) {victim : NodeId} (hvictim : s.Unmovable victim) :
    Triple (· = s) (offloadVictim true victim) (fun _ _ => False) (fun e _ => ∃ failure, e = .tier failure) := by
  apply triple_get_bind
  rintro s rfl
  rw [if_pos ⟨rfl, hvictim.1⟩]
  apply triple_handle
  · apply triple_bind (offload_refuses hs hvictim.2)
    exact fun _ => triple_pure fun _ h => h
  · intro e
    apply triple_of_forall
    rintro s' ⟨failure, rfl, hfalse⟩
    rw [if_neg (show ¬ (TieredError.tier failure).sourceReusable = true from Bool.eq_false_iff.mp hfalse)]
    apply triple_modify_bind
    exact triple_raise fun _ _ => ⟨failure, rfl⟩

/-- **An eviction raises an error of the tier for exactly the victims it cannot move.** -/
theorem evictVictim_raises_iff (hs : s.Steady) (victim : NodeId) :
    (∃ failure s', evictVictim true victim s = (.error (.tier failure), s')) ↔ s.Unmovable victim := by
  constructor
  · rintro ⟨failure, s', heq⟩
    have hspec : Triple (· = s) (evictVictim true victim) (fun _ _ => True)
        (fun e _ => ∀ failure, e = .tier failure → s.Unmovable victim) := by
      apply triple_bind
      · exact triple_mono (offloadVictim_spec hs true victim) (fun _ _ _ => trivial)
          (fun _ _ h _ _ => h.2)
      · exact fun _ => onCache_raises
    have hrun := hspec s rfl
    rw [heq] at hrun
    exact hrun failure rfl
  · intro hvictim
    have hspec : Triple (· = s) (evictVictim true victim) (fun _ _ => False) (fun e _ => ∃ failure, e = .tier failure) :=
      triple_bind (offloadVictim_refuses hs hvictim) fun _ _ hfalse => hfalse.elim
    have hrun := hspec s rfl
    rcases heq : evictVictim true victim s with ⟨e | _, s'⟩
    · rw [heq] at hrun
      obtain ⟨failure, rfl⟩ := hrun
      exact ⟨failure, s', rfl⟩
    · rw [heq] at hrun
      exact hrun.elim

theorem evictVictim_spec (offloadToDram : Bool) (victim : NodeId) :
    Triple Steady (evictVictim offloadToDram victim) (fun _ => Steady) Blamed := by
  apply triple_bind
  · apply triple_of_forall
    intro s hs
    exact triple_error (offloadVictim_spec hs offloadToDram victim) (fun _ _ h => h.1)
  · exact fun _ => onCache_spec fun c => sized_evict rfl victim

theorem ensureFreeLoop_spec (needed : Nat) (offloadToDram : Bool) (fuel : Nat) :
    Triple Steady (ensureFreeLoop needed offloadToDram fuel) (fun _ => Steady) Blamed := by
  induction fuel with
  | zero =>
    apply triple_get_bind
    rintro s hs
    apply triple_return
    exact hs
  | succ fuel ih =>
    apply triple_get_bind
    intro s hs
    apply triple_ite
    · intro _
      apply triple_return
      exact hs
    · intro _
      apply triple_modify_bind
      have hs' : Steady { s with cache := { s.cache with eviction := (s.cache.eviction.popOldest s.cache.isEvictable).2 } } :=
        hs.onCache rfl
      split
      · apply triple_pure
        rintro _ rfl
        exact hs'
      · exact triple_at (triple_bind (evictVictim_spec offloadToDram _) fun _ => ih) hs'

theorem ensureFree_spec (needed : Nat) (offloadToDram : Bool) :
    Triple Steady (ensureFree needed offloadToDram) (fun _ => Steady) Blamed := by
  apply triple_get_bind
  intro s hs
  exact triple_at (ensureFreeLoop_spec needed offloadToDram _) hs

/-! ### Restores -/

theorem ceilDiv_pos {a b : Nat} (ha : 1 ≤ a) (hb : 1 ≤ b) : 1 ≤ ceilDiv a b := by
  unfold ceilDiv
  rw [Nat.one_le_div_iff hb]
  omega

theorem availableDramPrefixPages_spec (hs : s.Steady) {candidateKeys : List TierKey}
    (hkeys : ∀ key ∈ candidateKeys, fullSha256 key = true) :
    Triple (· = s) (availableDramPrefixPages candidateKeys) (fun _ => Steady) Blamed := by
  have hmin := ceilDiv_pos hs.minimum hs.pageSize
  apply triple_get_bind
  rintro s rfl
  apply triple_ite
  · intro _
    apply triple_return
    exact hs
  · intro hlength
    have hsome : candidateKeys ≠ [] := by
      rintro rfl
      rw [List.length_nil] at hlength
      omega
    apply triple_bind (Q := fun _ => Steady)
    · refine triple_mono (onTier_spec rfl (availablePrefix_quiet hs.quiet hsome hkeys hmin)) ?_ ?_
      · rintro _ _ ⟨tier, rfl, htier⟩
        exact hs.onTier htier
      · rintro _ _ ⟨tier, failure, rfl, rfl, htier, hduplicate⟩
        refine ⟨hs.onTier htier, ?_⟩
        rintro _ ⟨⟩
        exact Or.inr hduplicate
    · exact fun _ => triple_pure fun _ h => h

theorem restore_spec (keys : List TierKey) (pages : List PageId) :
    Triple Steady (restore keys pages) (fun _ => Steady) (fun e s => s.Steady ∧ e.destinationReusable = true) := by
  apply triple_of_forall
  intro s hs
  obtain ⟨actual, hactual⟩ := Option.isSome_iff_exists.mp (hs.backend.readable s.calls)
  have hop : TierSystem.restore keys pages (s.backend.submits s.calls) (s.backend.completes s.calls)
      (s.backend.checksums s.calls) (s.backend.records s.calls) =
      TierSystem.restore keys pages true true (some actual) (s.backend.records s.calls) := by
    rw [hs.backend.submits, hs.backend.completes, hactual]
  refine triple_mono (onTier_spec hop (TierSystem.restore_quiet hs.quiet keys pages actual _)) ?_ ?_
  · rintro _ _ ⟨tier, rfl, htier⟩
    exact hs.onTier htier
  · rintro _ _ ⟨tier, failure, rfl, rfl, htier, hreusable⟩
    exact ⟨hs.onTier htier, hreusable⟩

theorem publishRestored_spec (tokens : List TokenId) (found : Matched) (keys : List TierKey) (pages : List PageId) :
    Triple Steady (publishRestored tokens found keys pages) (fun _ => Steady) Blamed := by
  apply triple_get_bind
  intro s hs
  apply triple_ite
  · intro _
    apply triple_bind
    · exact triple_at (onCache_spec fun c => sized_freePages rfl pages) hs
    · intro _
      apply triple_raise
      exact fun _ h => ⟨h, fun _ he => TieredError.noConfusion he⟩
  · intro _
    apply triple_modify_return
    apply hs.onCache
    exact (emitStored_pageSize _ _).trans (insertChild_pageSize _ _ _ _)

theorem restorePages_spec (tokens : List TokenId) (found : Matched) (keys : List TierKey) :
    Triple Steady (restorePages tokens found keys) (fun _ => Steady) Blamed := by
  apply triple_bind (onCache_spec fun c => sized_takePages rfl keys.length)
  intro pages
  apply triple_bind
  · apply triple_handle (restore_spec keys pages)
    intro e
    apply triple_ite
    · exact fun _ => triple_pure fun _ h => h.1
    · exact fun hnot => triple_raise fun _ h => absurd h.2 hnot
  · intro restored
    apply triple_ite
    · exact fun _ => publishRestored_spec tokens found keys pages
    · intro _
      apply triple_bind (onCache_spec fun c => sized_freePages rfl pages)
      exact fun _ => triple_pure fun _ h => h

theorem digests_extendPrefixHashChain (hs : s.Steady) (before tokens : List TokenId) (pageSize : Nat) :
    ∀ key ∈ extendPrefixHashChain s.digest before tokens pageSize, fullSha256 key = true := by
  intro key hkey
  obtain ⟨_, _, rfl⟩ := List.mem_map.mp hkey
  exact hs.digests _

theorem restoreFromDram_spec (tokens : List TokenId) (found : Matched) :
    Triple Steady (restoreFromDram tokens found) (fun _ => Steady) Blamed := by
  obtain ⟨matchedTokens, cachedPages, node⟩ := found
  apply triple_get_bind
  intro s hs
  have hfound : Triple (· = s) (pure (matchedTokens, cachedPages, node) : Op Matched) (fun _ => Steady) Blamed := by
    apply triple_return
    exact hs
  apply triple_ite (fun _ => hfound)
  intro _
  apply triple_ite (fun _ => hfound)
  intro _
  apply triple_bind (availableDramPrefixPages_spec hs (digests_extendPrefixHashChain hs _ _ _))
  intro available
  apply triple_ite
  · exact fun _ => triple_pure fun _ h => h
  · intro _
    apply triple_bind (ensureFree_spec available false)
    intro room
    apply triple_ite
    · exact fun _ => restorePages_spec tokens _ _
    · exact fun _ => triple_pure fun _ h => h

/-! ### Allocations -/

theorem unlocking_spec (node : NodeId) {m : Op α} (hm : Triple Steady m (fun _ => Steady) Blamed) :
    Triple Steady (unlocking node m) (fun _ => Steady) Blamed := by
  apply triple_handle hm
  intro e
  apply triple_of_forall
  intro s hblamed
  apply triple_modify_raise
  exact hblamed.retag (sameTags_unlockPath _ node)

theorem sized_takeSuffix (tokens : List TokenId) (found : Matched) (c : RadixKVCache) :
    Sized c.pageSize (takeSuffix tokens found c) := by
  apply sized_andThen (sized_takePages rfl _)
  intro newFullPages c' hc'
  apply sized_andThen (sized_takePages hc' _)
  intro tail c'' hc''
  show (ite _ _ _ : NodeId × RadixKVCache).2.pageSize = _
  split
  · exact hc''
  · exact (insertChild_pageSize _ _ _ _).trans hc''

theorem allocate_spec (tokens : List TokenId) : Triple Steady (allocate tokens) (fun _ => Steady) Blamed := by
  apply triple_bind (Q := fun _ => Steady)
  · exact triple_modify fun s hs => hs.onCache (expirePins_pageSize _)
  intro _
  apply triple_bind (onCache_spec fun c => sized_matchAndLock rfl tokens)
  intro matched
  apply triple_bind (unlocking_spec _ (restoreFromDram_spec tokens matched))
  intro found
  apply triple_get_bind
  intro s hs
  apply triple_bind
  · exact triple_at (unlocking_spec found.2.2 (ensureFree_spec _ true)) hs
  intro hasCapacity
  apply triple_ite
  · exact fun _ => onCache_spec (sized_takeSuffix tokens found)
  · intro _
    apply triple_get_bind
    intro s hs
    apply triple_modify_raise
    exact ⟨hs.onCache (unlockPath_pageSize _ _), fun _ he => TieredError.noConfusion he⟩

/-- The shape of `allocate_private_page` and `reserve_scratch_page`. -/
theorem takeOne_spec (e : KvError) :
    Triple Steady (do
      let hasCapacity ← ensureFree 1 true
      if hasCapacity = true then onCache (·.takeOne) else Effect.raise (.kv e)) (fun _ => Steady) Blamed := by
  apply triple_bind (ensureFree_spec 1 true)
  intro hasCapacity
  apply triple_ite
  · exact fun _ => onCache_spec fun c => sized_takeOne rfl
  · exact fun _ => triple_raise fun _ h => ⟨h, fun _ he => TieredError.noConfusion he⟩

theorem peekCachedOrRestorableTokens_spec (tokens : List TokenId) :
    Triple Steady (peekCachedOrRestorableTokens tokens) (fun _ => Steady) Blamed := by
  apply triple_get_bind
  intro s hs
  apply triple_ite
  · intro _
    apply triple_return
    exact hs
  · intro _
    apply triple_bind (availableDramPrefixPages_spec hs ?_)
    · exact fun _ => triple_pure fun _ h => h
    · exact fun key hkey => digests_extendPrefixHashChain hs _ _ _ key (List.mem_of_mem_drop hkey)

/-! ### Runs -/

theorem discarding_spec {m : Op α} (hm : Triple Steady m (fun _ => Steady) Blamed) :
    Triple Steady (discarding m) (fun _ => Steady) Blamed :=
  triple_bind hm fun _ => triple_pure fun _ h => h

theorem perform_spec (call : Call) : Triple Steady (perform call) (fun _ => Steady) Blamed := by
  rcases call with call | tokens
  · cases call with
    | allocate tokens => exact discarding_spec (allocate_spec tokens)
    | markComputed a => exact triple_modify fun _ hs => hs.onCache (markComputed_pageSize _ a)
    | free a => exact discarding_spec (onCache_spec fun c => sized_free rfl a)
    | commitAndRelease a outputTokens decodePages =>
      exact discarding_spec (onCache_spec fun c => sized_commitAndRelease rfl a outputTokens decodePages)
    | releasePreempted a decodePages =>
      exact discarding_spec (onCache_spec fun c => sized_releasePreempted rfl a decodePages)
    | allocatePrivatePage => exact discarding_spec (takeOne_spec .noDecodePage)
    | freePrivatePages pages => exact onCache_spec fun c => sized_freePages rfl pages
    | reserveScratchPage => exact discarding_spec (takeOne_spec .noScratchPage)
    | pin session tokens ttlAllocations => exact onCache_spec fun c => sized_pin rfl session tokens ttlAllocations
    | unpin session => exact onCache_spec fun c => sized_unpin rfl session
  · exact discarding_spec (peekCachedOrRestorableTokens_spec tokens)

theorem Steady.step (hs : s.Steady) (call : Call) : (s.step call).Steady := by
  have hrun := perform_spec call s hs
  unfold TieredCache.step
  rcases heq : perform call s with ⟨_ | _, s'⟩
  · rw [heq] at hrun
    exact hrun.1
  · rw [heq] at hrun
    exact hrun

theorem Steady.run (hs : s.Steady) (calls : List Call) : (s.run calls).Steady := by
  induction calls generalizing s with
  | nil => exact hs
  | cons call calls ih => exact ih (hs.step call)

theorem quiet_new (capacityPages numPages : Nat) (fingerprint : String) :
    (new capacityPages numPages fingerprint).Quiet where
  kept := kept_new capacityPages numPages fingerprint
  ended _ hx := absurd hx List.not_mem_nil
  pages := rfl

theorem steady_attach {numPages pageSize : Nat} {chain : Option (List TokenId → BlockHash)}
    (hcreate : create numPages pageSize chain = some cache) {tier : TierSystem} (hquiet : tier.Quiet)
    {digest : List TokenId → TierKey} (hdigest : ∀ tokens, fullSha256 (digest tokens) = true) {minRestoreTokens : Nat}
    {backend : DramBackend} (hbackend : backend.Completes)
    (hattach : attach cache tier digest minRestoreTokens backend = some s) : s.Steady := by
  have hsize : 1 ≤ cache.pageSize := by
    unfold create at hcreate
    split at hcreate
    · cases hcreate
    · next hsize =>
      obtain ⟨pool, _, rfl⟩ := Option.map_eq_some_iff.mp hcreate
      exact Nat.not_lt.mp hsize
  unfold attach at hattach
  split at hattach
  · cases hattach
  · next hmin =>
    split at hattach
    · cases hattach
    · cases hattach
      have hmin : cache.pageSize ≤ minRestoreTokens := Nat.not_lt.mp fun hlt => hmin (Or.inl hlt)
      exact ⟨hquiet, hsize, hsize.trans hmin, hdigest, hbackend⟩

def keyOne : TierKey := "1111111111111111111111111111111111111111111111111111111111111111"

def keyTwo : TierKey := "2222222222222222222222222222222222222222222222222222222222222222"

def digestOne (tokens : List TokenId) : TierKey := if tokens = [1] then keyOne else keyTwo

/-- Copies complete; the host bytes have changed when they are read back. -/
def corrupting : DramBackend where
  submits _ := true
  completes _ := true
  checksums n := some fun _ => if n < 3 then "written" else "read"
  records _ := true

def onePage : Option TieredCache :=
  (create 1 1).bind fun cache => attach cache (new 1 1 "layout") digestOne 1 corrupting

/-- A prompt of one page is computed and freed. -/
def use (tokens : List TokenId) (node : NodeId) : List Call :=
  [.cache (.allocate tokens),
    .cache (.free { tokens, cachedPages := [], newFullPages := [0], tailPage := none, node, pageSize := 1 })]

theorem corrupting_completes : corrupting.Completes := ⟨fun _ => rfl, fun _ => rfl, fun _ => rfl⟩

theorem fullSha256_digestOne (tokens : List TokenId) : fullSha256 (digestOne tokens) = true := by
  unfold digestOne
  split
  · decide +kernel
  · decide +kernel

end TieredCache

end Kairyu
