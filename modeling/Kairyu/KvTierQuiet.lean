/-
  Kairyu/KvTierQuiet.lean
  =======================
  **A tier whose copies all complete.**

  Between the calls of its owner such a tier is `Quiet`: no transfer is active and no device
  page is quarantined.  `offload` and `restore` keep it quiet, and what they raise is known:
  a refused offload leaves its source reusable unless one of the keys is quarantined, and a
  failed restore always leaves its destination reusable.
-/
import Kairyu.KvTierRuns

namespace Kairyu

open KvTier TransferTerminal

namespace KvTier

open Effect

/-! ### Device pages go into quarantine only when a copy is ambiguous -/

/-- The device pages in quarantine. -/
def PagesAre (pages : Finset Nat) (t : KvTier) : Prop := t.quarantinedPages = pages

variable {q : Finset Nat}

theorem release_keeps (e : EntryId) : Keeps (PagesAre q) (release e) := by
  apply keeps_get_bind
  intro t
  apply keeps_ite
  · exact keeps_modify fun _ h => h
  · exact keeps_raise _

theorem drop_keeps (e : EntryId) : Keeps (PagesAre q) (drop e) := by
  apply keeps_get_bind
  intro t
  apply keeps_modify_bind
  · exact fun _ h => h
  · exact release_keeps e

theorem evictLruFor_keeps (count : Nat) (keys : List TierKey) : Keeps (PagesAre q) (evictLruFor count keys) := by
  apply keeps_get_bind
  intro t
  apply keeps_ite (keeps_pure _)
  apply keeps_ite (keeps_raise _)
  exact keeps_each drop_keeps _

theorem reserve_keeps (keys : List TierKey) : Keeps (PagesAre q) (reserve keys) := by
  apply keeps_bind (evictLruFor_keeps _ _)
  intro _
  apply keeps_get_bind
  intro t
  apply keeps_ite
  · apply keeps_modify_bind
    · exact fun _ h => h
    · exact keeps_raise _
  · apply keeps_modify_bind
    · exact fun _ h => h
    · apply keeps_bind
      · apply keeps_each_modify
        exact fun _ _ h => h
      · exact fun _ => keeps_pure _

theorem reserveDevicePages_keeps (pages : List Nat) : Keeps (PagesAre q) (reserveDevicePages pages) := by
  apply keeps_get_bind
  intro t
  apply keeps_modify_bind
  · exact fun _ h => h
  apply keeps_bind
  · apply keeps_each
    intro page
    apply keeps_get_bind
    intro t
    exact keeps_ite (keeps_raise _) (keeps_modify fun _ h => h)
  · exact fun _ => keeps_pure _

theorem quarantine_pages (t : KvTier) (entries : List EntryId) (retainKeys : Bool) :
    (t.quarantine entries retainKeys).quarantinedPages = t.quarantinedPages := by
  unfold quarantine
  induction entries generalizing t with
  | nil => rfl
  | cons e entries ih =>
    rw [List.foldl_cons, ih]
    unfold quarantineEntry
    split <;> rfl

theorem releaseDevicePages_pages (t : KvTier) (pages : List Nat) (owner : Nat) :
    (t.releaseDevicePages pages owner).quarantinedPages = t.quarantinedPages := by
  rw [releaseDevicePages_eq]

theorem touches_pages (t : KvTier) (es : List EntryId) : (es.foldl touch t).quarantinedPages = t.quarantinedPages := by
  induction es generalizing t with
  | nil => rfl
  | cons e es ih => exact ih (t.touch e)

theorem beginOffload_keeps (keys : List TierKey) (pages : List Nat) :
    Keeps (PagesAre q) (beginOffload keys pages true) := by
  apply keeps_bind (keeps_of_checks fun t => checkKeys_spec t keys)
  intro _
  apply keeps_bind (keeps_of_checks fun t => checkPageIds_spec t pages keys.length)
  intro _
  apply keeps_bind (keeps_each (fun key => keeps_of_checks fun t => checkOffload_spec t key) keys)
  intro _
  apply keeps_bind (keeps_of_checks fun t => validateDevicePagesAvailable_spec t pages .offload)
  intro _
  apply keeps_get_bind
  intro t
  apply keeps_bind (reserve_keeps keys)
  intro entries
  apply keeps_bind
  · apply keeps_each_modify
    exact fun _ _ h => h
  intro _
  apply keeps_bind (reserveDevicePages_keeps pages)
  intro owner
  apply keeps_get_bind
  intro t
  apply keeps_modify_bind
  · exact fun _ h => h
  · exact keeps_pure _

theorem beginRestore_keeps (keys : List TierKey) (pages : List Nat) (expected : Option String)
    (actual : Option (Nat → Checksum)) : Keeps (PagesAre q) (beginRestore keys pages expected actual true) := by
  apply keeps_bind (keeps_of_checks fun t => checkKeys_spec t keys)
  intro _
  apply keeps_bind (keeps_of_checks fun t => checkPageIds_spec t pages keys.length)
  intro _
  apply keeps_bind (keeps_of_checks fun t => validateFingerprint_spec t expected)
  intro _
  apply keeps_bind (keeps_of_checks fun t => validateDevicePagesAvailable_spec t pages .restore)
  intro _
  apply keeps_bind (keeps_of_checks fun t => residentEntries_spec t keys)
  intro entries
  apply keeps_bind (keeps_of_checks fun t => hostChecksums_spec t actual entries)
  intro checksums
  apply keeps_get_bind
  intro t
  apply keeps_ite
  · apply keeps_modify_bind
    · exact fun t h => (quarantine_pages t _ false).trans h
    · exact keeps_raise _
  apply keeps_bind
  · apply keeps_each_modify
    exact fun _ _ h => h
  intro _
  apply keeps_bind (reserveDevicePages_keeps pages)
  intro owner
  apply keeps_get_bind
  intro t
  apply keeps_modify_bind
  · exact fun _ h => h
  · exact keeps_pure _

theorem commitOffload_keeps (e : EntryId) (old : Option EntryId) (checksum : Checksum) :
    Keeps (PagesAre q) (commitOffload e old checksum) := by
  apply keeps_modify_bind
  · exact fun _ h => h
  apply keeps_bind
  · cases old with
    | none => exact keeps_modify fun _ h => h
    | some o =>
      apply keeps_get_bind
      intro t
      apply keeps_ite
      · apply keeps_modify_bind
        · exact fun _ h => h
        · exact release_keeps e
      · apply keeps_modify_bind
        · exact fun _ h => h
        · exact release_keeps o
  · exact fun _ => keeps_modify fun _ h => h

theorem commitRestore_keeps (e : EntryId) : Keeps (PagesAre q) (commitRestore e) := by
  apply keeps_modify_bind
  · intro t h
    split <;> exact h
  apply keeps_modify_bind
  · exact fun _ h => h
  · exact release_keeps e

theorem finalizeTransfer_keeps (x : TierTransfer) (actual : Option (Nat → Checksum)) (records : Bool) :
    Keeps (PagesAre q) (finalizeTransfer x actual records) := by
  apply keeps_bind
  · apply keeps_each
    intro e
    apply keeps_get_bind
    intro t
    exact keeps_ite (keeps_pure _) (keeps_raise _)
  intro _
  apply keeps_bind
  · unfold commit
    split
    · apply keeps_bind (keeps_of_checks fun t => hostChecksums_spec t actual x.entries)
      intro checksums
      exact keeps_each (fun item => commitOffload_keeps _ _ _) _
    · apply keeps_bind
      · apply keeps_each
        intro e
        apply keeps_get_bind
        intro t
        exact keeps_ite (keeps_pure _) (keeps_raise _)
      · exact fun _ => keeps_each commitRestore_keeps _
  intro _
  apply keeps_bind (keeps_of_checks fun t => recordCompleted_spec t records)
  intro _
  apply keeps_modify
  exact fun t h => (releaseDevicePages_pages t x.pageIds x.owner).trans h

/-- What a failed commit says about the two sides of the copy. -/
def Ended (direction : TransferDirection) (e : TierFailure) : Prop :=
  e.sourceReusable = decide (direction = .offload) ∧ e.destinationReusable = decide (direction = .restore)

theorem failFinalization_pages (x : TierTransfer) :
    Triple (PagesAre q) (failFinalization x) (fun failure t => PagesAre q t ∧ Ended x.direction (.tier failure))
      (fun _ _ => False) := by
  apply triple_of_forall
  intro t h
  apply triple_modify_return
  refine ⟨?_, rfl, rfl⟩
  exact (releaseDevicePages_pages _ x.pageIds x.owner).trans ((quarantine_pages t x.entries false).trans h)

end KvTier

namespace TierSystem

open Effect

/-! ### Quiet states -/

/-- No transfer is active and no device page is quarantined. -/
structure Quiet (sys : TierSystem) : Prop where
  kept : Kept sys.tier sys
  ended : ∀ x ∈ sys.transfers, x.terminal ≠ .active
  pages : PagesAre ∅ sys.tier

variable {sys : TierSystem}

theorem Quiet.of_kept {base : KvTier} (hk : Kept base sys) (hended : ∀ x ∈ sys.transfers, x.terminal ≠ .active)
    (hpages : PagesAre ∅ sys.tier) : Quiet sys := ⟨⟨hk.custody.restart, hk.shaped⟩, hended, hpages⟩

section

variable (hq : Quiet sys)
include hq

theorem Quiet.holds : sys.holds = [] := by
  apply List.flatMap_eq_nil_iff.mpr
  intro x hx
  exact if_neg (hq.ended x hx)

theorem Quiet.claims : sys.claims = [] := by
  apply List.flatMap_eq_nil_iff.mpr
  intro x hx
  exact if_neg (hq.ended x hx)

theorem Quiet.inFlight (key : TierKey) : key ∉ sys.tier.inFlight := by
  intro hkey
  obtain ⟨h, hh, _⟩ := hq.kept.custody.inFlight key hkey
  rw [hq.holds] at hh
  exact absurd hh List.not_mem_nil

theorem Quiet.unclaimed (pages : List Nat) : sys.tier.Unclaimed pages := by
  intro page _
  constructor
  · cases howner : sys.tier.pageOwners.lookup page with
    | none => rfl
    | some owner =>
      obtain ⟨c, hc, _⟩ := hq.kept.custody.pages.claimed page owner howner
      rw [hq.claims] at hc
      exact absurd hc List.not_mem_nil
  · rw [hq.pages]
    exact Finset.notMem_empty page

theorem Quiet.resident {key : TierKey} {e : EntryId} (hpub : sys.tier.published.lookup key = some e) :
    (sys.tier.heap e).state = .resident := by
  apply hq.kept.custody.resident hpub
  rw [hq.holds]
  exact fun _ hh => absurd hh List.not_mem_nil

/-- All that is retained in a quiet state are the keys in quarantine. -/
theorem Quiet.retained_iff (keys : List TierKey) (pages : List Nat) :
    sys.tier.Retained keys pages ↔ ValidKeys keys ∧ sys.tier.ValidPages pages keys.length ∧
      ∃ key ∈ keys, key ∈ sys.tier.quarantinedKeys := by
  constructor
  · rintro ⟨hkeys, hpages, ⟨key, hkey, hflight | hquar⟩ | hclaimed⟩
    · exact absurd hflight (hq.inFlight key)
    · exact ⟨hkeys, hpages, key, hkey, hquar⟩
    · exact absurd (hq.unclaimed pages) hclaimed
  · rintro ⟨hkeys, hpages, key, hkey, hquar⟩
    exact ⟨hkeys, hpages, Or.inl ⟨key, hkey, Or.inr hquar⟩⟩

/-- In a quiet state an offload of a quarantined key is refused, with its source retained. -/
theorem Quiet.refuses {keys : List TierKey} {pages : List Nat}
    (hretained : sys.tier.Retained keys pages) (submits : Bool) :
    Triple (· = sys.tier) (beginOffload keys pages submits) (fun _ _ => False)
      (fun e t => t = sys.tier ∧ e.sourceReusable = false) := by
  obtain ⟨hkeys, hpages, key, hkey, hquar⟩ := (hq.retained_iff keys pages).mp hretained
  unfold beginOffload
  apply triple_check_bind (checkKeys_spec sys.tier keys) fun _ h => absurd hkeys h.2
  intro _ _
  apply triple_check_bind (checkPageIds_spec sys.tier pages keys.length) fun _ h => absurd hpages h.2
  intro _ _
  have hcheck : Checks sys.tier (Effect.each checkOffload keys)
      (fun _ => ∀ key ∈ keys, ¬ sys.tier.KeyRetained key) (fun e => e.sourceReusable = false) := by
    apply checks_each
    intro key _
    refine (checkOffload_spec sys.tier key).weaken (fun _ h => h) ?_
    rintro e (⟨hfalse, _⟩ | ⟨_, old, hpub, hstate⟩)
    · exact hfalse
    · exact absurd (hq.resident hpub) hstate
  apply triple_check_bind hcheck fun _ h => ⟨rfl, h⟩
  intro _ hfree
  exact absurd (Or.inr hquar) (hfree key hkey)

/-- An offload is refused with its source retained exactly when a key is in quarantine. -/
theorem Quiet.refused_iff (keys : List TierKey) (pages : List Nat) :
    (∃ e t, beginOffload keys pages true sys.tier = (.error e, t) ∧ e.sourceReusable = false) ↔
      sys.tier.Retained keys pages := by
  constructor
  · rintro ⟨e, t, heq, hfalse⟩
    have hrun := beginOffload_spec hq.kept.custody sys.holds_phase keys pages true sys.tier rfl
    rw [heq] at hrun
    rcases hrun with ⟨_, hretained⟩ | ⟨hnot, _⟩
    · exact hretained hfalse
    · exact Bool.noConfusion hnot
  · intro hretained
    have hrun := hq.refuses hretained true sys.tier rfl
    split at hrun
    · exact hrun.elim
    · next e t heq => exact ⟨e, t, heq, hrun.2⟩

end

/-! ### Finishing a transfer whose copy completes -/

/-- A transfer that was begun last, with every other one ended. -/
structure Latest (direction : TransferDirection) (before : List TierTransfer) (x : TierTransfer) (sys : TierSystem) :
    Prop where
  transfers : sys.transfers = before ++ [x]
  ended : ∀ y ∈ before, y.terminal ≠ .active
  fresh : x.Fresh direction
  pages : PagesAre ∅ sys.tier

/-- Every transfer has ended and no device page was lost. -/
def Settled (sys : TierSystem) : Prop := (∀ x ∈ sys.transfers, x.terminal ≠ .active) ∧ PagesAre ∅ sys.tier

variable {direction : TransferDirection} {before : List TierTransfer} {x : TierTransfer}

section

variable (hl : Latest direction before x sys)
include hl

theorem Latest.lookup : sys.transfers[before.length]? = some x := by
  rw [hl.transfers]
  exact List.getElem?_concat_length

theorem Latest.set (y : TierTransfer) : sys.transfers.set before.length y = before ++ [y] := by
  rw [hl.transfers, List.set_append_right _ _ le_rfl, Nat.sub_self]
  rfl

theorem Latest.settled {y : TierTransfer} {tier : KvTier} (hy : y.terminal ≠ .active)
    (hpages : PagesAre ∅ tier) : Settled { sys with tier, transfers := sys.transfers.set before.length y } := by
  refine ⟨?_, hpages⟩
  rw [show ({ sys with tier, transfers := sys.transfers.set before.length y } : TierSystem).transfers = _ from hl.set y]
  intro z hz
  rcases List.mem_append.mp hz with hz | hz
  · exact hl.ended z hz
  · rwa [List.mem_singleton.mp hz]

theorem Latest.live : Checks sys (raiseFailure x) (fun _ => x.terminal = .active) (fun _ => False) := by
  refine (raiseFailure_spec sys x).weaken (fun _ _ => hl.fresh.terminal) ?_
  rintro _ (h | h)
  · exact h hl.fresh.failure
  · exact h hl.fresh.terminal

theorem Latest.found : Checks sys (transfer before.length) (fun y => x = y) (fun _ => False) := by
  refine (transfer_spec sys before.length).weaken ?_ ?_
  · exact fun y hy => Option.some.inj (hl.lookup.symm.trans hy)
  · exact fun _ hnone => Option.some_ne_none _ (hl.lookup.symm.trans hnone)

theorem wait_latest : Triple (· = sys) (wait before.length true)
      (fun _ s => ∃ y, Latest direction before y s ∧ y.physicalComplete = true) (fun _ _ => False) := by
  apply triple_check_bind hl.found fun _ h => h.elim
  rintro _ rfl
  apply triple_check_bind hl.live fun _ h => h.elim
  intro _ hactive
  apply triple_ite
  · intro hdone
    apply triple_return
    refine ⟨_, hl, hdone.resolve_left ?_⟩
    rw [hactive]
    exact noConfusion
  intro _
  apply triple_modify_return
  exact ⟨_, ⟨hl.set _, hl.ended, ⟨hl.fresh.terminal, hl.fresh.failure, hl.fresh.direction⟩, hl.pages⟩, rfl⟩

theorem ready_latest (hcomplete : x.physicalComplete = true) (answer : Option Bool) :
    Checks sys (ready before.length answer) (fun complete => complete = true) (fun _ => False) := by
  apply checks_bind hl.found
  rintro _ rfl
  apply checks_bind hl.live
  intro _ _
  rw [if_pos (Or.inr hcomplete)]
  exact checks_pure rfl

theorem finalize_latest (hcomplete : x.physicalComplete = true) (actual : Option (Nat → Checksum)) (records : Bool) :
    Triple (· = sys) (finalize before.length none actual records) (fun _ s => Settled s)
      (fun e s => Settled s ∧ Ended direction e) := by
  apply triple_check_bind hl.found fun _ h => h.elim
  rintro _ rfl
  apply triple_check_bind hl.live fun _ h => h.elim
  intro _ hactive
  apply triple_ite
  · intro hfinalized
    exact noConfusion (hactive.symm.trans hfinalized)
  intro _
  apply triple_check_bind (ready_latest hl hcomplete none) fun _ h => h.elim
  rintro _ rfl
  apply triple_check_bind hl.found fun _ h => h.elim
  rintro _ rfl
  apply triple_bind (Q := fun _ s => s.transfers = sys.transfers ∧ PagesAre ∅ s.tier)
  · apply triple_handle (E := fun _ s => s.transfers = sys.transfers ∧ PagesAre ∅ s.tier)
    · apply triple_zoom
      rintro _ rfl
      exact triple_mono (triple_at (finalizeTransfer_keeps x actual records) hl.pages)
        (fun _ _ h => ⟨rfl, h⟩) (fun _ _ h => ⟨rfl, h⟩)
    · intro _
      apply triple_bind (Q := fun failure s => s.transfers = sys.transfers ∧ PagesAre ∅ s.tier ∧
        Ended direction (.tier failure))
      · apply triple_zoom
        rintro s ⟨htransfers, hpages⟩
        refine triple_weaken (failFinalization_pages (q := ∅) x) ?_ ?_ (fun _ _ h => h.elim)
        · rintro _ rfl
          exact hpages
        · rintro failure t ⟨hpages', hended⟩
          exact ⟨htransfers, hpages', hl.fresh.direction ▸ hended⟩
      · intro failure
        apply triple_of_forall
        rintro s ⟨htransfers, hpages, hended⟩
        apply triple_modify_raise
        rw [htransfers]
        exact ⟨hl.settled noConfusion hpages, hended⟩
  intro _
  apply triple_of_forall
  rintro s ⟨htransfers, hpages⟩
  apply triple_modify_return
  rw [htransfers]
  exact hl.settled noConfusion hpages

end

/-- A transfer that was just begun ends quietly when its copy completes. -/
theorem finish_latest {base : KvTier} (actual : Option (Nat → Checksum)) (records : Bool) :
    Triple (fun s => Kept base s ∧ ∃ x, Latest direction before x s)
      (do
        let _ ← wait before.length true
        finalize before.length none actual records)
      (fun _ s => Quiet s) (fun e s => Quiet s ∧ Ended direction e) := by
  apply triple_of_forall
  rintro s ⟨hk, x, hl⟩
  have hwait := triple_and (wait_spec hk before.length true) (wait_latest hl)
  apply triple_bind (triple_error hwait fun _ _ h => h.2.elim)
  intro _
  apply triple_of_forall
  rintro s' ⟨hk', y, hl', hcomplete⟩
  have hfinal := triple_and (finalize_spec hk' before.length none actual records)
    (finalize_latest hl' hcomplete actual records)
  refine triple_mono hfinal ?_ ?_
  · rintro _ t ⟨hkept, hended, hpages⟩
    exact Quiet.of_kept hkept hended hpages
  · rintro e t ⟨hkept, ⟨hended, hpages⟩, he⟩
    exact ⟨Quiet.of_kept hkept hended hpages, he⟩

variable (hq : Quiet sys)
include hq

/-- Beginning a transfer in a quiet state. -/
theorem begin_latest {m : KvTier.Op TierTransfer} {ψ : TierFailure → KvTier → Prop}
    (hm : Triple (· = sys.tier) m (fun x t => KvTier.Begun sys.tier direction sys.holds sys.claims x t)
      (fun e t => KvTier.Custody sys.tier t [] sys.holds sys.claims ∧ ψ e t))
    (hpages : Effect.Keeps (KvTier.PagesAre ∅) m) :
    Triple (· = sys) (begin m) (fun _ s => Kept sys.tier s ∧ ∃ x, Latest direction sys.transfers x s)
      (fun e s => Quiet s ∧ ψ e s.tier) := by
  have hboth := triple_keeping hm hpages
  apply triple_bind (Q := fun x s => s.transfers = sys.transfers ∧
    KvTier.Begun sys.tier direction sys.holds sys.claims x s.tier ∧ KvTier.PagesAre ∅ s.tier)
  · apply triple_zoom
    rintro _ rfl
    refine triple_weaken hboth ?_ (fun _ _ h => ⟨rfl, h⟩) ?_
    · rintro _ rfl
      exact ⟨rfl, hq.pages⟩
    · rintro e t ⟨⟨hc, he⟩, hp⟩
      exact ⟨Quiet.of_kept ⟨hc, hq.kept.shaped⟩ hq.ended hp, he⟩
  · intro x
    apply triple_modify
    rintro s ⟨htransfers, hbegun, hp⟩
    rw [htransfers]
    exact ⟨hq.kept.begun hbegun, x, rfl, hq.ended, hbegun.1, hp⟩

/-- An offload whose copy completes leaves the source reusable unless a key is quarantined. -/
theorem offload_quiet (keys : List TierKey) (pages : List Nat) (actual : Option (Nat → Checksum)) (records : Bool) :
    Triple (· = sys) (offload keys pages true true actual records) (fun _ s => Quiet s)
      (fun e s => Quiet s ∧ (e.sourceReusable = false → s.tier = sys.tier ∧ sys.tier.Retained keys pages)) := by
  have hbegin := beginOffload_spec hq.kept.custody sys.holds_phase keys pages true
  apply triple_get_bind
  rintro sys rfl
  apply triple_bind (begin_latest (ψ := fun e t => e.sourceReusable = false → t = sys.tier ∧ sys.tier.Retained keys pages)
    hq (triple_error hbegin ?_) (beginOffload_keeps keys pages))
  · intro _
    refine triple_error (finish_latest actual records) ?_
    rintro e s ⟨hquiet, hended⟩
    refine ⟨hquiet, fun hfalse => ?_⟩
    exact Bool.noConfusion (hended.1.symm.trans hfalse)
  · rintro e t (⟨rfl, hretained⟩ | ⟨hnot, _⟩)
    · exact ⟨hq.kept.custody, fun hfalse => ⟨rfl, hretained hfalse⟩⟩
    · exact Bool.noConfusion hnot

theorem Quiet.offload_refuses {keys : List TierKey} {pages : List Nat}
    (hretained : sys.tier.Retained keys pages) (submits completes : Bool) (actual : Option (Nat → Checksum))
    (records : Bool) : Triple (· = sys) (offload keys pages submits completes actual records) (fun _ _ => False)
      (fun e _ => e.sourceReusable = false) := by
  apply triple_get_bind
  rintro sys rfl
  apply triple_bind (Q := fun _ _ => False)
  · apply triple_bind (Q := fun _ _ => False)
    · apply triple_zoom
      rintro _ rfl
      exact triple_error (hq.refuses hretained submits) (fun _ _ h => h.2)
    · exact fun _ _ hfalse => hfalse.elim
  · exact fun _ _ hfalse => hfalse.elim

/-- A restore whose copy completes leaves the destination reusable when it fails. -/
theorem restore_quiet (keys : List TierKey) (pages : List Nat) (actual : Nat → Checksum) (records : Bool) :
    Triple (· = sys) (restore keys pages true true (some actual) records) (fun _ s => Quiet s)
      (fun e s => Quiet s ∧ e.destinationReusable = true) := by
  have hbegin := beginRestore_spec hq.kept.custody sys.holds_phase keys pages none (some actual) true
  apply triple_get_bind
  rintro sys rfl
  apply triple_bind (begin_latest (ψ := fun e _ => e.destinationReusable = true) hq
    (triple_error hbegin ?_) (beginRestore_keeps keys pages none _))
  · intro _
    refine triple_error (finish_latest (some actual) records) ?_
    rintro e s ⟨hquiet, hended⟩
    exact ⟨hquiet, hended.2⟩
  · rintro e t ⟨hc, hfalse⟩
    refine ⟨hc, ?_⟩
    cases hreusable : e.destinationReusable with
    | true => rfl
    | false =>
      rcases hfalse hreusable with hclaimed | hnone | hnot
      · exact absurd (hq.unclaimed pages) hclaimed
      · exact absurd hnone (Option.some_ne_none _)
      · exact Bool.noConfusion hnot

/-- A lookup of digests raises only when two of them are equal. -/
theorem availablePrefix_quiet {keys : List TierKey} (hsome : keys ≠ [])
    (hdigests : ∀ key ∈ keys, fullSha256 key = true) {minPages : Nat} (hmin : 1 ≤ minPages) :
    Triple (· = sys) (onTier (availablePrefix keys minPages)) (fun _ s => Quiet s)
      (fun e s => Quiet s ∧ e = duplicateKeys) := by
  apply triple_zoom
  rintro sys rfl
  unfold availablePrefix
  rw [if_neg (Nat.not_lt.mpr hmin)]
  apply triple_check_bind (checkKeys_digests sys.tier hsome hdigests) fun _ h => ⟨hq, h⟩
  intro _ _
  apply triple_get_bind
  rintro t rfl
  apply triple_ite
  · intro _
    apply triple_modify_return
    refine Quiet.of_kept ⟨hq.kept.custody.touches _, hq.kept.shaped⟩ hq.ended ?_
    exact (touches_pages _ _).trans hq.pages
  · intro _
    apply triple_return
    exact hq

end TierSystem

end Kairyu
