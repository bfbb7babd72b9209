/-
  Kairyu/KvCustody.lean
  =====================
  **Who owns a host slot and a device page** — the invariant of the KV tier.

  A `Hold` is what an active transfer has of one host page: the entry it reserved, the entry
  it replaces, and how far it got.  A `Claim` is what it has of the device.  `Custody`
  accounts for every slot: it is free, spare (taken off the stack and not filled yet),
  quarantined, held, or published under its key.  Each change the tier makes is one lemma:
  what it does to the holds and claims, and that custody is kept.
-/
import Kairyu.KvTier
import Mathlib.Tactic.Common

namespace Kairyu

open Function List AList

/-- One host page of an active transfer. -/
structure Hold where
  entry : EntryId
  key : TierKey
  previous : Option EntryId
  phase : PageState

/-- The device pages of an active transfer. -/
structure Claim where
  owner : Nat
  pages : List Nat

/-- Device pages have an owner exactly when an active transfer claims them. -/
structure PageCustody (kept : Finset Nat) (owners : Dict Nat Nat) (nextOwner : Nat) (quarantined : Finset Nat)
    (claims : List Claim) : Prop where
  owned : ∀ c ∈ claims, ∀ page ∈ c.pages, owners.lookup page = some c.owner
  claimed : ∀ page owner, owners.lookup page = some owner → ∃ c ∈ claims, c.owner = owner ∧ page ∈ c.pages
  owners_nodup : (claims.map (·.owner)).Nodup
  fresh : ∀ c ∈ claims, c.owner < nextOwner
  usable : ∀ page owner, owners.lookup page = some owner → page ∉ quarantined
  kept : kept ⊆ quarantined

namespace KvTier

/-- The tier grants a hold. -/
structure Grants (t : KvTier) (h : Hold) : Prop where
  key : (t.heap h.entry).key = h.key
  state : (t.heap h.entry).state = h.phase
  phase : h.phase ≠ .resident
  current : t.current h.entry
  usable : t.slotOf h.entry ∉ t.quarantined
  inFlight : h.phase ≠ .reserved → h.key ∈ t.inFlight
  /-- The key shows the copy that is replaced, if there is one. -/
  published : t.published.lookup h.key = if h.phase = .reserved then h.previous else some (h.previous.getD h.entry)
  previous : ∀ old, h.previous = some old → (t.heap old).state = .resident
  offloads : h.phase ≠ .restoring → h.key ∉ t.quarantinedKeys

/-- Every slot is accounted for.  `base` is an earlier tier: nothing left its quarantine,
    and its entries still carry their keys. -/
structure Custody (base t : KvTier) (spare : List Nat) (holds : List Hold) (claims : List Claim) : Prop where
  capacity : t.capacityPages = base.capacityPages
  nodup : (t.freeSlots ++ spare).Nodup
  free : ∀ s, s ∈ t.freeSlots ++ spare ↔ s < t.capacityPages ∧ t.slots s = none
  placed : ∀ s e, t.slots s = some e → s < t.capacityPages ∧ t.slotOf e = s ∧ e < t.nextEntry
  published : ∀ key e, t.published.lookup key = some e →
    (t.heap e).key = key ∧ t.current e ∧ t.slotOf e ∉ t.quarantined ∧
      ((t.heap e).state = .resident ∨ ∃ h ∈ holds, h.entry = e)
  quarantined : ∀ s ∈ t.quarantined, t.slots s ≠ none
  accounted : ∀ s e, t.slots s = some e → s ∉ t.quarantined →
    (∃ h ∈ holds, h.entry = e) ∨ t.published.lookup (t.heap e).key = some e
  granted : ∀ h ∈ holds, t.Grants h
  keys : (holds.map (·.key)).Nodup
  inFlight : ∀ key ∈ t.inFlight, ∃ h ∈ holds, h.key = key
  pages : PageCustody base.quarantinedPages t.pageOwners t.nextOwner t.quarantinedPages claims
  slotsKept : base.quarantined ⊆ t.quarantined
  keysKept : base.quarantinedKeys ⊆ t.quarantinedKeys
  entriesKept : base.nextEntry ≤ t.nextEntry ∧ ∀ e < base.nextEntry, (t.heap e).key = (base.heap e).key

/-- The copy a hold replaces is the one its key shows. -/
theorem Grants.shown {t : KvTier} {h : Hold} (hg : t.Grants h) {old : EntryId} (hold : h.previous = some old) :
    t.published.lookup h.key = some old := by
  rw [hg.published, hold]
  split <;> rfl

namespace Custody

variable {base t : KvTier} {spare : List Nat} {holds : List Hold} {claims : List Claim} {e : EntryId} {key : TierKey}

/-! ### What custody says about two entries -/

/-- A hold is granted as long as what changes has another key. -/
theorem granted_elsewhere {t' : KvTier} {h : Hold} (hc : Custody base t spare holds claims) (hh : h ∈ holds)
    (hne : h.key ≠ key) (hheap : ∀ e, t.current e → (t.heap e).key ≠ key → t'.heap e = t.heap e)
    (hslots : ∀ e, t.current e → (t.heap e).key ≠ key → t'.slots (t.slotOf e) = some e)
    (hquarantined : ∀ e, t.current e → (t.heap e).key ≠ key → t.slotOf e ∈ t'.quarantined → t.slotOf e ∈ t.quarantined)
    (hinFlight : ∀ k ≠ key, k ∈ t.inFlight → k ∈ t'.inFlight)
    (hpublished : ∀ k ≠ key, t'.published.lookup k = t.published.lookup k)
    (hkeys : ∀ k ≠ key, k ∈ t'.quarantinedKeys → k ∈ t.quarantinedKeys) : t'.Grants h := by
  have hg := hc.granted h hh
  have hother : (t.heap h.entry).key ≠ key := hg.key.symm ▸ hne
  have hentry := hheap h.entry hg.current hother
  have hsame : t'.slotOf h.entry = t.slotOf h.entry := congrArg SlotEntry.slot hentry
  constructor
  · exact (congrArg SlotEntry.key hentry).trans hg.key
  · exact (congrArg SlotEntry.state hentry).trans hg.state
  · exact hg.phase
  · exact (congrArg t'.slots hsame).trans (hslots h.entry hg.current hother)
  · intro hquar
    exact hg.usable (hquarantined h.entry hg.current hother (hsame ▸ hquar))
  · intro hphase
    exact hinFlight h.key hne (hg.inFlight hphase)
  · exact (hpublished h.key hne).trans hg.published
  · intro old hold
    obtain ⟨hkey, hcurrent, _, _⟩ := hc.published _ _ (hg.shown hold)
    exact (congrArg SlotEntry.state (hheap old hcurrent (hkey.symm ▸ hne))).trans (hg.previous old hold)
  · intro hphase hquar
    exact hg.offloads hphase (hkeys h.key hne hquar)

theorem head_apart {h : Hold} (hc : Custody base t spare (h :: holds) claims) : ∀ h' ∈ holds, h'.key ≠ h.key := by
  intro h' hh heq
  exact (nodup_cons.mp hc.keys).1 (mem_map.mpr ⟨h', hh, heq⟩)

theorem head_granted {h : Hold} (hc : Custody base t spare (h :: holds) claims) : t.Grants h :=
  hc.granted h mem_cons_self

/-- The entry a key shows is resident unless a transfer of that key holds it. -/
theorem resident (hc : Custody base t spare holds claims) (hpub : t.published.lookup key = some e)
    (hnew : ∀ h ∈ holds, h.key ≠ key) : (t.heap e).state = .resident := by
  obtain ⟨hkey, _, _, hstate | ⟨h, hh, rfl⟩⟩ := hc.published _ _ hpub
  · exact hstate
  · exact absurd ((hc.granted h hh).key.symm.trans hkey) (hnew h hh)

theorem keys_cons (hc : Custody base t spare holds claims) {h : Hold} (hnew : ∀ h' ∈ holds, h'.key ≠ h.key) :
    ((h :: holds).map (·.key)).Nodup := by
  refine nodup_cons.mpr ⟨fun hmem => ?_, hc.keys⟩
  obtain ⟨h', hh, heq⟩ := mem_map.mp hmem
  exact hnew h' hh heq

/-! ### Changes of the tier -/

section

variable (hc : Custody base t spare holds claims)
include hc

theorem perm {holds' : List Hold} (hperm : holds.Perm holds') : Custody base t spare holds' claims := by
  refine { hc with published := ?_, accounted := ?_, granted := ?_, keys := ?_, inFlight := ?_ }
  · simpa only [hperm.mem_iff] using hc.published
  · simpa only [hperm.mem_iff] using hc.accounted
  · simpa only [hperm.mem_iff] using hc.granted
  · exact (hperm.map _).nodup_iff.mp hc.keys
  · simpa only [hperm.mem_iff] using hc.inFlight

/-- Checksums, times of use and the states of entries that gave up their slots are no part
    of custody. -/
theorem reheap {heap : EntryId → SlotEntry} {clock : Nat} {published : Dict TierKey EntryId}
    (hsame : ∀ e, (heap e).key = (t.heap e).key ∧ (heap e).slot = (t.heap e).slot ∧
      (t.current e → (heap e).state = (t.heap e).state))
    (hpublished : ∀ key, published.lookup key = t.published.lookup key) :
    Custody base { t with heap, clock, published } spare holds claims := by
  have hkey := fun e => (hsame e).1
  have hslot := fun e => (hsame e).2.1
  have hstate := fun e => (hsame e).2.2
  refine { hc with placed := ?_, published := ?_, accounted := ?_, granted := ?_, entriesKept := ?_ }
  · simpa only [slotOf, hslot] using hc.placed
  · intro key e hshown
    rw [hpublished] at hshown
    obtain ⟨hname, hcurrent, husable, hheld⟩ := hc.published key e hshown
    simpa only [current, slotOf, hslot, hkey, hstate e hcurrent] using ⟨hname, hcurrent, husable, hheld⟩
  · intro s e hs husable
    rw [hpublished, hkey]
    exact hc.accounted s e hs husable
  · intro h hh
    have hg := hc.granted h hh
    exact { hg with
      key := (hkey _).trans hg.key
      state := (hstate _ hg.current).trans hg.state
      current := by simpa only [KvTier.current, slotOf, hslot] using hg.current
      usable := by simpa only [slotOf, hslot] using hg.usable
      published := (hpublished _).trans hg.published
      previous := fun old hold =>
        (hstate old (hc.published _ _ (hg.shown hold)).2.1).trans (hg.previous old hold) }
  · exact ⟨hc.entriesKept.1, fun e he => (hkey e).trans (hc.entriesKept.2 e he)⟩

/-- A published entry that no transfer holds is dropped. -/
theorem drop (hpub : t.published.lookup (t.heap e).key = some e) (hfree : ∀ h ∈ holds, h.key ≠ (t.heap e).key) :
    Custody base ((t.unpublish (t.heap e).key).vacate e) spare holds claims := by
  have hlookup := lookup_erase_if t.published (t.heap e).key
  have hplaced := hc.placed
  have hpublished := hc.published
  refine { hc with nodup := ?_, free := ?_, placed := ?_, published := ?_, quarantined := ?_, accounted := ?_, granted := ?_ }
  all_goals simp only [unpublish, vacate, slotOf, current] at *
  · have hnodup := hc.nodup
    have := hc.free
    grind
  · have := hc.free
    grind
  · grind
  · grind
  · have := hc.quarantined
    grind
  · have := hc.accounted
    grind
  · intro h hh
    refine hc.granted_elsewhere hh (hfree h hh) ?_ ?_ ?_ ?_ ?_ ?_ <;> simp only [current] <;> grind

end

theorem pop (hc : Custody base t [] holds claims) {kept : Nat} {slots : List Nat}
    (hslots : slots.Perm (t.freeSlots.drop kept)) :
    Custody base { t with freeSlots := t.freeSlots.take kept } slots holds claims := by
  have hperm : (t.freeSlots.take kept ++ slots).Perm (t.freeSlots ++ []) := by
    rw [append_nil]
    calc (t.freeSlots.take kept ++ slots).Perm (t.freeSlots.take kept ++ t.freeSlots.drop kept) := hslots.append_left _
      _ = t.freeSlots := take_append_drop kept t.freeSlots
  refine { hc with nodup := ?_, free := ?_, granted := ?_ }
  · exact hperm.nodup_iff.mpr hc.nodup
  · intro s
    exact hperm.mem_iff.trans (hc.free s)
  · intro h hh
    exact { hc.granted h hh with }

/-- A spare slot gets a new entry. -/
theorem place {slot : Nat} {slots : List Nat} (hc : Custody base t (slot :: slots) holds claims)
    (hnew : ∀ h ∈ holds, h.key ≠ key) (hquar : key ∉ t.quarantinedKeys) :
    Custody base (t.place key slot) slots (⟨t.nextEntry, key, t.published.lookup key, .reserved⟩ :: holds) claims := by
  obtain ⟨hbound, hempty⟩ := (hc.free slot).mp (by simp)
  have hplaced := hc.placed
  have hnodup := nodup_middle.mp hc.nodup
  have hquarantined := hc.quarantined
  have hpublished := hc.published
  refine { hc with
    nodup := hnodup.of_cons, free := ?_, placed := ?_, published := ?_, quarantined := ?_, accounted := ?_, granted := ?_,
    keys := hc.keys_cons hnew, inFlight := ?_, entriesKept := ?_ }
  all_goals simp only [KvTier.place, slotOf, current] at *
  · have hfree := hc.free
    grind
  · grind
  · grind
  · grind
  · have haccounted := hc.accounted
    simp only [mem_cons]
    grind
  · intro h hh
    rcases mem_cons.mp hh with rfl | hh
    · have hresident := fun old (hpub : t.published.lookup key = some old) => hc.resident hpub hnew
      constructor <;> simp only [slotOf, current] <;> grind
    · refine hc.granted_elsewhere hh (hnew h hh) ?_ ?_ ?_ ?_ ?_ ?_ <;> simp only [current] <;> grind
  · intro key' hkey'
    obtain ⟨h, hh, heq⟩ := hc.inFlight key' hkey'
    exact ⟨h, mem_cons_of_mem _ hh, heq⟩
  · refine ⟨hc.entriesKept.1.trans (Nat.le_succ _), ?_⟩
    intro e he
    rw [← hc.entriesKept.2 e he]
    exact congrArg SlotEntry.key (update_of_ne (he.trans_le hc.entriesKept.1).ne _ _)

/-- The copy of a reserved page starts. -/
theorem launch {old : Option EntryId} (hc : Custody base t spare (⟨e, key, old, .reserved⟩ :: holds) claims) :
    Custody base (t.launch key e old) spare (⟨e, key, old, .offloading⟩ :: holds) claims := by
  obtain ⟨hkey, hstate, _, hcurrent, husable, _, hpub, hprev, hquar⟩ := hc.head_granted
  have hothers := hc.head_apart
  have hlookup : ∀ key', (t.launch key e old).published.lookup key' =
      if key' = key then some (old.getD e) else t.published.lookup key' := by
    intro key'
    cases old with
    | none => simpa [KvTier.launch, setEntry] using lookup_insert_if t.published key key' e
    | some o =>
      by_cases heq : key' = key
      · subst heq
        simpa [KvTier.launch, setEntry] using hpub
      · simp [KvTier.launch, setEntry, heq]
  have hplaced := hc.placed
  have hpublished := hc.published
  have haccounted := hc.accounted
  have hinFlight := hc.inFlight
  refine { hc with placed := ?_, published := ?_, accounted := ?_, granted := ?_, inFlight := ?_, entriesKept := ?_ }
  all_goals simp only [KvTier.launch, setEntry, slotOf, current, mem_cons] at *
  · grind
  · grind
  · grind
  · intro h hh
    rcases hh with rfl | hh
    · constructor <;> simp only [slotOf, current] <;> grind
    · refine hc.granted_elsewhere (mem_cons_of_mem _ hh) (hothers h hh) ?_ ?_ ?_ ?_ ?_ ?_ <;>
        simp only [current] <;> grind
  · grind
  · have hkept := hc.entriesKept
    grind

/-- The copy of a resident page back to the device starts. -/
theorem markRestoring (hc : Custody base t spare holds claims) (hpub : t.published.lookup key = some e)
    (hnew : ∀ h ∈ holds, h.key ≠ key) :
    Custody base (t.markRestoring e) spare (⟨e, key, none, .restoring⟩ :: holds) claims := by
  have hplaced := hc.placed
  have hpublished := hc.published
  refine { hc with
    placed := ?_, published := ?_, accounted := ?_, granted := ?_, keys := hc.keys_cons hnew, inFlight := ?_,
    entriesKept := ?_ }
  all_goals simp only [KvTier.markRestoring, setEntry, slotOf, current, mem_cons] at *
  · grind
  · grind
  · have haccounted := hc.accounted
    grind
  · intro h hh
    rcases hh with rfl | hh
    · constructor <;> simp only [slotOf, current] <;> grind
    · refine hc.granted_elsewhere hh (hnew h hh) ?_ ?_ ?_ ?_ ?_ ?_ <;> simp only [current] <;> grind
  · have hinFlight := hc.inFlight
    grind
  · have hkept := hc.entriesKept
    grind

/-- An entry goes into quarantine, with the hold on it. -/
theorem quarantineEntry (hc : Custody base t spare holds claims) (retain : Bool)
    (honly : ∀ h ∈ holds, h.key = (t.heap e).key → h.entry = e) :
    Custody base (t.quarantineEntry retain e) spare (holds.filter (·.entry ≠ e)) claims := by
  unfold KvTier.quarantineEntry
  by_cases hcurrent : t.current e
  swap
  · rw [if_pos hcurrent]
    have hall : holds.filter (·.entry ≠ e) = holds := by
      apply filter_eq_self.mpr
      intro h hh
      simp only [decide_eq_true_eq]
      rintro rfl
      exact hcurrent (hc.granted h hh).current
    rwa [hall]
  rw [if_neg (not_not_intro hcurrent)]
  have hlookup : ∀ key, (if t.published.lookup (t.heap e).key = some e then t.published.erase (t.heap e).key
      else t.published).lookup key =
        if key = (t.heap e).key ∧ t.published.lookup key = some e then none else t.published.lookup key := by
    intro key
    have := lookup_erase_if t.published (t.heap e).key key
    grind
  have hrest : ∀ h ∈ holds, h.entry ≠ e → h.key ≠ (t.heap e).key := fun h hh hne heq => hne (honly h hh heq)
  refine { hc with
    published := ?_, quarantined := ?_, accounted := ?_, granted := ?_, keys := ?_, inFlight := ?_, slotsKept := ?_,
    keysKept := ?_ }
  · have hpublished := hc.published
    simp only [slotOf, current] at *
    grind
  · have hquarantined := hc.quarantined
    simp only [current] at *
    grind
  · have haccounted := hc.accounted
    have hplaced := hc.placed
    grind
  · intro h hh
    obtain ⟨hh, hne⟩ := mem_filter.mp hh
    simp only [decide_eq_true_eq] at hne
    refine hc.granted_elsewhere hh (hrest h hh hne) ?_ ?_ ?_ ?_ ?_ ?_ <;>
      simp only [current] at * <;> grind
  · exact hc.keys.sublist ((filter_sublist).map _)
  · intro key hmem
    obtain ⟨hne, hmem⟩ := Finset.mem_erase.mp hmem
    obtain ⟨h, hh, rfl⟩ := hc.inFlight key hmem
    refine ⟨h, mem_filter.mpr ⟨hh, ?_⟩, rfl⟩
    simp only [decide_eq_true_eq]
    rintro rfl
    exact hne (hc.granted h hh).key.symm
  · exact hc.slotsKept.trans (Finset.subset_insert _ _)
  · have := hc.keysKept
    grind

/-- The first hold goes into quarantine. -/
theorem quarantine_head {h : Hold} (hc : Custody base t spare (h :: holds) claims) (retain : Bool) :
    Custody base (t.quarantineEntry retain h.entry) spare holds claims := by
  have hg := hc.head_granted
  have hothers := hc.head_apart
  have hquar := hc.quarantineEntry (e := h.entry) retain ?_
  · have hleft : (h :: holds).filter (·.entry ≠ h.entry) = holds := by
      rw [filter_cons_of_neg (by simp), filter_eq_self]
      intro h' hh'
      simp only [decide_eq_true_eq]
      intro hsame
      have hkey := (hc.granted h' (mem_cons_of_mem _ hh')).key
      exact hothers h' hh' (hkey.symm.trans (hsame ▸ hg.key))
    rwa [hleft] at hquar
  · intro h' hh' hkey
    rcases mem_cons.mp hh' with rfl | hh'
    · rfl
    · exact absurd (hkey.trans hg.key) (hothers h' hh')

/-- An entry that no transfer holds goes into quarantine. -/
theorem quarantine_unheld (hc : Custody base t spare holds claims) (retain : Bool)
    (hnew : ∀ h ∈ holds, h.key ≠ (t.heap e).key) : Custody base (t.quarantineEntry retain e) spare holds claims := by
  have hquar := hc.quarantineEntry retain fun h hh hkey => absurd hkey (hnew h hh)
  have hleft : holds.filter (·.entry ≠ e) = holds := by
    rw [filter_eq_self]
    intro h hh
    simp only [decide_eq_true_eq]
    rintro rfl
    exact hnew h hh (hc.granted h hh).key.symm
  rwa [hleft] at hquar

/-- The new checksum and time of use of an entry. -/
theorem stamp (hc : Custody base t spare holds claims) (checksum : Checksum) :
    Custody base (t.stamp e checksum) spare holds claims := by
  refine hc.reheap ?_ fun _ => rfl
  intro e'
  by_cases he : e' = e <;> simp [he]

/-- The only copy becomes resident. -/
theorem commit_only {phase : PageState} (hphase : phase ≠ .reserved)
    (hc : Custody base t spare (⟨e, key, none, phase⟩ :: holds) claims) :
    Custody base ((t.publish e).settle e) spare holds claims := by
  obtain ⟨hkey, hstate, _, hcurrent, husable, _, hpub, hprev, hquar⟩ := hc.head_granted
  have hothers := hc.head_apart
  have hlookup := lookup_insert_if t.published key
  have hplaced := hc.placed
  have hpublished := hc.published
  have haccounted := hc.accounted
  have hinFlight := hc.inFlight
  refine { hc with
    placed := ?_, published := ?_, accounted := ?_, granted := ?_, keys := (nodup_cons.mp hc.keys).2, inFlight := ?_,
    entriesKept := ?_ }
  all_goals
    simp only [publish, settle, setEntry, slotOf, current] at *
  · grind
  · grind
  · grind
  · intro h hh
    refine hc.granted_elsewhere (mem_cons_of_mem _ hh) (hothers h hh) ?_ ?_ ?_ ?_ ?_ ?_ <;>
      simp only [current] <;> grind
  · grind
  · have hkept := hc.entriesKept
    grind

/-- A first copy becomes resident. -/
theorem commit_first (hc : Custody base t spare (⟨e, key, none, .offloading⟩ :: holds) claims) :
    Custody base ((t.publish e).settle e) spare holds claims := hc.commit_only (by simp)

/-- A page that was restored leaves the tier. -/
theorem commit_restore (hc : Custody base t spare (⟨e, key, none, .restoring⟩ :: holds) claims) :
    Custody base (((t.unpublish key).settle e).vacate e) spare holds claims := by
  have hkey : (t.heap e).key = key := hc.head_granted.key
  have hothers := hc.head_apart
  have hpublish : t.publish e = { t with
      heap := update t.heap e { t.heap e with state := .resident }
      published := t.published.insert key e } := by
    simp [publish, setEntry, hkey]
  have hname : (((t.publish e).settle e).heap e).key = key := by simp [hpublish, settle, hkey]
  -- The page is dropped as a resident one would be; its entry keeps its state.
  have hdropped := (hc.commit_only (by simp)).drop (e := e)
  rw [hname] at hdropped
  have hleft := hdropped (by simp [hpublish, settle]) hothers
  have heq : ((t.unpublish key).settle e).vacate e =
      { (((t.publish e).settle e).unpublish key).vacate e with
        heap := t.heap, clock := t.clock, published := t.published.erase key } := by
    simp [hpublish, settle, unpublish, vacate, slotOf]
  rw [heq]
  refine hleft.reheap ?_ ?_ <;> simp only [hpublish, settle, unpublish, vacate, slotOf, current]
  · grind
  · have hinsert := lookup_insert_if t.published key
    have herase := lookup_erase_if t.published key
    have herase' := lookup_erase_if (t.published.insert key e) key
    grind

/-- Of two copies of a page one is kept, and the slot of the other is given back. -/
theorem commit_pair {o kept lost : EntryId} (hc : Custody base t spare (⟨e, key, some o, .offloading⟩ :: holds) claims)
    (hpair : kept = e ∧ lost = o ∨ kept = o ∧ lost = e) :
    Custody base (((t.publish kept).vacate lost).settle e) spare holds claims := by
  obtain ⟨hkey, hstate, _, hcurrent, husable, _, hpub, hprev, hquar⟩ := hc.head_granted
  have hothers := hc.head_apart
  have hlookup := lookup_insert_if t.published key
  have hshown : t.published.lookup key = some o := hpub
  have hresident := hprev o rfl
  obtain ⟨hokey, hocurrent, housable, _⟩ := hc.published _ _ hshown
  have hne : lost ≠ kept := by
    rcases hpair with ⟨rfl, rfl⟩ | ⟨rfl, rfl⟩ <;> rintro rfl <;>
      exact PageState.noConfusion (hresident.symm.trans hstate)
  have hplaced := hc.placed
  have hpublished := hc.published
  have haccounted := hc.accounted
  have hinFlight := hc.inFlight
  refine { hc with
    nodup := ?_, free := ?_, placed := ?_, published := ?_, quarantined := ?_, accounted := ?_, granted := ?_,
    keys := (nodup_cons.mp hc.keys).2, inFlight := ?_, entriesKept := ?_ }
  all_goals
    simp only [publish, vacate, settle, setEntry, slotOf, current, mem_cons, exists_eq_or_imp, update_self,
      update_of_ne hne] at *
  · have hnodup := hc.nodup
    have hfree := hc.free
    grind
  · have hfree := hc.free
    grind
  · grind
  · grind
  · have hquarantined := hc.quarantined
    grind
  · grind
  · intro h hh
    refine hc.granted_elsewhere (mem_cons_of_mem _ hh) (hothers h hh) ?_ ?_ ?_ ?_ ?_ ?_ <;>
      simp only [slotOf, current] <;> grind
  · grind
  · have hkept := hc.entriesKept
    grind

/-- The copy is the one that was there: its slot is given back. -/
theorem commit_same {o : EntryId} (hc : Custody base t spare (⟨e, key, some o, .offloading⟩ :: holds) claims) :
    Custody base ((t.vacate e).settle e) spare holds claims := by
  have hg := hc.head_granted
  have hshown : t.published.lookup key = some o := hg.published
  have hresident := hg.previous o rfl
  have hokey := (hc.published key o hshown).1
  have hlookup := lookup_insert_if t.published key
  have hne : o ≠ e := by
    rintro rfl
    exact PageState.noConfusion (hresident.symm.trans hg.state)
  have heq : (t.vacate e).settle e =
      { ((t.publish o).vacate e).settle e with
        heap := t.heap, clock := t.clock, published := t.published } := by
    simp [publish, vacate, settle, setEntry, slotOf, hne.symm]
  rw [heq]
  refine (hc.commit_pair (Or.inr ⟨rfl, rfl⟩)).reheap ?_ ?_ <;>
    simp only [publish, vacate, settle, setEntry]
  · grind
  · grind

/-- A copy that differs takes the place of the one that was there. -/
theorem commit_replaced {o : EntryId} (hc : Custody base t spare (⟨e, key, some o, .offloading⟩ :: holds) claims) :
    Custody base (((t.publish e).vacate o).settle e) spare holds claims := hc.commit_pair (Or.inl ⟨rfl, rfl⟩)

/-! ### Device pages -/

/-- Custody of the slots does not depend on the pages. -/
theorem repage {claims' : List Claim} {owners : Dict Nat Nat} {next : Nat} {quarantined : Finset Nat}
    (hc : Custody base t spare holds claims)
    (hpages : PageCustody base.quarantinedPages owners next quarantined claims') :
    Custody base { t with pageOwners := owners, nextOwner := next, quarantinedPages := quarantined } spare holds claims' :=
  { hc with granted := fun h hh => { hc.granted h hh with }, pages := hpages }

theorem perm_claims {claims' : List Claim} (hc : Custody base t spare holds claims) (hperm : claims.Perm claims') :
    Custody base t spare holds claims' := by
  refine hc.repage { hc.pages with owned := ?_, claimed := ?_, owners_nodup := ?_, fresh := ?_ }
  · simpa only [hperm.mem_iff] using hc.pages.owned
  · simpa only [hperm.mem_iff] using hc.pages.claimed
  · exact (hperm.map _).nodup_iff.mp hc.pages.owners_nodup
  · simpa only [hperm.mem_iff] using hc.pages.fresh

end Custody

section

variable (t : KvTier) (pages : List Nat)

/-- Releasing pages changes the owners only. -/
theorem releaseDevicePages_eq (owner : Nat) :
    t.releaseDevicePages pages owner = { t with pageOwners := (t.releaseDevicePages pages owner).pageOwners } := by
  unfold releaseDevicePages
  induction pages generalizing t with
  | nil => rfl
  | cons page pages ih =>
    rw [foldl_cons]
    split
    · exact ih _
    · exact ih _

theorem lookup_releaseDevicePages (owner page : Nat) : (t.releaseDevicePages pages owner).pageOwners.lookup page =
      if page ∈ pages ∧ t.pageOwners.lookup page = some owner then none else t.pageOwners.lookup page := by
  unfold releaseDevicePages
  induction pages generalizing t with
  | nil => simp
  | cons first pages ih =>
    rw [foldl_cons]
    have herase := lookup_erase_if t.pageOwners first page
    grind

/-- Quarantining pages changes the owners and the quarantined pages only. -/
theorem quarantineDevicePages_eq (owner : Nat) :
    t.quarantineDevicePages pages owner = { t with
      pageOwners := (t.quarantineDevicePages pages owner).pageOwners
      quarantinedPages := (t.quarantineDevicePages pages owner).quarantinedPages } := by
  unfold quarantineDevicePages
  induction pages generalizing t with
  | nil => rfl
  | cons page pages ih =>
    rw [foldl_cons]
    split
    · exact ih _
    · exact ih _

theorem lookup_quarantineDevicePages (owner page : Nat) :
    (t.quarantineDevicePages pages owner).pageOwners.lookup page =
      if page ∈ pages ∧ t.pageOwners.lookup page = some owner then none else t.pageOwners.lookup page := by
  unfold quarantineDevicePages
  induction pages generalizing t with
  | nil => simp
  | cons first pages ih =>
    rw [foldl_cons]
    have herase := lookup_erase_if t.pageOwners first page
    grind

theorem mem_quarantineDevicePages (owner page : Nat) : page ∈ (t.quarantineDevicePages pages owner).quarantinedPages ↔
      page ∈ t.quarantinedPages ∨ (page ∈ pages ∧ t.pageOwners.lookup page = some owner) := by
  unfold quarantineDevicePages
  induction pages generalizing t with
  | nil => simp
  | cons first pages ih =>
    rw [foldl_cons]
    have herase := lookup_erase_if t.pageOwners first page
    grind

end

namespace Custody

variable {base t : KvTier} {spare : List Nat} {holds : List Hold} {claims : List Claim} {c : Claim}

section

variable (hc : Custody base t spare holds (c :: claims))
include hc

/-- The first claim against the others: a page has one owner. -/
theorem claims_apart : ∀ c' ∈ claims, c'.owner ≠ c.owner := by
  intro c' hc' heq
  exact (nodup_cons.mp hc.pages.owners_nodup).1 (mem_map.mpr ⟨c', hc', heq⟩)

/-- The pages of a claim after it is given up. -/
theorem pages_left {owners : Dict Nat Nat} {quarantined : Finset Nat} (howners : ∀ page, owners.lookup page =
      if page ∈ c.pages ∧ t.pageOwners.lookup page = some c.owner then none else t.pageOwners.lookup page)
    (hquarantined : ∀ page, page ∈ quarantined → page ∈ t.quarantinedPages ∨
      (page ∈ c.pages ∧ t.pageOwners.lookup page = some c.owner)) (hkept : t.quarantinedPages ⊆ quarantined) :
    PageCustody base.quarantinedPages owners t.nextOwner quarantined claims := by
  have hothers := hc.claims_apart
  obtain ⟨howned, hclaimed, hnodup, hfresh, husable, hbase⟩ := hc.pages
  constructor
  · intro c' hc' page hpage
    have hlookup := howned c' (mem_cons_of_mem _ hc') page hpage
    have hne := hothers c' hc'
    grind
  · intro page owner hlookup
    rw [howners] at hlookup
    obtain ⟨c', hc', hsame, hmem⟩ := hclaimed page owner (by grind)
    rcases mem_cons.mp hc' with rfl | hc'
    · grind
    · exact ⟨c', hc', hsame, hmem⟩
  · exact (nodup_cons.mp hnodup).2
  · exact fun c' hc' => hfresh c' (mem_cons_of_mem _ hc')
  · intro page owner hlookup hmem
    have := husable page
    grind
  · exact hbase.trans hkept

theorem releasePages : Custody base (t.releaseDevicePages c.pages c.owner) spare holds claims := by
  rw [releaseDevicePages_eq]
  apply hc.repage
  apply hc.pages_left
  · exact lookup_releaseDevicePages t c.pages c.owner
  · exact fun page hpage => Or.inl hpage
  · exact Finset.Subset.refl _

theorem quarantinePages : Custody base (t.quarantineDevicePages c.pages c.owner) spare holds claims := by
  rw [quarantineDevicePages_eq]
  apply hc.repage
  apply hc.pages_left
  · exact lookup_quarantineDevicePages t c.pages c.owner
  · exact fun page hpage => (mem_quarantineDevicePages t c.pages c.owner page).mp hpage
  · exact fun page hpage => (mem_quarantineDevicePages t c.pages c.owner page).mpr (Or.inl hpage)

end

/-- A new owner claims nothing yet. -/
theorem newOwner (hc : Custody base t spare holds claims) :
    Custody base { t with nextOwner := t.nextOwner + 1 } spare holds (⟨t.nextOwner, []⟩ :: claims) := by
  apply hc.repage
  obtain ⟨howned, hclaimed, hnodup, hfresh, husable, hbase⟩ := hc.pages
  constructor
  · intro c hmem
    rcases mem_cons.mp hmem with rfl | hmem
    · simp
    · exact howned c hmem
  · intro page owner hlookup
    obtain ⟨c, hmem, hpage⟩ := hclaimed page owner hlookup
    exact ⟨c, mem_cons_of_mem _ hmem, hpage⟩
  · rw [map_cons, nodup_cons]
    refine ⟨?_, hnodup⟩
    intro hmem
    obtain ⟨c, hmem, heq⟩ := mem_map.mp hmem
    exact absurd heq (hfresh c hmem).ne
  · intro c hmem
    rcases mem_cons.mp hmem with rfl | hmem
    · exact Nat.lt_succ_self _
    · exact (hfresh c hmem).trans (Nat.lt_succ_self _)
  · exact husable
  · exact hbase

/-- One more page of a claim. -/
theorem claimPage {owner page : Nat} {pages : List Nat} (hc : Custody base t spare holds (⟨owner, pages⟩ :: claims))
    (hfree : t.pageOwners.lookup page = none) (husable : page ∉ t.quarantinedPages) :
    Custody base { t with pageOwners := t.pageOwners.insert page owner } spare holds
      (⟨owner, pages ++ [page]⟩ :: claims) := by
  apply hc.repage
  have hlookup := lookup_insert_if t.pageOwners page
  obtain ⟨howned, hclaimed, hnodup, hfresh, husable', hbase⟩ := hc.pages
  constructor
  · intro c hmem p hp
    rw [hlookup]
    split
    · next heq =>
      subst heq
      rcases mem_cons.mp hmem with rfl | hmem
      · rfl
      · exact absurd ((howned c (mem_cons_of_mem _ hmem) p hp).symm.trans hfree) (Option.some_ne_none _)
    · next hne =>
      rcases mem_cons.mp hmem with rfl | hmem
      · have hp' : p ∈ pages := (mem_append.mp hp).resolve_right (by simpa using hne)
        exact howned _ mem_cons_self p hp'
      · exact howned c (mem_cons_of_mem _ hmem) p hp
  · intro p o hpo
    rw [hlookup] at hpo
    split at hpo
    · next heq =>
      subst heq
      exact ⟨_, mem_cons_self, Option.some.inj hpo, by simp⟩
    · obtain ⟨c, hmem, hsame, hp⟩ := hclaimed p o hpo
      rcases mem_cons.mp hmem with rfl | hmem
      · exact ⟨_, mem_cons_self, hsame, mem_append_left _ hp⟩
      · exact ⟨c, mem_cons_of_mem _ hmem, hsame, hp⟩
  · exact hnodup
  · intro c hmem
    rcases mem_cons.mp hmem with rfl | hmem
    · exact hfresh ⟨owner, pages⟩ mem_cons_self
    · exact hfresh c (mem_cons_of_mem _ hmem)
  · intro p o hpo
    rw [hlookup] at hpo
    split at hpo
    · next heq => exact heq ▸ husable
    · exact husable' p o hpo
  · exact hbase

end Custody

end KvTier

end Kairyu
