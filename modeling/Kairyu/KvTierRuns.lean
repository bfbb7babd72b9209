/-
  Kairyu/KvTierRuns.lean
  ======================
  **Slot and page ownership over whole runs of the KV tier.**

  The holds and claims of a system are those of its active transfers.  Every call keeps
  custody of them, whether it returns or raises; by induction over the calls it holds in
  every reachable state, and the ownership properties are read off it.
-/
import Kairyu.KvTierSpecs

namespace Kairyu

open TransferTerminal

namespace TierSystem

open Effect List KvTier

/-! ### Custody of a system -/

def holds (sys : TierSystem) : List Hold := sys.transfers.flatMap (·.holds)

def claims (sys : TierSystem) : List Claim := sys.transfers.flatMap (·.claims)

/-- Every slot and page of a system is accounted for. -/
structure Kept (base : KvTier) (sys : TierSystem) : Prop where
  custody : Custody base sys.tier [] sys.holds sys.claims
  shaped : ∀ x ∈ sys.transfers, x.Shaped

variable {base : KvTier} {sys sys0 : TierSystem} {i : Nat} {x : TierTransfer}

theorem holds_phase (sys : TierSystem) : ∀ h ∈ sys.holds, h.phase ≠ .reserved := by
  intro h hh
  obtain ⟨x, _, hx⟩ := mem_flatMap.mp hh
  unfold TierTransfer.holds at hx
  split at hx
  · obtain ⟨item, _, rfl⟩ := mem_map.mp hx
    unfold TierTransfer.phase
    split <;> exact PageState.noConfusion
  · exact absurd hx not_mem_nil

/-- The system without its `i`-th transfer. -/
def others (sys : TierSystem) (i : Nat) : List TierTransfer := sys.transfers.eraseIdx i

theorem perm_others (hx : sys.transfers[i]? = some x) : sys.transfers.Perm (x :: sys.others i) := by
  obtain ⟨hi, rfl⟩ := List.getElem?_eq_some_iff.mp hx
  exact (getElem_cons_eraseIdx_perm hi).symm

theorem perm_set (hx : sys.transfers[i]? = some x) (y : TierTransfer) :
    (sys.transfers.set i y).Perm (y :: sys.others i) := by
  obtain ⟨hi, _⟩ := List.getElem?_eq_some_iff.mp hx
  exact set_perm_cons_eraseIdx hi y

/-- Custody of what the transfers other than the `i`-th have. -/
abbrev OthersKept (base : KvTier) (sys : TierSystem) (i : Nat) (t : KvTier) : Prop :=
  Custody base t [] ((sys.others i).flatMap (·.holds)) ((sys.others i).flatMap (·.claims))

/-- Custody with one transfer singled out. -/
theorem Kept.single (hk : Kept base sys) (hx : sys.transfers[i]? = some x) :
    Custody base sys.tier [] (x.holds ++ (sys.others i).flatMap (·.holds))
      (x.claims ++ (sys.others i).flatMap (·.claims)) := by
  have hperm := perm_others hx
  exact (hk.custody.perm (hperm.flatMap_right _)).perm_claims (hperm.flatMap_right _)

variable {direction : TransferDirection} {tier : KvTier}

section

variable (hk : Kept base sys) (hx : sys.transfers[i]? = some x)
include hk hx

/-- A transfer is replaced: custody of what it has now and of the others. -/
theorem Kept.replaced {y : TierTransfer} (hshaped : y.Shaped)
    (hc : Custody base tier [] (y.holds ++ (sys.others i).flatMap (·.holds)) (y.claims ++ (sys.others i).flatMap (·.claims))) :
    Kept base { sys with tier, transfers := sys.transfers.set i y } := by
  have hperm := perm_set hx y
  constructor
  · exact (hc.perm (hperm.flatMap_right _).symm).perm_claims (hperm.flatMap_right _).symm
  · intro z hz
    rcases mem_cons.mp (hperm.mem_iff.mp hz) with rfl | hz
    · exact hshaped
    · exact hk.shaped z (mem_of_mem_eraseIdx hz)

theorem Kept.shaped_at : x.Shaped :=
  hk.shaped x (mem_of_getElem? hx)

end

/-! ### Calls on a transfer -/

theorem transfer_spec (sys : TierSystem) (i : Nat) :
    Checks sys (transfer i) (fun x => sys.transfers[i]? = some x) (fun _ => sys.transfers[i]? = none) := by
  apply checks_get_bind
  split
  · next x hx => exact checks_pure hx
  · next hnone => exact checks_raise hnone

theorem raiseFailure_spec (sys : TierSystem) (x : TierTransfer) :
    Checks sys (raiseFailure x) (fun _ => x.terminal ≠ .finalized → x.terminal = .active)
      (fun _ => x.failure ≠ none ∨ x.terminal ≠ .active) := by
  unfold raiseFailure
  split
  · next hfailure => exact checks_raise (Or.inl (hfailure ▸ Option.some_ne_none _))
  · apply checks_ite
    · intro hended
      apply checks_raise
      right
      rintro hactive
      rcases hended with h | h <;> exact noConfusion (hactive.symm.trans h)
    intro hlive
    apply checks_pure
    cases hterminal : x.terminal with
    | active => exact fun _ => rfl
    | finalized => exact fun hne => absurd rfl hne
    | cancelled => exact absurd (Or.inl hterminal) hlive
    | failed => exact absurd (Or.inr hterminal) hlive

/-- A call on a transfer: it raises, or goes on with one that is active unless finalized. -/
theorem triple_transfer {α : Type} {f : TierTransfer → Unit → Op α} {Q : α → TierSystem → Prop}
    {E : TierFailure → TierSystem → Prop} (hE : ∀ e, E e sys) (h : ∀ x, sys.transfers[i]? = some x →
      (x.terminal ≠ .finalized → x.terminal = .active) → Triple (· = sys) (f x ()) Q E) :
    Triple (· = sys) (transfer i >>= fun x => raiseFailure x >>= f x) Q E := by
  apply triple_check_bind (transfer_spec sys i) fun e _ => hE e
  intro x hx
  apply triple_check_bind (raiseFailure_spec sys x) fun e _ => hE e
  exact fun _ => h x hx

section

variable (hk : Kept base sys)
include hk

section

variable (hx : sys.transfers[i]? = some x)
include hx

/-- A transfer that is no longer active has nothing. -/
theorem Kept.ended {terminal : TransferTerminal} {failure : Option TierError} (hended : terminal ≠ .active)
    (hc : OthersKept base sys i tier) :
    Kept base { sys with tier, transfers := sys.transfers.set i { x with terminal, failure } } := by
  have hshaped := hk.shaped_at hx
  have hsame : ({ x with terminal, failure } : TierTransfer).Shaped :=
    ⟨hshaped.entries, hshaped.previous, hshaped.restores⟩
  apply hk.replaced hx hsame
  have hholds : ({ x with terminal, failure } : TierTransfer).holds = [] := if_neg hended
  have hclaims : ({ x with terminal, failure } : TierTransfer).claims = [] := if_neg hended
  rw [hholds, hclaims]
  exact hc

/-- Whether a copy is known to be complete is no part of custody. -/
theorem Kept.queried (complete : Bool) :
    Kept base { sys with transfers := sys.transfers.set i { x with physicalComplete := complete } } := by
  have hshaped := hk.shaped_at hx
  have hc := hk.single hx
  exact hk.replaced hx ⟨hshaped.entries, hshaped.previous, hshaped.restores⟩ hc

/-- An error of the backend, or of the commit, ends the transfer. -/
theorem failed_spec {α : Type} {settleFailure : KvTier.Op TierError} {P : KvTier → Prop}
    (hsettle : Triple P settleFailure (fun _ => OthersKept base sys i) (fun _ _ => False)) {Q : α → TierSystem → Prop} :
    Triple (fun s => P s.tier ∧ s.transfers = sys.transfers) (failed i x settleFailure) Q (fun _ s => Kept base s) := by
  apply triple_bind (Q := fun _ s => s.transfers = sys.transfers ∧ OthersKept base sys i s.tier)
  · apply triple_zoom
    rintro s ⟨hP, hsame⟩
    exact triple_mono (triple_at hsettle hP) (fun _ _ hc => ⟨hsame, hc⟩) (fun _ _ h => h.elim)
  · intro failure
    apply triple_of_forall
    rintro s ⟨hsame, hc⟩
    apply triple_modify_raise
    rw [hsame]
    exact hk.ended hx noConfusion hc

end

theorem ready_spec (i : Nat) (answer : Option Bool) : Triple (· = sys) (ready i answer)
      (fun _ s => Kept base s ∧ ∀ x, sys.transfers[i]? = some x → x.terminal = .active →
        ∃ y, s.transfers[i]? = some y ∧ y.terminal = .active) (fun _ s => Kept base s) := by
  apply triple_transfer fun _ => hk
  intro x hx hlive
  apply triple_ite
  · intro _
    apply triple_return
    exact ⟨hk, fun y hy hactive => ⟨y, hy, hactive⟩⟩
  intro hrunning
  have hactive := hlive fun h => hrunning (Or.inl h)
  have hshaped := hk.shaped_at hx
  split
  · next complete =>
    apply triple_modify_return
    constructor
    · exact hk.queried hx complete
    · intro y hy hyactive
      obtain ⟨hi, _⟩ := List.getElem?_eq_some_iff.mp hx
      exact ⟨_, List.getElem?_set_self hi, hactive⟩
  · exact triple_at (failed_spec hk hx (KvTier.failTransfer_spec hactive hshaped)) ⟨hk.single hx, rfl⟩

theorem wait_spec (i : Nat) (completes : Bool) :
    Triple (· = sys) (wait i completes) (fun _ s => Kept base s) (fun _ s => Kept base s) := by
  apply triple_transfer fun _ => hk
  intro x hx hlive
  apply triple_ite
  · exact fun _ => triple_pure fun _ h => h ▸ hk
  intro hrunning
  have hactive := hlive fun h => hrunning (Or.inl h)
  have hshaped := hk.shaped_at hx
  apply triple_ite
  · intro _
    apply triple_modify_return
    exact hk.queried hx true
  · intro _
    exact triple_at (failed_spec hk hx (KvTier.failTransfer_spec hactive hshaped)) ⟨hk.single hx, rfl⟩

theorem cancel_spec (i : Nat) (cancels : Bool) :
    Triple (· = sys) (cancel i cancels) (fun _ s => Kept base s) (fun _ s => Kept base s) := by
  apply triple_transfer fun _ => hk
  intro x hx hlive
  apply triple_ite
  · exact fun _ => triple_raise fun _ h => h ▸ hk
  intro hrunning
  have hactive := hlive hrunning
  have hshaped := hk.shaped_at hx
  apply triple_bind (Q := fun _ s => s.transfers = sys.transfers ∧ OthersKept base sys i s.tier)
  · apply triple_zoom
    rintro _ rfl
    exact triple_mono (triple_at (cancelTransfer_spec hactive hshaped cancels) (hk.single hx))
      (fun _ _ hc => ⟨rfl, hc⟩) (fun _ _ h => h.elim)
  intro failure
  apply triple_of_forall
  rintro s ⟨htransfers, hc⟩
  apply triple_ite
  · intro _
    apply triple_modify
    rintro _ rfl
    rw [htransfers]
    exact hk.ended hx noConfusion hc
  · intro _
    apply triple_modify_raise
    rw [htransfers]
    exact hk.ended hx noConfusion hc

theorem finalize_spec (i : Nat) (answer : Option Bool) (actual : Option (Nat → Checksum)) (records : Bool) :
    Triple (· = sys) (finalize i answer actual records) (fun _ s => Kept base s) (fun _ s => Kept base s) := by
  apply triple_transfer fun _ => hk
  intro x hx hlive
  apply triple_ite
  · exact fun _ => triple_pure fun _ h => h ▸ hk
  intro hrunning
  have hstarted := hlive hrunning
  apply triple_bind (ready_spec hk i answer)
  intro complete
  apply triple_of_forall
  rintro s ⟨hks, hstill⟩
  obtain ⟨y, hy, hactive⟩ := hstill x hx hstarted
  apply triple_check_bind (transfer_spec s i) fun _ _ => hks
  intro y' hy'
  obtain rfl : y = y' := Option.some.inj (hy.symm.trans hy')
  have hshaped := hks.shaped_at hy
  apply triple_ite
  · exact fun _ => triple_raise fun _ h => h ▸ hks
  intro _
  -- When the commit raises, its handler settles what it left.
  apply triple_bind (Q := fun _ s' => s'.transfers = s.transfers ∧ OthersKept base s i s'.tier)
  · apply triple_handle (E := fun _ s' => Unfinished base ((s.others i).flatMap (·.holds))
      ((s.others i).flatMap (·.claims)) y s'.tier ∧ s'.transfers = s.transfers)
    · apply triple_zoom
      rintro _ rfl
      exact triple_mono (finalizeTransfer_spec hactive hshaped (hks.single hy) actual records)
        (fun _ _ hc => ⟨rfl, hc⟩) (fun _ _ hu => ⟨hu, rfl⟩)
    · exact fun _ => failed_spec hks hy (failFinalization_spec hactive hshaped)
  intro _
  apply triple_of_forall
  rintro s' ⟨htransfers, hc⟩
  apply triple_modify_return
  rw [htransfers]
  exact hks.ended hy noConfusion hc

end

/-! ### Every call keeps custody -/

section

variable (hk : Kept base sys)
include hk

/-- A call on the tier alone. -/
theorem onTier_spec {α : Type} {m : KvTier.Op α}
    (hm : Triple (· = sys.tier) m (fun _ t => KvTier.Custody base t [] sys.holds sys.claims)
      (fun _ t => KvTier.Custody base t [] sys.holds sys.claims)) :
    Triple (· = sys) (onTier m) (fun _ s => Kept base s) (fun _ s => Kept base s) := by
  apply triple_zoom
  rintro _ rfl
  exact triple_mono hm (fun _ _ hc => ⟨hc, hk.shaped⟩) (fun _ _ hc => ⟨hc, hk.shaped⟩)

/-- The system with a new transfer. -/
theorem Kept.begun (hx : Begun base direction sys.holds sys.claims x tier) :
    Kept base { sys with tier, transfers := sys.transfers ++ [x] } := by
  obtain ⟨_, hshaped, hc⟩ := hx
  have hperm : (x :: sys.transfers).Perm (sys.transfers ++ [x]) := (perm_append_singleton x sys.transfers).symm
  constructor
  · exact (hc.perm (hperm.flatMap_right _)).perm_claims (hperm.flatMap_right _)
  · intro y hy
    rcases mem_append.mp hy with hy | hy
    · exact hk.shaped y hy
    · rwa [mem_singleton.mp hy]

theorem begin_spec {m : KvTier.Op TierTransfer}
    (hm : Triple (· = sys.tier) m (fun x t => KvTier.Begun base direction sys.holds sys.claims x t) (fun _ t => KvTier.Custody base t [] sys.holds sys.claims)) :
    Triple (· = sys) (begin m) (fun _ s => Kept base s) (fun _ s => Kept base s) := by
  apply triple_bind (Q := fun x s => s.transfers = sys.transfers ∧
    KvTier.Begun base direction sys.holds sys.claims x s.tier)
  · apply triple_zoom
    rintro _ rfl
    exact triple_mono hm (fun _ _ hx => ⟨rfl, hx⟩) (fun _ _ hc => ⟨hc, hk.shaped⟩)
  · intro x
    apply triple_modify
    rintro s ⟨htransfers, hx⟩
    rw [htransfers]
    exact hk.begun hx

theorem perform_spec (call : Call) :
    Triple (· = sys) (perform call) (fun _ s => Kept base s) (fun _ s => Kept base s) := by
  have hphase := sys.holds_phase
  cases call with
  | beginOffload keys pages submits =>
    have hoffload := KvTier.beginOffload_spec hk.custody hphase keys pages submits
    apply begin_spec hk (triple_error hoffload ?_)
    rintro _ t (⟨rfl, _⟩ | ⟨_, _, hc⟩)
    · exact hk.custody
    · exact hc
  | beginRestore keys pages expected actual submits =>
    have hrestore := KvTier.beginRestore_spec hk.custody hphase keys pages expected actual submits
    exact begin_spec hk (triple_error hrestore fun _ _ h => h.1)
  | ready i answer =>
    have hready := triple_mono (ready_spec hk i answer) (fun _ _ h => h.1) (fun _ _ h => h)
    exact triple_bind hready fun _ => triple_pure fun _ h => h
  | wait i completes => exact triple_bind (wait_spec hk i completes) fun _ => triple_pure fun _ h => h
  | finalize i answer actual records =>
    exact triple_bind (finalize_spec hk i answer actual records) fun _ => triple_pure fun _ h => h
  | cancel i cancels => exact cancel_spec hk i cancels
  | discard keys =>
    exact triple_bind (onTier_spec hk (KvTier.discard_spec hk.custody hphase keys)) fun _ =>
      triple_pure fun _ h => h
  | availablePrefix keys minPages =>
    exact triple_bind (onTier_spec hk (KvTier.availablePrefix_spec hk.custody keys minPages)) fun _ =>
      triple_pure fun _ h => h

theorem Kept.step (call : Call) : Kept base (sys.step call) := by
  have hrun := perform_spec hk call sys rfl
  unfold TierSystem.step
  split at hrun
  · next heq => rwa [heq]
  · next heq => rwa [heq]

theorem Kept.run (calls : List Call) : Kept base (sys.run calls) := by
  induction calls generalizing sys with
  | nil => exact hk
  | cons call calls ih => exact ih (hk.step call)

end

theorem kept_new (capacityPages numPages : Nat) (fingerprint : String) :
    Kept (KvTier.new capacityPages numPages fingerprint) (new capacityPages numPages fingerprint) := by
  constructor
  · constructor
    case nodup => simpa [new, KvTier.new] using nodup_range
    case free => simp [new, KvTier.new]
    case pages =>
      constructor <;> simp [new, KvTier.new, claims]
    all_goals simp [new, KvTier.new, holds]
  · intro x hx
    exact absurd hx not_mem_nil

/-! ### Ownership -/

/-- Where a host slot can be. -/
inductive SlotPlace where
  | free
  | reserved (i : Nat)
  | published (key : TierKey)
  | quarantined
deriving DecidableEq, Repr

/-- A slot is free, belongs to an entry of the `i`-th transfer while that is active, holds the
    resident page of a key, or is quarantined. -/
def Placed (sys : TierSystem) (slot : Nat) : SlotPlace → Prop
  | .free => slot ∈ sys.tier.freeSlots
  | .reserved i => ∃ x, sys.transfers[i]? = some x ∧ x.terminal = .active ∧ ∃ e ∈ x.entries, sys.tier.slotOf e = slot
  | .published key =>
    ∃ e, sys.tier.published.lookup key = some e ∧ (sys.tier.heap e).state = .resident ∧ sys.tier.slotOf e = slot
  | .quarantined => slot ∈ sys.tier.quarantined

/-- Two transfers have no slot and no device page in common. -/
def Disjoint (t : KvTier) (x y : TierTransfer) : Prop :=
  (∀ e ∈ x.entries, ∀ e' ∈ y.entries, t.slotOf e ≠ t.slotOf e') ∧ ∀ page ∈ x.pageIds, page ∉ y.pageIds

/-- A new transfer has no slot and no device page that was quarantined, and offloads no key that was. -/
def AvoidsQuarantine (before after : KvTier) (x : TierTransfer) : Prop :=
  (∀ e ∈ x.entries, after.slotOf e ∉ before.quarantined) ∧ (∀ page ∈ x.pageIds, page ∉ before.quarantinedPages) ∧
    (x.direction = .offload → ∀ key ∈ x.keys, key ∉ before.quarantinedKeys)

/-- The quarantine of a tier is part of the other's. -/
def QuarantineKept (before after : KvTier) : Prop :=
  before.quarantined ⊆ after.quarantined ∧ before.quarantinedKeys ⊆ after.quarantinedKeys ∧
    before.quarantinedPages ⊆ after.quarantinedPages

theorem mem_holds (hk : Kept base sys) (hx : sys.transfers[i]? = some x) (hactive : x.terminal = .active) {e : EntryId}
    (he : e ∈ x.entries) : ∃ h ∈ sys.holds, h ∈ x.holds ∧ h.entry = e := by
  obtain ⟨h, hh, heq, _⟩ := exists_hold hactive (hk.shaped_at hx) he
  exact ⟨h, mem_flatMap.mpr ⟨x, mem_of_getElem? hx, hh⟩, hh, heq⟩

/-- A hold belongs to an active transfer. -/
theorem exists_transfer {h : Hold} (hh : h ∈ sys.holds) :
    ∃ (i : Nat) (x : TierTransfer), sys.transfers[i]? = some x ∧ x.terminal = .active ∧ h.entry ∈ x.entries := by
  obtain ⟨x, hx, hh⟩ := mem_flatMap.mp hh
  obtain ⟨i, hi⟩ := List.getElem?_of_mem hx
  unfold TierTransfer.holds at hh
  split at hh
  · next hactive =>
    obtain ⟨item, hitem, rfl⟩ := mem_map.mp hh
    exact ⟨i, x, hi, hactive, (of_mem_zip (of_mem_zip hitem).2).1⟩
  · exact absurd hh not_mem_nil

section

variable (hk : Kept base sys) (hx : sys.transfers[i]? = some x)
include hk hx

theorem Kept.disjoint {j : Nat} {y : TierTransfer}
    (hy : sys.transfers[j]? = some y) (hxactive : x.terminal = .active) (hyactive : y.terminal = .active) (hij : i ≠ j) :
    Disjoint sys.tier x y := by
  have hc := hk.single hx
  have hother : y ∈ sys.others i := mem_eraseIdx_iff_getElem?.mpr ⟨j, hij.symm, hy⟩
  constructor
  · intro e he e' he' hslot
    obtain ⟨h, hh, rfl, _⟩ := exists_hold hxactive (hk.shaped_at hx) he
    obtain ⟨h', hh', rfl, _⟩ := exists_hold hyactive (hk.shaped_at hy) he'
    have hrest : h' ∈ (sys.others i).flatMap (·.holds) := mem_flatMap.mpr ⟨y, hother, hh'⟩
    have hkeys := hc.keys
    rw [map_append, nodup_append] at hkeys
    have hne := hkeys.2.2 h.key (mem_map_of_mem hh) h'.key (mem_map_of_mem hrest)
    have hg := hc.granted h (mem_append_left _ hh)
    have hg' := hc.granted h' (mem_append_right _ hrest)
    have hcurrent : sys.tier.slots (sys.tier.slotOf h.entry) = some h'.entry := hslot ▸ hg'.current
    have hsame : h.entry = h'.entry := Option.some.inj (hg.current.symm.trans hcurrent)
    exact hne (hg.key.symm.trans (hsame ▸ hg'.key))
  · intro page hpage hpage'
    rw [x.claims_active hxactive] at hc
    have hrest : ⟨y.owner, y.pageIds⟩ ∈ (sys.others i).flatMap (·.claims) := by
      apply mem_flatMap.mpr
      exact ⟨y, hother, y.claims_active hyactive ▸ mem_singleton_self _⟩
    have hfirst := hc.pages.owned _ mem_cons_self page hpage
    have hsecond := hc.pages.owned _ (mem_cons_of_mem _ hrest) page hpage'
    exact hc.claims_apart _ hrest (Option.some.inj (hsecond.symm.trans hfirst))

/-- The entry of a reserved or published place is the one in the slot. -/
theorem Kept.reserved_slot (hactive : x.terminal = .active)
    {e : EntryId} (he : e ∈ x.entries) :
    sys.tier.slots (sys.tier.slotOf e) = some e ∧ sys.tier.slotOf e ∉ sys.tier.quarantined ∧
      (sys.tier.heap e).state ≠ .resident := by
  obtain ⟨h, hh, _, rfl⟩ := mem_holds hk hx hactive he
  have hg := hk.custody.granted h hh
  exact ⟨hg.current, hg.usable, hg.state ▸ hg.phase⟩

end

/-- A slot is in one place at most: what is in it decides. -/
theorem Kept.placed_unique (hk : Kept base sys) {slot : Nat} {p q : SlotPlace} (hp : sys.Placed slot p)
    (hq : sys.Placed slot q) : p = q := by
  have hfree : sys.Placed slot .free → sys.tier.slots slot = none := fun h =>
    ((hk.custody.free slot).mp (mem_append_left _ h)).2
  have hquar : sys.Placed slot .quarantined → sys.tier.slots slot ≠ none ∧ slot ∈ sys.tier.quarantined := fun h =>
    ⟨hk.custody.quarantined slot h, h⟩
  have hreserved : ∀ i, sys.Placed slot (.reserved i) → ∃ x e, sys.transfers[i]? = some x ∧ x.terminal = .active ∧
      e ∈ x.entries ∧ sys.tier.slots slot = some e ∧ slot ∉ sys.tier.quarantined ∧
        (sys.tier.heap e).state ≠ .resident := by
    rintro i ⟨x, hx, hactive, e, he, rfl⟩
    exact ⟨x, e, hx, hactive, he, hk.reserved_slot hx hactive he⟩
  have hpublished : ∀ key, sys.Placed slot (.published key) → ∃ e, sys.tier.slots slot = some e ∧
      slot ∉ sys.tier.quarantined ∧ (sys.tier.heap e).state = .resident ∧ (sys.tier.heap e).key = key := by
    rintro key ⟨e, hpub, hstate, rfl⟩
    obtain ⟨hkey, hcurrent, husable, _⟩ := hk.custody.published key e hpub
    exact ⟨e, hcurrent, husable, hstate, hkey⟩
  have hsame : ∀ i j, sys.Placed slot (.reserved i) → sys.Placed slot (.reserved j) → i = j := by
    intro i j hi hj
    obtain ⟨x, hx, hxactive, e, he, hslot⟩ := hi
    obtain ⟨y, hy, hyactive, e', he', hslot'⟩ := hj
    by_contra hne
    exact (hk.disjoint hx hy hxactive hyactive hne).1 e he e' he' (hslot.trans hslot'.symm)
  cases p <;> cases q <;> grind

theorem Kept.placed (hk : Kept base sys) {slot : Nat} (hslot : slot < sys.tier.capacityPages) :
    ∃! place, sys.Placed slot place := by
  suffices hsome : ∃ place, sys.Placed slot place by
    obtain ⟨place, hplace⟩ := hsome
    exact ⟨place, hplace, fun other hother => hk.placed_unique hother hplace⟩
  cases hentry : sys.tier.slots slot with
  | none =>
    have hmem := (hk.custody.free slot).mpr ⟨hslot, hentry⟩
    rw [append_nil] at hmem
    exact ⟨.free, hmem⟩
  | some e =>
    have hplaced := (hk.custody.placed slot e hentry).2.1
    by_cases hquar : slot ∈ sys.tier.quarantined
    · exact ⟨.quarantined, hquar⟩
    by_cases hheld : ∃ h ∈ sys.holds, h.entry = e
    · obtain ⟨h, hh, rfl⟩ := hheld
      obtain ⟨i, x, hx, hactive, he⟩ := exists_transfer hh
      exact ⟨.reserved i, x, hx, hactive, h.entry, he, hplaced⟩
    · have hpub := (hk.custody.accounted slot e hentry hquar).resolve_left hheld
      have hresident := (hk.custody.published _ e hpub).2.2.2.resolve_right hheld
      exact ⟨.published (sys.tier.heap e).key, e, hpub, hresident, hplaced⟩

/-- What a begin call hands out was not quarantined. -/
theorem avoids_of_begun {held : List Hold} {claimed : List Claim} (hx : Begun base direction held claimed x tier) :
    AvoidsQuarantine base tier x := by
  obtain ⟨⟨hactive, _, _⟩, hshaped, hc⟩ := hx
  refine ⟨?_, ?_, ?_⟩
  · intro e he hquar
    obtain ⟨h, hh, rfl, _⟩ := exists_hold hactive hshaped he
    exact (hc.granted h (mem_append_left _ hh)).usable (hc.slotsKept hquar)
  · intro page hpage hquar
    rw [x.claims_active hactive] at hc
    have howned := hc.pages.owned _ mem_cons_self page hpage
    exact hc.pages.usable page _ howned (hc.pages.kept hquar)
  · intro hdirection key hkey hquar
    obtain ⟨h, hh, rfl, hphase⟩ := exists_hold_of_key hactive hshaped hkey
    have hne : h.phase ≠ .restoring := by
      rw [hphase, TierTransfer.phase, hdirection]
      exact PageState.noConfusion
    exact (hc.granted h (mem_append_left _ hh)).offloads hne (hc.keysKept hquar)

/-- A call on a transfer that was cancelled or failed raises and changes nothing. -/
theorem late_call {α : Type} (hx : sys.transfers[i]? = some x) (hended : x.terminal = .cancelled ∨ x.terminal = .failed)
    (rest : TierTransfer → Unit → Op α) : ((transfer i >>= fun x => raiseFailure x >>= rest x) sys).2 = sys := by
  have hrun : Triple (· = sys) (transfer i >>= fun x => raiseFailure x >>= rest x) (fun _ s => s = sys)
      (fun _ s => s = sys) := by
    apply triple_transfer (E := fun _ s => s = sys) fun _ => rfl
    intro y hy hlive
    obtain rfl : x = y := Option.some.inj (hx.symm.trans hy)
    rcases hended with h | h <;> simp [h] at hlive
  have hend := hrun sys rfl
  split at hend
  · next heq => rwa [heq]
  · next heq => rwa [heq]

/-- Who owns what in a state of the tier. -/
structure Ownership (sys : TierSystem) : Prop where
  /-- Every slot is in exactly one place, and free once. -/
  placed : sys.tier.freeSlots.Nodup ∧ ∀ slot < sys.tier.capacityPages, ∃! place, sys.Placed slot place
  disjoint : ∀ (i j : Nat) (x y : TierTransfer), i ≠ j → sys.transfers[i]? = some x → sys.transfers[j]? = some y →
    x.terminal = .active → y.terminal = .active → Disjoint sys.tier x y
  /-- Nothing leaves quarantine … -/
  kept : ∀ calls, QuarantineKept sys.tier (sys.run calls).tier
  /-- … and no transfer gets what is in it. -/
  offloads : ∀ keys pages submits x after, beginOffload keys pages submits sys.tier = (.ok x, after) →
    AvoidsQuarantine sys.tier after x
  restores : ∀ keys pages expected actual submits x after,
    beginRestore keys pages expected actual submits sys.tier = (.ok x, after) → AvoidsQuarantine sys.tier after x
  /-- A request that does not fit changes nothing. -/
  capacity : ∀ keys pages submits error after,
    beginOffload keys pages submits sys.tier = (.error (.tier error), after) → error.kind = .capacity →
      after = sys.tier
  /-- A completion that comes too late changes nothing. -/
  late : ∀ (i : Nat) (x : TierTransfer), sys.transfers[i]? = some x → x.terminal = .cancelled ∨ x.terminal = .failed →
    (∀ answer, sys.step (.ready i answer) = sys) ∧ (∀ completes, sys.step (.wait i completes) = sys) ∧
      (∀ answer actual records, sys.step (.finalize i answer actual records) = sys) ∧
        ∀ cancels, sys.step (.cancel i cancels) = sys

theorem Kept.ownership (hk : Kept base sys) : Ownership sys := by
  have hkept : Kept sys.tier sys := ⟨hk.custody.restart, hk.shaped⟩
  have hphase := sys.holds_phase
  constructor
  case placed =>
    refine ⟨?_, fun slot hslot => hk.placed hslot⟩
    simpa using hk.custody.nodup
  case disjoint =>
    intro i j x y hij hx hy hxactive hyactive
    exact hk.disjoint hx hy hxactive hyactive hij
  case kept =>
    intro calls
    have hlater := (hkept.run calls).custody
    exact ⟨hlater.slotsKept, hlater.keysKept, hlater.pages.kept⟩
  case offloads =>
    intro keys pages submits x after heq
    have hrun := beginOffload_spec hkept.custody hphase keys pages submits sys.tier rfl
    rw [heq] at hrun
    exact avoids_of_begun hrun
  case restores =>
    intro keys pages expected actual submits x after heq
    have hrun := beginRestore_spec hkept.custody hphase keys pages expected actual submits sys.tier rfl
    rw [heq] at hrun
    exact avoids_of_begun hrun
  case capacity =>
    intro keys pages submits error after heq hkind
    have hrun := beginOffload_spec hkept.custody hphase keys pages submits sys.tier rfl
    rw [heq] at hrun
    rcases hrun with ⟨rfl, _⟩ | ⟨_, hambiguous, _⟩
    · rfl
    · cases hambiguous
      exact TierErrorClass.noConfusion hkind
  case late =>
    intro i x hx hended
    refine ⟨?_, ?_, ?_, ?_⟩
    · exact fun answer => (Effect.forget_state _ _).trans (late_call hx hended _)
    · exact fun completes => (Effect.forget_state _ _).trans (late_call hx hended _)
    · exact fun answer actual records => (Effect.forget_state _ _).trans (late_call hx hended _)
    · exact fun cancels => late_call hx hended _

/-- **Ownership of slots and pages** in every state that a tier reaches. -/
theorem tier_ownership (capacityPages numPages : Nat) (fingerprint : String) (calls : List Call) :
    Ownership ((new capacityPages numPages fingerprint).run calls) :=
  ((kept_new capacityPages numPages fingerprint).run calls).ownership

/-- A page is offloaded, offloaded again, and the second copy is cancelled. -/
def secondCopyCancelled (key : TierKey) : List Call :=
  [.beginOffload [key] [0] true, .wait 0 true, .finalize 0 none (some fun _ => "first") true,
    .beginOffload [key] [0] true, .cancel 1 true]

/-- The key of the cancelled copy is quarantined, and the older copy is still handed out. -/
theorem quarantined_key_restored : let key := "0000000000000000000000000000000000000000000000000000000000000000"
    let sys := (new 2 2 "layout").run (secondCopyCancelled key)
    key ∈ sys.tier.quarantinedKeys ∧
      (beginRestore [key] [1] none (some fun _ => "first") true sys.tier).1.toOption.map (·.keys) = some [key] := by
  decide +kernel

end TierSystem

end Kairyu
