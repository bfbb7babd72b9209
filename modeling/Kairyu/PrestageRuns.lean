/-
  Kairyu/PrestageRuns.lean
  ========================
  **Ready placements are pinned.**

  Pins change under the pin lock only, and a placement becomes ready only under it, so the holder
  of the lock works on a placement that is not ready.  What it unpins are owners of its own
  deployment and placement, as long as the text of an owner says whose it is; ids with slashes
  can make two placements share their owners.
-/
import Kairyu.Prestage
import Kairyu.Effect

namespace Kairyu

open List PrestageTransitions Option AList NodeModelPrestageExecutor CacheIndex

/-! ### The text of an owner -/

theorem slash_not_mem_writeNatural (n : Nat) : cp '/' ∉ Json.writeNatural n := by
  intro hmem
  rcases Json.writeNatural_valid n with hzero | ⟨hdigits, _⟩
  · rw [hzero] at hmem
    exact absurd hmem (by decide)
  · exact absurd (hdigits.2 _ hmem) (by decide)

theorem cut_slash {c t t' : Text} (ht : cp '/' ∉ t) (h : cp '/' :: t = c ++ cp '/' :: t') : c = [] ∧ t = t' := by
  cases c with
  | nil => exact ⟨rfl, (List.cons.inj h).2⟩
  | cons x c =>
    rw [(List.cons.inj h).2] at ht
    exact (ht (mem_append_right _ mem_cons_self)).elim

/-- A text is cut at its last slash in one way. -/
theorem stem_append_inj {d p d' p' t t' : Text} (ht : cp '/' ∉ t) (ht' : cp '/' ∉ t')
    (h : pinOwnerStem d p ++ t = pinOwnerStem d' p' ++ t') : pinOwnerStem d p = pinOwnerStem d' p' ∧ t = t' := by
  unfold pinOwnerStem at h ⊢
  generalize Text.of "prestage/" ++ d ++ [cp '/'] ++ p = a at h ⊢
  generalize Text.of "prestage/" ++ d' ++ [cp '/'] ++ p' = b at h ⊢
  rw [append_assoc, append_assoc] at h
  rcases append_eq_append_iff.mp h with ⟨c, rfl, hc⟩ | ⟨c, rfl, hc⟩
  · obtain ⟨rfl, rfl⟩ := cut_slash ht hc
    exact ⟨by rw [append_nil], rfl⟩
  · obtain ⟨rfl, rfl⟩ := cut_slash ht' hc
    exact ⟨by rw [append_nil], rfl⟩

theorem prestagePinOwner_inj {d p d' p' : Text} {g g' : Nat} (h : prestagePinOwner d p g = prestagePinOwner d' p' g') :
    pinOwnerStem d p = pinOwnerStem d' p' ∧ g = g' := by
  obtain ⟨hstem, hnumber⟩ := stem_append_inj (slash_not_mem_writeNatural g) (slash_not_mem_writeNatural g') h
  have hvalue := congrArg Json.naturalValue hnumber
  rw [Json.naturalValue_write, Json.naturalValue_write] at hvalue
  exact ⟨hstem, hvalue⟩

/-- A superseded owner is the stem and a text without a slash. -/
theorem DecimalDigits.of_supersedes {digits : DecimalDigits} {stem owner : Text} {generation : Nat}
    (h : digits.supersedes stem generation owner = true) : ∃ t, owner = stem ++ t ∧ cp '/' ∉ t := by
  unfold DecimalDigits.supersedes at h
  rw [Bool.and_eq_true, Bool.and_eq_true, decide_eq_true_eq] at h
  obtain ⟨⟨⟨t, rfl⟩, hdecimal⟩, _⟩ := h
  rw [drop_left] at hdecimal
  refine ⟨t, rfl, fun hmem => ?_⟩
  have hslash := all_eq_true.mp (Bool.and_eq_true_iff.mp hdecimal).2 _ hmem
  rw [digits.slash] at hslash
  cases hslash

/-- The owner is built from the ids of the command, for an ensure command from its generation. -/
def NodeModelPrestageCommand.Owned (c : NodeModelPrestageCommand) : Prop :=
  ∃ g, c.pinOwner = prestagePinOwner c.deploymentId c.placementId g ∧ (c.action = .ensure → g = c.commandGeneration)

/-- The commands of a run: their owners are built by `prestage_pin_owner`, and say whose they are. -/
structure Distinguished (K : NodeModelPrestageCommand → Prop) : Prop where
  owned : ∀ c, K c → c.Owned
  separate : ∀ c c', K c → K c' → c.stem = c'.stem → c.deploymentId = c'.deploymentId ∧ c.placementId = c'.placementId

/-! ### Calls of the index -/

namespace CacheIndex

variable {index index' : CacheIndex} {digest owner reason d o : Text}

theorem pinned_unpin (h : index.unpin digest owner = .ok index') :
    index'.Pinned d o ↔ index.Pinned d o ∧ ¬ (d = digest ∧ o = owner) := by
  unfold unpin at h
  split at h
  · cases h
  split at h
  · cases h
  next entry hlookup =>
  split at h
  · cases h
    unfold Pinned
    rw [lookup_insert_if]
    by_cases hd : d = digest
    · subst hd
      rw [if_pos rfl, hlookup]
      simp only [Option.some.injEq, exists_eq_left', mem_erase]
      tauto
    · rw [if_neg hd]
      simp only [hd, false_and, not_false_eq_true, and_true]
  · next hnone =>
    cases h
    refine ⟨fun hpinned => ⟨hpinned, ?_⟩, fun hpinned => hpinned.1⟩
    rintro ⟨rfl, rfl⟩
    obtain ⟨entry', hlookup', hmem⟩ := hpinned
    cases hlookup.symm.trans hlookup'
    exact hnone (lookup_isSome.mpr hmem)

theorem pinned_pin {entry : CacheEntry} (h : index.pin digest owner reason = .ok (entry, index')) :
    index'.Pinned d o ↔ index.Pinned d o ∨ d = digest ∧ o = owner := by
  unfold pin at h
  split at h
  · cases h
  split at h
  · cases h
  next old hlookup =>
  split at h
  · cases h
  obtain ⟨rfl, rfl⟩ := Prod.mk.inj (Except.ok.inj h)
  unfold Pinned
  rw [lookup_insert_if]
  by_cases hd : d = digest
  · subst hd
    rw [if_pos rfl, hlookup]
    simp only [Option.some.injEq, exists_eq_left', true_and]
    split
    · next hsame =>
      refine ⟨Or.inl, fun hcase => hcase.elim id ?_⟩
      rintro rfl
      exact mem_iff_lookup.mpr ⟨_, hsame⟩
    · rw [mem_insert, or_comm]
  · rw [if_neg hd]
    simp only [hd, false_and, or_false]

theorem pinned_residency {entry : Option CacheEntry}
    (h : (entry.map (·.pins)).getD ∅ = ((index.lookup digest).map (·.pins)).getD ∅) :
    Pinned (entry.elim (index.erase digest) (index.insert digest)) d o ↔ index.Pinned d o := by
  unfold Pinned
  by_cases hd : d = digest
  · subst hd
    have hpins : ∀ row : Option CacheEntry, (∃ e, row = some e ∧ o ∈ e.pins) ↔ o ∈ (row.map (·.pins)).getD ∅ := by
      intro row
      cases row with
      | none => simp only [reduceCtorEq, false_and, exists_false, map_none, getD_none, notMem_empty]
      | some e => simp only [Option.some.injEq, exists_eq_left', map_some, getD_some]
    rw [hpins, hpins, ← h]
    cases entry with
    | none => rw [elim_none, lookup_erase]
    | some e => rw [elim_some, lookup_insert]
  · cases entry with
    | none => rw [elim_none, lookup_erase_ne hd]
    | some e => rw [elim_some, lookup_insert_ne hd]

end CacheIndex

/-! ### Calls of the store -/

namespace PrestageTransitions

variable {existing : Option NodeModelPrestageRecord} {c : NodeModelPrestageCommand} {record : NodeModelPrestageRecord}
  {claimId : Text} {now : Instant}

/-- What a call that does not take the pin lock makes of a placement. -/
structure Moved (existing : Option NodeModelPrestageRecord) (c : NodeModelPrestageCommand)
    (record : NodeModelPrestageRecord) : Prop where
  command : record.command = c
  ready : record.state = .ready → existing = some record
  present : record.state ≠ .absent
  before : ∀ old, existing = some old →
    old.state = .absent ∧ old.command.commandGeneration < c.commandGeneration ∨ old.command = c ∧ old.state ≠ .absent

theorem validateSuccessor_ok {previous : NodeModelPrestageCommand} (h : validateSuccessor previous c = .ok ()) :
    previous.commandGeneration < c.commandGeneration := by
  unfold validateSuccessor at h
  split at h
  · cases h
  · next hlt => exact not_le.mp hlt

theorem moved_filling {attempt : Nat} (h : ∀ old, existing = some old →
    old.state = .absent ∧ old.command.commandGeneration < c.commandGeneration ∨ old.command = c ∧ old.state ≠ .absent) :
    Moved existing c (filling c attempt claimId now) :=
  ⟨rfl, fun hready => (by cases hready), fun habsent => (by cases habsent), h⟩

theorem claim_ok {count limit : Nat} (h : claim existing count limit c claimId now = .ok record) : Moved existing c record := by
  unfold claim at h
  split at h
  · cases h
  split at h
  · cases h
  split at h
  · split at h
    · cases h
    obtain ⟨_, _, h⟩ := Except.of_bind_ok h
    cases h
    exact moved_filling fun _ hold => by cases hold
  next old =>
  split at h
  · unfold reclaim at h
    split at h
    · cases h
    next hsame =>
    have hsame := not_not.mp hsame
    split at h
    · next hstate =>
      cases h
      exact ⟨hsame, fun _ => rfl, by rw [hstate]; decide, by rintro _ ⟨⟩; exact Or.inr ⟨hsame, by rw [hstate]; decide⟩⟩
    · next hstate =>
      split at h
      · cases h
      cases h
      exact ⟨hsame, fun _ => rfl, by rw [hstate]; decide, by rintro _ ⟨⟩; exact Or.inr ⟨hsame, by rw [hstate]; decide⟩⟩
    · cases h
    · next hstate =>
      obtain ⟨_, _, h⟩ := Except.of_bind_ok h
      obtain ⟨_, _, h⟩ := Except.of_bind_ok h
      cases h
      exact moved_filling (by rintro _ ⟨⟩; exact Or.inr ⟨hsame, by rw [hstate]; decide⟩)
  · obtain ⟨_, _, h⟩ := Except.of_bind_ok h
    split at h
    · cases h
    next hstate =>
    obtain ⟨_, hsuccessor, h⟩ := Except.of_bind_ok h
    obtain ⟨_, _, h⟩ := Except.of_bind_ok h
    cases h
    exact moved_filling (by rintro _ ⟨⟩; exact Or.inl ⟨not_not.mp hstate, validateSuccessor_ok hsuccessor⟩)

theorem claimed_ok (h : claimed existing c claimId = .ok record) :
    existing = some record ∧ record.command = c ∧ record.state = .filling := by
  unfold claimed at h
  split at h
  · cases h
  split at h
  · cases h
  next hclaim =>
  cases h
  simp only [not_or, not_not] at hclaim
  exact ⟨rfl, hclaim.1, hclaim.2.1⟩

theorem fail_ok {failure : Text} (h : fail existing c claimId failure now = .ok record) : Moved existing c record := by
  unfold fail at h
  split at h
  · cases h
  obtain ⟨old, hold, h⟩ := Except.of_bind_ok h
  obtain ⟨_, _, h⟩ := Except.of_bind_ok h
  cases h
  obtain ⟨rfl, hsame, hstate⟩ := claimed_ok hold
  exact ⟨rfl, by simp, by simp, by rintro _ ⟨⟩; exact Or.inr ⟨hsame, by rw [hstate]; decide⟩⟩

theorem complete_ok {fill : NodeModelCacheFillResult} {generation : Nat}
    (h : complete existing c claimId fill generation now = .ok record) : record.command = c ∧ record.state = .ready := by
  obtain ⟨_, _, h⟩ := Except.of_bind_ok h
  obtain ⟨_, _, h⟩ := Except.of_bind_ok h
  split at h
  · cases h
  · cases h
    exact ⟨rfl, rfl⟩

theorem release_ok (h : release existing c now = .ok record) : ∃ old, existing = some old ∧ record.command = c ∧
    record.state = .absent ∧ (old.command = c ∨ old.command.commandGeneration < c.commandGeneration ∧
      old.command.releaseIdentity = c.releaseIdentity) := by
  obtain ⟨_, _, h⟩ := Except.of_bind_ok h
  cases existing with
  | none => cases h
  | some old =>
  refine ⟨old, rfl, ?_⟩
  dsimp only at h
  split at h
  · split at h
    · cases h
    next hsame =>
    split at h
    · cases h
    next hstate =>
    cases h
    exact ⟨not_not.mp hsame, not_not.mp hstate, Or.inl (not_not.mp hsame)⟩
  · split at h
    · cases h
    obtain ⟨_, hsuccessor, h⟩ := Except.of_bind_ok h
    split at h
    · cases h
    next hidentity =>
    obtain ⟨_, _, h⟩ := Except.of_bind_ok h
    cases h
    exact ⟨rfl, rfl, Or.inr ⟨validateSuccessor_ok hsuccessor, not_not.mp hidentity⟩⟩

end PrestageTransitions

/-! ### The invariant -/

section

variable {K : NodeModelPrestageCommand → Prop} {s s' : PrestageState} {c : NodeModelPrestageCommand}

/-- The owner has a generation before that of the command. -/
def NodeModelPrestageCommand.Late (c : NodeModelPrestageCommand) : Prop :=
  ∀ g, c.pinOwner = prestagePinOwner c.deploymentId c.placementId g → g < c.commandGeneration

namespace PrestageState

/-- The placement is claimed for the command, and not released. -/
def Current (s : PrestageState) (c : NodeModelPrestageCommand) : Prop :=
  ∃ record, s.records.lookup c.placementId = some record ∧ record.command = c ∧
    record.state ≠ .ready ∧ record.state ≠ .absent

/-- The placement has seen the command. -/
def Seen (s : PrestageState) (c : NodeModelPrestageCommand) : Prop :=
  ∃ record, s.records.lookup c.placementId = some record ∧ c.commandGeneration ≤ record.command.commandGeneration

/-- What is true of the records, the pins and the calls, whoever has the pin lock. -/
structure Kept (K : NodeModelPrestageCommand → Prop) (s : PrestageState) : Prop where
  known : ∀ p record, s.records.lookup p = some record →
    K record.command ∧ record.command.placementId = p ∧ (record.command.action = .release → record.command.Late)
  ready : ∀ p record, s.records.lookup p = some record → record.state = .ready →
    s.index.Pinned record.command.manifestDigest record.command.pinOwner
  pending : ∀ call ∈ s.pending, K call.command ∧ call.command.action = .ensure
  released : ∀ r ∈ s.released, K r ∧ r.Late ∧ s.Seen r ∧ ¬ s.index.Pinned r.manifestDigest r.pinOwner

/-- What the holder of the pin lock knows. -/
def Held (s : PrestageState) : PinSection → Prop
  | .checking c _ _ => c.action = .ensure
  | .superseding c _ _ owners => c.action = .ensure ∧ s.Current c ∧ ∀ o ∈ owners, ∃ t, o = c.stem ++ t ∧ cp '/' ∉ t
  | .completing c _ _ _ => c.action = .ensure ∧ s.Current c ∧ s.index.Pinned c.manifestDigest c.pinOwner
  | .releasing c cached => c.action = .release ∧ (cached = false → ∀ o, ¬ s.index.Pinned c.manifestDigest o)
  | .unpinning c => c.Late ∧ s.Seen c ∧ ∀ record, s.records.lookup c.placementId = some record → record.state ≠ .ready

structure Inv (K : NodeModelPrestageCommand → Prop) (s : PrestageState) : Prop where
  kept : s.Kept K
  held : ∀ h, s.holder = some h → K h.command ∧ s.Held h

variable {record : NodeModelPrestageRecord}

theorem Seen.mono {p : Text} (h : s.Seen c)
    (hmono : ∀ old, s.records.lookup p = some old → old.command.commandGeneration ≤ record.command.commandGeneration) :
    Seen { s with records := s.records.insert p record } c := by
  obtain ⟨old, hlookup, hle⟩ := h
  unfold Seen
  rw [lookup_insert_if]
  by_cases hp : c.placementId = p
  · rw [if_pos hp]
    rw [hp] at hlookup
    exact ⟨record, rfl, hle.trans (hmono old hlookup)⟩
  · rw [if_neg hp]
    exact ⟨old, hlookup, hle⟩

/-- A record is written that is not newly ready. -/
theorem Kept.write {p : Text} (h : s.Kept K) (hK : K record.command) (hp : record.command.placementId = p)
    (hlate : record.command.action = .release → record.command.Late)
    (hready : record.state = .ready → s.index.Pinned record.command.manifestDigest record.command.pinOwner)
    (hmono : ∀ old, s.records.lookup p = some old → old.command.commandGeneration ≤ record.command.commandGeneration) :
    Kept K { s with records := s.records.insert p record } where
  known q record' hlookup := by
    rcases of_lookup_insert hlookup with ⟨hq, rfl⟩ | ⟨_, hlookup⟩
    · exact ⟨hK, hp.trans hq.symm, hlate⟩
    · exact h.known q record' hlookup
  ready q record' hlookup hstate := by
    rcases of_lookup_insert hlookup with ⟨_, rfl⟩ | ⟨_, hlookup⟩
    · exact hready hstate
    · exact h.ready q record' hlookup hstate
  pending := h.pending
  released r hr := by
    obtain ⟨hK, hlate, hseen, hgone⟩ := h.released r hr
    exact ⟨hK, hlate, hseen.mono hmono, hgone⟩

/-- Pins are removed that no ready record and no call needs. -/
theorem Kept.unpin {index : CacheIndex} (h : s.Kept K) (hless : ∀ d o, index.Pinned d o → s.index.Pinned d o)
    (hready : ∀ p record, s.records.lookup p = some record → record.state = .ready →
      index.Pinned record.command.manifestDigest record.command.pinOwner) : Kept K { s with index } where
  known := h.known
  ready := hready
  pending := h.pending
  released r hr := by
    obtain ⟨hK, hlate, hseen, hgone⟩ := h.released r hr
    exact ⟨hK, hlate, hseen, fun hpinned => hgone (hless _ _ hpinned)⟩

/-- A call of another thread moves a placement. -/
theorem Inv.moved (h : s.Inv K) (hK : K c) (haction : c.action = .ensure)
    (hmoved : Moved (s.records.lookup c.placementId) c record) :
    Inv K { s with records := s.records.insert c.placementId record } := by
  obtain ⟨rfl, hready, hpresent, hbefore⟩ := hmoved
  have hmono : ∀ old, s.records.lookup record.command.placementId = some old →
      old.command.commandGeneration ≤ record.command.commandGeneration := by
    intro old hold
    rcases hbefore old hold with ⟨_, hlt⟩ | ⟨hsame, _⟩
    · exact hlt.le
    · rw [hsame]
  have hcurrent : ∀ c', s.Current c' → Current { s with records := s.records.insert record.command.placementId record } c' := by
    rintro c' ⟨old, hlookup, hsame, hstate⟩
    unfold Current
    rw [lookup_insert_if]
    by_cases hp : c'.placementId = record.command.placementId
    · rw [if_pos hp]
      rw [hp] at hlookup
      refine ⟨record, rfl, ?_, ?_, hpresent⟩
      · rcases hbefore old hlookup with ⟨habsent, _⟩ | ⟨heq, _⟩
        · exact (hstate.2 habsent).elim
        · exact heq.symm.trans hsame
      · intro hrecord
        cases hlookup.symm.trans (hready hrecord)
        exact hstate.1 hrecord
    · rw [if_neg hp]
      exact ⟨old, hlookup, hsame, hstate⟩
  refine ⟨h.kept.write hK rfl (fun hrelease => ?_) (fun hstate => h.kept.ready _ record (hready hstate) hstate) hmono, ?_⟩
  · rw [haction] at hrelease
    cases hrelease
  intro held hheld
  obtain ⟨hK', hheld⟩ := h.held held hheld
  refine ⟨hK', ?_⟩
  cases held with
  | checking c' claimId fill => exact hheld
  | superseding c' claimId fill owners => exact ⟨hheld.1, hcurrent c' hheld.2.1, hheld.2.2⟩
  | completing c' claimId fill generation => exact ⟨hheld.1, hcurrent c' hheld.2.1, hheld.2.2⟩
  | releasing c' cached => exact hheld
  | unpinning c' =>
    refine ⟨hheld.1, hheld.2.1.mono hmono, fun record' hlookup hstate => ?_⟩
    rcases of_lookup_insert hlookup with ⟨hp, hrecord⟩ | ⟨_, hlookup⟩
    · rw [hrecord] at hstate
      exact hheld.2.2 record (hp ▸ hready hstate) hstate
    · exact hheld.2.2 record' hlookup hstate

/-! ### Under the pin lock -/

variable {claimId : Text} {fill : NodeModelCacheFillResult} {now : Instant} {fault : Option Fault}

section

variable {α σ : Type} {a : α} {t t' : σ} {result : Except PrestageError (α × σ)}

theorem attempt_some (h : attempt fault t result = (some a, t')) : result = .ok (a, t') := by
  unfold attempt at h
  split at h
  · cases h
    rfl
  · cases h
  · cases h

/-- The state after an attempt is the old one, or that of a call that took effect. -/
theorem attempt_keeps {P : σ → Prop} {outcome : Option α} (h : attempt fault t result = (outcome, t')) (ht : P t)
    (hok : ∀ a t', result = .ok (a, t') → P t') : P t' := by
  unfold attempt at h
  split at h
  · cases h
    exact hok _ _ rfl
  · cases h
    exact hok _ _ rfl
  · cases h
    exact ht

end

variable {owner digest reason : Text}

theorem unpin_ok {a : Unit} (h : s.unpin digest owner = .ok (a, s')) :
    ∃ index, s.index.unpin digest owner = .ok index ∧ s' = { s with index } := by
  unfold PrestageState.unpin at h
  cases hindex : s.index.unpin digest owner with
  | error e =>
    rw [hindex] at h
    cases h
  | ok index =>
    rw [hindex] at h
    cases h
    exact ⟨index, rfl, rfl⟩

theorem pin_ok {entry : CacheEntry} (h : s.pin digest owner reason = .ok (entry, s')) :
    ∃ index, s.index.pin digest owner reason = .ok (entry, index) ∧ s' = { s with index } := by
  unfold PrestageState.pin at h
  cases hindex : s.index.pin digest owner reason with
  | error e =>
    rw [hindex] at h
    cases h
  | ok pinned =>
    rw [hindex] at h
    cases h
    exact ⟨pinned.2, rfl, rfl⟩

variable {record : NodeModelPrestageRecord}

theorem write_ok {placementId : Text} {result : Except PrestageError NodeModelPrestageRecord}
    (h : s.write placementId result = .ok (record, s')) :
    result = .ok record ∧ s' = { s with records := s.records.insert placementId record } := by
  cases result with
  | error e => cases h
  | ok record' =>
    cases h
    exact ⟨rfl, rfl⟩

theorem Kept.idle (h : s.Kept K) : Inv K { s with holder := none } :=
  ⟨⟨h.known, h.ready, h.pending, h.released⟩, fun _ hholder => by cases hholder⟩

theorem Kept.into (h : s.Kept K) (held : PinSection) (hK : K held.command) (hheld : s.Held held) :
    Inv K { s with holder := some held } := by
  refine ⟨⟨h.known, h.ready, h.pending, h.released⟩, fun held' hholder => ?_⟩
  cases hholder
  refine ⟨hK, ?_⟩
  cases held <;> exact hheld

theorem Inv.calls {pending : List PendingExecute} (h : s.Inv K)
    (hpending : ∀ call ∈ pending, K call.command ∧ call.command.action = .ensure) : Inv K { s with pending } :=
  ⟨⟨h.kept.known, h.kept.ready, hpending, h.kept.released⟩, h.held⟩

theorem Kept.calls_cons (h : s.Kept K) {call : PendingExecute} (hcall : K call.command ∧ call.command.action = .ensure) :
    ∀ call' ∈ call :: s.pending, K call'.command ∧ call'.command.action = .ensure :=
  forall_mem_cons.mpr ⟨hcall, h.pending⟩

theorem Kept.raise (h : s.Kept K) (hK : K c) (haction : c.action = .ensure) : Inv K (s.raise c claimId) :=
  h.idle.calls (h.calls_cons ⟨hK, haction⟩)

theorem Kept.finish (h : s.Kept K) (hK : K c) (hlate : c.Late) (hseen : s.Seen c)
    (hgone : ¬ s.index.Pinned c.manifestDigest c.pinOwner) : Inv K (s.finish c) := by
  refine ⟨⟨h.known, h.ready, h.pending, fun r hr => ?_⟩, fun _ hholder => by cases hholder⟩
  rcases mem_cons.mp hr with rfl | hr
  · exact ⟨hK, hlate, hseen, hgone⟩
  · exact h.released r hr

/-- An owner of the holder's placement is removed. -/
theorem Kept.unpin_own (hD : Distinguished K) (h : s.Kept K) (hK : K c)
    (hnot : ∀ record, s.records.lookup c.placementId = some record → record.state ≠ .ready) {t : Text}
    (howner : owner = c.stem ++ t) (ht : cp '/' ∉ t) {a : Unit}
    (hok : s.unpin c.manifestDigest owner = .ok (a, s')) : Kept K s' := by
  obtain ⟨index, hunpin, rfl⟩ := unpin_ok hok
  refine h.unpin (fun d o hpinned => ((pinned_unpin hunpin).mp hpinned).1) fun p record hlookup hstate => ?_
  refine (pinned_unpin hunpin).mpr ⟨h.ready p record hlookup hstate, ?_⟩
  rintro ⟨_, hsame⟩
  obtain ⟨hKrecord, hplacement, _⟩ := h.known p record hlookup
  obtain ⟨g, hbuilt, _⟩ := hD.owned _ hKrecord
  have hstem := (stem_append_inj (slash_not_mem_writeNatural g) ht (hbuilt.symm.trans (hsame.trans howner))).1
  have hids := hD.separate _ _ hKrecord hK hstem
  rw [← hplacement, hids.2] at hlookup
  exact hnot record hlookup hstate

/-- The owner of the holder's command is added. -/
theorem Kept.pin_own (hD : Distinguished K) (h : s.Kept K) (hK : K c) (haction : c.action = .ensure) (hcurrent : s.Current c)
    {entry : CacheEntry} (hok : s.pin c.manifestDigest c.pinOwner reason = .ok (entry, s')) : Kept K s' := by
  obtain ⟨index, hpin, rfl⟩ := pin_ok hok
  refine ⟨h.known, fun p record hlookup hstate => ?_, h.pending, fun r hr => ?_⟩
  · exact (pinned_pin hpin).mpr (Or.inl (h.ready p record hlookup hstate))
  obtain ⟨hKr, hlate, hseen, hgone⟩ := h.released r hr
  refine ⟨hKr, hlate, hseen, fun hpinned => ?_⟩
  rcases (pinned_pin hpin).mp hpinned with hpinned | ⟨_, hsame⟩
  · exact hgone hpinned
  -- the placement has moved on since the release, but the command is the current one
  obtain ⟨g, hbuilt, _⟩ := hD.owned r hKr
  obtain ⟨g', hbuilt', hgeneration⟩ := hD.owned c hK
  obtain ⟨hstem, rfl⟩ := prestagePinOwner_inj (hbuilt.symm.trans (hsame.trans hbuilt'))
  have hids := hD.separate r c hKr hK hstem
  obtain ⟨record, hlookup, hle⟩ := hseen
  obtain ⟨record', hlookup', rfl, _⟩ := hcurrent
  rw [hids.2] at hlookup
  cases hlookup.symm.trans hlookup'
  have hlt := hlate g hbuilt
  rw [hgeneration haction] at hlt
  exact absurd hle (not_le.mpr hlt)

theorem Current.not_ready (h : s.Current c) (record : NodeModelPrestageRecord)
    (hlookup : s.records.lookup c.placementId = some record) : record.state ≠ .ready := by
  obtain ⟨record', hlookup', _, hstate, _⟩ := h
  cases hlookup.symm.trans hlookup'
  exact hstate

/-- A release is accepted. -/
theorem Kept.release (hD : Distinguished K) (h : s.Kept K) (hK : K c)
    (hrelease : release (s.records.lookup c.placementId) c now = .ok record) :
    Kept K { s with records := s.records.insert c.placementId record } ∧ (c.action = .release → c.Late) ∧
      record.command = c ∧ record.state = .absent := by
  obtain ⟨old, hold, rfl, habsent, hcase⟩ := release_ok hrelease
  obtain ⟨hKold, _, hlateold⟩ := h.known _ old hold
  have hlate : record.command.action = .release → record.command.Late := by
    intro haction
    rcases hcase with hsame | ⟨hlt, hidentity⟩
    · rw [hsame] at hlateold
      exact hlateold haction
    · intro g hbuilt
      simp only [NodeModelPrestageCommand.releaseIdentity, List.cons.injEq] at hidentity
      obtain ⟨_, hdeployment, _, hplacement, _, _, _, _, _, _, _, howner, _⟩ := hidentity
      rw [← howner, ← hdeployment, ← hplacement] at hbuilt
      refine lt_of_le_of_lt ?_ hlt
      cases hensure : old.command.action with
      | ensure =>
        obtain ⟨g', hbuilt', hgeneration⟩ := hD.owned _ hKold
        rw [(prestagePinOwner_inj (hbuilt.symm.trans hbuilt')).2, hgeneration hensure]
      | release => exact (hlateold hensure g hbuilt).le
  refine ⟨h.write hK rfl hlate (fun hready => ?_) fun old' hold' => ?_, hlate, rfl, habsent⟩
  · rw [habsent] at hready
    cases hready
  · cases hold.symm.trans hold'
    rcases hcase with hsame | ⟨hlt, _⟩
    · rw [hsame]
    · exact hlt.le

/-- A fill is completed. -/
theorem Kept.complete (h : s.Kept K) (hK : K c) (haction : c.action = .ensure) (hcurrent : s.Current c)
    (hpinned : s.index.Pinned c.manifestDigest c.pinOwner) {generation : Nat} (hok : s.write c.placementId
      (complete (s.records.lookup c.placementId) c claimId fill generation now) = .ok (record, s')) : Kept K s' := by
  obtain ⟨hcomplete, rfl⟩ := write_ok hok
  obtain ⟨rfl, _⟩ := complete_ok hcomplete
  refine h.write hK rfl (fun hrelease => ?_) (fun _ => hpinned) fun old hold => ?_
  · rw [haction] at hrelease
    cases hrelease
  · obtain ⟨old', hold', hsame, _⟩ := hcurrent
    cases hold.symm.trans hold'
    rw [hsame]

theorem Inv.advance (x : NodeModelPrestageExecutor) (hD : Distinguished K) (h : s.Inv K) {held : PinSection}
    (hholder : s.holder = some held) : Inv K (x.advance held now fault s) := by
  obtain ⟨hK, hheld⟩ := h.held held hholder
  have hkept := h.kept
  unfold NodeModelPrestageExecutor.advance
  split
  · next c claimId fill =>
    split
    · next record hclaimed =>
      obtain ⟨hlookup, hsame, hstate⟩ := claimed_ok hclaimed
      refine hkept.into _ hK ⟨hheld, ⟨record, hlookup, hsame, by rw [hstate]; decide, by rw [hstate]; decide⟩, ?_⟩
      intro o ho
      unfold superseded at ho
      split at ho
      · cases ho
      · exact DecimalDigits.of_supersedes (mem_filter.mp ho).2
    · exact hkept.raise hK hheld
  · next c claimId fill owner owners =>
    obtain ⟨haction, hcurrent, howners⟩ := hheld
    obtain ⟨t, howner, ht⟩ := howners owner mem_cons_self
    split
    · next hres =>
      have hok := attempt_some hres
      have hunpinned := hkept.unpin_own hD hK hcurrent.not_ready howner ht hok
      obtain ⟨index, _, rfl⟩ := unpin_ok hok
      exact hunpinned.into (.superseding c claimId fill owners) hK
        ⟨haction, hcurrent, fun o ho => howners o (mem_cons_of_mem _ ho)⟩
    · next hres =>
      exact (attempt_keeps hres hkept fun _ _ => hkept.unpin_own hD hK hcurrent.not_ready howner ht).raise hK haction
  · next c claimId fill =>
    obtain ⟨haction, hcurrent, _⟩ := hheld
    split
    · next hres =>
      have hok := attempt_some hres
      have hkept' := hkept.pin_own hD hK haction hcurrent hok
      obtain ⟨index, hpin, rfl⟩ := pin_ok hok
      split
      · exact hkept'.into (.completing c claimId fill _) hK
          ⟨haction, hcurrent, (pinned_pin hpin).mpr (Or.inr ⟨rfl, rfl⟩)⟩
      · exact hkept'.raise hK haction
    · next hres => exact (attempt_keeps hres hkept fun _ _ => hkept.pin_own hD hK haction hcurrent).raise hK haction
  · next c claimId fill generation =>
    obtain ⟨haction, hcurrent, hpinned⟩ := hheld
    split
    · next hres => exact (attempt_keeps hres hkept fun _ _ => hkept.complete hK haction hcurrent hpinned).idle
    · next hres =>
      exact (attempt_keeps hres hkept fun _ _ => hkept.complete hK haction hcurrent hpinned).raise hK haction
  · next c cached =>
    obtain ⟨haction, huncached⟩ := hheld
    split
    · next record _ hres =>
      obtain ⟨hrelease, rfl⟩ := write_ok (attempt_some hres)
      obtain ⟨hwritten, hlate, rfl, habsent⟩ := hkept.release hD hK hrelease
      have hseen : Seen { s with records := s.records.insert record.command.placementId record } record.command :=
        ⟨record, lookup_insert _, le_rfl⟩
      split
      · refine hwritten.into (.unpinning record.command) hK ⟨hlate haction, hseen, fun record' hlookup => ?_⟩
        cases (lookup_insert s.records).symm.trans hlookup
        rw [habsent]
        decide
      · next hcached => exact hwritten.finish hK (hlate haction) hseen (huncached (Bool.not_eq_true _ ▸ hcached) _)
    · next hres =>
      refine (attempt_keeps hres hkept fun record s' hok => ?_).idle
      obtain ⟨hrelease, rfl⟩ := write_ok hok
      exact (hkept.release hD hK hrelease).1
  · next c =>
    obtain ⟨hlate, hseen, hnot⟩ := hheld
    obtain ⟨g, hbuilt, _⟩ := hD.owned c hK
    have hown {a : Unit} {s' : PrestageState} : s.unpin c.manifestDigest c.pinOwner = .ok (a, s') → Kept K s' :=
      hkept.unpin_own hD hK hnot hbuilt (slash_not_mem_writeNatural g)
    split
    · next hres =>
      have hok := attempt_some hres
      have hunpinned := hown hok
      obtain ⟨index, hunpin, rfl⟩ := unpin_ok hok
      exact hunpinned.finish hK hlate hseen fun hpinned => ((pinned_unpin hunpin).mp hpinned).2 ⟨rfl, rfl⟩
    · next hres => exact (attempt_keeps hres hkept fun _ _ => hown).idle

variable {x : NodeModelPrestageExecutor} {event : PrestageEvent}

theorem Inv.step (hD : Distinguished K) (h : s.Inv K) (hevent : ∀ c, event.command = some c → K c)
    (hstep : x.step event s = some s') : Inv K s' := by
  unfold NodeModelPrestageExecutor.step at hstep
  cases event with
  | execute c claimId request now fault =>
    have hK := hevent c rfl
    dsimp only at hstep
    split at hstep
    · cases hstep
      exact h
    next hvalid =>
    simp only [not_or, not_not] at hvalid
    have haction := hvalid.2.1
    split at hstep
    · next hres =>
      obtain ⟨hclaim, rfl⟩ := write_ok (attempt_some hres)
      have hmoved := h.moved hK haction (claim_ok hclaim)
      split at hstep
      · cases hstep
        exact hmoved
      · cases hstep
        exact hmoved.calls (h.kept.calls_cons ⟨hK, haction⟩)
    · next hres =>
      cases hstep
      refine attempt_keeps hres h fun record s1 hok => ?_
      obtain ⟨hclaim, rfl⟩ := write_ok hok
      exact h.moved hK haction (claim_ok hclaim)
  | fill i result =>
    dsimp only at hstep
    split at hstep
    · next c claimId hpending =>
      cases hstep
      have hcall := h.kept.pending _ (mem_of_getElem? hpending)
      refine h.calls fun call hmem => ?_
      rcases mem_or_eq_of_mem_set hmem with hmem | rfl
      · exact h.kept.pending call hmem
      · unfold filled
        split
        · split <;> exact hcall
        · exact hcall
    · cases hstep
  | enter i =>
    dsimp only at hstep
    split at hstep
    · next c claimId fill hpending _ =>
      cases hstep
      have hcall := h.kept.pending _ (mem_of_getElem? hpending)
      have hinv : Inv K { s with pending := s.pending.eraseIdx i } :=
        h.calls fun call hmem => h.kept.pending call (mem_of_mem_eraseIdx hmem)
      exact hinv.kept.into (.checking c claimId fill) hcall.1 hcall.2
    · cases hstep
  | release c =>
    dsimp only at hstep
    split at hstep
    · cases hstep
      exact h
    next hvalid =>
    simp only [not_or, not_not] at hvalid
    split at hstep
    · cases hstep
      refine h.kept.into _ (hevent c rfl) ⟨hvalid.2.1, fun hnone o => ?_⟩
      rintro ⟨entry, hlookup, _⟩
      rw [hlookup] at hnone
      cases hnone
    · cases hstep
  | advance now fault =>
    obtain ⟨held, hholder, rfl⟩ := map_eq_some_iff.mp hstep
    exact h.advance x hD hholder
  | fail i failure now fault =>
    dsimp only at hstep
    split at hstep
    · next c claimId hpending =>
      cases hstep
      obtain ⟨hK, haction⟩ := h.kept.pending _ (mem_of_getElem? hpending)
      refine Inv.calls (attempt_keeps rfl h fun record s1 hok => ?_) fun call hmem =>
        h.kept.pending call (mem_of_mem_eraseIdx hmem)
      obtain ⟨hfail, rfl⟩ := write_ok hok
      exact h.moved hK haction (fail_ok hfail)
    · cases hstep
  | residency digest entry =>
    dsimp only at hstep
    split at hstep
    · cases hstep
    next hpins =>
    cases hstep
    have hsame : ∀ d o, Pinned (entry.elim (s.index.erase digest) (s.index.insert digest)) d o ↔ s.index.Pinned d o :=
      fun d o => pinned_residency (not_not.mp hpins)
    refine ⟨⟨h.kept.known, fun p record hlookup hstate => (hsame _ _).mpr (h.kept.ready p record hlookup hstate),
      h.kept.pending, fun r hr => ?_⟩, fun held hholder => ?_⟩
    · obtain ⟨hK, hlate, hseen, hgone⟩ := h.kept.released r hr
      exact ⟨hK, hlate, hseen, fun hpinned => hgone ((hsame _ _).mp hpinned)⟩
    · obtain ⟨hK, hheld⟩ := h.held held hholder
      refine ⟨hK, ?_⟩
      cases held with
      | checking c claimId fill => exact hheld
      | superseding c claimId fill owners => exact hheld
      | completing c claimId fill generation => exact ⟨hheld.1, hheld.2.1, (hsame _ _).mpr hheld.2.2⟩
      | releasing c cached => exact ⟨hheld.1, fun hcached o hpinned => hheld.2 hcached o ((hsame _ _).mp hpinned)⟩
      | unpinning c => exact hheld

theorem Inv.run (hD : Distinguished K) (events : List PrestageEvent) : ∀ {s s' : PrestageState}, s.Inv K →
    (∀ event ∈ events, ∀ c, event.command = some c → K c) → x.run events s = some s' → Inv K s' := by
  induction events with
  | nil =>
    intro s s' h _ hrun
    cases hrun
    exact h
  | cons event events ih =>
    intro s s' h hevents hrun
    obtain ⟨s1, hstep, hrest⟩ := bind_eq_some_iff.mp hrun
    exact ih (h.step hD (hevents event mem_cons_self) hstep) (fun e he => hevents e (mem_cons_of_mem _ he)) hrest

theorem inv_initial (index : CacheIndex) : Inv K { index } := by
  refine ⟨⟨?_, ?_, ?_, ?_⟩, ?_⟩
  · exact fun _ _ h => by cases h
  · exact fun _ _ h => by cases h
  · exact fun _ h => absurd h not_mem_nil
  · exact fun _ h => absurd h not_mem_nil
  · exact fun _ h => by cases h

theorem index_attempt_write {placementId : Text} {result : Except PrestageError NodeModelPrestageRecord}
    {outcome : Option NodeModelPrestageRecord} (h : attempt fault s (s.write placementId result) = (outcome, s')) :
    s'.index = s.index := by
  refine attempt_keeps (P := fun s' : PrestageState => s'.index = s.index) h rfl fun record s1 hok => ?_
  rw [(write_ok hok).2]

variable {d o owner digest : Text}

theorem of_attempt_unpin {outcome : Option Unit} (h : attempt fault s (s.unpin d o) = (outcome, s'))
    (hpinned : s.index.Pinned digest owner) (hgone : ¬ s'.index.Pinned digest owner) : owner = o := by
  by_contra hne
  refine hgone (attempt_keeps (P := fun s' : PrestageState => s'.index.Pinned digest owner) h hpinned fun a s1 hok => ?_)
  obtain ⟨index, hunpin, rfl⟩ := unpin_ok hok
  exact (pinned_unpin hunpin).mpr ⟨hpinned, fun hsame => hne hsame.2⟩

theorem pinned_attempt_pin {reason : Text} {outcome : Option CacheEntry}
    (h : attempt fault s (s.pin d o reason) = (outcome, s')) (hpinned : s.index.Pinned digest owner) :
    s'.index.Pinned digest owner := by
  refine attempt_keeps (P := fun s' : PrestageState => s'.index.Pinned digest owner) h hpinned fun entry s1 hok => ?_
  obtain ⟨index, hpin, rfl⟩ := pin_ok hok
  exact (pinned_pin hpin).mpr (Or.inl hpinned)

/-- What the holder of the pin lock removes begins with its stem. -/
theorem Inv.advance_removed (hD : Distinguished K) (h : s.Inv K) {held : PinSection} (hholder : s.holder = some held)
    (hpinned : s.index.Pinned digest owner)
    (hgone : ¬ (x.advance held now fault s).index.Pinned digest owner) : ∃ t, owner = held.command.stem ++ t ∧ cp '/' ∉ t := by
  obtain ⟨hK, hheld⟩ := h.held held hholder
  unfold NodeModelPrestageExecutor.advance at hgone
  split at hgone
  · split at hgone <;> exact (hgone hpinned).elim
  · obtain rfl : owner = _ := by
      split at hgone
      · next hres => exact of_attempt_unpin hres hpinned hgone
      · next hres => exact of_attempt_unpin hres hpinned hgone
    exact hheld.2.2 _ mem_cons_self
  · refine (hgone ?_).elim
    split
    · next hres =>
      have hpinned' := pinned_attempt_pin hres hpinned
      split <;> exact hpinned'
    · next hres =>
      have hpinned' := pinned_attempt_pin hres hpinned
      exact hpinned'
  · refine (hgone ?_).elim
    split
    · next hres => exact (index_attempt_write hres).symm ▸ hpinned
    · next hres => exact (index_attempt_write hres).symm ▸ hpinned
  · refine (hgone ?_).elim
    split
    · next hres => split <;> exact (index_attempt_write hres).symm ▸ hpinned
    · next hres => exact (index_attempt_write hres).symm ▸ hpinned
  · next c =>
    obtain rfl : owner = c.pinOwner := by
      split at hgone
      · next hres => exact of_attempt_unpin hres hpinned hgone
      · next hres => exact of_attempt_unpin hres hpinned hgone
    obtain ⟨g, hbuilt, _⟩ := hD.owned c hK
    exact ⟨_, hbuilt, slash_not_mem_writeNatural g⟩

/-- Only the holder of the pin lock removes a pin, and only one of its own placement. -/
theorem Inv.removed (hD : Distinguished K) (h : s.Inv K) (hstep : x.step event s = some s')
    (hpinned : s.index.Pinned digest owner) (hgone : ¬ s'.index.Pinned digest owner) :
    ∃ held, s.holder = some held ∧ ∀ c', K c' → ∀ g, owner = prestagePinOwner c'.deploymentId c'.placementId g →
      held.command.deploymentId = c'.deploymentId ∧ held.command.placementId = c'.placementId := by
  have hadvance : ∃ now fault held, s.holder = some held ∧ s' = x.advance held now fault s := by
    by_contra hnone
    refine hgone ?_
    unfold NodeModelPrestageExecutor.step at hstep
    cases event with
    | advance now fault =>
      obtain ⟨held, hholder, rfl⟩ := map_eq_some_iff.mp hstep
      exact (hnone ⟨now, fault, held, hholder, rfl⟩).elim
    | execute c claimId request now fault =>
      dsimp only at hstep
      split at hstep
      · cases hstep
        exact hpinned
      split at hstep
      · next hres =>
        rw [← index_attempt_write hres] at hpinned
        split at hstep <;> cases hstep
        · exact hpinned
        · exact hpinned
      · next hres =>
        cases hstep
        rw [index_attempt_write hres]
        exact hpinned
    | fail i failure now fault =>
      dsimp only at hstep
      split at hstep
      · cases hstep
        exact (index_attempt_write rfl).symm ▸ hpinned
      · cases hstep
    | residency digest entry =>
      dsimp only at hstep
      split at hstep
      · cases hstep
      next hpins =>
      cases hstep
      exact (pinned_residency (not_not.mp hpins)).mpr hpinned
    | fill i result =>
      dsimp only at hstep
      split at hstep <;> cases hstep
      exact hpinned
    | enter i =>
      dsimp only at hstep
      split at hstep <;> cases hstep
      exact hpinned
    | release c =>
      dsimp only at hstep
      split at hstep
      · cases hstep
        exact hpinned
      · split at hstep <;> cases hstep
        exact hpinned
  obtain ⟨now, fault, held, hholder, rfl⟩ := hadvance
  obtain ⟨t, howner, ht⟩ := h.advance_removed hD hholder hpinned hgone
  refine ⟨held, hholder, fun c' hK' g howner' => hD.separate _ c' (h.held held hholder).1 hK' ?_⟩
  exact (stem_append_inj ht (slash_not_mem_writeNatural g) (howner.symm.trans howner')).1

end PrestageState

end

/-! ### The main result -/

namespace NodeModelPrestageExecutor

/-- The commands of a run. -/
def commands (events : List PrestageEvent) : List NodeModelPrestageCommand := events.filterMap (·.command)

/-- As long as the owners of two deployments or placements do not begin alike, a ready placement is
    pinned, a released owner stays unpinned, and a call removes pins of its own placement only. -/
theorem ready_pinned (x : NodeModelPrestageExecutor) (index : CacheIndex) (events : List PrestageEvent) (s : PrestageState)
    (howned : ∀ c ∈ commands events, c.Owned)
    (hseparate : ∀ c ∈ commands events, ∀ c' ∈ commands events, c.stem = c'.stem →
      c.deploymentId = c'.deploymentId ∧ c.placementId = c'.placementId) (hrun : x.run events { index } = some s) :
    (∀ p record, s.records.lookup p = some record → record.state = .ready →
      s.index.Pinned record.command.manifestDigest record.command.pinOwner) ∧
    (∀ r ∈ s.released, ¬ s.index.Pinned r.manifestDigest r.pinOwner) ∧
    ∀ event s', x.step event s = some s' → ∀ digest owner, s.index.Pinned digest owner → ¬ s'.index.Pinned digest owner →
      ∃ held, s.holder = some held ∧ ∀ c ∈ commands events, ∀ g, owner = prestagePinOwner c.deploymentId c.placementId g →
        held.command.deploymentId = c.deploymentId ∧ held.command.placementId = c.placementId := by
  have hD : Distinguished (· ∈ commands events) := ⟨howned, fun c c' hc hc' => hseparate c hc c' hc'⟩
  have hinv := (PrestageState.inv_initial index).run hD events
    (fun event hevent c hc => mem_filterMap.mpr ⟨event, hevent, hc⟩) hrun
  refine ⟨hinv.kept.ready, fun r hr => (hinv.kept.released r hr).2.2.2, ?_⟩
  exact fun event s' hstep digest owner hpinned hgone => hinv.removed hD hstep hpinned hgone

/-- A command for an artifact on a node. -/
def command (action : PrestageAction) (deployment placement : String) (generation pinned : Nat) : NodeModelPrestageCommand where
  action
  commandId := List.replicate 63 (cp 'c') ++ Json.writeNatural generation
  commandGeneration := generation
  decisionId := Text.of "decision"
  decisionFingerprint := List.replicate 64 (cp 'f')
  targetId := Text.of "target"
  targetRevision := 1
  deploymentId := Text.of deployment
  placementBindingId := Text.of "binding"
  snapshotId := Text.of "snapshot"
  cacheRevision := 1
  placementId := Text.of placement
  nodeId := Text.of "node"
  resourceFlavor := Text.of "flavor"
  profileId := Text.of "profile"
  compatibilityApprovalId := Text.of "approval"
  modelId := Text.of "model"
  modelRevision := Text.of "revision"
  manifestDigest := List.replicate 64 (cp 'd')
  pinOwner := prestagePinOwner (Text.of deployment) (Text.of placement) pinned
  authority := { electionId := Text.of "election", holderId := Text.of "holder", fencingToken := 1, validatedAt := 0, leaseUntil := 9 }
  issuedAt := 0
  expiresAt := 9

/-- An `execute` that succeeds, with a number of calls under the pin lock. -/
def executed (deployment placement : String) (generation calls : Nat) : List PrestageEvent :=
  let c := command .ensure deployment placement generation generation
  [.execute c (List.replicate 64 (cp 'a')) ⟨c.deploymentId, c.manifestDigest, c.modelId, c.modelRevision, c.profileId⟩ 1 none,
    .fill 0 (some ⟨c.deploymentId, c.manifestDigest, Text.of "/tree"⟩), .enter 0] ++ List.replicate calls (.advance 1 none)

/-- An index with the artifact. -/
def cached : CacheIndex :=
  (∅ : CacheIndex).insert (List.replicate 64 (cp 'd')) { modelId := Text.of "model", modelRevision := Text.of "revision", artifactPath := Text.of "/tree", verified := true, generation := 1, pins := ∅ }

def asciiDigits : DecimalDigits where
  value c := if Json.isDigit c = true then some (c.val - 48) else none
  ascii c h := if_pos h
  slash := by decide

def node : NodeModelPrestageExecutor := { nodeId := Text.of "node", maxPlacements := 8, digits := asciiDigits }

/-- The state of a placement, its command and the pins of the artifact, after a run. -/
def outcome (events : List PrestageEvent) (placement : String) :
    Option (Option (NodeModelPrestageCommand × ModelCachePlacementState) × Option (List Text)) :=
  (node.run events { index := cached }).map fun s =>
    ((s.records.lookup (Text.of placement)).map fun record => (record.command, record.state),
      (s.index.lookup (List.replicate 64 (cp 'd'))).map fun entry => entry.pins.keys)

/-- Two placements, of which one is released. -/
def released : List PrestageEvent :=
  executed "a" "b" 1 3 ++ executed "a" "c" 3 3 ++ .release (command .release "a" "b" 2 1) :: List.replicate 2 (.advance 1 none)

theorem ready_pinned_released : outcome released "c" = some (some (command .ensure "a" "c" 3 3, .ready),
      some [(command .ensure "a" "c" 3 3).pinOwner]) ∧ ∀ s, node.run released { index := cached } = some s →
      (∀ p record, s.records.lookup p = some record → record.state = .ready →
        s.index.Pinned record.command.manifestDigest record.command.pinOwner) ∧
      (∀ r ∈ s.released, ¬ s.index.Pinned r.manifestDigest r.pinOwner) := by
  refine ⟨by decide +kernel, fun s hrun => ?_⟩
  have hcommands : commands released =
      [command .ensure "a" "b" 1 1, command .ensure "a" "c" 3 3, command .release "a" "b" 2 1] := by decide +kernel
  have howned : ∀ c ∈ commands released, c.Owned := by
    rw [hcommands]
    simp only [forall_mem_cons, not_mem_nil, false_imp_iff, implies_true, and_true]
    exact ⟨⟨1, rfl, fun _ => rfl⟩, ⟨3, rfl, fun _ => rfl⟩, ⟨1, rfl, fun h => by cases h⟩⟩
  have hpinned := ready_pinned node cached released s howned (by decide +kernel) hrun
  exact ⟨hpinned.1, hpinned.2.1⟩

/-- The owner of placement `b/c` of deployment `a` supersedes that of placement `c` of deployment `a/b`. -/
theorem shared_owner_unpinned : ∃ s record,
    node.run (executed "a/b" "c" 1 3 ++ executed "a" "b/c" 2 2) { index := cached } = some s ∧
    s.records.lookup (Text.of "c") = some record ∧ record.state = .ready ∧
    ¬ s.index.Pinned record.command.manifestDigest record.command.pinOwner := by
  have houtcome : outcome (executed "a/b" "c" 1 3 ++ executed "a" "b/c" 2 2) "c" =
      some (some (command .ensure "a/b" "c" 1 1, .ready), some []) := by decide +kernel
  obtain ⟨s, hrun, hs⟩ := map_eq_some_iff.mp houtcome
  obtain ⟨hrecord, hpins⟩ := Prod.mk.inj hs
  obtain ⟨record, hlookup, hpair⟩ := map_eq_some_iff.mp hrecord
  obtain ⟨hcommand, hstate⟩ := Prod.mk.inj hpair
  refine ⟨s, record, hrun, hlookup, hstate, ?_⟩
  rintro ⟨entry, hentry, hmem⟩
  rw [hcommand] at hentry
  obtain ⟨entry', hentry', hkeys⟩ := map_eq_some_iff.mp hpins
  cases hentry.symm.trans hentry'
  have hnone : record.command.pinOwner ∈ entry.pins.keys := hmem
  rw [hkeys] at hnone
  exact absurd hnone not_mem_nil

end NodeModelPrestageExecutor

end Kairyu
