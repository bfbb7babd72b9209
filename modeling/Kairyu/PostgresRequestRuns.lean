/-
  Kairyu/PostgresRequestRuns.lean
  ===============================
  **How often the durable store hands out one request.**

  As long as retention leaves the `reclaim` rows of requests that are not over, the audit
  counts every lease that was lost and the bound of the in-memory store holds.  Retention
  that deletes such a row makes the store forget a lost lease.
-/
import Kairyu.PostgresRequests
import Kairyu.AsyncRequestClaims

namespace Kairyu

open List AList RequestEvent

open RequestEvent (issued deferred)
open RequestEvent (isIssue isDefer)

namespace PgStore

open Effect
open RequestStore (silent telling telling_nil toldClaim)

/-! ### The count of one request -/

/-- The attempts of a request, the leases its audit says it lost, and its history. -/
structure Tally (maximum : Nat) (r : AsyncRequest) (reclaims : Nat) (history : List RequestEvent) : Prop where
  attempt : r.attempt = history.countP isIssue
  total : r.attempt ≤ maximum + history.countP isDefer
  ongoing : r.state.terminal = false →
    r.attempt + (if r.state = .queued then 1 else 0) ≤ 1 + history.countP isDefer + reclaims ∧
      reclaims + 1 ≤ maximum

section

variable {maximum n : Nat} {r r' : AsyncRequest} {history : List RequestEvent}

section

variable (h : Tally maximum r n history)
include h

theorem Tally.over (hattempt : r'.attempt = r.attempt) (hover : r'.state.terminal = true)
    (m : Nat) : Tally maximum r' m history where
  attempt := hattempt.trans h.attempt
  total := hattempt.le.trans h.total
  ongoing hopen := Bool.noConfusion (hover.symm.trans hopen)

/-- A request that a worker keeps. -/
theorem Tally.kept (hattempt : r'.attempt = r.attempt) (hheld : r.state.held = true)
    (hheld' : r'.state.held = true) : Tally maximum r' n history where
  attempt := hattempt.trans h.attempt
  total := hattempt.le.trans h.total
  ongoing _ := by
    obtain ⟨hle, hpos⟩ := h.ongoing (AsyncRequestState.terminal_of_held hheld)
    have hnot : r'.state ≠ .queued := fun hq => by rw [hq] at hheld'; cases hheld'
    rw [if_neg hnot, hattempt]
    exact ⟨(Nat.le_add_right _ _).trans hle, hpos⟩

theorem Tally.issue {m : Nat} (hattempt : r'.attempt = r.attempt + 1) (hclaimed : r'.state = .claimed)
    (hle : r.attempt ≤ history.countP isDefer + m) (hm : m + 1 ≤ maximum) (worker : Text) (token : Nat) :
    Tally maximum r' m (issued worker token :: history) := by
  have hissues : (issued worker token :: history).countP isIssue = history.countP isIssue + 1 :=
    countP_cons_of_pos rfl
  have hdefers : (issued worker token :: history).countP isDefer = history.countP isDefer :=
    countP_cons_of_neg Bool.false_ne_true
  have hattempt' := h.attempt
  refine ⟨by rw [hissues]; omega, by rw [hdefers]; omega, fun _ => ?_⟩
  rw [if_neg (fun hq => by rw [hclaimed] at hq; cases hq)]
  omega

theorem Tally.claim (hqueued : r.state = .queued) (hattempt : r'.attempt = r.attempt + 1)
    (hclaimed : r'.state = .claimed) (worker : Text) (token : Nat) :
    Tally maximum r' n (issued worker token :: history) := by
  obtain ⟨hle, hpos⟩ := h.ongoing (by rw [hqueued]; rfl)
  rw [if_pos hqueued] at hle
  exact h.issue hattempt hclaimed (by omega) hpos worker token

theorem Tally.reclaim (hheld : r.state.held = true) (hbound : n + 1 < maximum)
    (hattempt : r'.attempt = r.attempt + 1) (hclaimed : r'.state = .claimed) (worker : Text) (token : Nat) :
    Tally maximum r' (n + 1) (issued worker token :: history) := by
  obtain ⟨hle, _⟩ := h.ongoing (AsyncRequestState.terminal_of_held hheld)
  exact h.issue hattempt hclaimed (by omega) hbound worker token

theorem Tally.defer (hheld : r.state.held = true) (hattempt : r'.attempt = r.attempt)
    (hqueued : r'.state = .queued) : Tally maximum r' n (deferred :: history) := by
  have hissues : (deferred :: history).countP isIssue = history.countP isIssue :=
    countP_cons_of_neg Bool.false_ne_true
  have hdefers : (deferred :: history).countP isDefer = history.countP isDefer + 1 :=
    countP_cons_of_pos rfl
  obtain ⟨hle, hpos⟩ := h.ongoing (AsyncRequestState.terminal_of_held hheld)
  refine ⟨by rw [hattempt]; exact h.attempt, by rw [hdefers]; omega, fun _ => ?_⟩
  rw [if_pos hqueued]
  omega

end

theorem Tally.new (hattempt : r.attempt = 0) (hpos : 1 ≤ maximum) : Tally maximum r 0 [] := by
  refine ⟨hattempt, by omega, fun _ => ⟨?_, by omega⟩⟩
  split <;> omega

end

/-! ### The tables -/

/-- The tables agree with the histories of the requests. -/
structure Kept (s : PgStore) (history : Text → List RequestEvent) : Prop where
  positive : 1 ≤ s.maxLeaseExpirations
  keyed : ∀ id row, s.requests.lookup id = some row → row.request.id = id
  tally : ∀ id row, s.requests.lookup id = some row →
    Tally s.maxLeaseExpirations row.request (s.reclaims id) (history id)
  absent : ∀ id, s.requests.lookup id = none → s.reclaims id = 0 ∧ history id = []
  sequences : (s.audit.map AuditRow.sequence).Nodup
  next : ∀ row ∈ s.audit, row.sequence < s.nextSequence

def Sound (s : PgStore) : Prop := ∃ history, s.Kept history

/-- From one store to another, with what the caller is told. -/
structure Leads (s s' : PgStore) (told : Text → List RequestEvent) : Prop where
  maximum : s'.maxLeaseExpirations = s.maxLeaseExpirations
  kept : ∀ history, s.Kept history → s'.Kept fun id => told id ++ history id

open Leads

variable {s s' s'' : PgStore} {told : Text → List RequestEvent}

theorem Leads.refl (s : PgStore) : Leads s s silent := ⟨rfl, fun _ h => h⟩

theorem Leads.trans (h : Leads s s' silent) (h' : Leads s' s'' told) : Leads s s'' told :=
  ⟨h'.maximum.trans h.maximum, fun history hk => h'.kept history (h.kept history hk)⟩

theorem Leads.sound (h : Leads s s' told) (hs : Sound s) : Sound s' := by
  obtain ⟨history, hk⟩ := hs
  exact ⟨_, h.kept history hk⟩

theorem reclaims_record (s : PgStore) (id : Text) (event : AuditEvent) (at' : Instant) (other : Text) :
    (s.record id event at').reclaims other = s.reclaims other + if id = other ∧ event = .reclaim then 1 else 0 := by
  unfold reclaims record
  rw [countP_append, countP_singleton]
  simp only [decide_eq_true_eq]

variable {history : Text → List RequestEvent} {event : AuditEvent}

/-- The sequence numbers of the audit are new. -/
theorem Kept.record_fresh (hk : s.Kept history) (id : Text) (event : AuditEvent) (at' : Instant) :
    ((s.record id event at').audit.map AuditRow.sequence).Nodup ∧
      ∀ row ∈ (s.record id event at').audit, row.sequence < (s.record id event at').nextSequence := by
  constructor
  · unfold PgStore.record
    rw [map_append, nodup_append]
    refine ⟨hk.sequences, nodup_singleton _, ?_⟩
    intro a ha b hb heq
    obtain ⟨row, hrow, rfl⟩ := mem_map.mp ha
    have hlt := hk.next row hrow
    rw [heq, mem_singleton.mp hb] at hlt
    exact Nat.lt_irrefl _ hlt
  · intro row hrow
    rcases mem_append.mp hrow with hrow | hrow
    · exact (hk.next row hrow).trans (Nat.lt_succ_self _)
    · obtain rfl := mem_singleton.mp hrow
      exact Nat.lt_succ_self _

variable {id : Text}

theorem Kept.record (hk : s.Kept history) (hevent : event ≠ .reclaim) (at' : Instant) :
    (s.record id event at').Kept history where
  positive := hk.positive
  keyed := hk.keyed
  tally := by
    intro other row hrow
    rw [reclaims_record, if_neg fun h => hevent h.2]
    exact hk.tally other row hrow
  absent := by
    intro other hnone
    rw [reclaims_record, if_neg fun h => hevent h.2]
    exact hk.absent other hnone
  sequences := (hk.record_fresh id event at').1
  next := (hk.record_fresh id event at').2

/-- The cooldown of the owners is not counted. -/
theorem Kept.cool (hk : s.Kept history) (deferrals : Dict Text Instant) : { s with deferrals }.Kept history :=
  ⟨hk.positive, hk.keyed, hk.tally, hk.absent, hk.sequences, hk.next⟩

/-- The row is in the table, under its own id. -/
def Stores (s : PgStore) (row : PgRequest) : Prop := s.requests.lookup row.request.id = some row

/-- One row is rewritten. -/
theorem leads_write {row row' : PgRequest} (at' : Instant) {events : List RequestEvent}
    (hrow : s.Stores row) (hid : row'.request.id = row.request.id)
    (htally : ∀ history, Tally s.maxLeaseExpirations row.request (s.reclaims row.request.id) history →
      Tally s.maxLeaseExpirations row'.request (s.reclaims row.request.id + if event = .reclaim then 1 else 0)
        (events ++ history)) : Leads s (s.write row' event at') (telling row.request.id events) where
  maximum := rfl
  kept := by
    intro history hk
    have hreclaims : ∀ other, (s.write row' event at').reclaims other =
        s.reclaims other + if row.request.id = other ∧ event = .reclaim then 1 else 0 := by
      intro other
      rw [← hid]
      exact reclaims_record _ _ _ _ _
    have hlookup : ∀ other, (s.write row' event at').requests.lookup other =
        if other = row.request.id then some row' else s.requests.lookup other := by
      intro other
      rw [← hid]
      exact lookup_insert_if _ _ _ _
    have hmore := hk.record_fresh row'.request.id event at'
    refine ⟨hk.positive, ?_, ?_, ?_, hmore.1, hmore.2⟩
    · intro other r hr
      rw [hlookup] at hr
      split at hr
      · next heq =>
        cases hr
        exact hid.trans heq.symm
      · exact hk.keyed other r hr
    · intro other r hr
      rw [hlookup] at hr
      split at hr
      · next heq =>
        subst heq
        cases hr
        unfold telling
        rw [Function.update_self, hreclaims, show (if row.request.id = row.request.id ∧ event = .reclaim then 1 else 0) =
          (if event = .reclaim then 1 else 0) by simp only [true_and]]
        exact htally _ (hk.tally _ row hrow)
      · next hne =>
        unfold telling
        rw [Function.update_of_ne hne, hreclaims, if_neg fun h => hne h.1.symm]
        exact hk.tally other r hr
    · intro other hnone
      rw [hlookup] at hnone
      split at hnone
      · cases hnone
      · next hne =>
        unfold telling
        rw [Function.update_of_ne hne, hreclaims, if_neg fun h => hne h.1.symm]
        exact hk.absent other hnone

/-- A request comes to its end. -/
theorem leads_over {row row' : PgRequest} (at' : Instant) (hrow : s.Stores row)
    (hid : row'.request.id = row.request.id) (hattempt : row'.request.attempt = row.request.attempt)
    (hover : row'.request.state.terminal = true) : Leads s (s.write row' event at') silent := by
  rw [← telling_nil row.request.id]
  exact leads_write at' hrow hid fun history h => h.over hattempt hover _

/-! ### Transactions -/

/-- What holds once a program inside a transaction returns; what raises is rolled back. -/
abbrev Ensures {α : Type} (s : PgStore) (m : Op α) (Q : α → PgStore → Prop) : Prop :=
  Triple (fun tx => tx.store = s) m (fun a tx => Q a tx.store) (fun _ _ => True)

abbrev Spec {α : Type} (s : PgStore) (m : Op α) (told : α → Text → List RequestEvent) : Prop :=
  Ensures s m fun a s' => Leads s s' (told a)

section

variable {α β : Type} {m : Op α} {f : α → Op β} {Q : α → PgStore → Prop} {R : β → PgStore → Prop}
  {tell : β → Text → List RequestEvent}

theorem ensures_pure {a : α} (h : Q a s) : Ensures s (pure a : Op α) Q := by
  apply triple_pure
  rintro tx rfl
  exact h

theorem ensures_raise {e : StoreError} : Ensures s (Effect.raise e : Op α) Q := triple_raise fun _ _ => trivial

theorem ensures_ite {c : Prop} [Decidable c] {m' : Op α} (h : c → Ensures s m Q) (h' : ¬ c → Ensures s m' Q) :
    Ensures s (if c then m else m') Q := triple_ite h h'

theorem ensures_guard {c : Prop} [Decidable c] {e : StoreError} (h : ¬ c → Ensures s m Q) :
    Ensures s (if c then Effect.raise e else m) Q := ensures_ite (fun _ => ensures_raise) h

theorem ensures_weaken {Q' : α → PgStore → Prop} (h : Ensures s m Q) (hQ : ∀ a s', Q a s' → Q' a s') : Ensures s m Q' :=
  triple_mono h (fun a tx => hQ a tx.store) (fun _ _ h => h)

theorem ensures_bind (hm : Ensures s m Q) (hf : ∀ a s', Q a s' → Ensures s' (f a) R) : Ensures s (m >>= f) R := by
  apply triple_bind hm
  intro a tx hQ
  exact hf a tx.store hQ tx rfl

theorem ensures_clock_bind {clock : Clock} {f : Instant → Op β} (hf : ∀ now, Ensures s (f now) R) :
    Ensures s (clockTimestamp clock >>= f) R := by
  apply ensures_bind (Q := fun _ s' => s' = s)
  · exact fun _ htx => htx
  · rintro now _ rfl
    exact hf now

theorem ensures_store_bind {f : PgStore → Op β} (hf : Ensures s (f s) R) : Ensures s (store >>= f) R := by
  apply ensures_bind (Q := fun a s' => a = s ∧ s' = s)
  · exact fun _ htx => ⟨htx, htx⟩
  · rintro _ _ ⟨rfl, rfl⟩
    exact hf

/-- The last change of a transaction. -/
theorem ensures_update {g : PgStore → PgStore} {b : β} (hg : R b (g s)) : Ensures s (do update g; return b) R := by
  intro tx htx
  show R b (g tx.store)
  rw [htx]
  exact hg

/-- What comes after a program that tells nothing. -/
theorem spec_bind (hm : Ensures s m fun a s' => Leads s s' silent ∧ Q a s')
    (hf : ∀ a s', Leads s s' silent → Q a s' → Spec s' (f a) tell) : Spec s (m >>= f) tell := by
  apply ensures_bind hm
  intro a s' hlead
  exact ensures_weaken (hf a s' hlead.1 hlead.2) fun _ _ h => hlead.1.trans h

theorem spec_silent_bind (hm : Spec s m fun _ => silent) (hf : ∀ a s', Leads s s' silent → Spec s' (f a) tell) :
    Spec s (m >>= f) tell :=
  spec_bind (ensures_weaken hm fun _ _ h => ⟨h, trivial⟩) fun a s' h _ => hf a s' h

end

/-! ### Expiry and submission -/

variable {history : Text → List RequestEvent} {row : PgRequest} {batchSize : Nat}

theorem expireLocked_spec (hrow : s.Stores row) (now : Instant) :
    Spec s (expireLocked now row) (fun _ => silent) := by
  apply ensures_ite
  · exact fun _ => ensures_update (leads_over now hrow rfl rfl rfl)
  · exact fun _ => ensures_pure (refl _)

theorem Sound.keyed (hs : Sound s) (hrow : s.requests.lookup id = some row) : s.Stores row := by
  obtain ⟨_, hk⟩ := hs
  unfold Stores
  rw [hk.keyed id row hrow]
  exact hrow

theorem expireRequestById_spec (hs : Sound s) (clock : Clock) (requestId : Text) :
    Spec s (expireRequestById clock requestId) (fun _ => silent) := by
  apply ensures_clock_bind
  intro now
  apply ensures_store_bind
  split
  · exact ensures_raise
  · next row hrow => exact expireLocked_spec (hs.keyed hrow) now

theorem mem_records (hs : Sound s) (h : row ∈ s.records) : s.Stores row := by
  obtain ⟨⟨id, row'⟩, hmem, rfl⟩ := mem_map.mp h
  exact hs.keyed (mem_entries_iff.mp hmem)

theorem nodup_records (hs : Sound s) : (s.records.map fun row => row.request.id).Nodup := by
  obtain ⟨_, hk⟩ := hs
  have hkeys : s.records.map (fun row => row.request.id) = s.requests.entries.map Sigma.fst := by
    unfold records
    rw [map_map]
    apply map_congr_left
    rintro ⟨id, row⟩ hmem
    exact hk.keyed id row (mem_entries_iff.mp hmem)
  rw [hkeys]
  exact s.requests.nodupKeys

/-- The sweep expires distinct rows, so each is still as it was selected. -/
theorem expireEach_spec (now : Instant) (rows : List PgRequest) : ∀ {s : PgStore},
    (rows.map fun row => row.request.id).Nodup → (∀ row ∈ rows, s.Stores row) →
    Spec s (Effect.each (fun row => do let _ ← expireLocked now row) rows) (fun _ => silent) := by
  induction rows with
  | nil => exact fun _ _ => ensures_pure (refl _)
  | cons row rows ih =>
    intro s hnodup hrows
    obtain ⟨hrow, hrest⟩ := forall_mem_cons.mp hrows
    obtain ⟨hnot, hnodup⟩ := nodup_cons.mp hnodup
    have hne : ∀ row' ∈ rows, row'.request.id ≠ row.request.id := fun row' hrow' heq =>
      hnot (mem_map.mpr ⟨row', hrow', heq⟩)
    apply spec_bind (Q := fun _ s' => ∀ row' ∈ rows, s'.Stores row')
    · apply ensures_bind (Q := fun _ s' => Leads s s' silent ∧
        ∀ row' ∈ rows, s'.Stores row')
      · apply ensures_ite
        · intro _
          apply ensures_update
          refine ⟨leads_over now hrow rfl rfl rfl, fun row' hrow' => ?_⟩
          show (s.requests.insert row.request.id _).lookup row'.request.id = some row'
          rw [lookup_insert_ne (hne row' hrow')]
          exact hrest row' hrow'
        · exact fun _ => ensures_pure ⟨refl _, hrest⟩
      · exact fun _ _ h => ensures_pure h
    · exact fun _ s' _ h => ih hnodup h

theorem sweepExpired_spec (hs : Sound s) (clock : Clock) : Spec s (sweepExpired clock) (fun _ => silent) := by
  apply ensures_clock_bind
  intro seen
  apply ensures_clock_bind
  intro now
  apply ensures_store_bind
  have hsub : ∀ rows : List PgRequest, ∀ row ∈ (rows.filter fun row => overdue seen row.request), row ∈ rows :=
    fun rows row h => (mem_filter.mp h).1
  apply expireEach_spec
  · apply List.Nodup.sublist (List.Sublist.map _ (take_sublist _ _))
    apply (List.Perm.nodup_iff ((perm_insertionSort _ _).map _)).mpr
    exact (nodup_records hs).sublist (List.Sublist.map _ filter_sublist)
  · intro row hrow
    have hmem := (mem_insertionSort _).mp (mem_of_mem_take hrow)
    exact mem_records hs (hsub _ row hmem)

theorem leads_insert (hnew : id ∉ s.requests) (hid : row.request.id = id)
    (hattempt : row.request.attempt = 0) : Leads s { s with requests := s.requests.insert id row } silent where
  maximum := rfl
  kept := by
    intro history hk
    have hnone : s.requests.lookup id = none := lookup_eq_none.mpr hnew
    obtain ⟨hzero, hempty⟩ := hk.absent id hnone
    refine ⟨hk.positive, ?_, ?_, ?_, hk.sequences, hk.next⟩
    · intro other r hr
      rcases of_lookup_insert hr with ⟨heq, rfl⟩ | ⟨_, hr⟩
      · exact hid.trans heq.symm
      · exact hk.keyed other r hr
    · intro other r hr
      rcases of_lookup_insert hr with ⟨rfl, rfl⟩ | ⟨_, hr⟩
      · show Tally _ _ (s.reclaims other) (history other)
        rw [hzero, hempty]
        exact Tally.new hattempt hk.positive
      · exact hk.tally other r hr
    · intro other hother
      rw [lookup_insert_if] at hother
      split at hother
      · cases hother
      · exact hk.absent other hother

theorem submitOnce_spec (hs : Sound s) (submission : AsyncRequestSubmission) (id : Text) (clock : Clock) :
    Spec s (submitOnce submission id clock) (fun _ => silent) := by
  apply ensures_clock_bind
  intro now
  apply ensures_store_bind
  split
  · next row hreplay =>
    apply ensures_clock_bind
    intro now
    obtain ⟨key, _, hfind⟩ := Option.bind_eq_some_iff.mp hreplay
    apply spec_silent_bind (expireLocked_spec (mem_records hs (mem_of_find?_eq_some hfind)) now)
    exact fun _ _ _ => ensures_pure (refl _)
  · apply ensures_guard
    intro _
    apply ensures_guard
    intro hnew
    apply spec_silent_bind
    · have hinsert : ∀ row : PgRequest, row.request.id = id → row.request.attempt = 0 →
          Leads s { s with requests := s.requests.insert id row } silent := fun row => leads_insert hnew
      apply spec_silent_bind
      · intro tx htx
        show Leads s { tx.store with requests := tx.store.requests.insert _ _ } silent
        rw [htx]
        exact hinsert _ rfl rfl
      · intro _ s' _
        apply ensures_ite
        · intro _
          apply ensures_clock_bind
          intro recordedAt
          exact ensures_update ⟨rfl, fun _ hk => hk.record (fun h => AuditEvent.noConfusion h) recordedAt⟩
        · exact fun _ => ensures_pure (refl _)
    · exact fun _ _ _ => ensures_pure (refl _)

/-! ### Claiming -/

/-- A held row that is not failed has lost its lease seldom enough. -/
theorem abandoned_spec (hrow : s.Stores row) (clock : Clock) :
    Ensures s (abandoned clock row) fun failed s' => Leads s s' silent ∧ (failed = false →
      s' = s ∧ (row.request.state.held = true → s.reclaims row.request.id + 1 < s.maxLeaseExpirations)) := by
  apply ensures_ite
  · intro _
    apply ensures_store_bind
    apply ensures_ite
    · exact fun hlt => ensures_pure ⟨refl _, fun _ => ⟨rfl, fun _ => hlt⟩⟩
    · intro _
      apply ensures_clock_bind
      intro now
      apply ensures_guard
      intro _
      apply ensures_update
      exact ⟨leads_over now hrow rfl rfl rfl, fun h => Bool.noConfusion h⟩
  · exact fun hheld => ensures_pure ⟨refl _, fun _ => ⟨rfl, fun h => absurd h hheld⟩⟩

theorem claimable_state {now : Instant} (h : s.claimable now row = true) :
    row.request.state = .queued ∨ row.request.state.held = true := by
  unfold claimable at h
  rw [Bool.and_eq_true, Bool.or_eq_true, decide_eq_true_eq] at h
  exact h.2.imp_right fun hheld => (Bool.and_eq_true _ _ ▸ hheld).1

theorem claimRow_spec (hrow : s.Stores row)
    (hbound : row.request.state.held = true → s.reclaims row.request.id + 1 < s.maxLeaseExpirations) (workerId : Text)
    (leaseSeconds : ℚ) (clock : Clock) : Spec s (claimRow workerId leaseSeconds clock row) toldClaim := by
  apply ensures_clock_bind
  intro claimedAt
  apply ensures_clock_bind
  intro now
  apply ensures_store_bind
  apply ensures_ite (fun _ => ensures_pure (Leads.refl _))
  intro hclaimable
  apply ensures_guard
  intro _
  apply ensures_update
  refine leads_write claimedAt hrow rfl fun history h => ?_
  rcases claimable_state (Bool.eq_true_of_not_eq_false hclaimable) with hqueued | hheld
  · rw [if_pos hqueued]
    exact h.claim hqueued rfl rfl workerId _
  · have hnot : row.request.state ≠ .queued := fun hq => by rw [hq] at hheld; cases hheld
    rw [if_neg hnot]
    exact h.reclaim hheld (hbound hheld) rfl rfl workerId _

theorem claimLoop_spec (workerId : Text) (leaseSeconds : ℚ) (clock : Clock) (fuel : Nat) : ∀ {s : PgStore}, Sound s →
    Spec s (claimLoop workerId leaseSeconds clock fuel) toldClaim := by
  induction fuel with
  | zero => exact fun _ => ensures_raise
  | succ fuel ih =>
    intro s hs
    apply ensures_clock_bind
    intro now
    apply ensures_store_bind
    split
    · exact ensures_pure (refl _)
    · next row hargmin =>
      have hrow := mem_records hs (mem_filter.mp (argmin_mem hargmin)).1
      apply spec_bind (abandoned_spec hrow clock)
      intro failed s' hlead hgo
      apply ensures_ite
      · exact fun _ => ih (hlead.sound hs)
      · intro hfalse
        obtain ⟨rfl, hbound⟩ := hgo (Bool.eq_false_iff.mpr hfalse)
        apply ensures_bind (claimRow_spec hrow hbound workerId leaseSeconds clock)
        intro claim s1 hclaim
        cases claim with
        | some claim => exact ensures_pure hclaim
        | none =>
          have hs1 := hclaim.sound hs
          refine ensures_weaken (spec_silent_bind (expireRequestById_spec hs1 clock _) ?_) fun _ _ h => hclaim.trans h
          exact fun _ _ hlead => ih (hlead.sound hs1)

/-! ### Writing through a claim -/

/-- What a write finds: the row that its claim holds, or a request that expired. -/
def Loaded (s : PgStore) (claim : RequestClaim) (loaded : Option (PgRequest × Instant)) (s' : PgStore) : Prop :=
  match loaded with
  | none => Leads s s' silent
  | some (row, _) => s' = s ∧ s.requests.lookup row.request.id = some row ∧ row.request.id = claim.requestId ∧
      row.request.state.held = true

variable {tell : Option AsyncRequest → Text → List RequestEvent}

/-- A write goes on with the row that its claim holds. -/
theorem throughClaim_spec (hs : Sound s) (clock : Clock) (claim : RequestClaim) {rest : PgRequest → Instant → Written}
    (hnone : tell none = silent) (hrest : ∀ row now, s.Stores row → row.request.id = claim.requestId →
      row.request.state.held = true → Spec s (rest row now) tell) : Spec s (throughClaim clock claim rest) tell := by
  apply ensures_bind (Q := s.Loaded claim)
  · apply ensures_clock_bind
    intro now
    apply ensures_store_bind
    split
    · exact ensures_raise
    · next row hrow =>
      have hid : row.request.id = claim.requestId := by
        obtain ⟨_, hk⟩ := hs
        exact hk.keyed _ row hrow
      have hrow := hs.keyed hrow
      apply ensures_ite
      · intro _
        exact ensures_bind (expireLocked_spec hrow now) fun _ _ h => ensures_pure h
      · intro _
        apply ensures_ite (fun _ => ensures_pure (Leads.refl _))
        intro _
        apply ensures_guard
        intro hvalid
        push Not at hvalid
        exact ensures_pure ⟨rfl, hrow, hid, Bool.eq_true_of_not_eq_false hvalid.1⟩
  · rintro (_ | ⟨row, now⟩) s' h
    · apply ensures_pure
      rw [hnone]
      exact h
    · obtain ⟨rfl, hrow, hid, hheld⟩ := h
      exact hrest row now hrow hid hheld

theorem lateExpiry_spec (hs : Sound s) (clock : Clock) (claim : RequestClaim) (hnone : tell none = silent) :
    Spec s (lateExpiry clock claim) tell := by
  apply spec_silent_bind (expireRequestById_spec hs clock _)
  intro _ _ _
  apply ensures_pure
  rw [hnone]
  exact refl _

theorem renewOnce_spec (hs : Sound s) (claim : RequestClaim) (leaseSeconds : ℚ) (clock : Clock) :
    Spec s (renewOnce claim leaseSeconds clock) (fun _ => silent) := by
  apply throughClaim_spec hs clock claim rfl
  intro row _ hrow _ hheld
  apply ensures_clock_bind
  intro now
  apply ensures_ite (fun _ => lateExpiry_spec hs clock claim rfl)
  intro _
  apply ensures_guard
  intro _
  apply ensures_update
  rw [← telling_nil row.request.id]
  exact leads_write now hrow rfl fun history h => h.kept rfl hheld hheld

theorem markRunningOnce_spec (hs : Sound s) (claim : RequestClaim) (clock : Clock) :
    Spec s (markRunningOnce claim clock) (fun _ => silent) := by
  apply throughClaim_spec hs clock claim rfl
  intro row _ hrow _ hheld
  apply ensures_guard
  intro _
  apply ensures_clock_bind
  intro now
  apply ensures_ite (fun _ => lateExpiry_spec hs clock claim rfl)
  intro _
  apply ensures_update
  rw [← telling_nil row.request.id]
  exact leads_write now hrow rfl fun history h => h.kept rfl hheld rfl

/-- A deferral that was stored. -/
def toldDeferral (claim : RequestClaim) (stored : Bool) : Text → List RequestEvent :=
  if stored = true then telling claim.requestId [deferred] else silent

theorem deferOnce_spec (hs : Sound s) (claim : RequestClaim) (delaySeconds : ℚ) (clock : Clock) :
    Spec s (deferOnce claim delaySeconds clock) (fun stored => toldDeferral claim stored.isSome) := by
  apply throughClaim_spec hs clock claim rfl
  intro row now hrow hid hheld
  -- cooling the owner down changes no row
  have hcool : ∀ owner notBefore, Leads s (s.coolDown owner notBefore) silent := fun _ _ => ⟨rfl, fun _ hk => hk.cool _⟩
  apply ensures_bind (Q := fun _ s' => Leads s s' silent ∧ s'.requests = s.requests)
  · intro tx htx
    show Leads s (if _ then _ else _) silent ∧ (if _ then _ else _ : PgStore).requests = s.requests
    rw [htx]
    split
    · exact ⟨hcool _ _, rfl⟩
    · exact ⟨refl _, rfl⟩
  · rintro _ s' ⟨hlead, hrequests⟩
    apply ensures_update
    apply hlead.trans
    show Leads s' _ (telling claim.requestId [deferred])
    rw [← hid]
    rw [Stores, ← hrequests] at hrow
    exact leads_write now hrow rfl fun history h => h.defer hheld rfl rfl

theorem finishOnce_spec (hs : Sound s) (claim : RequestClaim) {state : AsyncRequestState} (hover : state.terminal = true)
    (result : Option JsonFields) (error : Option AsyncRequestError) (clock : Clock) :
    Spec s (finishOnce claim state result error clock) (fun _ => silent) := by
  apply throughClaim_spec hs clock claim rfl
  intro row now hrow _ _
  apply ensures_guard
  intro _
  split
  · exact ensures_raise
  · apply ensures_clock_bind
    intro now
    apply ensures_ite (fun _ => lateExpiry_spec hs clock claim rfl)
    intro _
    exact ensures_update (leads_over now hrow rfl rfl hover)

theorem cancelOnce_spec (hs : Sound s) (requestId : Text) (owner : Option Text) (clock : Clock) :
    Spec s (cancelOnce requestId owner clock) (fun _ => silent) := by
  apply ensures_clock_bind
  intro now
  apply ensures_store_bind
  split
  · exact ensures_raise
  · next row hrow =>
    have hrow := hs.keyed hrow
    apply ensures_guard
    intro _
    apply ensures_ite (fun _ => expireLocked_spec hrow now)
    intro _
    apply ensures_ite (fun _ => ensures_pure (Leads.refl _))
    intro _
    exact ensures_update (leads_over now hrow rfl rfl rfl)

/-! ### Retention -/

/-- The request is stored and not over. -/
def Open (s : PgStore) (id : Text) : Prop := ∃ row, s.requests.lookup id = some row ∧ row.request.state.terminal = false

/-- Audit rows are deleted, but none that counts a lost lease of a request that is not over. -/
theorem Kept.thin (hk : s.Kept history) (t : PgStore) (keep : AuditRow → Bool) (hrequests : t.requests = s.requests)
    (hmaximum : t.maxLeaseExpirations = s.maxLeaseExpirations) (hnext : t.nextSequence = s.nextSequence)
    (haudit : t.audit = s.audit.filter keep)
    (hkeep : ∀ row ∈ s.audit, row.event = .reclaim → s.Open row.requestId → keep row = true) : t.Kept history where
  positive := hmaximum ▸ hk.positive
  keyed := by
    rw [hrequests]
    exact hk.keyed
  tally := by
    intro id row hrow
    rw [hrequests] at hrow
    rw [hmaximum]
    have htally := hk.tally id row hrow
    by_cases hover : row.request.state.terminal = true
    · exact htally.over rfl hover _
    · -- every row that counts is kept
      have hsame : t.reclaims id = s.reclaims id := by
        unfold reclaims
        rw [haudit, countP_filter]
        apply countP_congr
        intro audit haudit
        rw [Bool.and_eq_true, decide_eq_true_eq]
        constructor
        · exact And.left
        · rintro ⟨rfl, hreclaim⟩
          exact ⟨⟨rfl, hreclaim⟩, hkeep audit haudit hreclaim ⟨row, hrow, Bool.eq_false_iff.mpr hover⟩⟩
      rw [hsame]
      exact htally
  absent := by
    intro id hnone
    rw [hrequests] at hnone
    obtain ⟨hzero, hnil⟩ := hk.absent id hnone
    refine ⟨Nat.le_zero.mp ?_, hnil⟩
    calc t.reclaims id ≤ s.reclaims id := by
          unfold reclaims
          rw [haudit]
          exact filter_sublist.countP_le
      _ = 0 := hzero
  sequences := by
    rw [haudit]
    exact hk.sequences.sublist (filter_sublist.map _)
  next := by
    rw [haudit, hnext]
    exact fun row hrow => hk.next row (mem_of_mem_filter hrow)

/-- The audit retention leaves the rows that count the lost leases of requests that are not over. -/
def Spares (s : PgStore) (cutoff : Instant) (batchSize : Nat) : Prop :=
  ∀ row ∈ s.audit, row.event = .reclaim → s.Open row.requestId → row ∈ (s.dropAudit cutoff batchSize).audit

theorem Kept.dropAudit (hk : s.Kept history) {cutoff : Instant} (hspares : s.Spares cutoff batchSize) :
    (s.dropAudit cutoff batchSize).Kept history := by
  apply hk.thin (s.dropAudit cutoff batchSize) _ rfl rfl rfl rfl
  intro row hrow hreclaim hopen
  exact (mem_filter.mp (hspares row hrow hreclaim hopen)).2

theorem retired_over {cutoff : Instant} (hs : Sound s) (h : id ∈ s.retired batchSize cutoff) : ¬ s.Open id := by
  rintro ⟨row', hrow', hopen⟩
  obtain ⟨row, hrow, rfl⟩ := mem_map.mp h
  have hmem := mem_of_mem_take hrow
  rw [mem_insertionSort] at hmem
  obtain ⟨hmem, hover⟩ := mem_filter.mp hmem
  rw [mem_records hs hmem] at hrow'
  cases hrow'
  rw [Bool.and_eq_true, hopen] at hover
  exact Bool.noConfusion hover.1

/-- Only the audit of requests that are over goes to the archive. -/
theorem Kept.archiveAudit (hk : s.Kept history) {gone : List Text} (hgone : ∀ id ∈ gone, ¬ s.Open id)
    (auditCutoff : Option Instant) (batchSize : Nat) : (s.archiveAudit gone auditCutoff batchSize).Kept history := by
  apply hk.thin (s.archiveAudit gone auditCutoff batchSize) _ rfl rfl rfl rfl
  intro row hrow _ hopen
  rw [decide_eq_true_eq]
  intro hmem
  obtain ⟨other, hother, hsequence⟩ := mem_map.mp hmem
  have hchosen := mem_of_mem_take hother
  rw [mem_insertionSort] at hchosen
  obtain ⟨haudit, hchosen⟩ := mem_filter.mp hchosen
  -- a sequence number belongs to one row
  obtain rfl := inj_on_of_nodup_map hk.sequences haudit hrow hsequence
  rw [Bool.and_eq_true, decide_eq_true_eq] at hchosen
  exact hgone _ hchosen.1 hopen

theorem lookup_eraseAll (ids : List Text) : ∀ (d : Dict Text PgRequest) (id : Text),
    (ids.foldl (fun d id => d.erase id) d).lookup id = if id ∈ ids then none else d.lookup id := by
  induction ids with
  | nil => exact fun _ _ => (if_neg not_mem_nil).symm
  | cons first ids ih =>
    intro d id
    rw [foldl_cons, ih]
    by_cases hmem : id ∈ ids
    · rw [if_pos hmem, if_pos (mem_cons_of_mem _ hmem)]
    · rw [if_neg hmem]
      by_cases heq : id = first
      · rw [heq, if_pos mem_cons_self, lookup_erase]
      · rw [lookup_erase_ne heq, if_neg (fun h => (mem_cons.mp h).elim heq hmem)]

/-- The history of a request ends when its row is deleted. -/
def remembered (s : PgStore) (history : Text → List RequestEvent) (id : Text) : List RequestEvent :=
  if (s.requests.lookup id).isSome = true then history id else []

theorem Kept.remembered (hk : s.Kept history) : s.Kept (s.remembered history) := by
  have hsame : s.remembered history = history := by
    funext id
    unfold PgStore.remembered
    split
    · rfl
    · next hnone => exact (hk.absent id (Option.not_isSome_iff_eq_none.mp hnone)).2.symm
  rw [hsame]
  exact hk

/-- A row is deleted when it has no audit left. -/
theorem Kept.deleteRetired (hk : s.Kept history) (ids : List Text) :
    (s.deleteRetired ids).Kept ((s.deleteRetired ids).remembered history) := by
  have hlookup : ∀ id, (s.deleteRetired ids).requests.lookup id =
      if id ∈ ids.filter (fun id => decide (∀ row ∈ s.audit, row.requestId ≠ id)) then none else s.requests.lookup id :=
    lookup_eraseAll _ _
  refine ⟨hk.positive, ?_, ?_, ?_, hk.sequences, hk.next⟩
  · intro id row hrow
    rw [hlookup] at hrow
    split at hrow
    · cases hrow
    · exact hk.keyed id row hrow
  · intro id row hrow
    have hremembered : (s.deleteRetired ids).remembered history id = history id := by
      apply if_pos
      rw [hrow]
      rfl
    rw [hremembered]
    rw [hlookup] at hrow
    split at hrow
    · cases hrow
    · exact hk.tally id row hrow
  · intro id hnone
    have hremembered : (s.deleteRetired ids).remembered history id = [] := by
      apply if_neg
      rw [hnone]
      exact Bool.false_ne_true
    refine ⟨?_, hremembered⟩
    rw [hlookup] at hnone
    split at hnone
    · next hgone =>
      have hbare := of_decide_eq_true (mem_filter.mp hgone).2
      apply countP_eq_zero.mpr
      intro row hrow hcounted
      exact hbare row hrow (of_decide_eq_true hcounted).1
    · exact (hk.absent id hnone).1

theorem Kept.applyRetention (hk : s.Kept history) (now : Instant) (requestCutoff : Option Instant)
    {auditCutoff : Option Instant} (hspares : ∀ cutoff, auditCutoff = some cutoff → s.Spares cutoff batchSize) :
    (s.applyRetention now requestCutoff auditCutoff batchSize).Kept
      ((s.applyRetention now requestCutoff auditCutoff batchSize).remembered history) := by
  have hgone : ∀ id ∈ (requestCutoff.map (s.retired batchSize)).getD [], ¬ s.Open id := by
    cases requestCutoff with
    | none => exact fun _ h => absurd h not_mem_nil
    | some cutoff => exact fun _ h => retired_over ⟨history, hk⟩ h
  cases auditCutoff with
  | none => exact ((hk.archiveAudit hgone none batchSize).deleteRetired _).cool _
  | some cutoff =>
    have hdropped := hk.dropAudit (hspares cutoff rfl)
    exact ((hdropped.archiveAudit hgone (some cutoff) batchSize).deleteRetired _).cool _

/-! ### Runs -/

/-- The claim in an answer. -/
def claimIn : Except StoreError Answer → Option RequestClaim
  | .ok (.claimed claim) => claim
  | _ => none

/-- The answer is that a write was stored. -/
def storedIn : Except StoreError Answer → Bool
  | .ok (.written stored) => stored
  | _ => false

/-- What a call tells its caller about a request. -/
def Call.reports : Call → Except StoreError Answer → Text → List RequestEvent
  | .claimNext .., answer => toldClaim (claimIn answer)
  | .defer claim _, answer => toldDeferral claim (storedIn answer)
  | _, _ => silent

/-- The audit retention of a call deletes no row that still counts. -/
def Call.Sparing (s : PgStore) (clock : Clock) : Call → Prop
  | .purgeRetainedData _ auditRetention batchSize dryRun =>
    dryRun = false → ∀ limit, cutoff (clock 0) auditRetention = some limit → s.Spares limit batchSize
  | _ => True

theorem transaction_spec {α : Type} {m : Op α} {tell : α → Text → List RequestEvent} (h : Spec s m tell) :
    Triple (· = s) (transaction m) (fun a s' => Leads s s' (tell a)) (fun _ s' => s' = s) := by
  rintro s rfl
  have hm := h { store := s } rfl
  unfold transaction
  split at hm
  · next a tx heq =>
    simp only [heq]
    exact hm
  · next e tx heq =>
    simp only [heq]

/-- A call writes what it tells. -/
structure Tells (s : PgStore) (told : Text → List RequestEvent) (s' : PgStore) : Prop where
  maximum : s'.maxLeaseExpirations = s.maxLeaseExpirations
  kept : ∀ history, s.Kept history → s'.Kept (s'.remembered fun id => told id ++ history id)

theorem Leads.tells (h : Leads s s' told) : Tells s told s' :=
  ⟨h.maximum, fun history hk => (h.kept history hk).remembered⟩

theorem tells_self (s : PgStore) : Tells s silent s := (refl s).tells

/-- What raises tells nothing. -/
theorem tells_of_triple {m : Effect PgStore StoreError Answer} (tell : Except StoreError Answer → Text → List RequestEvent)
    (h : Triple (· = s) m (fun answer s' => Tells s (tell (.ok answer)) s') (fun _ s' => s' = s))
    (hsilent : ∀ e, tell (.error e) = silent) : Tells s (tell (m s).1) (m s).2 := by
  have hrun := h s rfl
  split at hrun
  · next answer s' hm =>
    rw [hm]
    exact hrun
  · next e s' hm =>
    rw [hm, hrun, hsilent]
    exact tells_self s

/-- A write through a claim, or any other call of one transaction. -/
theorem answerWrite_tells {m : Written} (tell : Bool → Text → List RequestEvent) (hsilent : tell false = silent)
    (h : Spec s m fun stored => tell stored.isSome) :
    Tells s (tell (storedIn (answerWrite m s).1)) (answerWrite m s).2 := by
  refine tells_of_triple (fun answer => tell (storedIn answer)) ?_ fun _ => hsilent
  exact triple_bind (transaction_spec h) fun _ => triple_pure fun _ hlead => tells hlead

theorem claimNext_tells (hs : Sound s) (workerId : Text) (leaseSeconds : Option ℚ) (clock : Clock) (fuel : Nat) :
    Triple (· = s) (claimNext workerId leaseSeconds clock fuel) (fun claim s' => Tells s (toldClaim claim) s')
      (fun _ s' => s' = s) := by
  have hraise : ∀ e : StoreError, Triple (· = s) (Effect.raise e) (fun claim s' => Tells s (toldClaim claim) s')
      (fun _ s' => s' = s) := fun _ => triple_raise fun _ h => h
  apply triple_ite (fun _ => hraise _)
  intro _
  cases leaseSeconds with
  | none => exact hraise _
  | some seconds =>
    apply triple_ite (fun _ => hraise _)
    intro _
    refine triple_mono (transaction_spec ?_) (fun _ _ h => tells h) (fun _ _ h => h)
    apply spec_silent_bind (sweepExpired_spec hs clock)
    exact fun _ _ hlead => claimLoop_spec workerId seconds clock fuel (hlead.sound hs)

/-- Every call writes what it tells. -/
theorem perform_tells (hs : Sound s) (clock : Clock) (call : Call) (hsparing : call.Sparing s clock) :
    Tells s (call.reports (perform clock call s).1) (perform clock call s).2 := by
  -- a call of one transaction that tells nothing
  have hquiet : ∀ {m : Written}, Spec s m (fun _ => silent) → Tells s silent (answerWrite m s).2 := fun h =>
    answerWrite_tells (fun _ => silent) rfl h
  cases call with
  | submit submission id => exact hquiet (submitOnce_spec hs submission id clock)
  | claimNext workerId leaseSeconds fuel =>
    refine tells_of_triple (fun answer => toldClaim (claimIn answer)) ?_ fun _ => rfl
    exact triple_bind (claimNext_tells hs workerId leaseSeconds clock fuel) fun _ => triple_pure fun _ h => h
  | renewClaim claim leaseSeconds => exact hquiet (renewOnce_spec hs claim leaseSeconds clock)
  | defer claim delaySeconds => exact answerWrite_tells _ rfl (deferOnce_spec hs claim delaySeconds clock)
  | markRunning claim => exact hquiet (markRunningOnce_spec hs claim clock)
  | succeed claim result => exact hquiet (finishOnce_spec hs claim (by rfl) _ _ clock)
  | fail claim error => exact hquiet (finishOnce_spec hs claim (by rfl) _ _ clock)
  | cancel requestId owner =>
    apply hquiet
    exact ensures_bind (cancelOnce_spec hs requestId owner clock) fun _ _ h => ensures_pure h
  | purgeRetainedData requestRetention auditRetention batchSize dryRun =>
    show Tells s silent (purgeRetainedData requestRetention auditRetention batchSize dryRun (clock 0) s)
    unfold purgeRetainedData
    split
    · exact tells_self s
    · next hgo =>
      have hwet : dryRun = false := Bool.eq_false_iff.mpr fun h => hgo (.inl h)
      refine ⟨?_, fun history hk => hk.applyRetention (clock 0) _ (hsparing hwet)⟩
      cases cutoff (clock 0) auditRetention <;> rfl

/-- The store, and what was told about each request that it has. -/
structure Watched where
  store : PgStore
  history : Text → List RequestEvent := fun _ => []

namespace Watched

def step (w : Watched) (call : Clock × Call) : Watched :=
  let answer := perform call.1 call.2 w.store
  { store := answer.2
    history := answer.2.remembered fun id => call.2.reports answer.1 id ++ w.history id }

def run (w : Watched) (calls : List (Clock × Call)) : Watched := calls.foldl step w

/-- No purge of a run deletes a `reclaim` row of a request that is not over. -/
def Sparing (w : Watched) : List (Clock × Call) → Prop
  | [] => True
  | call :: calls => call.2.Sparing w.store call.1 ∧ Sparing (w.step call) calls

theorem kept_step {w : Watched} (hk : w.store.Kept w.history) {call : Clock × Call}
    (hsparing : call.2.Sparing w.store call.1) : (w.step call).store.Kept (w.step call).history :=
  (perform_tells ⟨_, hk⟩ call.1 call.2 hsparing).kept _ hk

theorem maximum_step {w : Watched} (hk : w.store.Kept w.history) {call : Clock × Call}
    (hsparing : call.2.Sparing w.store call.1) :
    (w.step call).store.maxLeaseExpirations = w.store.maxLeaseExpirations :=
  (perform_tells ⟨_, hk⟩ call.1 call.2 hsparing).maximum

theorem kept_run (calls : List (Clock × Call)) : ∀ {w : Watched}, w.store.Kept w.history → w.Sparing calls →
    (w.run calls).store.Kept (w.run calls).history ∧
      (w.run calls).store.maxLeaseExpirations = w.store.maxLeaseExpirations := by
  induction calls with
  | nil => exact fun hk _ => ⟨hk, rfl⟩
  | cons call calls ih =>
    intro w hk ⟨hcall, hcalls⟩
    obtain ⟨hkept, hmaximum⟩ := ih (kept_step hk hcall) hcalls
    exact ⟨hkept, hmaximum.trans (maximum_step hk hcall)⟩

end Watched

/-- A store without rows. -/
structure Fresh (s : PgStore) : Prop where
  positive : 1 ≤ s.maxLeaseExpirations
  requests : s.requests = ∅
  audit : s.audit = []

theorem Fresh.kept (h : s.Fresh) : s.Kept fun _ => [] where
  positive := h.positive
  keyed id row hrow := by
    rw [h.requests] at hrow
    cases hrow
  tally id row hrow := by
    rw [h.requests] at hrow
    cases hrow
  absent id _ := by
    unfold reclaims
    rw [h.audit]
    exact ⟨rfl, rfl⟩
  sequences := by
    rw [h.audit]
    exact nodup_nil
  next := by
    rw [h.audit]
    exact fun _ hrow => absurd hrow not_mem_nil

namespace Watched

/-- In every run from an empty store whose audit retention deletes no `reclaim` row of a
    request that is not over, a request is handed out at most `max_lease_expirations` times
    and once more for each deferral. -/
theorem handed_out_bounded (s : PgStore) (hfresh : s.Fresh) (calls : List (Clock × Call))
    (hsparing : Sparing { store := s } calls) (id : Text) : ((run { store := s } calls).history id).countP isIssue ≤
      s.maxLeaseExpirations + ((run { store := s } calls).history id).countP isDefer := by
  obtain ⟨hkept, hmaximum⟩ := kept_run calls hfresh.kept hsparing
  cases hrow : (run { store := s } calls).store.requests.lookup id with
  | none =>
    rw [(hkept.absent id hrow).2]
    exact Nat.zero_le _
  | some row =>
    have htally := hkept.tally id row hrow
    rw [← htally.attempt, ← hmaximum]
    exact htally.total

/-- A request of one owner. -/
def letter : AsyncRequestSubmission := { owner := Text.of "o", endpoint := Text.of "/v1", body := [] }

def letterStore : PgStore :=
  { storeId := Text.of "p", digest := fun _ => [], maxRecordsPerOwner := 1, maxLeaseExpirations := 2 }

/-- The letter is claimed, its lease is lost after a second, and it is claimed again. -/
def lostLease : List (Clock × Call) :=
  [(fun _ => 0, .submit letter (Text.of "r")), (fun _ => 0, .claimNext (Text.of "w") (some 1) 2),
    (fun _ => 2 * 10 ^ 6, .claimNext (Text.of "w") (some 1) 2)]

/-- A purge, and another claim after the second lease is lost. -/
def afterPurge (auditRetention : ℚ) : List (Clock × Call) :=
  lostLease ++ [(fun _ => 10 * 10 ^ 6, .purgeRetainedData none (some auditRetention) 500 false),
    (fun _ => 12 * 10 ^ 6, .claimNext (Text.of "w") (some 1) 2)]

theorem fresh_letterStore : letterStore.Fresh := ⟨by decide, rfl, rfl⟩

/-- With a retention of a minute the purge deletes nothing. -/
theorem sparing_afterPurge : Sparing { store := letterStore } (afterPurge 60) := by
  refine ⟨trivial, trivial, trivial, ?_, trivial, trivial⟩
  intro _ limit hlimit row hrow _ _
  have hsame : ((run { store := letterStore } lostLease).store.dropAudit limit 500).audit =
      (run { store := letterStore } lostLease).store.audit := by
    cases hlimit
    decide +kernel
  exact hsame ▸ hrow

theorem handed_out_letter : letterStore.Fresh ∧ Sparing { store := letterStore } (afterPurge 60) ∧
    ((run { store := letterStore } (afterPurge 60)).history (Text.of "r")).countP isIssue ≤
      2 + ((run { store := letterStore } (afterPurge 60)).history (Text.of "r")).countP isDefer :=
  ⟨fresh_letterStore, sparing_afterPurge,
    handed_out_bounded letterStore fresh_letterStore (afterPurge 60) sparing_afterPurge (Text.of "r")⟩

/-- With a retention of a second the purge deletes the `reclaim` row of the letter, and the
    letter, which was never deferred, is handed out a third time. -/
theorem reclaim_forgotten : letterStore.Fresh ∧
    ((run { store := letterStore } (afterPurge 1)).history (Text.of "r")).countP isIssue = 3 ∧
    ((run { store := letterStore } (afterPurge 1)).history (Text.of "r")).countP isDefer = 0 :=
  ⟨fresh_letterStore, by decide +kernel, by decide +kernel⟩

end Watched

end PgStore

end Kairyu
