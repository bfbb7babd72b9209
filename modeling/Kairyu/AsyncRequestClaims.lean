/-
  Kairyu/AsyncRequestClaims.lean
  ==============================
  **Which request `claim_next` hands out.**

  The loop fails every request that lost its lease too often and comes before the one it
  takes.  Each turn of it leaves the claimable requests as they are and one held request
  fewer, so the loop ends, with the first of the claimable requests or with none.
-/
import Kairyu.AsyncRequestSpecs

namespace Kairyu

open List

open AsyncRequest (Row Move Moves Payload)
open RequestEvent (issued deferred ended)

namespace RequestStore

open Effect

/-- A request that a worker may be given. -/
structure Claimable (s : RequestStore) (now : Instant) (r : AsyncRequest) : Prop where
  stored : s.requests.lookup r.id = some r
  owner : (s.ownerNotBefore.lookup r.owner).getD now ≤ now
  ahead : due now r = false
  free : r.state = .queued ∨ r.state.held = true ∧ (∃ lease, s.leases.lookup r.id = some lease ∧ lease.leaseUntil ≤ now) ∧
    s.expirations r.id + 1 < s.maxLeaseExpirations

/-- No stored request is past its deadline. -/
def Current (s : RequestStore) (now : Instant) : Prop := ∀ id r, s.requests.lookup id = some r → due now r = false

def heldCount (s : RequestStore) : Nat := s.requests.total fun r => if r.state.held = true then 1 else 0

/-- The expiration of a lease is counted. -/
def lose (s : RequestStore) (r : AsyncRequest) : RequestStore :=
  { s with leaseExpirations := s.leaseExpirations.insert r.id (s.expirations r.id + 1) }

variable {s s' : RequestStore} {now : Instant} {r : AsyncRequest}

theorem mem_candidates (hs : Sound s) : r ∈ s.candidates now ↔
    s.requests.lookup r.id = some r ∧ (s.ownerNotBefore.lookup r.owner).getD now ≤ now ∧
      (r.state = .queued ∨ r.state.held = true ∧ ∃ lease, s.leases.lookup r.id = some lease ∧ lease.leaseUntil ≤ now) := by
  have hlease : ((s.leases.lookup r.id).any fun lease => decide (lease.leaseUntil ≤ now)) = true ↔
      ∃ lease, s.leases.lookup r.id = some lease ∧ lease.leaseUntil ≤ now := by
    rw [Option.any_eq_true]
    simp only [decide_eq_true_eq]
  unfold candidates
  rw [mem_filter, mem_records hs, Bool.and_eq_true, Bool.or_eq_true, Bool.and_eq_true, decide_eq_true_eq,
    decide_eq_true_eq, hlease]

theorem Claimable.mem (h : s.Claimable now r) (hs : Sound s) : r ∈ s.candidates now := by
  refine (mem_candidates hs).mpr ⟨h.stored, h.owner, ?_⟩
  exact h.free.imp_right fun hheld => ⟨hheld.1, hheld.2.1⟩

/-- Whether a request is claimable is read from its row. -/
theorem Claimable.of_row (h : s.Claimable now r) (hrow : s.row r.id = s'.row r.id)
    (hmaximum : s.maxLeaseExpirations = s'.maxLeaseExpirations) (howner : s.ownerNotBefore = s'.ownerNotBefore) :
    s'.Claimable now r := by
  have hlease : s.leases.lookup r.id = s'.leases.lookup r.id := congrArg Row.lease hrow
  have hexpirations : s.expirations r.id = s'.expirations r.id := congrArg (fun row => row.expirations.getD 0) hrow
  have hfree := h.free
  rw [hlease, hexpirations, hmaximum] at hfree
  exact ⟨(congrArg Row.request hrow).symm.trans h.stored, howner ▸ h.owner, h.ahead, hfree⟩

/-! ### One turn of the loop -/

theorem row_lose (s : RequestStore) (r : AsyncRequest) (id : Text) : (s.lose r).row id =
      if id = r.id then { s.row id with expirations := some ((s.row id).expirations.getD 0 + 1) } else s.row id := by
  unfold lose row expirations
  simp only [AList.lookup_insert_if]
  split
  · next hid =>
    subst hid
    rfl
  · rfl

theorem lose_outcome (hr : s.requests.lookup r.id = some r) : Outcome s (s.lose r) silent := by
  rw [← telling_nil r.id]
  exact Outcome.single (s.lose r) (fun row => { row with expirations := some (row.expirations.getD 0 + 1) }) [] rfl rfl
    (fun _ _ h => h) (row_lose s r) (Move.lose hr)

/-- A request that lost its lease too often is failed. -/
def abandon (now : Instant) (s : RequestStore) (r : AsyncRequest) : RequestStore :=
  (s.lose r).failAbandoned now (s.expirations r.id + 1) r

theorem abandon_outcome (now : Instant) (hs : Sound s) (hr : s.requests.lookup r.id = some r) (hheld : r.state.held = true) :
    Outcome s (s.abandon now r) silent := by
  have hopen := AsyncRequestState.terminal_of_held hheld
  have hclear := (hs.payload hr).clear hopen
  refine (lose_outcome hr).trans (Outcome.settle hr hopen rfl rfl rfl ?_)
  rw [hclear.1]
  exact ⟨iff_of_false Bool.false_ne_true nofun, iff_of_true rfl rfl⟩

theorem row_abandon_ne {id : Text} (hid : id ≠ r.id) : (s.abandon now r).row id = s.row id := by
  unfold abandon failAbandoned
  rw [row_conclude, if_neg hid, row_lose, if_neg hid]

theorem lookup_abandon : (s.abandon now r).requests.lookup r.id = some { r with
    state := .failed, updatedAt := now, completedAt := some now,
    error := some (leaseExpiredError (s.expirations r.id + 1)) } := AList.lookup_insert _

theorem heldCount_abandon (now : Instant) (hr : s.requests.lookup r.id = some r) (hheld : r.state.held = true) :
    (s.abandon now r).heldCount + 1 = s.heldCount := by
  show AList.total (s.requests.insert r.id _) _ + 1 = AList.total s.requests _
  rw [AList.total_eq_of_lookup hr, if_pos hheld]
  exact (congrArg (· + 1) (Nat.zero_add _)).trans (Nat.add_comm _ 1)

theorem Current.abandon (hcurrent : s.Current now) : (s.abandon now r).Current now := by
  intro id r' hr'
  by_cases hid : id = r.id
  · subst hid
    rw [lookup_abandon] at hr'
    cases hr'
    rfl
  · have hrow : ((s.abandon now r).row id).request = some r' := hr'
    rw [row_abandon_ne hid] at hrow
    exact hcurrent id r' hrow

/-- Failing an abandoned request leaves the claimable ones. -/
theorem claimable_abandon (now : Instant) (hr : s.requests.lookup r.id = some r) (hheld : r.state.held = true)
    (hlost : s.maxLeaseExpirations ≤ s.expirations r.id + 1) (r' : AsyncRequest) :
    (s.abandon now r).Claimable now r' ↔ s.Claimable now r' := by
  by_cases hid : r'.id = r.id
  · constructor
    · intro h
      have hstored := h.stored
      rw [hid, lookup_abandon] at hstored
      have hfailed : r'.state = .failed := by
        rw [← Option.some.inj hstored]
      rcases h.free with hqueued | ⟨hheld', _⟩
      · rw [hfailed] at hqueued
        cases hqueued
      · rw [hfailed] at hheld'
        cases hheld'
    · intro h
      have hstored := h.stored
      rw [hid, hr] at hstored
      obtain rfl := Option.some.inj hstored
      rcases h.free with hqueued | ⟨_, _, hlt⟩
      · rw [hqueued] at hheld
        cases hheld
      · exact absurd hlt (Nat.not_lt.mpr hlost)
  · have hrow : (s.abandon now r).row r'.id = s.row r'.id := row_abandon_ne hid
    exact ⟨fun h => h.of_row hrow rfl rfl, fun h => h.of_row hrow.symm rfl rfl⟩

/-! ### The loop -/

/-- The store after the loop has taken a request. -/
def Chosen (s s' : RequestStore) (r : AsyncRequest) : Prop :=
  ∃ before, Outcome s before silent ∧ before.requests.lookup r.id = some r ∧
    (r.state = .queued ∧ s' = before ∨
      r.state.held = true ∧ before.expirations r.id + 1 < before.maxLeaseExpirations ∧ s' = before.lose r)

/-- What the loop has found. -/
def Found (s : RequestStore) (now : Instant) (s' : RequestStore) : Option AsyncRequest → Prop
  | none => Outcome s s' silent ∧ ∀ r, ¬ s.Claimable now r
  | some r => Chosen s s' r ∧ s.Claimable now r ∧ ∀ r', s.Claimable now r' → r.rank ≤ r'.rank

theorem Found.after_abandon (hs : Sound s) (hr : s.requests.lookup r.id = some r) (hheld : r.state.held = true)
    (hlost : s.maxLeaseExpirations ≤ s.expirations r.id + 1) {found : Option AsyncRequest}
    (h : (s.abandon now r).Found now s' found) : s.Found now s' found := by
  have hfail := abandon_outcome now hs hr hheld
  have hiff := claimable_abandon now hr hheld hlost
  cases found with
  | none => exact ⟨hfail.trans h.1, fun r' hr' => h.2 r' ((hiff r').mpr hr')⟩
  | some found =>
    obtain ⟨⟨before, hbefore, hchosen⟩, hclaimable, hleast⟩ := h
    exact ⟨⟨before, hfail.trans hbefore, hchosen⟩, (hiff found).mp hclaimable,
      fun r' hr' => hleast r' ((hiff r').mpr hr')⟩

theorem claimLoop_spec (fuel : Nat) : ∀ {s : RequestStore}, Sound s → s.Current now →
    Triple (· = s) (claimLoop now fuel) (fun found s' => s.Found now s' found)
      (fun e _ => e = .unfinished ∧ fuel ≤ s.heldCount) := by
  -- every turn that goes on fails one held request
  induction fuel with
  | zero =>
    intro s _ _
    exact triple_raise fun _ _ => ⟨rfl, Nat.zero_le _⟩
  | succ fuel ih =>
    intro s hs hcurrent
    apply triple_get_bind
    rintro s rfl
    split
    · next hnone =>
      apply triple_return
      have hempty := argmin_eq_none.mp hnone
      refine ⟨Outcome.refl _, fun r hr => ?_⟩
      have hmem := hr.mem hs
      rw [hempty] at hmem
      exact absurd hmem not_mem_nil
    · next r hargmin =>
      have hmem : r ∈ s.candidates now := argmin_mem hargmin
      have hleast : ∀ r', s.Claimable now r' → r.rank ≤ r'.rank := fun r' hr' =>
        le_of_mem_argmin (hr'.mem hs) hargmin
      obtain ⟨hr, howner, hfree⟩ := (mem_candidates hs).mp hmem
      have hahead := hcurrent _ _ hr
      apply triple_ite
      · intro hqueued
        apply triple_return
        exact ⟨⟨_, Outcome.refl _, hr, .inl ⟨hqueued, rfl⟩⟩, ⟨hr, howner, hahead, .inl hqueued⟩, hleast⟩
      · intro hqueued
        obtain ⟨hheld, hlease⟩ := hfree.resolve_left hqueued
        apply triple_modify_bind
        apply triple_ite
        · intro hlt
          apply triple_return
          exact ⟨⟨_, Outcome.refl _, hr, .inr ⟨hheld, hlt, rfl⟩⟩,
            ⟨hr, howner, hahead, .inr ⟨hheld, hlease, hlt⟩⟩, hleast⟩
        · intro hlost
          apply triple_modify_bind
          have hrest := ih ((abandon_outcome now hs hr hheld).sound hs) (hcurrent.abandon)
          refine triple_mono hrest ?_ ?_
          · exact fun _ _ h => h.after_abandon hs hr hheld (Nat.not_lt.mp hlost)
          · rintro e _ ⟨rfl, hfuel⟩
            refine ⟨rfl, ?_⟩
            rw [← heldCount_abandon now hr hheld]
            exact Nat.succ_le_succ hfuel

theorem heldCount_le (s : RequestStore) : s.heldCount ≤ s.records.length := by
  unfold heldCount records AList.total
  rw [length_map]
  induction s.requests.entries with
  | nil => exact Nat.le_refl _
  | cons entry entries ih =>
    rw [map_cons, sum_cons, Nat.add_comm]
    apply Nat.add_le_add ih
    show (if entry.2.state.held = true then 1 else 0) ≤ 1
    split
    · exact Nat.le_refl _
    · exact Nat.zero_le _

/-! ### The claim -/

theorem row_issued (s : RequestStore) (r claimed : AsyncRequest) (lease : Lease) (token : Nat) (id : Text) :
    row { s with
      requests := s.requests.insert r.id claimed
      leases := s.leases.insert r.id lease
      fencingTokens := s.fencingTokens.insert r.id token } id =
      if id = r.id then { s.row id with request := some claimed, lease := some lease, token := some token }
      else s.row id := by
  unfold row
  simp only [AList.lookup_insert_if]
  split <;> rfl

/-- The request that was chosen goes to the worker. -/
theorem Chosen.issued (hs : Sound s) (h : Chosen s s' r) {lease : Lease} (hlease : lease.fencingToken = s'.token r.id + 1) :
    Outcome s { s' with
      requests := s'.requests.insert r.id { r with state := .claimed, attempt := r.attempt + 1, updatedAt := now }
      leases := s'.leases.insert r.id lease
      fencingTokens := s'.fencingTokens.insert r.id (s'.token r.id + 1) }
      (telling r.id [issued lease.workerId lease.fencingToken]) := by
  obtain ⟨before, hbefore, hr, hcase⟩ := h
  have hrow : (before.row r.id).request = some r := hr
  obtain ⟨_, hticket⟩ := (hbefore.sound hs).ticket hr
  obtain ⟨token, htoken, _⟩ := hticket.token
  have htoken' : before.token r.id = token := by
    show (before.row r.id).token.getD 0 = token
    rw [htoken]
    rfl
  apply hbefore.trans
  rcases hcase with ⟨hqueued, rfl⟩ | ⟨hheld, hlt, rfl⟩
  · rw [htoken'] at hlease ⊢
    exact Outcome.single _ (fun row => { row with request := some _, lease := some lease, token := some (token + 1) })
      [RequestEvent.issued lease.workerId lease.fencingToken] rfl rfl (fun _ _ h => h) (row_issued _ r _ _ _)
      (Move.claim hrow hqueued htoken hlease)
  · have hsame : (before.lose r).token r.id = before.token r.id := rfl
    rw [hsame, htoken'] at hlease ⊢
    refine Outcome.single _ (fun row => ⟨some { r with state := .claimed, attempt := r.attempt + 1, updatedAt := now }, some lease,
      some (token + 1), some (row.expirations.getD 0 + 1)⟩)
      [RequestEvent.issued lease.workerId lease.fencingToken] rfl rfl (fun _ _ h => h) (fun other => ?_)
      (Move.reclaim hrow hheld htoken hlease hlt)
    rw [row_issued, row_lose]
    split <;> rfl

theorem Chosen.outcome (h : Chosen s s' r) : Outcome s s' silent := by
  obtain ⟨before, hbefore, hr, ⟨_, rfl⟩ | ⟨_, _, rfl⟩⟩ := h
  · exact hbefore
  · exact hbefore.trans (lose_outcome hr)

/-- A lease of this length does not end where it begins. -/
def Lasting (leaseSeconds : Option ℚ) : Prop :=
  ∀ seconds span, leaseSeconds = some seconds → timedelta seconds = some span → 0 < span

/-- What `issue` raises: the end of the lease is no date. -/
def Unrepresentable (seconds : ℚ) (now : Instant) : Prop :=
  timedelta seconds = none ∨ ∃ span, timedelta seconds = some span ∧ addSpan now span = none

theorem issue_spec (hs : Sound s) (workerId : Text) {seconds : ℚ} (hlasting : Lasting (some seconds))
    (hchosen : Chosen s s' r) (hahead : due now r = false) (hopen : r.state.terminal = false) :
    Triple (· = s') (issue workerId seconds now r)
      (fun c s'' => c.requestId = r.id ∧ Outcome s s'' (telling r.id [issued c.workerId c.fencingToken]))
      (fun e s'' => e = .overflow ∧ Unrepresentable seconds now ∧ Outcome s s'' silent) := by
  apply triple_get_bind
  rintro s' rfl
  apply triple_check_bind (checks_leaseUntil r now seconds)
  · exact fun e he => ⟨he.1, he.2, hchosen.outcome⟩
  intro leaseUntil hlease
  obtain ⟨span, hspan, hlater⟩ := hlease
  have hdeadline : (r.deadlineAt.any fun deadline => decide (deadline ≤ now)) = false := by
    unfold due at hahead
    rw [hopen] at hahead
    exact hahead
  have hlater := hlater (hlasting seconds span rfl hspan) hdeadline
  apply triple_modify_bind
  apply triple_mono (checks_claim _ _)
  · rintro c _ ⟨rfl, hrequest, hworker, htoken⟩
    have hid : c.request.id = r.id := by rw [hrequest]
    refine ⟨hid, ?_⟩
    rw [hworker, htoken]
    exact hchosen.issued hs rfl
  · rintro e _ ⟨rfl, hle | hheld⟩
    · exact absurd hle (not_le.mpr hlater)
    · cases hheld

theorem Claimable.open (h : s.Claimable now r) : r.state.terminal = false := by
  rcases h.free with hqueued | ⟨hheld, _⟩
  · rw [hqueued]
    rfl
  · exact AsyncRequestState.terminal_of_held hheld

/-- The arguments of `claim_next` that its own checks refuse. -/
def Refusable (workerId : Text) (leaseSeconds : Option ℚ) (clock : Option Instant) : Prop :=
  nonEmpty workerId = false ∨ (∀ seconds, leaseSeconds = some seconds → seconds ≤ 0) ∨ clock = none

/-- What `claim_next` tells its caller of. -/
def toldClaim : Option RequestClaim → Text → List RequestEvent
  | none => silent
  | some c => telling c.requestId [issued c.workerId c.fencingToken]

/-- What `claim_next` returns is the first of the claimable requests, or nothing when there is none. -/
def Handed (s : RequestStore) (now : Instant) : Option RequestClaim → Prop
  | none => ∀ r, ¬ s.Claimable now r
  | some c => ∃ r, s.Claimable now r ∧ c.requestId = r.id ∧ ∀ r', s.Claimable now r' → r.rank ≤ r'.rank

/-- After expiring by deadline the same requests are claimable. -/
theorem claimable_expireDue (hs : Sound s) (r : AsyncRequest) :
    (s.expireDue now).Claimable now r ↔ s.Claimable now r := by
  obtain ⟨hmaximum, _, _, howner⟩ := expireDue_frame now s
  have hsame : due now r = false → (s.requests.lookup r.id = some r ∨ (s.expireDue now).requests.lookup r.id = some r) →
      r.state.terminal = false → (s.expireDue now).row r.id = s.row r.id := by
    intro hahead hstored hopen
    have hrow := row_expireDue hs now r.id
    by_cases hdue : ∃ r', s.requests.lookup r.id = some r' ∧ due now r' = true
    · rw [if_pos hdue] at hrow
      obtain ⟨r', hr', hdue⟩ := hdue
      rcases hstored with hr | hr
      · rw [hr] at hr'
        obtain rfl := Option.some.inj hr'
        rw [hahead] at hdue
        cases hdue
      · have hrow' : (s.row r.id).request = some r' := hr'
        have hexpired := congrArg Row.request hrow
        unfold expiredRow at hexpired
        rw [hrow'] at hexpired
        have heq := Option.some.inj (hr.symm.trans hexpired)
        rw [heq] at hopen
        cases hopen
    · rw [if_neg hdue] at hrow
      exact hrow
  constructor
  · exact fun h => h.of_row (hsame h.ahead (.inr h.stored) h.open) hmaximum howner
  · exact fun h => h.of_row (hsame h.ahead (.inl h.stored) h.open).symm hmaximum.symm howner.symm

theorem claimNext_spec (hs : Sound s) (workerId : Text) {leaseSeconds : Option ℚ} (hlasting : Lasting leaseSeconds)
    (clock : Option Instant) : Triple (· = s) (claimNext workerId leaseSeconds clock)
      (fun c s' => Outcome s s' (toldClaim c) ∧ ∀ now, clock = some now → s.Handed now c)
      (fun e s' => Outcome s s' silent ∧ (Refusable workerId leaseSeconds clock ∨
        e = .overflow ∧ ∃ seconds now, leaseSeconds = some seconds ∧ clock = some now ∧ Unrepresentable seconds now)) := by
  apply triple_ite
  · intro hworker
    apply triple_raise_at
    exact ⟨Outcome.refl _, .inl (.inl hworker)⟩
  intro _
  apply triple_check_bind (checks_validateLeaseSeconds leaseSeconds)
    fun e he => ⟨Outcome.refl s, .inl (.inr (.inl he))⟩
  rintro seconds rfl
  apply triple_check_bind (checks_now clock) fun e he => ⟨Outcome.refl s, .inl (.inr (.inr he))⟩
  rintro now rfl
  apply triple_modify_bind
  have hexpire := expireDue_outcome hs now
  have hs' := hexpire.sound hs
  have hcurrent : (s.expireDue now).Current now := fun _ _ hr => expireDue_due hs hr
  apply triple_get_bind
  rintro s' rfl
  apply triple_bind
  · refine triple_error (claimLoop_spec _ hs' hcurrent) ?_
    rintro e _ ⟨_, hfuel⟩
    exact absurd hfuel (Nat.not_le.mpr (Nat.lt_succ_of_le (heldCount_le _)))
  · intro found
    cases found with
    | none =>
      apply triple_pure
      rintro s'' ⟨houtcome, hnone⟩
      refine ⟨hexpire.trans houtcome, ?_⟩
      rintro _ ⟨⟩
      exact fun r hr => hnone r ((claimable_expireDue hs r).mpr hr)
    | some r =>
      apply triple_of_forall
      rintro s'' ⟨hchosen, hclaimable, hleast⟩
      apply triple_bind
      · refine triple_error (issue_spec hs' workerId hlasting hchosen hclaimable.ahead hclaimable.open) ?_
        rintro e s3 ⟨rfl, hunrepresentable, houtcome⟩
        exact ⟨hexpire.trans houtcome, .inr ⟨rfl, seconds, now, rfl, rfl, hunrepresentable⟩⟩
      · intro c
        apply triple_pure
        rintro s3 ⟨hid, houtcome⟩
        refine ⟨?_, ?_⟩
        · show Outcome s s3 (telling c.requestId _)
          rw [hid]
          exact hexpire.trans houtcome
        · rintro _ ⟨⟩
          exact ⟨r, (claimable_expireDue hs r).mp hclaimable, hid,
            fun r' hr' => hleast r' ((claimable_expireDue hs r').mpr hr')⟩

end RequestStore

end Kairyu
