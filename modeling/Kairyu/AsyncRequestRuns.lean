/-
  Kairyu/AsyncRequestRuns.lean
  ============================
  **The lifecycle of durable requests over whole runs.**

  A run is watched from outside: the history of a request is what callers were told of it,
  the claims that `claim_next` returned and the deferrals that were accepted, and the end of
  the request once a read would show it.  A history begins with its request and is forgotten
  with it.
-/
import Kairyu.AsyncRequestClaims

namespace Kairyu

open List RequestEvent Option

open AsyncRequest (Row Move Moves Kept Ticket)
open RequestEvent (issued deferred ended)

namespace RequestStore

open Effect

/-! ### Retention -/

/-- What a retention batch does: some requests that were over are gone. -/
structure Purged (s s' : RequestStore) : Prop where
  maximum : s'.maxLeaseExpirations = s.maxLeaseExpirations
  storeId : s'.storeId = s.storeId
  idempotency : ∀ key entry, s.idempotency.lookup key = some entry →
    s'.idempotency.lookup key = some entry ∨ s'.requests.lookup entry.2 = none
  rows : ∀ id, s'.row id = s.row id ∨ s'.row id = {}

open Purged

variable {s s' : RequestStore}

theorem Purged.refl (s : RequestStore) : Purged s s := ⟨rfl, rfl, fun _ _ h => .inl h, fun _ => .inl rfl⟩

theorem row_forget (s : RequestStore) (r : AsyncRequest) (id : Text) :
    (s.forget r).row id = if id = r.id then {} else s.row id := by
  unfold forget row
  simp only [AList.lookup_erase_if]
  split <;> rfl

theorem Purged.forget (h : Purged s s') (r : AsyncRequest) : Purged s (s'.forget r) where
  maximum := h.maximum
  storeId := h.storeId
  idempotency := by
    intro key entry hentry
    rcases h.idempotency key entry hentry with hkept | hgone
    · by_cases hid : entry.2 = r.id
      · refine .inr ?_
        rw [hid]
        exact AList.lookup_erase _ _
      · refine .inl ?_
        unfold RequestStore.forget
        split
        · exact hkept
        · next used hused =>
          split
          · next hany =>
            rw [AList.lookup_erase_ne]
            · exact hkept
            · rintro rfl
              rw [hkept, any_some, decide_eq_true_eq] at hany
              exact hid hany
          · exact hkept
    · refine .inr ?_
      have hrow := congrArg Row.request (row_forget s' r entry.2)
      show ((s'.forget r).row entry.2).request = none
      rw [hrow]
      split
      · rfl
      · exact hgone
  rows := by
    intro id
    rw [row_forget]
    split
    · exact .inr rfl
    · exact h.rows id

theorem purgeRetainedData_spec (requestRetention auditRetention : Option (Option ℚ)) (batchSize : Int) (dryRun : Bool)
    (clock : Option Instant) :
    Triple (· = s) (purgeRetainedData requestRetention auditRetention batchSize dryRun clock) (fun _ => Purged s)
      (fun _ => Purged s) := by
  have hraise : ∀ (e : StoreError), Triple (· = s) (Effect.raise e : Op RetentionResult) (fun _ => Purged s) (fun _ => Purged s) := by
    intro e
    apply triple_raise_at
    exact refl _
  have hretention : ∀ name value, Checks s (validateRetention name value) (fun _ => True) (fun _ => True) := by
    intro name value
    unfold validateRetention
    split
    · exact checks_pure trivial
    · exact checks_raise trivial
    · exact checks_ite (fun _ => checks_raise trivial) (fun _ => checks_pure trivial)
  have hcutoff : ∀ now retention, Checks s (cutoff now retention) (fun _ => True) (fun _ => True) := by
    intro now retention
    unfold cutoff
    split
    · exact checks_pure trivial
    · apply triple_check_bind (checks_orRaise _ _) fun _ _ => ⟨rfl, trivial⟩
      intro span _
      apply triple_check_bind (checks_orRaise _ _) fun _ _ => ⟨rfl, trivial⟩
      exact fun _ _ => checks_pure trivial
  apply triple_check_bind (hretention _ _) fun _ _ => refl s
  intro requestRetention _
  apply triple_check_bind (hretention _ _) fun _ _ => refl s
  intro auditRetention _
  apply triple_ite (fun _ => hraise _)
  intro _
  apply triple_check_bind (checks_now clock) fun _ _ => refl s
  intro now _
  apply triple_ite
  · intro _
    apply triple_return
    exact refl _
  intro _
  apply triple_check_bind (hcutoff _ _) fun _ _ => refl s
  intro requestCutoff _
  apply triple_check_bind (hcutoff _ _) fun _ _ => refl s
  intro _ _
  apply triple_get_bind
  rintro s rfl
  have hforget : ∀ l : List AsyncRequest, Purged s (l.foldl RequestStore.forget s) := by
    intro l
    suffices hloop : ∀ {s'}, Purged s s' → Purged s (l.foldl RequestStore.forget s') from hloop (refl s)
    induction l with
    | nil => exact fun h => h
    | cons r l ih => exact fun h => ih (h.forget r)
  apply triple_ite
  · intro _
    apply triple_return
    exact refl _
  · intro _
    apply triple_modify_return
    have h := hforget (s.retired batchSize.toNat requestCutoff)
    exact ⟨h.maximum, h.storeId, h.idempotency, h.rows⟩

/-! ### One call -/

/-- A lease is not rounded away, and a deferral that is accepted ends at some date. -/
def Call.Regular (clock : Option Instant) : Call → Prop
  | .claimNext _ leaseSeconds => Lasting leaseSeconds
  | .defer _ delaySeconds => Addable delaySeconds clock
  | _ => True

/-- What the caller learns of claims and deferrals. -/
def told : Call → Except StoreError Answer → Text → List RequestEvent
  | .claimNext _ _, .ok (.claim c) => toldClaim c
  | .defer c _, .ok _ => telling c.requestId [deferred]
  | _, _ => silent

/-- A call that is not retention follows the lives of the requests. -/
def Follows (s : RequestStore) (call : Call) (result : Except StoreError Answer) (s' : RequestStore) : Prop :=
  Outcome s s' (told call result) ∨ told call result = silent ∧ Purged s s'

theorem answering_run {α : Type} (answer : α → Answer) (m : Op α) (s : RequestStore) :
    answering answer m s = ((m s).1.map answer, (m s).2) := by
  show Effect.bind m (fun a => pure (answer a)) s = _
  unfold Effect.bind
  rcases m s with ⟨_ | _, _⟩ <;> rfl

/-- What holds of an operation holds of the call. -/
theorem answering_spec {α : Type} {m : Op α} {answer : α → Answer} {Q : α → RequestStore → Prop}
    {E : StoreError → RequestStore → Prop} {R : Except StoreError Answer → RequestStore → Prop} (h : Triple (· = s) m Q E)
    (hQ : ∀ a s', Q a s' → R (.ok (answer a)) s') (hE : ∀ e s', E e s' → R (.error e) s') :
    R (answering answer m s).1 (answering answer m s).2 := by
  rw [answering_run]
  have hrun := h s rfl
  split at hrun
  · next heq => rw [heq]; exact hQ _ _ hrun
  · next heq => rw [heq]; exact hE _ _ hrun

/-- An operation that tells nothing. -/
theorem follows_silent {α : Type} {m : Op α} {answer : α → Answer} {call : Call} (h : Spec s m (fun _ => silent))
    (htold : ∀ result, told call result = silent) :
    Follows s call (answering answer m s).1 (answering answer m s).2 := by
  apply answering_spec h
  · exact fun _ _ h => .inl ((htold _).symm ▸ h)
  · exact fun _ _ h => .inl ((htold _).symm ▸ h)

theorem perform_follows (hs : Sound s) {clock : Option Instant} {call : Call} (hregular : call.Regular clock) :
    Follows s call (perform clock call s).1 (perform clock call s).2 := by
  cases call with
  | submit submission id => exact follows_silent (submit_spec hs submission id clock) fun _ => rfl
  | get id owner => exact follows_silent (get_spec hs id owner clock) fun _ => rfl
  | list owner state limit => exact follows_silent (list_spec hs owner state limit clock) fun _ => rfl
  | claimNext workerId leaseSeconds =>
    apply answering_spec (claimNext_spec hs workerId hregular clock)
    · exact fun _ _ h => .inl h.1
    · exact fun _ _ h => .inl h.1
  | renewClaim c leaseSeconds => exact follows_silent (renewClaim_spec hs c leaseSeconds clock) fun _ => rfl
  | defer c delaySeconds =>
    apply answering_spec (defer_spec hs c hregular)
    · exact fun _ _ h => .inl h
    · exact fun _ _ h => .inl h
  | markRunning c => exact follows_silent (markRunning_spec hs c clock) fun _ => rfl
  | succeed c result => exact follows_silent (finish_spec hs c rfl _ _ clock) fun _ => rfl
  | fail c error => exact follows_silent (finish_spec hs c rfl _ _ clock) fun _ => rfl
  | cancel id owner => exact follows_silent (cancel_spec hs id owner clock) fun _ => rfl
  | purgeRetainedData requestRetention auditRetention batchSize dryRun =>
    apply answering_spec (purgeRetainedData_spec requestRetention auditRetention batchSize dryRun clock)
    · exact fun _ _ h => .inr ⟨rfl, h⟩
    · exact fun _ _ h => .inr ⟨rfl, h⟩

/-! ### Watching a run -/

/-- The store, with what was seen of each request. -/
structure Observed where
  store : RequestStore
  history : Text → List RequestEvent := fun _ => []

namespace Observed

/-- A request that came to its end in this call, and what the caller was told. -/
def observe (before after : RequestStore) (told : List RequestEvent) (history : List RequestEvent) (id : Text) :
    List RequestEvent :=
  match after.requests.lookup id with
  | none => []
  | some r =>
    if r.state.terminal = true ∧ (before.requests.lookup id).any (·.state.terminal) = false then
      ended r.state :: (told ++ history)
    else told ++ history

def step (o : Observed) (call : Option Instant × Call) : Observed :=
  let answer := perform call.1 call.2 o.store
  { store := answer.2
    history := fun id => observe o.store answer.2 (told call.2 answer.1 id) (o.history id) id }

def run (o : Observed) (calls : List (Option Instant × Call)) : Observed := calls.foldl step o

/-- Every row has its history. -/
def Followed (o : Observed) : Prop := ∀ id, Kept o.store.maxLeaseExpirations id (o.store.row id) (o.history id)

variable {o : Observed}

theorem Followed.sound (h : o.Followed) : Sound o.store := fun id => ⟨_, h id⟩

theorem visible_eq_self {events : List RequestEvent} (h : events.filterMap ending = []) :
    visible events = events := by
  apply filter_eq_self.mpr
  intro event hevent
  exact isNone_iff_eq_none.mpr (filterMap_eq_nil_iff.mp h event hevent)

variable {calls : List (Option Instant × Call)} {call : Option Instant × Call} {id : Text} {r : AsyncRequest}
  {entry : Text × Text}

/-- What was seen of a request are its events. -/
theorem observe_eq {maximum : Nat} {before after : RequestStore} {history : List RequestEvent}
    (events : List RequestEvent) (hbefore : Kept maximum id (before.row id) history)
    (hafter : Kept maximum id (after.row id) (events ++ history)) :
    observe before after (visible events) history id = events ++ history := by
  unfold observe
  split
  · next hnone => exact (hafter.absent hnone).2.symm
  · next r hr =>
    have hticket := hafter.present r hr
    have hendings := hticket.endings
    rw [filterMap_append] at hendings
    -- the endings of the history are those of the request before
    have hold : history.filterMap ending =
        if (before.requests.lookup id).any (·.state.terminal) = true then
          ((before.requests.lookup id).map AsyncRequest.state).toList else [] := by
      cases hlookup : before.requests.lookup id with
      | none => rw [(hbefore.absent hlookup).2]; rfl
      | some r' =>
        rw [(hbefore.present r' hlookup).endings]
        rfl
    by_cases hover : r.state.terminal = true
    · rw [if_pos hover] at hendings
      by_cases hwas : (before.requests.lookup id).any (·.state.terminal) = true
      · rw [if_neg fun h => Bool.noConfusion (hwas.symm.trans h.2)]
        rw [hold, if_pos hwas] at hendings
        obtain ⟨r', hr', _⟩ := (any_eq_true _ _).mp hwas
        rw [hr'] at hendings
        have hnil : events.filterMap ending = [] := by
          have hlength := congrArg List.length hendings
          exact eq_nil_of_length_eq_zero (by simpa using hlength)
        rw [visible_eq_self hnil]
      · rw [if_pos ⟨hover, Bool.eq_false_iff.mpr hwas⟩]
        rw [hold, if_neg hwas, append_nil] at hendings
        have hhead := hticket.last hover
        cases events with
        | nil => cases hendings
        | cons event rest =>
          obtain rfl : event = ended r.state := some.inj hhead
          have hnil : rest.filterMap ending = [] := tail_eq_of_cons_eq hendings
          show ended r.state :: (visible rest ++ history) = _
          rw [visible_eq_self hnil]
          rfl
    · rw [if_neg fun h => hover h.1]
      rw [if_neg hover, append_eq_nil_iff] at hendings
      rw [visible_eq_self hendings.1]

theorem Followed.step (h : o.Followed) (hregular : call.2.Regular call.1) : (o.step call).Followed := by
  intro id
  rcases perform_follows h.sound hregular with ⟨events, hsteps, htold⟩ | ⟨hsilent, hpurged⟩
  · have hafter := (h id).moves (hsteps.moves id)
    show Kept (perform call.1 call.2 o.store).2.maxLeaseExpirations id ((perform call.1 call.2 o.store).2.row id)
      (observe o.store _ (told call.2 _ id) (o.history id) id)
    rw [← htold id, observe_eq _ (h id) hafter]
    exact hsteps.maximum.symm ▸ hafter
  · show Kept (perform call.1 call.2 o.store).2.maxLeaseExpirations id ((perform call.1 call.2 o.store).2.row id)
      (observe o.store _ (told call.2 _ id) (o.history id) id)
    rw [hsilent, hpurged.maximum]
    rcases hpurged.rows id with hsame | hgone
    · rw [hsame]
      have hobserve := observe_eq [] (h id) (hsame ▸ h id)
      rw [show (visible [] : List RequestEvent) = silent id from rfl] at hobserve
      rw [hobserve]
      exact h id
    · have hnone : (perform call.1 call.2 o.store).2.requests.lookup id = none := congrArg Row.request hgone
      rw [hgone]
      unfold observe
      rw [hnone]
      exact Kept.empty _ id

theorem Followed.run (h : o.Followed) (hregular : ∀ call ∈ calls, call.2.Regular call.1) : (o.run calls).Followed := by
  induction calls generalizing o with
  | nil => exact h
  | cons call calls ih =>
    obtain ⟨hcall, hcalls⟩ := forall_mem_cons.mp hregular
    exact ih (h.step hcall) hcalls

/-! ### Requests that are over -/

/-- No move touches a request that is over. -/
theorem moves_over {maximum : Nat} {row row' : Row} {events : List RequestEvent}
    (hmoves : Moves maximum id row events row') (hr : row.request = some r) (hover : r.state.terminal = true) :
    row'.request = some r := by
  induction hmoves with
  | refl => exact hr
  | tail _ hmove ih =>
    have hopen : ∀ {r' : AsyncRequest} {state : AsyncRequestState}, some r = some r' → r'.state = state →
        state.terminal = false → False := by
      rintro _ _ ⟨⟩ rfl hopen
      exact Bool.noConfusion (hover.symm.trans hopen)
    cases hmove with
    | create => cases ih
    | stillborn => cases ih
    | settle _ hr' hnot => exact (hopen (ih.symm.trans hr') rfl hnot).elim
    | lose => exact ih
    | claim hr' hqueued => exact (hopen (ih.symm.trans hr') hqueued rfl).elim
    | reclaim hr' hheld =>
      exact (hopen (ih.symm.trans hr') rfl (AsyncRequestState.terminal_of_held hheld)).elim
    | renew => exact ih
    | run hr' hclaimed => exact (hopen (ih.symm.trans hr') hclaimed rfl).elim
    | defer hr' hheld =>
      exact (hopen (ih.symm.trans hr') rfl (AsyncRequestState.terminal_of_held hheld)).elim

/-- In every state of a run the request is still there. -/
def Stays (o : Observed) (id : Text) (calls : List (Option Instant × Call)) : Prop :=
  ∀ first, first <+: calls → id ∈ (o.run first).store.requests

theorem Stays.cons (h : Stays o id (call :: calls)) :
    id ∈ (o.step call).store.requests ∧ Stays (o.step call) id calls := by
  constructor
  · exact h [call] (cons_prefix_cons.mpr ⟨rfl, nil_prefix⟩)
  · exact fun first hfirst => h (call :: first) (cons_prefix_cons.mpr ⟨rfl, hfirst⟩)

theorem step_over (h : o.Followed) (hregular : call.2.Regular call.1) (hr : o.store.requests.lookup id = some r)
    (hover : r.state.terminal = true) (hstays : id ∈ (o.step call).store.requests) :
    (o.step call).store.requests.lookup id = some r := by
  rcases perform_follows h.sound hregular with ⟨events, hsteps, _⟩ | ⟨_, hpurged⟩
  · exact moves_over (hsteps.moves id) hr hover
  · rcases hpurged.rows id with hsame | hgone
    · exact (congrArg Row.request hsame).trans hr
    · have hnone : (o.step call).store.requests.lookup id = none := congrArg Row.request hgone
      exact absurd hstays (AList.lookup_eq_none.mp hnone)

/-- What every call keeps of a store while a request is there. -/
theorem run_stays {P : RequestStore → Prop} (hstep : ∀ {o : Observed} {call}, o.Followed → call.2.Regular call.1 →
      P o.store → id ∈ (o.step call).store.requests → P (o.step call).store) (h : o.Followed)
    (hregular : ∀ call ∈ calls, call.2.Regular call.1) (hP : P o.store) (hstays : Stays o id calls) :
    P (o.run calls).store := by
  induction calls generalizing o with
  | nil => exact hP
  | cons call calls ih =>
    obtain ⟨hcall, hcalls⟩ := forall_mem_cons.mp hregular
    obtain ⟨hfirst, hrest⟩ := hstays.cons
    exact ih (h.step hcall) hcalls (hstep h hcall hP hfirst) hrest

theorem run_over (h : o.Followed) (hregular : ∀ call ∈ calls, call.2.Regular call.1)
    (hr : o.store.requests.lookup id = some r) (hover : r.state.terminal = true) (hstays : Stays o id calls) :
    (o.run calls).store.requests.lookup id = some r :=
  run_stays (P := fun s => s.requests.lookup id = some r) (fun h hcall hr => step_over h hcall hr hover) h hregular hr hstays

/-! ### Writing through a claim -/

/-- The claim that a call writes through. -/
def through : Call → Option RequestClaim
  | .renewClaim c _ | .defer c _ | .markRunning c | .succeed c _ | .fail c _ => some c
  | _ => none

theorem triple_const {α : Type} {P : RequestStore → Prop} {m : Op α} {φ : Prop} (h : ∀ s, P s → φ) :
    Triple P m (fun _ _ => φ) (fun _ _ => True) := by
  intro s hs
  rcases m s with ⟨_ | _, _⟩
  · trivial
  · exact h s hs

/-- Before a write returns, its claim has been accepted. -/
theorem write_accepted {s : RequestStore} (hs : Sound s) {clock : Option Instant} {call : Call} {c : RequestClaim}
    (hthrough : through call = some c) {answer : Answer} {s' : RequestStore}
    (hok : perform clock call s = (.ok answer, s')) : ∃ now r lease, clock = some now ∧ s.Accepted c now r lease := by
  have hvalidate : ∀ {α : Type} {c : RequestClaim} {f : Instant → AsyncRequest × Lease → Op α},
      Triple (· = s) (now clock >>= fun now => validateClaim c now >>= f now)
        (fun _ _ => ∃ now r lease, clock = some now ∧ s.Accepted c now r lease) (fun _ _ => True) := by
    intro α c f
    apply triple_check_bind (checks_now clock) fun _ _ => trivial
    intro now hnow
    apply triple_bind
    · exact triple_error (validateClaim_spec hs c now) (fun _ _ _ => trivial)
    · rintro ⟨r, lease⟩
      exact triple_const fun _ h => ⟨now, r, lease, hnow, h.2⟩
  have hanswer : ∀ {α : Type} {reply : α → Answer} {m : Op α} {φ : Prop},
      Triple (· = s) m (fun _ _ => φ) (fun _ _ => True) → answering reply m s = (.ok answer, s') → φ := by
    intro α reply m φ hm heq
    have hrun := hm s rfl
    rw [answering_run] at heq
    split at hrun
    · exact hrun
    · next hm' =>
      rw [hm'] at heq
      cases congrArg Prod.fst heq
  cases call with
  | renewClaim c' leaseSeconds =>
    obtain rfl := some.inj hthrough
    refine hanswer ?_ hok
    exact triple_check_bind (checks_validateLeaseSeconds leaseSeconds) (fun _ _ => trivial) fun _ _ => hvalidate
  | defer c' delaySeconds =>
    obtain rfl := some.inj hthrough
    refine hanswer ?_ hok
    exact triple_check_bind (checks_validateDeferSeconds delaySeconds) (fun _ _ => trivial) fun _ _ => hvalidate
  | markRunning c' =>
    obtain rfl := some.inj hthrough
    exact hanswer hvalidate hok
  | succeed c' result =>
    obtain rfl := some.inj hthrough
    exact hanswer hvalidate hok
  | fail c' error =>
    obtain rfl := some.inj hthrough
    exact hanswer hvalidate hok
  | submit | get | list | claimNext | cancel | purgeRetainedData => cases hthrough

/-! ### Idempotent submissions -/

/-- An accepted submission with a key is found under it. -/
theorem submit_entry {s : RequestStore} (hs : Sound s) (submission : AsyncRequestSubmission) (id : Text)
    (clock : Option Instant) : Triple (· = s) (submit submission id clock)
      (fun r s' => ∀ key, submission.idempotencyKey = some key →
        ∃ fingerprint, s'.idempotency.lookup (submission.owner, key) = some (fingerprint, r.id)) (fun _ _ => True) := by
  apply triple_check_bind (checks_now clock) fun _ _ => trivial
  intro now _
  apply triple_modify_bind
  have hs' := (expireDue_outcome hs now).sound hs
  apply triple_get_bind
  rintro s' rfl
  split
  · next fingerprint existing hentry =>
    apply triple_ite (fun _ => triple_raise fun _ _ => trivial)
    intro _
    refine triple_mono (checks_orRaise _ _) ?_ (fun _ _ _ => trivial)
    rintro r _ ⟨rfl, hr⟩ key hkey
    rw [hkey] at hentry
    rw [hs'.keyed hr]
    exact ⟨_, hentry⟩
  · unfold accept
    apply triple_get_bind
    rintro s' rfl
    apply triple_ite (fun _ => triple_raise fun _ _ => trivial)
    intro _
    apply triple_ite (fun _ => triple_raise fun _ _ => trivial)
    intro _
    apply triple_check_bind (checks_ofExcept _) fun _ _ => trivial
    intro _ _
    apply triple_modify_return
    intro key hkey
    refine ⟨fingerprint (s.expireDue now) submission, ?_⟩
    simp only [hkey, AList.lookup_insert]
    rfl

theorem step_entry (h : o.Followed) (hregular : call.2.Regular call.1) {key : Text × Text}
    (hentry : o.store.idempotency.lookup key = some entry) (hstays : entry.2 ∈ (o.step call).store.requests) :
    (o.step call).store.idempotency.lookup key = some entry := by
  rcases perform_follows h.sound hregular with ⟨_, hsteps, _⟩ | ⟨_, hpurged⟩
  · exact hsteps.idempotency key entry hentry
  · rcases hpurged.idempotency key entry hentry with hkept | hgone
    · exact hkept
    · exact absurd hstays (AList.lookup_eq_none.mp hgone)

theorem run_entry (h : o.Followed) (hregular : ∀ call ∈ calls, call.2.Regular call.1) {key : Text × Text}
    (hentry : o.store.idempotency.lookup key = some entry) (hstays : Stays o entry.2 calls) :
    (o.run calls).store.idempotency.lookup key = some entry :=
  run_stays (P := fun s => s.idempotency.lookup key = some entry) (fun h hcall => step_entry h hcall) h hregular hentry hstays

/-- The entry of a submission with the same key as an earlier one is that of the earlier one. -/
theorem submit_same {s : RequestStore} (hs : Sound s) {submission : AsyncRequestSubmission} {key : Text}
    (hkey : submission.idempotencyKey = some key) (hentry : s.idempotency.lookup (submission.owner, key) = some entry)
    {clock : Option Instant} {s' : RequestStore} (hok : submit submission id clock s = (.ok r, s')) :
    r.id = entry.2 := by
  have hnew := submit_entry hs submission id clock s rfl
  have hsteps := submit_spec hs submission id clock s rfl
  rw [hok] at hnew hsteps
  obtain ⟨_, hsteps, _⟩ := hsteps
  obtain ⟨fingerprint, hlookup⟩ := hnew key hkey
  have hsame := some.inj ((hsteps.idempotency _ _ hentry).symm.trans hlookup)
  rw [hsame]

/-! ### The lifecycle -/

/-- What holds of the requests of a store, and of the calls made from here on. -/
structure Lifecycle (o : Observed) : Prop where
  /-- A request has come to an end once or not at all. -/
  endings : ∀ id r, o.store.requests.lookup id = some r →
    (o.history id).filterMap ending = if r.state.terminal = true then [r.state] else []
  /-- A request that is over stays as it is, unless it is purged. -/
  final : ∀ id r calls, o.store.requests.lookup id = some r → r.state.terminal = true →
    (∀ call ∈ calls, Call.Regular call.1 call.2) → Stays o id calls → (o.run calls).store.requests.lookup id = some r
  /-- A write is accepted through the most recent claim only, while its lease lasts, and if
      nothing happened to the request since that claim was issued. -/
  fenced : ∀ clock call c answer after, through call = some c → perform clock call o.store = (.ok answer, after) →
    (o.history c.requestId).head? = some (issued c.workerId c.fencingToken) ∧
      ∃ now lease, clock = some now ∧ o.store.leases.lookup c.requestId = some lease ∧ now < lease.leaseUntil
  /-- Every claim has a larger token than the claims before it. -/
  tokens : ∀ id, ((o.history id).filterMap RequestEvent.token).Pairwise (· > ·)
  payload : ∀ id r, o.store.requests.lookup id = some r →
    (r.result.isSome = true ↔ r.state = .succeeded) ∧ (r.error.isSome = true ↔ r.state = .failed)
  leased : ∀ id r, o.store.requests.lookup id = some r → r.state.held = true →
    ∃ lease, o.store.leases.lookup id = some lease
  attempts : ∀ id r, o.store.requests.lookup id = some r →
    r.attempt = (o.history id).countP isIssue ∧
      r.attempt ≤ o.store.maxLeaseExpirations + (o.history id).countP isDefer
  /-- `claim_next` returns the first claimable request, or nothing when there is none. -/
  handed : ∀ workerId leaseSeconds now answer after, Lasting leaseSeconds →
    claimNext workerId leaseSeconds (some now) o.store = (.ok answer, after) → o.store.Handed now answer
  /-- It returns unless its arguments are refused or the end of the lease is no date. -/
  returns : ∀ workerId leaseSeconds clock e after, Lasting leaseSeconds →
    claimNext workerId leaseSeconds clock o.store = (.error e, after) →
      Refusable workerId leaseSeconds clock ∨
        e = .overflow ∧ ∃ seconds now, leaseSeconds = some seconds ∧ clock = some now ∧ Unrepresentable seconds now
  /-- Submissions with the same key return one request, until it is purged. -/
  idempotent : ∀ submission id clock r after calls submission' id' clock' r' after' key,
    submission.idempotencyKey = some key → submission'.idempotencyKey = some key → submission'.owner = submission.owner →
    submit submission id clock o.store = (.ok r, after) → (∀ call ∈ calls, Call.Regular call.1 call.2) →
    Stays (o.step (clock, .submit submission id)) r.id calls →
    submit submission' id' clock' ((o.step (clock, .submit submission id)).run calls).store = (.ok r', after') →
    r'.id = r.id

theorem Followed.lifecycle (h : o.Followed) (hmaximum : 1 ≤ o.store.maxLeaseExpirations) : Lifecycle o where
  endings id r hr := ((h id).present r hr).endings
  final id r calls hr hover hregular hstays := run_over h hregular hr hover hstays
  fenced := by
    intro clock call c answer after hthrough hok
    obtain ⟨now, r, lease, hnow, haccepted⟩ := write_accepted h.sound hthrough hok
    have hticket := (h c.requestId).present r haccepted.request
    refine ⟨?_, now, lease, hnow, haccepted.leased, haccepted.current⟩
    rw [hticket.latest lease haccepted.leased, haccepted.worker, haccepted.token]
  tokens := by
    intro id
    cases hr : o.store.requests.lookup id with
    | none =>
      rw [((h id).absent hr).2]
      exact List.Pairwise.nil
    | some r => exact ((h id).present r hr).fenced
  payload id r hr := ((h id).present r hr).payload
  leased := by
    intro id r hr hheld
    have hleased := ((h id).present r hr).leased
    rw [hheld] at hleased
    exact isSome_iff_exists.mp hleased.symm
  attempts := by
    intro id r hr
    have hticket := (h id).present r hr
    refine ⟨hticket.attempt, ?_⟩
    have hbound := hticket.bound
    omega
  handed := by
    intro workerId leaseSeconds now answer after hlasting hok
    have hrun := claimNext_spec h.sound workerId hlasting (some now) o.store rfl
    rw [hok] at hrun
    exact hrun.2 now rfl
  returns := by
    intro workerId leaseSeconds clock e after hlasting heq
    have hrun := claimNext_spec h.sound workerId hlasting clock o.store rfl
    rw [heq] at hrun
    exact hrun.2
  idempotent := by
    intro submission id clock r after calls submission' id' clock' r' after' key hkey hkey' howner hok hregular hstays hok'
    have hstep : (o.step (clock, .submit submission id)).Followed := h.step trivial
    have hafter : (o.step (clock, .submit submission id)).store = after := by
      show (answering _ _ _).2 = after
      rw [answering_run, hok]
    have hentry := submit_entry h.sound submission id clock o.store rfl
    rw [hok] at hentry
    obtain ⟨fingerprint, hlookup⟩ := hentry key hkey
    rw [← hafter, ← howner] at hlookup
    exact submit_same (hstep.run hregular).sound hkey' (run_entry hstep hregular hlookup hstays) hok'

theorem run_maximum (h : o.Followed) (hregular : ∀ call ∈ calls, call.2.Regular call.1) :
    (o.run calls).store.maxLeaseExpirations = o.store.maxLeaseExpirations := by
  induction calls generalizing o with
  | nil => rfl
  | cons call calls ih =>
    obtain ⟨hcall, hcalls⟩ := forall_mem_cons.mp hregular
    refine (ih (h.step hcall) hcalls).trans ?_
    rcases perform_follows h.sound hcall with ⟨_, hsteps, _⟩ | ⟨_, hpurged⟩
    · exact hsteps.maximum
    · exact hpurged.maximum

/-- A new store has no rows. -/
theorem create_followed {storeId : Text} {digest : AsyncRequestSubmission → Text} {maxRecordsPerOwner maxLeaseExpirations : Int}
    {store : RequestStore} (h : create storeId digest maxRecordsPerOwner maxLeaseExpirations = .ok store) :
    Followed { store } ∧ 1 ≤ store.maxLeaseExpirations := by
  unfold create at h
  simp only [Bind.bind] at h
  split at h
  · cases h
  · split at h
    · cases h
    · split at h
      · cases h
      · next hmaximum =>
        cases h
        refine ⟨fun id => Kept.empty _ id, ?_⟩
        simp only
        omega

/-- **The lifecycle of durable requests**, after every run whose leases last and whose
    deferrals end at some date. -/
theorem request_lifecycle {storeId : Text} {digest : AsyncRequestSubmission → Text}
    {maxRecordsPerOwner maxLeaseExpirations : Int} {store : RequestStore}
    (hcreate : create storeId digest maxRecordsPerOwner maxLeaseExpirations = .ok store)
    (calls : List (Option Instant × Call)) (hregular : ∀ call ∈ calls, Call.Regular call.1 call.2) :
    Lifecycle (run { store } calls) := by
  obtain ⟨hfollowed, hmaximum⟩ := create_followed hcreate
  apply (hfollowed.run hregular).lifecycle
  rw [run_maximum hfollowed hregular]
  exact hmaximum

/-! ### Leases that are rounded away and deferrals without an end -/

/-- A request of one owner, submitted at instant 0. -/
def letter : AsyncRequestSubmission := { owner := Text.of "o", endpoint := Text.of "/v1", body := [] }

/-- The claim of a worker on it. -/
def letterClaim (fencingToken : Nat) : RequestClaim where
  storeId := Text.of "m"
  request := { AsyncRequestSubmission.request letter (Text.of "r") 0 with state := .claimed }
  workerId := Text.of "w"
  fencingToken
  claimedAt := 0
  leaseUntil := 60

def letterStore (maxLeaseExpirations : Nat) : RequestStore :=
  { storeId := Text.of "m", digest := fun _ => [], maxRecordsPerOwner := 1, maxLeaseExpirations }

theorem lifecycle_letter : create (Text.of "m") (fun _ => []) 1 3 = .ok (letterStore 3) ∧
      Lifecycle (run { store := letterStore 3 }
        [(some 0, .submit letter (Text.of "r")), (some 0, .claimNext (Text.of "w") (some 60)),
          (some 1, .defer (letterClaim 1) (some 1))]) := by
  have hcreate : create (Text.of "m") (fun _ => []) 1 3 = .ok (letterStore 3) := rfl
  refine ⟨hcreate, request_lifecycle hcreate _ ?_⟩
  intro call hcall
  rcases mem_cons.mp hcall with rfl | hcall
  · trivial
  rcases mem_cons.mp hcall with rfl | hcall
  · rintro _ span ⟨⟩ hspan
    obtain rfl := some.inj ((show timedelta 60 = some 60000000 by decide +kernel).symm.trans hspan)
    decide
  · obtain rfl := mem_singleton.mp hcall
    rintro _ _ ⟨⟩ _ ⟨⟩
    exact ⟨1000000, 1000001, by decide +kernel, by decide +kernel⟩

/-- A claim with a lease of a tenth of a microsecond. -/
def shortLease : Observed :=
  run { store := letterStore 3 }
    [(some 0, .submit letter (Text.of "r")), (some 0, .claimNext (Text.of "w") (some (1 / 10 ^ 7)))]

/-- A deferral of `10 ^ 20` seconds, and the claim after it. -/
def endlessDeferral : Observed :=
  run { store := letterStore 1 }
    [(some 0, .submit letter (Text.of "r")), (some 0, .claimNext (Text.of "w") (some 60)),
      (some 1, .defer (letterClaim 1) (some (10 ^ 20))), (some 2, .claimNext (Text.of "w") (some 60))]

/-- The short lease is no lease: the request is claimed and counted, and the worker gets an
    error.  The endless deferral raises, and the request is back in the queue, to be claimed
    once more than its bound. -/
theorem attempts_without_claims : ((shortLease.store.requests.lookup (Text.of "r")).map (·.attempt) = some 1 ∧
      (shortLease.history (Text.of "r")).countP isIssue = 0) ∧
    (endlessDeferral.store.requests.lookup (Text.of "r")).map (·.attempt) = some 2 ∧
      endlessDeferral.store.maxLeaseExpirations + (endlessDeferral.history (Text.of "r")).countP isDefer = 1 := by
  decide +kernel

end Observed

end RequestStore

end Kairyu
