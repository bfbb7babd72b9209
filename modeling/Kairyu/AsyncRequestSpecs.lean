/-
  Kairyu/AsyncRequestSpecs.lean
  =============================
  **Every operation of the request store moves requests along their lives.**

  `Outcome s s' answered` says that the store went from `s` to `s'` by moves of its rows,
  and that the claims issued and the deferrals made on the way are those the caller was told
  of.  One specification per operation.
-/
import Kairyu.RequestLifecycle

namespace Kairyu

open List AsyncRequestState AsyncRequest AList

open AsyncRequest (Row Move Moves Kept Payload)
open RequestEvent (issued deferred ended)

namespace RequestStore

open Effect

/-- What the store has about one identifier. -/
def row (s : RequestStore) (id : Text) : Row where
  request := s.requests.lookup id
  lease := s.leases.lookup id
  token := s.fencingTokens.lookup id
  expirations := s.leaseExpirations.lookup id

/-- Every row is one that moves lead to. -/
def Sound (s : RequestStore) : Prop := ∀ id, ∃ history, Kept s.maxLeaseExpirations id (s.row id) history

/-- The events a caller is told of. -/
def visible (events : List RequestEvent) : List RequestEvent := events.filter (·.ending.isNone)

/-- One store follows another by moves of its rows. -/
structure Steps (s s' : RequestStore) (events : Text → List RequestEvent) : Prop where
  maximum : s'.maxLeaseExpirations = s.maxLeaseExpirations
  storeId : s'.storeId = s.storeId
  idempotency : ∀ key entry, s.idempotency.lookup key = some entry → s'.idempotency.lookup key = some entry
  moves : ∀ id, Moves s.maxLeaseExpirations id (s.row id) (events id) (s'.row id)

def Outcome (s s' : RequestStore) (answered : Text → List RequestEvent) : Prop :=
  ∃ events, Steps s s' events ∧ ∀ id, visible (events id) = answered id

/-- The caller is told of no event. -/
def silent : Text → List RequestEvent := fun _ => []

/-- The caller is told of events of one request. -/
def telling (id : Text) (events : List RequestEvent) : Text → List RequestEvent := Function.update silent id events

variable {s s' s'' : RequestStore} {events : Text → List RequestEvent} {answered : Text → List RequestEvent}

/-! ### Composing outcomes -/

theorem Outcome.refl (s : RequestStore) : Outcome s s silent :=
  ⟨fun _ => [], ⟨rfl, rfl, fun _ _ h => h, fun _ => Moves.refl _⟩, fun _ => rfl⟩

theorem Steps.trans {events' : Text → List RequestEvent} (h : Steps s s' events) (h' : Steps s' s'' events') :
    Steps s s'' fun id => events' id ++ events id where
  maximum := h'.maximum.trans h.maximum
  storeId := h'.storeId.trans h.storeId
  idempotency key entry hentry := h'.idempotency key entry (h.idempotency key entry hentry)
  moves id := (h.moves id).trans (h.maximum ▸ h'.moves id)

theorem Outcome.trans (h : Outcome s s' silent) (h' : Outcome s' s'' answered) : Outcome s s'' answered := by
  obtain ⟨before, hbefore, hsilent⟩ := h
  obtain ⟨after, hafter, htold⟩ := h'
  refine ⟨_, hbefore.trans hafter, fun id => ?_⟩
  have hfirst : visible (before id) = [] := hsilent id
  rw [← htold id, ← append_nil (visible (after id)), ← hfirst]
  exact filter_append _ _

/-- A change of one row. -/
theorem Outcome.single (t : RequestStore) (change : Row → Row) {id : Text} (moved : List RequestEvent)
    (hmaximum : t.maxLeaseExpirations = s.maxLeaseExpirations) (hstore : t.storeId = s.storeId)
    (hidempotency : ∀ key entry, s.idempotency.lookup key = some entry → t.idempotency.lookup key = some entry)
    (hrow : ∀ other, t.row other = if other = id then change (s.row other) else s.row other)
    (hmove : Move s.maxLeaseExpirations id (s.row id) moved (change (s.row id))) :
    Outcome s t (telling id (visible moved)) := by
  refine ⟨telling id moved, ⟨hmaximum, hstore, hidempotency, fun other => ?_⟩, fun other => ?_⟩
  · unfold telling
    rw [hrow]
    by_cases hother : other = id
    · subst hother
      rw [if_pos rfl, Function.update_self]
      exact Moves.of_move hmove
    · rw [if_neg hother, Function.update_of_ne hother]
      exact Moves.refl _
  · unfold telling
    by_cases hother : other = id
    · subst hother
      rw [Function.update_self, Function.update_self]
    · rw [Function.update_of_ne hother, Function.update_of_ne hother]
      rfl

theorem telling_nil (id : Text) : telling id [] = silent := Function.update_eq_self id silent

theorem Steps.sound (h : Steps s s' events) (hs : Sound s) : Sound s' := by
  intro id
  obtain ⟨history, hk⟩ := hs id
  rw [h.maximum]
  exact ⟨_, hk.moves (h.moves id)⟩

theorem Outcome.sound (h : Outcome s s' answered) (hs : Sound s) : Sound s' := by
  obtain ⟨_, hsteps, _⟩ := h
  exact hsteps.sound hs

variable {r r' : AsyncRequest}

/-- A request that is stored, with what its row has in common with its history. -/
theorem Sound.ticket (hs : Sound s) {id : Text} (hr : s.requests.lookup id = some r) :
    ∃ history, Ticket s.maxLeaseExpirations id r (s.row id) history := by
  obtain ⟨history, hk⟩ := hs id
  exact ⟨history, hk.present r hr⟩

theorem Sound.keyed (hs : Sound s) {id : Text} (hr : s.requests.lookup id = some r) : r.id = id := by
  obtain ⟨_, hticket⟩ := hs.ticket hr
  exact hticket.id

theorem Sound.payload (hs : Sound s) {id : Text} (hr : s.requests.lookup id = some r) : r.Payload := by
  obtain ⟨_, hticket⟩ := hs.ticket hr
  exact hticket.payload

/-! ### Changes of one row -/

theorem row_conclude (s : RequestStore) (r : AsyncRequest) (id : Text) : (s.conclude r).row id =
      if id = r.id then { s.row id with request := some r, lease := none, token := (s.row id).token.map (· + 1) }
      else s.row id := by
  unfold conclude row
  simp only [lookup_insert_if, lookup_erase_if, lookup_modify]
  split <;> rfl

/-- A record takes the place of one with the same identifier. -/
theorem Outcome.conclude (moved : List RequestEvent) (hr : s.requests.lookup r.id = some r) (hid : r'.id = r.id)
    (hmove : ∀ row : Row, row.request = some r → Move s.maxLeaseExpirations r.id row moved
      { row with request := some r', lease := none, token := row.token.map (· + 1) }) :
    Outcome s (s.conclude r') (telling r.id (visible moved)) := by
  refine Outcome.single (s.conclude r')
    (fun row => { row with request := some r', lease := none, token := row.token.map (· + 1) }) moved rfl rfl
    (fun _ _ h => h) (fun other => ?_) (hmove (s.row r.id) hr)
  rw [row_conclude, hid]

/-- A request comes to its end. -/
theorem Outcome.settle (hr : s.requests.lookup r.id = some r) (hopen : r.state.terminal = false)
    (hid : r'.id = r.id) (hattempt : r'.attempt = r.attempt) (hover : r'.state.terminal = true)
    (hpayload : r'.Payload) : Outcome s (s.conclude r') silent := by
  have hended : visible [ended r'.state] = [] := rfl
  have h := Outcome.conclude [ended r'.state] hr hid fun row hrow =>
    Move.settle _ hrow hopen hid hattempt hover hpayload (.inr rfl)
  rw [hended, telling_nil] at h
  exact h

/-! ### Expiring by deadline -/

/-- The row of a request whose deadline has passed. -/
def expiredRow (now : Instant) (row : Row) : Row :=
  { row with
    request := row.request.map fun r => { r with state := .expired, updatedAt := now, completedAt := some now }
    lease := none
    token := row.token.map (· + 1) }

theorem row_expireRequest (hr : s.requests.lookup r.id = some r) (now : Instant) (id : Text) :
    (s.expireRequest now r).row id = if id = r.id then expiredRow now (s.row id) else s.row id := by
  unfold expireRequest
  rw [row_conclude]
  by_cases hid : id = r.id
  · subst hid
    have hrow : (s.row r.id).request = some r := hr
    unfold expiredRow
    rw [hrow]
    rfl
  · rw [if_neg hid, if_neg hid]

theorem row_expireLoop (now : Instant) (id : Text) (l : List AsyncRequest) : ∀ {s : RequestStore},
    (l.map AsyncRequest.id).Nodup → (∀ r ∈ l, s.requests.lookup r.id = some r) →
    (l.foldl (expireRequest now) s).row id = if id ∈ l.map AsyncRequest.id then expiredRow now (s.row id) else s.row id := by
  induction l with
  | nil => exact fun _ _ => rfl
  | cons r l ih =>
    intro s hnodup hlookup
    obtain ⟨hr, hl⟩ := forall_mem_cons.mp hlookup
    obtain ⟨hnot, hnodup⟩ := nodup_cons.mp hnodup
    have hne : ∀ r' ∈ l, r'.id ≠ r.id := fun r' hr' heq => hnot (heq ▸ mem_map_of_mem hr')
    rw [foldl_cons, ih hnodup]
    · by_cases hid : id = r.id
      · subst hid
        rw [if_neg hnot, row_expireRequest hr, if_pos rfl, map_cons, if_pos mem_cons_self]
      · rw [row_expireRequest hr, if_neg hid]
        simp only [map_cons, mem_cons, hid, false_or]
    · intro r' hr'
      have hrow := row_expireRequest hr now r'.id
      rw [if_neg (hne r' hr')] at hrow
      exact (congrArg Row.request hrow).trans (hl r' hr')

theorem mem_records (hs : Sound s) : r ∈ s.records ↔ s.requests.lookup r.id = some r := by
  unfold records
  rw [mem_map]
  constructor
  · rintro ⟨⟨id, r'⟩, hmem, rfl⟩
    have hlookup := mem_entries_iff.mp hmem
    rw [hs.keyed hlookup]
    exact hlookup
  · exact fun h => ⟨⟨r.id, r⟩, mem_entries_iff.mpr h, rfl⟩

theorem nodup_records (hs : Sound s) : (s.records.map AsyncRequest.id).Nodup := by
  have hkeys : s.records.map AsyncRequest.id = s.requests.entries.map Sigma.fst := by
    unfold records
    rw [map_map]
    apply map_congr_left
    rintro ⟨id, r⟩ hmem
    exact hs.keyed (mem_entries_iff.mp hmem)
  rw [hkeys]
  exact s.requests.nodupKeys

theorem row_expireDue (hs : Sound s) (now : Instant) (id : Text) : (s.expireDue now).row id =
      if ∃ r, s.requests.lookup id = some r ∧ due now r = true then expiredRow now (s.row id) else s.row id := by
  unfold expireDue
  rw [← foldl_filter, row_expireLoop now id]
  · apply if_congr _ rfl rfl
    simp only [mem_map, mem_filter, mem_records hs]
    constructor
    · rintro ⟨r, ⟨hr, hdue⟩, rfl⟩
      exact ⟨r, hr, hdue⟩
    · rintro ⟨r, hr, hdue⟩
      have hid := hs.keyed hr
      subst hid
      exact ⟨r, ⟨hr, hdue⟩, rfl⟩
  · exact (nodup_records hs).sublist (filter_sublist.map _)
  · exact fun r hr => (mem_records hs).mp (mem_filter.mp hr).1

theorem due_open {now : Instant} (hdue : due now r = true) : r.state.terminal = false := by
  unfold due at hdue
  rw [Bool.and_eq_true, Bool.not_eq_true'] at hdue
  exact hdue.1

/-- What expiring by deadline leaves alone. -/
theorem expireDue_frame (now : Instant) (s : RequestStore) :
    (s.expireDue now).maxLeaseExpirations = s.maxLeaseExpirations ∧ (s.expireDue now).storeId = s.storeId ∧
      (s.expireDue now).idempotency = s.idempotency ∧ (s.expireDue now).ownerNotBefore = s.ownerNotBefore := by
  unfold expireDue
  generalize s.records = l
  induction l generalizing s with
  | nil => exact ⟨rfl, rfl, rfl, rfl⟩
  | cons r l ih =>
    rw [foldl_cons]
    split
    · exact ih _
    · exact ih s

theorem expireDue_outcome (hs : Sound s) (now : Instant) : Outcome s (s.expireDue now) silent := by
  obtain ⟨hmaximum, hstore, hidempotency, _⟩ := expireDue_frame now s
  refine ⟨fun id => if ∃ r, s.requests.lookup id = some r ∧ due now r = true then [ended .expired] else [],
    ⟨hmaximum, hstore, fun _ _ h => by rw [hidempotency]; exact h, fun id => ?_⟩, fun id => ?_⟩
  · rw [row_expireDue hs]
    split
    · next hdue =>
      obtain ⟨r, hr, hdue⟩ := hdue
      have hrow : (s.row id).request = some r := hr
      have hopen := due_open hdue
      apply Moves.of_move
      have hexpired : expiredRow now (s.row id) =
          { s.row id with
            request := some { r with state := .expired, updatedAt := now, completedAt := some now }
            lease := none
            token := (s.row id).token.map (· + 1) } := by
        unfold expiredRow
        rw [hrow]
        rfl
      rw [hexpired]
      exact Move.settle { r with state := .expired, updatedAt := now, completedAt := some now } hrow hopen rfl rfl rfl
        (Payload.of_clear ((hs.payload hr).clear hopen) noConfusion noConfusion)
        (.inr rfl)
    · exact Moves.refl _
  · show visible (if _ then _ else _) = []
    split <;> rfl

/-- After expiring by deadline no request is due. -/
theorem expireDue_due (hs : Sound s) {now : Instant} {id : Text}
    (hr : (s.expireDue now).requests.lookup id = some r) : due now r = false := by
  have hrow : ((s.expireDue now).row id).request = some r := hr
  rw [row_expireDue hs] at hrow
  split at hrow
  · next hdue =>
    obtain ⟨r', hr', _⟩ := hdue
    have hrow' : (s.row id).request = some r' := hr'
    unfold expiredRow at hrow
    rw [hrow'] at hrow
    obtain rfl := Option.some.inj hrow
    rfl
  · next hdue =>
    exact Bool.eq_false_iff.mpr fun hd => hdue ⟨r, hrow, hd⟩

/-! ### Checks -/

theorem checks_orRaise {α : Type} (e : StoreError) (o : Option α) :
    Checks s (orRaise e o) (fun a => o = some a) (fun e' => e' = e ∧ o = none) := by
  cases o with
  | none => exact checks_raise ⟨rfl, rfl⟩
  | some a => exact checks_pure rfl

theorem checks_ofExcept {α : Type} (x : Except StoreError α) :
    Checks s (ofExcept x) (fun a => x = .ok a) (fun e => x = .error e) := by
  rintro _ rfl
  cases x with
  | error e => exact ⟨rfl, rfl⟩
  | ok a => exact ⟨rfl, rfl⟩

theorem checks_now (clock : Option Instant) : Checks s (now clock) (fun n => clock = some n) (fun _ => clock = none) :=
  (checks_orRaise _ clock).weaken (fun _ h => h) (fun _ h => h.2)

theorem checks_load (id : Text) (owner : Option Text) :
    Checks s (load id owner) (fun r => s.requests.lookup id = some r) (fun e => e = .keyError id) := by
  apply checks_get_bind
  split
  · exact checks_raise rfl
  · next r hr => exact checks_ite (fun _ => checks_raise rfl) (fun _ => checks_pure hr)

theorem checks_validateLeaseSeconds (seconds : Option ℚ) :
    Checks s (validateLeaseSeconds seconds) (fun q => seconds = some q) (fun _ => ∀ q, seconds = some q → q ≤ 0) := by
  unfold validateLeaseSeconds
  split
  · exact checks_raise nofun
  · next q =>
    refine checks_ite (fun h => checks_raise ?_) (fun _ => checks_pure rfl)
    rintro _ ⟨⟩
    exact h

theorem checks_validateDeferSeconds (seconds : Option ℚ) :
    Checks s (validateDeferSeconds seconds) (fun q => seconds = some q) (fun _ => True) := by
  unfold validateDeferSeconds
  split
  · exact checks_raise trivial
  · exact checks_ite (fun _ => checks_raise trivial) (fun _ => checks_pure rfl)

/-- The lease ends after `now` when its length is not rounded away and the deadline is ahead. -/
theorem checks_leaseUntil (r : AsyncRequest) (now : Instant) (seconds : ℚ) : Checks s (leaseUntil r now seconds)
      (fun later => ∃ span, timedelta seconds = some span ∧
        (0 < span → (r.deadlineAt.any fun deadline => decide (deadline ≤ now)) = false → now < later))
      (fun e => e = .overflow ∧
        (timedelta seconds = none ∨ ∃ span, timedelta seconds = some span ∧ addSpan now span = none)) := by
  refine triple_check_bind (checks_orRaise _ _) (fun e h => ⟨rfl, h.1, .inl h.2⟩) fun span hspan => ?_
  refine triple_check_bind (checks_orRaise _ _) (fun e h => ⟨rfl, h.1, .inr ⟨span, hspan, h.2⟩⟩) fun later hlater => ?_
  apply checks_pure
  refine ⟨span, hspan, fun hpos hdeadline => ?_⟩
  have heq := addSpan_eq_some hlater
  have hlt : now < later := heq ▸ Int.lt_add_of_pos_right now hpos
  split
  · next deadline hsome =>
    rw [hsome, Option.any_some, decide_eq_false_iff_not, not_le] at hdeadline
    exact lt_min hlt hdeadline
  · exact hlt

theorem checks_claim (r : AsyncRequest) (lease : Lease) : Checks s (claim r lease)
      (fun c => c.request = r ∧ c.workerId = lease.workerId ∧ c.fencingToken = lease.fencingToken)
      (fun _ => lease.leaseUntil ≤ lease.claimedAt ∨ r.state.held = false) := by
  apply checks_get_bind
  apply triple_check_bind (checks_ofExcept _)
  · intro e h
    unfold RequestClaim.validate at h
    split at h
    · next hle => exact ⟨rfl, .inl hle⟩
    · split at h
      · next hheld => exact ⟨rfl, .inr hheld⟩
      · cases h
  · exact fun _ _ => checks_pure ⟨rfl, rfl, rfl⟩

/-- What a claim that is accepted has. -/
structure Accepted (s : RequestStore) (c : RequestClaim) (now : Instant) (r : AsyncRequest) (lease : Lease) : Prop where
  request : s.requests.lookup c.requestId = some r
  leased : s.leases.lookup c.requestId = some lease
  worker : lease.workerId = c.workerId
  token : lease.fencingToken = c.fencingToken
  current : now < lease.leaseUntil
  held : r.state.held = true
  ahead : (r.deadlineAt.any fun deadline => decide (deadline ≤ now)) = false

theorem validateClaim_spec (hs : Sound s) (c : RequestClaim) (now : Instant) :
    Triple (· = s) (validateClaim c now) (fun x s' => s' = s ∧ s.Accepted c now x.1 x.2)
      (fun _ s' => Outcome s s' silent) := by
  apply triple_get_bind
  rintro s rfl
  have hrefl : ∀ {e : StoreError}, Triple (· = s) (Effect.raise e : Op (AsyncRequest × Lease))
      (fun x s' => s' = s ∧ s.Accepted c now x.1 x.2) (fun _ s' => Outcome s s' silent) := by
    intro e
    apply triple_raise_at
    exact Outcome.refl _
  apply triple_ite (fun _ => hrefl)
  intro _
  split
  · next r lease hr hlease =>
    apply triple_ite (fun _ => hrefl)
    intro hvalid
    push Not at hvalid
    obtain ⟨hworker, htoken, hcurrent, hheld⟩ := hvalid
    have hheld : r.state.held = true := Bool.eq_true_of_not_eq_false hheld
    apply triple_ite
    · intro _
      apply triple_modify_raise
      have hid := hs.keyed hr
      rw [← hid] at hr
      have hopen := terminal_of_held hheld
      exact Outcome.settle hr hopen rfl rfl rfl
        (Payload.of_clear ((hs.payload hr).clear hopen) noConfusion noConfusion)
    · intro hahead
      apply triple_return
      exact ⟨rfl, hr, hlease, hworker, htoken, hcurrent, hheld, Bool.eq_false_iff.mpr hahead⟩
  · exact hrefl

/-! ### Submitting and reading -/

/-- The specification of an operation. -/
abbrev Spec {α : Type} (s : RequestStore) (m : Op α) (answered : α → Text → List RequestEvent) : Prop :=
  Triple (· = s) m (fun a s' => Outcome s s' (answered a)) (fun _ s' => Outcome s s' silent)

theorem Spec.after {α : Type} {m : Op α} {told : α → Text → List RequestEvent} (h : Outcome s s' silent)
    (hm : Spec s' m told) :
    Triple (· = s') m (fun a s'' => Outcome s s'' (told a)) (fun _ s'' => Outcome s s'' silent) :=
  triple_mono hm (fun _ _ h' => h.trans h') (fun _ _ h' => h.trans h')

variable {ψ : StoreError → Prop}

/-- A check changes nothing. -/
theorem spec_check_bind {α β : Type} {m : Op α} {f : α → Op β} {φ : α → Prop}
    {told : β → Text → List RequestEvent} (hm : Checks s m φ ψ) (hf : ∀ a, φ a → Spec s (f a) told) :
    Spec s (m >>= f) told := by
  apply triple_check_bind hm (fun _ _ => Outcome.refl s)
  exact hf

theorem spec_of_checks {α : Type} {m : Op α} {φ : α → Prop} (hm : Checks s m φ ψ) : Spec s m (fun _ => silent) := by
  refine triple_mono hm ?_ ?_
  · rintro _ _ ⟨rfl, _⟩
    exact Outcome.refl _
  · rintro _ _ ⟨rfl, _⟩
    exact Outcome.refl _

theorem spec_raise {α : Type} (e : StoreError) (told : α → Text → List RequestEvent) :
    Spec s (Effect.raise e : Op α) told := by
  apply triple_raise_at
  exact Outcome.refl _

theorem spec_expireDue_bind {β : Type} (hs : Sound s) (now : Instant) {f : Unit → Op β}
    {told : β → Text → List RequestEvent} (hf : Sound (s.expireDue now) → Spec (s.expireDue now) (f ()) told) :
    Spec s (Effect.modify (expireDue now) >>= f) told := by
  have hexpire := expireDue_outcome hs now
  apply triple_modify_bind
  exact Spec.after hexpire (hf (hexpire.sound hs))

theorem request_payload (submission : AsyncRequestSubmission) (id : Text) (now : Instant) :
    (AsyncRequestSubmission.request submission id now).Payload := by
  apply Payload.of_clear ⟨rfl, rfl⟩
  · show (if _ then _ else _ : AsyncRequestState) ≠ _
    split <;> exact fun h => noConfusion h
  · show (if _ then _ else _ : AsyncRequestState) ≠ _
    split <;> exact fun h => noConfusion h

theorem accept_spec (hs : Sound s) (submission : AsyncRequestSubmission) (id : Text) (now : Instant)
    (hfree : (submission.idempotencyKey.bind fun key => s.idempotency.lookup (submission.owner, key)) = none) :
    Spec s (accept submission id now) (fun _ => silent) := by
  apply triple_get_bind
  rintro s rfl
  apply triple_ite (fun _ => spec_raise _ _)
  intro _
  apply triple_ite (fun _ => spec_raise _ _)
  intro hnew
  apply spec_check_bind (checks_ofExcept _)
  intro _ _
  apply triple_modify_return
  have hnone : s.requests.lookup id = none := lookup_eq_none.mpr hnew
  have hrow : s.row id = {} := by
    obtain ⟨_, hk⟩ := hs id
    exact (hk.absent hnone).1
  set request := AsyncRequestSubmission.request submission id now with hrequest
  have hpayload : request.Payload := request_payload submission id now
  have hmoved : ∃ moved, visible moved = [] ∧
      Move s.maxLeaseExpirations id {} moved { request := some request, token := some 0 } := by
    by_cases hexpired : (submission.deadlineAt.any fun deadline => decide (deadline ≤ now)) = true
    · exact ⟨[ended .expired], rfl, Move.stillborn rfl rfl (if_pos hexpired) hpayload⟩
    · exact ⟨[], rfl, Move.create rfl rfl (if_neg hexpired) hpayload⟩
  obtain ⟨moved, hvisible, hmove⟩ := hmoved
  rw [← hrow] at hmove
  rw [← telling_nil id, ← hvisible]
  refine Outcome.single _ (fun row => { row with request := some request, token := some 0 }) moved rfl rfl ?_
    (fun other => ?_) (by rw [hrow] at hmove ⊢; exact hmove)
  swap
  · unfold row
    simp only [lookup_insert_if]
    split <;> rfl
  intro key entry hentry
  split
  · exact hentry
  · next used hused =>
    rw [hused, Option.bind_some] at hfree
    rw [lookup_insert_ne]
    · exact hentry
    · rintro rfl
      rw [hfree] at hentry
      cases hentry

theorem submit_spec (hs : Sound s) (submission : AsyncRequestSubmission) (id : Text) (clock : Option Instant) :
    Spec s (submit submission id clock) (fun _ => silent) := by
  apply spec_check_bind (checks_now clock)
  intro now _
  apply spec_expireDue_bind hs
  intro hs
  apply triple_get_bind
  rintro s' rfl
  split
  · next entry hentry =>
    apply triple_ite (fun _ => spec_raise _ _)
    exact fun _ => spec_of_checks (checks_orRaise _ _)
  · next hfree => exact accept_spec hs submission id now hfree

theorem get_spec (hs : Sound s) (id : Text) (owner : Option Text) (clock : Option Instant) :
    Spec s (get id owner clock) (fun _ => silent) := by
  apply spec_check_bind (checks_now clock)
  intro now _
  apply spec_expireDue_bind hs
  exact fun _ => spec_of_checks (checks_load id owner)

theorem list_spec (hs : Sound s) (owner : Option Text) (state : Option AsyncRequestState) (limit : Int)
    (clock : Option Instant) : Spec s (list owner state limit clock) (fun _ => silent) := by
  apply triple_ite (fun _ => spec_raise _ _)
  intro _
  apply spec_check_bind (checks_now clock)
  intro now _
  apply spec_expireDue_bind hs
  intro _
  apply spec_of_checks (φ := fun _ => True) (ψ := fun _ => True)
  exact checks_get_bind (checks_pure trivial)

/-! ### Writing through a claim -/

variable {c : RequestClaim}

theorem spec_validateClaim_bind {β : Type} (hs : Sound s) {now : Instant} {f : AsyncRequest × Lease → Op β}
    {told : β → Text → List RequestEvent}
    (hf : ∀ r lease, s.Accepted c now r lease → Spec s (f (r, lease)) told) : Spec s (validateClaim c now >>= f) told := by
  apply triple_bind (validateClaim_spec hs c now)
  rintro ⟨r, lease⟩ _ ⟨rfl, haccepted⟩
  exact hf r lease haccepted _ rfl

theorem Accepted.id {now : Instant} {lease : Lease} (h : s.Accepted c now r lease)
    (hs : Sound s) : r.id = c.requestId := hs.keyed h.request

theorem Accepted.lookup {now : Instant} {lease : Lease} (h : s.Accepted c now r lease)
    (hs : Sound s) : s.requests.lookup r.id = some r := (h.id hs).symm ▸ h.request

/-- A record is replaced, and nothing else. -/
theorem Outcome.replace (hr : s.requests.lookup r.id = some r)
    (hmove : ∀ row : Row, row.request = some r → Move s.maxLeaseExpirations r.id row [] { row with request := some r' }) :
    Outcome s { s with requests := s.requests.insert r.id r' } silent := by
  rw [← telling_nil r.id]
  refine Outcome.single _ (fun row => { row with request := some r' }) [] rfl rfl (fun _ _ h => h) (fun other => ?_)
    (hmove (s.row r.id) hr)
  unfold row
  simp only [lookup_insert_if]
  split <;> rfl

theorem renewClaim_spec (hs : Sound s) (c : RequestClaim) (leaseSeconds : Option ℚ) (clock : Option Instant) :
    Spec s (renewClaim c leaseSeconds clock) (fun _ => silent) := by
  apply spec_check_bind (checks_validateLeaseSeconds leaseSeconds)
  intro seconds _
  apply spec_check_bind (checks_now clock)
  intro now _
  apply spec_validateClaim_bind hs
  intro r lease haccepted
  apply spec_check_bind (checks_leaseUntil r now seconds)
  intro leaseUntil _
  apply triple_modify_bind
  refine Spec.after ?_ (spec_of_checks (checks_claim _ _))
  have hid := haccepted.id hs
  rw [← telling_nil r.id]
  refine Outcome.single _ (fun row => { row with lease := some { lease with leaseUntil } }) [] rfl rfl
    (fun _ _ h => h) (fun other => ?_) (Move.renew (haccepted.lookup hs) (hid.symm ▸ haccepted.leased))
  unfold row
  simp only [lookup_insert_if]
  split <;> rfl

theorem markRunning_spec (hs : Sound s) (c : RequestClaim) (clock : Option Instant) :
    Spec s (markRunning c clock) (fun _ => silent) := by
  apply spec_check_bind (checks_now clock)
  intro now _
  apply spec_validateClaim_bind hs
  intro r lease haccepted
  apply triple_ite (fun _ => spec_raise _ _)
  intro hclaimed
  apply triple_modify_return
  exact Outcome.replace (haccepted.lookup hs) fun row hrow => Move.run hrow (not_not.mp hclaimed)

/-- What the checks of a finished record come to. -/
theorem payload_of_validate (h : r.validate = .ok ()) : r.Payload := by
  unfold validate at h
  have hterminal : r.terminalPayload = .ok () := by
    cases hpayload : r.terminalPayload with
    | ok _ => rfl
    | error e =>
      simp only [hpayload] at h
      split at h <;> try cases h
      split at h <;> cases h
  unfold terminalPayload at hterminal
  unfold Payload
  split at hterminal
  · next hstate =>
    split at hterminal
    · cases hterminal
    · next hok =>
      push Not at hok
      rw [hstate, hok.2]
      exact ⟨iff_of_true (Option.isSome_iff_ne_none.mpr hok.1) rfl, iff_of_false Bool.false_ne_true nofun⟩
  · next hsucceeded =>
    split at hterminal
    · next hstate =>
      split at hterminal
      · cases hterminal
      · next hok =>
        push Not at hok
        rw [hstate, hok.2]
        exact ⟨iff_of_false Bool.false_ne_true nofun, iff_of_true (Option.isSome_iff_ne_none.mpr hok.1) rfl⟩
    · next hfailed =>
      split at hterminal
      · cases hterminal
      · next hok =>
        push Not at hok
        exact Payload.of_clear hok hsucceeded hfailed

theorem finish_spec (hs : Sound s) (c : RequestClaim) {state : AsyncRequestState} (hover : state.terminal = true)
    (result : Option JsonFields) (error : Option AsyncRequestError) (clock : Option Instant) :
    Spec s (finish c state result error clock) (fun _ => silent) := by
  apply spec_check_bind (checks_now clock)
  intro now _
  apply spec_validateClaim_bind hs
  intro r lease haccepted
  apply triple_ite (fun _ => spec_raise _ _)
  intro _
  apply spec_check_bind (checks_ofExcept _)
  intro _ hvalid
  apply triple_modify_return
  have hopen := terminal_of_held haccepted.held
  have hpayload := payload_of_validate hvalid
  rw [← telling_nil r.id]
  have hrow : (s.row r.id).request = some r := haccepted.lookup hs
  refine Outcome.single _ (fun row => { row with request := some _, lease := none }) [ended state] rfl rfl
    (fun _ _ h => h) (fun other => ?_) (Move.settle
      { r with state, updatedAt := now, completedAt := some now, result, error } hrow hopen rfl rfl hover hpayload (.inl rfl))
  unfold row
  simp only [lookup_insert_if, lookup_erase_if]
  split <;> rfl

/-- The delay of a deferral can be added to the clock. -/
def Addable (delaySeconds : Option ℚ) (clock : Option Instant) : Prop :=
  ∀ seconds now, delaySeconds = some seconds → 0 < seconds → clock = some now →
    ∃ span later, timedelta seconds = some span ∧ addSpan now span = some later

theorem defer_spec (hs : Sound s) (c : RequestClaim) {delaySeconds : Option ℚ} {clock : Option Instant}
    (haddable : Addable delaySeconds clock) :
    Spec s (defer c delaySeconds clock) (fun _ => telling c.requestId [deferred]) := by
  apply spec_check_bind (checks_validateDeferSeconds delaySeconds)
  intro seconds hseconds
  apply spec_check_bind (checks_now clock)
  intro now hnow
  apply spec_validateClaim_bind hs
  intro r lease haccepted
  have hid := haccepted.id hs
  have hconclude : Outcome s (s.conclude { r with state := .queued, updatedAt := now }) (telling c.requestId [deferred]) := by
    rw [← hid]
    exact Outcome.conclude [deferred] (haccepted.lookup hs) rfl fun row hrow => Move.defer hrow haccepted.held
  apply triple_modify_bind
  apply triple_ite
  · intro hpos
    obtain ⟨span, later, hspan, hlater⟩ := haddable seconds now hseconds hpos hnow
    apply triple_check_bind (checks_orRaise _ _)
    · rintro _ ⟨_, hnone⟩
      rw [hspan] at hnone
      cases hnone
    · intro span' hspan'
      obtain rfl := Option.some.inj (hspan.symm.trans hspan')
      apply triple_check_bind (checks_orRaise _ _)
      · rintro _ ⟨_, hnone⟩
        rw [hlater] at hnone
        cases hnone
      · intro later' _
        apply triple_modify_return
        obtain ⟨events, hsteps, htold⟩ := hconclude
        exact ⟨events, ⟨hsteps.maximum, hsteps.storeId, hsteps.idempotency, hsteps.moves⟩, htold⟩
  · intro _
    apply triple_return
    exact hconclude

theorem cancel_spec (hs : Sound s) (id : Text) (owner : Option Text) (clock : Option Instant) :
    Spec s (cancel id owner clock) (fun _ => silent) := by
  apply spec_check_bind (checks_now clock)
  intro now _
  apply spec_expireDue_bind hs
  intro hs
  apply spec_check_bind (checks_load id owner)
  intro r hr
  apply triple_ite
  · exact fun _ => spec_of_checks (φ := fun _ => True) (ψ := fun _ => True) (checks_pure trivial)
  · intro hopen
    apply triple_modify_return
    have hid := hs.keyed hr
    rw [← hid] at hr
    have hopen : r.state.terminal = false := Bool.eq_false_iff.mpr hopen
    exact Outcome.settle hr hopen rfl rfl rfl
      (Payload.of_clear ((hs.payload hr).clear hopen) noConfusion noConfusion)

end RequestStore

end Kairyu
