/-
  Kairyu/RunnerFailureGuardSnapshots.lean
  =======================================
  **Snapshots of the failure guard.**

  A snapshot derives every ledger from the observations and refuses a difference.  As long
  as the ledgers and the observations agree, it is valid, and the guard that it restores,
  which is the guard after a compaction, answers as the guard does.  An observation that only
  one of its domains keeps alive breaks it.
-/
import Kairyu.RunnerFailureGuardRuns

namespace Kairyu

open List RunnerFailureGuard RunnerFailureEvent RunnerFailureGuardSnapshot

namespace RunnerFailureGuard

variable {p : RunnerBackoffPolicy} {now : Instant} {states : States} {observations : Observations}

/-! ### The snapshot is valid -/

theorem firstError_ok {checks : List (Bool × String)} (h : ∀ check ∈ checks, check.1 = false) : firstError checks = .ok () := by
  induction checks with
  | nil => rfl
  | cons check checks ih =>
    obtain ⟨wrong, message⟩ := check
    obtain rfl : wrong = false := h _ mem_cons_self
    exact ih fun check hcheck => h check (mem_cons_of_mem _ hcheck)

theorem forM_ok {α : Type} {f : α → Except RunnerGuardError Unit} {list : List α} (h : ∀ a ∈ list, f a = .ok ()) :
    list.forM f = .ok () := by
  induction list with
  | nil => rfl
  | cons a list ih =>
    show (f a >>= fun _ => list.forM f) = .ok ()
    rw [h a mem_cons_self]
    exact ih fun b hb => h b (mem_cons_of_mem _ hb)

theorem sorted_keys {α κ : Type} [LinearOrder κ] {key : α → κ} (d : Keyed key) :
    (d.values.map key).insertionSort (· ≤ ·) = d.values.map key :=
  List.Pairwise.insertionSort_eq (pairwise_map.mpr (d.ordered.imp fun h => h.le))

/-- The snapshot of two dictionaries. -/
def snapshotOf (p : RunnerBackoffPolicy) (t : Instant) (states : States) (observations : Observations) :
    RunnerFailureGuardSnapshot :=
  { observedAt := t, policy := p, observations := observations.values, domains := states.values }

theorem stateOf_snapshotOf (d : RunnerFailureDomain) :
    (snapshotOf p now states observations).stateOf d = states.find d.identity := by
  unfold stateOf Keyed.find
  congr!

/-- As a compaction leaves the states. -/
def Current (p : RunnerBackoffPolicy) (now : Instant) (states : States) : Prop :=
  ∀ state ∈ states.values, (∀ until', state.quarantineUntil = some until' → now < until') ∧
    (state.quarantineUntil = none → ∀ e ∈ state.events, now - p.window ≤ e.failedAt)

theorem current_compactStates : Current p now (compactStates (now - p.window) now states) := by
  intro state' hstate'
  obtain ⟨state, _, hcompact⟩ := mem_filterMap.mp hstate'
  obtain rfl := compactState_some hcompact
  constructor
  · exact fun until' huntil => of_decide_eq_true (Option.filter_eq_some_iff.mp huntil).2
  · intro hnone e he
    simp only at hnone
    simp only [hnone] at he
    exact of_decide_eq_true (mem_filter.mp he).2

/-- The ledger that is derived from the observations is the one that is stored. -/
theorem Sound.expectedEvents (h : Sound p now states observations) (hcurrent : Current p now states)
    (d : RunnerFailureDomain) :
    (snapshotOf p now states observations).expectedEvents (now - p.window) d = ledger states d := by
  unfold RunnerFailureGuardSnapshot.expectedEvents
  rw [stateOf_snapshotOf]
  -- what the observations say about the domain
  show (sorted ((observations.values.filter fun o => decide (d ∈ o.domains ∧ (now - p.window ≤ o.failedAt ∨
    (states.find d.identity).any (·.quarantineUntil.isSome) = true))).map (·.event d))).rtake p.maxEventsPerDomain = _
  generalize hseen : observations.values.filter (fun o => decide (d ∈ o.domains ∧ (now - p.window ≤ o.failedAt ∨
    (states.find d.identity).any (·.quarantineUntil.isSome) = true))) = seen
  have hmem : ∀ e, e ∈ sorted (seen.map (·.event d)) ↔ ∃ o ∈ seen, o.event d = e := by
    intro e
    rw [(sorted_perm _).mem_iff, mem_map]
  have hids : ((seen.map (·.event d)).map (·.observationIdentity)).Nodup := by
    rw [map_map, ← hseen]
    exact observations.nodup.sublist (filter_sublist.map _)
  have hall := strictly_ordered (sorted_ordered (seen.map (·.event d)))
    (((sorted_perm _).map _).nodup_iff.mpr hids)
  have hnewest : ∀ e ∈ sorted (seen.map (·.event d)), Entered p (ledger states d) e := by
    intro e he
    obtain ⟨o, ho, rfl⟩ := (hmem e).mp he
    rw [← hseen] at ho
    obtain ⟨ho, hcase⟩ := mem_filter.mp ho
    obtain ⟨hd, hcase⟩ := of_decide_eq_true hcase
    refine h.recorded o ho d hd (hcase.imp_right fun hany => ?_)
    cases hfind : states.find d.identity with
    | none =>
      rw [hfind] at hany
      cases hany
    | some state =>
      rw [hfind] at hany
      obtain ⟨until', huntil⟩ := Option.isSome_iff_exists.mp hany
      exact ⟨state, hfind, until', huntil, (hcurrent state (mem_of_find hfind).1).1 until' huntil⟩
  cases hfind : states.find d.identity with
  | none =>
    simp only [ledger, hfind] at hnewest ⊢
    exact rtake_eq_of_newest List.Pairwise.nil hall (fun _ h => absurd h not_mem_nil) (Nat.zero_le _) hnewest
  | some state =>
    obtain ⟨hstate, rfl⟩ := mem_of_find hfind
    simp only [ledger, hfind] at hnewest ⊢
    have hsound := h.sound state hstate
    refine rtake_eq_of_newest hsound.valid.ordered hall (fun e he => (hmem e).mpr ?_) hsound.small hnewest
    obtain ⟨o, ho, hd, rfl⟩ := h.covered state hstate e he
    refine ⟨o, ?_, rfl⟩
    rw [← hseen]
    refine mem_filter.mpr ⟨ho, decide_eq_true ⟨hd, ?_⟩⟩
    rw [hfind]
    cases huntil : state.quarantineUntil with
    | none => exact Or.inl ((hcurrent state hstate).2 huntil _ he)
    | some until' => exact Or.inr (by rw [Option.any_some, huntil]; rfl)

/-- The deadline of a state follows from its evidence. -/
theorem checkDeadline_snapshotOf {state : RunnerFailureDomainState} (hp : p.Accepted) (h : state.Sound p now)
    (hcurrent : ∀ until', state.quarantineUntil = some until' → now < until') :
    (snapshotOf p now states observations).checkDeadline state = .ok () := by
  have hexpected : (snapshotOf p now states observations).expectedUntil state.events = .ok state.quarantineUntil := by
    unfold expectedUntil
    cases hlast : state.events.getLast? with
    | none =>
      have hshort : state.events.length < p.quarantineThreshold := by
        rw [List.getLast?_eq_none_iff.mp hlast]
        exact lt_of_lt_of_le Nat.two_pos hp.threshold.1
      rw [h.deadline.1 hshort]
    | some last =>
      dsimp only
      split
      · next hlong =>
        obtain ⟨until', hok, hcase⟩ := h.deadline.2 last hlast hlong
        show (instantAfter last.failedAt p.quarantine >>= fun candidate =>
          pure (if now < candidate then some candidate else none)) = _
        rw [hok]
        show Except.ok (if now < until' then some until' else none) = _
        rcases hcase with heq | ⟨hnone, hle⟩
        · rw [if_pos (hcurrent until' heq), heq]
        · rw [if_neg (not_lt.mpr hle), hnone]
      · next hshort => rw [h.deadline.1 (not_le.mp hshort)]
  unfold checkDeadline
  rw [hexpected]
  exact if_neg (not_not.mpr rfl)

/-- What `snapshot` makes of dictionaries that agree passes its own validation. -/
theorem Sound.validate (hp : p.Accepted) (h : Sound p now states observations) (hcurrent : Current p now states)
    (hretained : ∀ o ∈ observations.values, Retained (now - p.window) states.values o)
    (hcutoff : instantAfter now (-p.window) = .ok (now - p.window)) :
    (snapshotOf p now states observations).validate = .ok () := by
  unfold RunnerFailureGuardSnapshot.validate
  have hparts : ∀ o ∈ observations.values, o.Valid := fun o ho => (h.seen o ho).1
  dsimp only
  rw [firstError_ok (by
    simp only [forall_mem_cons, not_mem_nil, false_imp_iff, implies_true, and_true, decide_eq_false_iff_not,
      not_exists, not_and, not_not, not_lt]
    exact ⟨hparts, fun state hstate => (h.sound state hstate).valid, (sorted_keys observations).symm, observations.nodup,
      h.size, (sorted_keys states).symm, states.nodup, h.domains, fun state hstate => (h.sound state hstate).small,
      fun state hstate => (h.sound state hstate).past⟩)]
  show (instantAfter now (-p.window) >>= _) = _
  rw [hcutoff]
  dsimp only [bind, Except.bind]
  rw [firstError_ok (by
    simp only [forall_mem_cons, not_mem_nil, false_imp_iff, implies_true, and_true, decide_eq_false_iff_not,
      not_exists, not_and, not_or, not_not, not_lt]
    refine ⟨fun o ho => ⟨hretained o ho, (h.seen o ho).2⟩, fun state hstate e he => ?_⟩
    obtain ⟨o, ho, hd, rfl⟩ := h.covered state hstate e he
    exact ⟨o, ho, rfl, rfl, rfl, hd⟩)]
  have hdeadlines : (snapshotOf p now states observations).domains.forM (snapshotOf p now states observations).checkDeadline =
      .ok () := forM_ok fun state hstate => checkDeadline_snapshotOf hp (h.sound state hstate) (hcurrent state hstate).1
  rw [hdeadlines]
  refine firstError_ok ?_
  simp only [forall_mem_cons, not_mem_nil, false_imp_iff, implies_true, and_true, decide_eq_false_iff_not,
    not_exists, not_and, not_not]
  intro d _
  rw [h.expectedEvents hcurrent, stateOf_snapshotOf]
  rfl

/-! ### The restored guard -/

theorem roundHalfEven_nonneg {q : ℚ} (h : 0 ≤ q) : 0 ≤ roundHalfEven q := by
  have hfloor : 0 ≤ ⌊q⌋ := Int.floor_nonneg.mpr h
  unfold roundHalfEven
  dsimp only
  split
  · exact hfloor
  · split
    · omega
    · split <;> omega

theorem window_nonneg (hp : p.Accepted) : 0 ≤ p.window :=
  roundHalfEven_nonneg (mul_nonneg hp.window.1.le (by norm_num))

theorem instantAfter_window (hp : p.Accepted) (hmin : p.window ≤ now) (hmax : now ≤ maxInstant) :
    instantAfter now (-p.window) = .ok (now - p.window) := by
  have hfits : 0 ≤ now - p.window ∧ now - p.window ≤ maxInstant :=
    ⟨sub_nonneg.mpr hmin, (sub_le_self now (window_nonneg hp)).trans hmax⟩
  unfold instantAfter addSpan
  rw [← sub_eq_add_neg, if_pos hfits]

/-- A guard with what a compaction leaves. -/
def compacted (t : Instant) (g : RunnerFailureGuard) : RunnerFailureGuard :=
  { g with
    states := compactStates (t - g.policy.window) t g.states
    observations := compactObservations (t - g.policy.window) (compactStates (t - g.policy.window) t g.states)
      g.observations }

variable {g : RunnerFailureGuard}

/-- A guard in agreement gives a snapshot, and the snapshot the compacted guard. -/
theorem Kept.snapshot (hp : p.Accepted) (h : Kept p now g) (hmin : p.window ≤ now)
    (hmax : now ≤ maxInstant) : ∃ s, snapshot now g = (.ok s, { g with lastObservedAt := some now }) ∧
      fromSnapshot s = .ok (compacted now { g with lastObservedAt := some now }) := by
  obtain ⟨since, hsince, hsound⟩ := h.sound
  obtain rfl := h.policy
  have hcutoff := instantAfter_window hp hmin hmax
  have hafter := hsound.compact hsince
  have hvalidate := hafter.validate hp current_compactStates (fun o ho => of_decide_eq_true (mem_filter.mp ho).2) hcutoff
  have htime : g.checkTime now = .ok () := by
    refine if_neg fun hany => ?_
    cases hclock : g.lastObservedAt with
    | none =>
      rw [hclock] at hany
      cases hany
    | some t =>
      rw [hclock, Option.any_some, decide_eq_true_eq] at hany
      exact absurd (h.clock t hclock) (not_le.mpr hany)
  have hcompact : g.compact now = .ok ((compacted now g).states, (compacted now g).observations) := by
    unfold compact
    rw [hcutoff]
    refine if_neg ?_
    rintro ⟨state, hstate, hinvalid⟩
    exact hinvalid (hafter.sound state hstate).valid
  refine ⟨snapshotOf g.policy now (compacted now g).states (compacted now g).observations, ?_, ?_⟩
  · unfold snapshot capture
    rw [htime]
    dsimp only [bind, Except.bind]
    rw [hcompact]
    dsimp only
    erw [hvalidate]
    rfl
  · unfold fromSnapshot
    erw [hvalidate]
    show Except.ok _ = Except.ok _
    congr 1
    congr 1
    · exact Keyed.ofList_values _
    · exact Keyed.ofList_values _

variable {t : Instant} {g r : RunnerFailureGuard}

theorem filter_filter_after (hle : t ≤ now) (o : Option Instant) :
    (o.filter (t < ·)).filter (now < ·) = o.filter (now < ·) := by
  cases o with
  | none => rfl
  | some until' =>
    by_cases hlt : t < until'
    · rw [filter_after hlt]
    · have hnone : (some until').filter (t < ·) = none := Option.filter_some_neg (by simpa using hlt)
      have hnone' : (some until').filter (now < ·) = none := Option.filter_some_neg (by simpa using (not_lt.mp hlt).trans hle)
      rw [hnone, hnone']
      rfl

variable {cutoff cutoff' t : Instant}

theorem inWindow_keptEvents (hle : cutoff ≤ cutoff') (quarantineUntil : Option Instant)
    (events : List RunnerFailureEvent) :
    inWindow cutoff' (keptEvents cutoff quarantineUntil events) = inWindow cutoff' events := by
  unfold keptEvents
  split
  · rfl
  · unfold inWindow
    rw [filter_filter]
    refine filter_congr fun e _ => ?_
    rw [← Bool.decide_and]
    exact decide_eq_decide.mpr ⟨fun h => h.1, fun h => ⟨h, hle.trans h⟩⟩

/-- A compaction takes what an earlier one took. -/
theorem compactState_compactState (hle : t ≤ now) (hcutoff : cutoff ≤ cutoff')
    (state : RunnerFailureDomainState) :
    (compactState cutoff t state).bind (compactState cutoff' now) = compactState cutoff' now state := by
  have hquarantine := filter_filter_after hle state.quarantineUntil
  have hevents : keptEvents cutoff' (state.quarantineUntil.filter (now < ·))
      (keptEvents cutoff (state.quarantineUntil.filter (t < ·)) state.events) =
        keptEvents cutoff' (state.quarantineUntil.filter (now < ·)) state.events := by
    by_cases hsome : (state.quarantineUntil.filter (now < ·)).isSome = true
    · have hearlier : (state.quarantineUntil.filter (t < ·)).isSome = true := by
        rw [← hquarantine] at hsome
        exact Option.isSome_of_isSome_filter _ _ hsome
      unfold keptEvents
      rw [if_pos hsome, if_pos hsome, if_pos hearlier]
    · have hkept : ∀ events, keptEvents cutoff' (state.quarantineUntil.filter (now < ·)) events = inWindow cutoff' events :=
        fun events => if_neg hsome
      rw [hkept, hkept, inWindow_keptEvents hcutoff]
  unfold compactState
  dsimp only
  split
  · next hgone =>
    rw [hgone.1] at hevents
    rw [hgone.2] at hquarantine
    rw [← hevents, ← hquarantine]
    symm
    refine if_pos ⟨?_, rfl⟩
    exact ite_self _
  · rw [Option.bind_some]
    rw [hquarantine, hevents]

theorem compactStates_compactStates (hle : t ≤ now) (hcutoff : cutoff ≤ cutoff')
    (states : States) :
    compactStates cutoff' now (compactStates cutoff t states) = compactStates cutoff' now states := by
  refine Keyed.ext_values fun state => ?_
  unfold compactStates Keyed.filterMap
  dsimp only
  rw [filterMap_filterMap]
  simp only [compactState_compactState hle hcutoff]

theorem compactObservations_compactObservations (hle : t ≤ now) (hcutoff : cutoff ≤ cutoff')
    (states : States) (observations : Observations) : compactObservations cutoff' (compactStates cutoff' now states)
        (compactObservations cutoff (compactStates cutoff t states) observations) =
      compactObservations cutoff' (compactStates cutoff' now states) observations := by
  refine Keyed.ext_values fun o => ?_
  unfold compactObservations Keyed.filter
  simp only [mem_filter, decide_eq_true_eq, and_congr_left_iff, and_iff_left_iff_imp]
  rintro (hin | ⟨state', hstate', hsome, hevent⟩) _
  · exact Or.inl (hcutoff.trans hin)
  · -- the state that keeps it was in quarantine before
    rw [← compactStates_compactStates hle hcutoff] at hstate'
    obtain ⟨state, hstate, hcompact⟩ := mem_filterMap.mp hstate'
    refine Or.inr ⟨state, hstate, ?_⟩
    obtain rfl := compactState_some hcompact
    obtain ⟨e, he, hidentity⟩ := hevent
    exact ⟨Option.isSome_of_isSome_filter _ _ hsome, e, (keptEvents_sublist _ _ _).subset he, hidentity⟩

theorem checkTime_compacted (g : RunnerFailureGuard) : (compacted t g).checkTime now = g.checkTime now := rfl

theorem policy_compacted (g : RunnerFailureGuard) : (compacted t g).policy = g.policy := rfl

theorem compact_compacted (hle : t ≤ now) (g : RunnerFailureGuard) : (compacted t g).compact now = g.compact now := by
  unfold compact compacted
  cases hcutoff : instantAfter now (-g.policy.window) with
  | error e => rfl
  | ok cutoff' =>
    have hbefore : t - g.policy.window ≤ cutoff' := by
      rw [instantAfter_eq hcutoff]
      exact sub_le_sub_right hle _
    dsimp only [bind, Except.bind]
    rw [compactStates_compactStates hle hbefore, compactObservations_compactObservations hle hbefore]

theorem decisionForDomain_compacted (hle : t ≤ now) (g : RunnerFailureGuard) (d : RunnerFailureDomain)
    (hcutoff : instantAfter now (-g.policy.window) = .ok (now - g.policy.window)) :
    decisionForDomain g.policy (compacted t g).states now d = decisionForDomain g.policy g.states now d := by
  unfold decisionForDomain compacted compactStates
  rw [Keyed.find_filterMap]
  cases hfind : g.states.find d.identity with
  | none => rfl
  | some state =>
    obtain ⟨_, rfl⟩ := mem_of_find hfind
    have hevents := inWindow_keptEvents (sub_le_sub_right hle g.policy.window) (state.quarantineUntil.filter (t < ·)) state.events
    have hquarantine := filter_filter_after hle state.quarantineUntil
    rw [Option.bind_some]
    unfold compactState decisionFor
    rw [hcutoff]
    by_cases hgone : keptEvents (t - g.policy.window) (state.quarantineUntil.filter (t < ·)) state.events = [] ∧
        state.quarantineUntil.filter (t < ·) = none
    · rw [hgone.1] at hevents
      rw [hgone.2] at hquarantine
      rw [if_pos hgone]
      dsimp only [bind, Except.bind]
      rw [← hevents, ← hquarantine]
      rfl
    · rw [if_neg hgone]
      dsimp only [bind, Except.bind]
      rw [hevents, hquarantine]

/-! ### Two guards side by side -/

/-- A guard and the one that its snapshot at `t` restores, some calls later. -/
def Restored (t : Instant) (g r : RunnerFailureGuard) : Prop :=
  r = g ∨ r = compacted t g ∧ ∃ last, g.lastObservedAt = some last ∧ t ≤ last

/-- They give the same answer, and go on side by side. -/
def Alike {α : Type} (t : Instant) (original restored : α × RunnerFailureGuard) : Prop :=
  restored.1 = original.1 ∧ Restored t original.2 restored.2

theorem le_of_checkTime {last : Instant} (hlast : g.lastObservedAt = some last) (hle : t ≤ last)
    (h : g.checkTime now = .ok ()) : t ≤ now := by
  unfold checkTime at h
  split at h
  · cases h
  next hback =>
  rw [hlast, Option.any_some, decide_eq_true_eq] at hback
  exact hle.trans (not_lt.mp hback)

theorem observe_compacted {last : Instant} (hlast : g.lastObservedAt = some last) (hle : t ≤ last)
    (status : RunnerStatus) : (compacted t g).observe status now = g.observe status now := by
  unfold observe
  rw [checkTime_compacted]
  cases hcheck : g.checkTime now with
  | error e => rfl
  | ok _ => rw [compact_compacted (le_of_checkTime hlast hle hcheck)]

theorem Restored.recordNew (h : Restored t g (compacted t g)) (seen : RunnerFailureObservation) :
    Alike t (g.recordNew seen states observations now) ((compacted t g).recordNew seen states observations now) := by
  unfold RunnerFailureGuard.recordNew
  rw [policy_compacted]
  split
  · exact ⟨rfl, Or.inl rfl⟩
  split
  · exact ⟨rfl, h⟩
  split
  · exact ⟨rfl, Or.inl rfl⟩
  cases (seen.domains.map seen.event).foldlM (enterEvent g.policy) states with
  | error e => exact ⟨rfl, h⟩
  | ok states' =>
    dsimp only
    split
    · exact ⟨rfl, h⟩
    cases seen.domains.mapM (decisionForDomain g.policy states' now) with
    | error e => exact ⟨rfl, Or.inl rfl⟩
    | ok decisions => exact ⟨rfl, Or.inl rfl⟩

theorem Restored.record (h : Restored t g r) (status : RunnerStatus) :
    Alike t (record status now g) (record status now r) := by
  rcases h with rfl | ⟨rfl, last, hlast, hle⟩
  · exact ⟨rfl, Or.inl rfl⟩
  have hsame : Restored t g (compacted t g) := Or.inr ⟨rfl, last, hlast, hle⟩
  unfold record
  rw [observe_compacted hlast hle, policy_compacted]
  cases g.observe status now with
  | error e => exact ⟨rfl, hsame⟩
  | ok result =>
    obtain ⟨seen, states, observations⟩ := result
    dsimp only
    cases observations.find seen.identity with
    | some existing =>
      dsimp only
      split
      · exact ⟨rfl, hsame⟩
      cases seen.domains.mapM (decisionForDomain g.policy states now) with
      | error e => exact ⟨rfl, hsame⟩
      | ok decisions => exact ⟨rfl, Or.inl rfl⟩
    | none => exact hsame.recordNew seen

theorem Restored.stage (now : Instant) (statuses : List RunnerStatus) : ∀ {g r : RunnerFailureGuard}, Restored t g r →
    ((∃ e, stage now statuses g = .error e ∧ stage now statuses r = .error e) ∨
      ∃ decisions g' r', stage now statuses g = .ok (decisions, g') ∧
        stage now statuses r = .ok (decisions, r') ∧ Restored t g' r') := by
  induction statuses with
  | nil => exact fun h => Or.inr ⟨[], _, _, rfl, rfl, h⟩
  | cons status statuses ih =>
    intro g r h
    have halike : Alike t (RunnerFailureGuard.record status now g) (RunnerFailureGuard.record status now r) := h.record status
    unfold RunnerFailureGuard.stage
    cases hg : RunnerFailureGuard.record status now g with
    | mk answer g' =>
      cases hr : RunnerFailureGuard.record status now r with
      | mk answer' r' =>
        rw [hg, hr] at halike
        obtain ⟨rfl, hnext⟩ := halike
        cases answer' with
        | error e => exact Or.inl ⟨e, rfl, rfl⟩
        | ok decisions =>
          dsimp only
          rcases ih hnext with ⟨e, hg', hr'⟩ | ⟨more, g'', r'', hg', hr', hlast⟩
          · rw [hg', hr']
            exact Or.inl ⟨e, rfl, rfl⟩
          · rw [hg', hr']
            exact Or.inr ⟨_, g'', r'', rfl, rfl, hlast⟩

/-- The clock goes on, when it does not go back. -/
theorem Restored.tick (h : Restored t g r) (hle : t ≤ now) :
    Restored t { g with lastObservedAt := some now } { r with lastObservedAt := some now } := by
  rcases h with rfl | ⟨rfl, _⟩
  · exact Or.inl rfl
  · exact Or.inr ⟨rfl, now, rfl, hle⟩

section

variable {last : Instant} (hlast : g.lastObservedAt = some last) (hle : t ≤ last)
include hlast hle

theorem restored_compacted : Restored t g (compacted t g) := Or.inr ⟨rfl, last, hlast, hle⟩

theorem recordMany_compacted (statuses : List RunnerStatus) :
    Alike t (recordMany statuses now g) (recordMany statuses now (compacted t g)) := by
  have hsame := restored_compacted hlast hle
  unfold recordMany
  rw [checkTime_compacted]
  cases hcheck : g.checkTime now with
  | error e => exact ⟨rfl, hsame⟩
  | ok _ =>
    dsimp only
    split
    · exact ⟨rfl, hsame⟩
    rcases hsame.stage now ((statuses.filter fun status => status.failure.isSome).insertionSort
      fun a b => a.runnerId ≤ b.runnerId) with ⟨e, hg, hr⟩ | ⟨decisions, g', r', hg, hr, hnext⟩
    · rw [hg, hr]
      exact ⟨rfl, hsame⟩
    · rw [hg, hr]
      refine ⟨rfl, ?_⟩
      dsimp only
      split
      · exact hnext.tick (le_of_checkTime hlast hle hcheck)
      · exact hnext

theorem decision_compacted (d : RunnerFailureDomain)
    (hcutoff : t ≤ now → instantAfter now (-g.policy.window) = .ok (now - g.policy.window)) :
    Alike t (decision d now g) (decision d now (compacted t g)) := by
  have hsame := restored_compacted hlast hle
  unfold decision
  rw [checkTime_compacted, policy_compacted]
  cases hcheck : g.checkTime now with
  | error e => exact ⟨rfl, hsame⟩
  | ok _ =>
    have hnow := le_of_checkTime hlast hle hcheck
    rw [decisionForDomain_compacted hnow g d (hcutoff hnow)]
    cases decisionForDomain g.policy g.states now d with
    | error e => exact ⟨rfl, hsame⟩
    | ok decision => exact ⟨rfl, hsame.tick hnow⟩

theorem snapshot_compacted : Alike t (snapshot now g) (snapshot now (compacted t g)) := by
  have hsame := restored_compacted hlast hle
  have hcapture : capture (compacted t g) now = capture g now := by
    unfold capture
    rw [checkTime_compacted, policy_compacted]
    cases hcheck : g.checkTime now with
    | error e => rfl
    | ok _ => rw [compact_compacted (le_of_checkTime hlast hle hcheck)]
  unfold snapshot
  rw [hcapture]
  cases hdone : capture g now with
  | error e => exact ⟨rfl, hsame⟩
  | ok s =>
    obtain ⟨_, hcheck, _⟩ := Except.of_bind_ok hdone
    exact ⟨rfl, hsame.tick (le_of_checkTime hlast hle hcheck)⟩

end

theorem Alike.map {α β : Type} {original restored : α × RunnerFailureGuard} (h : Alike t original restored) (f : α → β) :
    Alike t (original.map f id) (restored.map f id) := ⟨congrArg f h.1, h.2⟩

theorem policy_recordNew (g : RunnerFailureGuard) (seen : RunnerFailureObservation) :
    (g.recordNew seen states observations now).2.policy = g.policy := by
  unfold recordNew
  repeat' split
  all_goals rfl

theorem policy_record (g : RunnerFailureGuard) (status : RunnerStatus) : (record status now g).2.policy = g.policy := by
  unfold record
  split
  · rfl
  · split
    · split
      · rfl
      · split <;> rfl
    · exact policy_recordNew g _

theorem policy_perform (g : RunnerFailureGuard) (call : Call) : (perform now call g).2.policy = g.policy := by
  cases call with
  | record status => exact policy_record g status
  | recordMany statuses =>
    exact recordMany_keeps (P := (·.policy = g.policy)) id (fun status h => (policy_record _ status).trans h) rfl statuses
  | decision d => exact decision_keeps (P := (·.policy = g.policy)) id rfl d
  | snapshot => exact snapshot_keeps (P := (·.policy = g.policy)) id rfl

theorem Restored.perform (h : Restored t g r) (call : Call)
    (hcutoff : t ≤ now → instantAfter now (-g.policy.window) = .ok (now - g.policy.window)) :
    Alike t (perform now call g) (perform now call r) := by
  rcases h with rfl | ⟨rfl, last, hlast, hle⟩
  · exact ⟨rfl, Or.inl rfl⟩
  cases call with
  | record status => exact ((restored_compacted hlast hle).record status).map _
  | recordMany statuses => exact (recordMany_compacted hlast hle statuses).map _
  | decision d => exact (decision_compacted hlast hle d hcutoff).map _
  | snapshot => exact (snapshot_compacted hlast hle).map _

/-- The restored guard answers every later call as the original does. -/
theorem Restored.run (hp : p.Accepted) (hmin : p.window ≤ t) (calls : List (Instant × Call)) :
    ∀ {g r : RunnerFailureGuard}, g.policy = p → Restored t g r → (∀ call ∈ calls, call.1 ≤ maxInstant) →
      (run calls r).1 = (run calls g).1 := by
  induction calls with
  | nil => exact fun _ _ _ => rfl
  | cons call calls ih =>
    intro g r hpolicy h hmax
    obtain ⟨now, call⟩ := call
    have hcutoff : t ≤ now → instantAfter now (-g.policy.window) = .ok (now - g.policy.window) := by
      intro hle
      rw [hpolicy]
      exact instantAfter_window hp (hmin.trans hle) (hmax _ mem_cons_self)
    have halike := h.perform call hcutoff
    exact congrArg₂ List.cons halike.1
      (ih ((policy_perform g call).trans hpolicy) halike.2 fun call hcall => hmax call (mem_cons_of_mem _ hcall))

/-! ### The main result -/

theorem sound_empty : Sound p now ∅ ∅ where
  sound _ h := absurd h not_mem_nil
  seen _ h := absurd h not_mem_nil
  covered _ h := absurd h not_mem_nil
  recorded _ h := absurd h not_mem_nil
  domains := Nat.zero_le _
  size := Nat.zero_le _

theorem exists_before (t : Instant) (times : List Instant) (h : (times ++ [t]).Pairwise (· ≤ ·)) :
    ∃ now, (now :: (times ++ [t])).Pairwise (· ≤ ·) := by
  cases times with
  | nil => exact ⟨t, pairwise_pair.mpr le_rfl⟩
  | cons first rest =>
    refine ⟨first, pairwise_cons.mpr ⟨fun later hlater => ?_, h⟩⟩
    rcases mem_cons.mp hlater with rfl | hlater
    · exact le_rfl
    · exact rel_of_pairwise_cons h hlater

/-- As long as what outlives the window is in quarantine in all of its domains whenever
    something is recorded, a snapshot is made, it can be restored, and the restored guard
    answers every later run of calls as the original does. -/
theorem snapshot_restores (hp : p.Accepted) (calls : List (Instant × Call)) (t : Instant)
    (hordered : (calls.map Prod.fst ++ [t]).Pairwise (· ≤ ·)) (hsettled : Conforming { policy := p } calls)
    (hmin : p.window ≤ t) (hmax : t ≤ maxInstant) :
    ∃ s r, (snapshot t (run calls { policy := p }).2).1 = .ok s ∧ fromSnapshot s = .ok r ∧
      ∀ later : List (Instant × Call), (∀ call ∈ later, call.1 ≤ maxInstant) →
        (run later r).1 = (run later (snapshot t (run calls { policy := p }).2).2).1 := by
  obtain ⟨now, hnow⟩ := exists_before t _ hordered
  have hstart : Kept p now { policy := p } := ⟨rfl, fun _ h => (by cases h), now, le_rfl, sound_empty⟩
  have hkept := hstart.run hp calls hnow hsettled
  obtain ⟨s, hsnapshot, hrestore⟩ := hkept.snapshot hp hmin hmax
  refine ⟨s, _, congrArg Prod.fst hsnapshot, hrestore, fun later hlater => ?_⟩
  rw [hsnapshot]
  exact Restored.run hp hmin later hkept.policy (Or.inr ⟨rfl, t, rfl, le_rfl⟩) hlater

theorem settledAt_of_recent (h : ∀ o ∈ g.observations.values, now - g.policy.window ≤ o.failedAt) :
    g.SettledAt now := by
  intro states observations hcompact o ho hout
  obtain ⟨_, _, rfl⟩ := compact_ok hcompact
  exact absurd (h o (mem_of_mem_filter ho)) (not_le.mpr hout)

/-- A failure of GPUs, reported when it happens. -/
def gpuCrash (runner : String) (t : Instant) (gpus : List Text) (h : gpus.Nodup) : RunnerStatus :=
  { runnerId := Text.of runner, releaseId := [], modelId := [], modelRevision := [], stateVersion := 0, stateChangedAt := t
    nodeName := none, gpuUuids := gpus, gpuUuids_nodup := h, startup := none
    failure := some { code := Text.of "xid", message := Text.of "m", domain := some .gpu } }

def twice : RunnerBackoffPolicy := { quarantineThreshold := 2 }

theorem accepted_twice : twice.Accepted := by
  constructor <;> decide +kernel

def instantOf (seconds : Nat) : Instant := (10000 + seconds) * 10 ^ 6

/-- Two failures, one of them on two GPUs. -/
def shared : List (Instant × Call) :=
  [(instantOf 0, .record (gpuCrash "1" (instantOf 0) [Text.of "a", Text.of "b"] (by decide))),
    (instantOf 1, .record (gpuCrash "2" (instantOf 1) [Text.of "a"] (by decide)))]

/-- The snapshot of a guard with a domain in quarantine. -/
theorem snapshot_restores_shared :
    (snapshot (instantOf 700) (run shared { policy := twice }).2).1.toOption.map (·.domains.length) = some 1 ∧
    ∃ s r, (snapshot (instantOf 700) (run shared { policy := twice }).2).1 = .ok s ∧ fromSnapshot s = .ok r ∧
      ∀ later : List (Instant × Call), (∀ call ∈ later, call.1 ≤ maxInstant) →
        (run later r).1 = (run later (snapshot (instantOf 700) (run shared { policy := twice }).2).2).1 := by
  refine ⟨by decide +kernel, snapshot_restores accepted_twice shared (instantOf 700) (by decide +kernel) ?_
    (by decide +kernel) (by decide +kernel)⟩
  exact ⟨settledAt_of_recent (by decide +kernel), settledAt_of_recent (by decide +kernel), trivial⟩

/-- The first failure is kept as evidence against one GPU, and is back in no ledger of the other
    when that one is in quarantine too. -/
theorem snapshot_refused : twice.Accepted ∧ (snapshot (instantOf 702) (run (shared ++
      [(instantOf 700, .record (gpuCrash "3" (instantOf 700) [Text.of "b"] (by decide))),
        (instantOf 701, .record (gpuCrash "4" (instantOf 701) [Text.of "b"] (by decide)))]) { policy := twice }).2).1 =
      .error (.invalid "failure domain ledger conflicts with its observations") :=
  ⟨accepted_twice, by decide +kernel⟩

end RunnerFailureGuard

end Kairyu
