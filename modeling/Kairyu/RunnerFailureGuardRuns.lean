/-
  Kairyu/RunnerFailureGuardRuns.lean
  ==================================
  **The ledgers of the failure guard and its observations.**

  The ledger of a domain holds the newest events of the observations in it that are in the
  failure window, and of all of them while the domain is in quarantine.  Recording keeps that
  true as long as every observation that has outlived the window is in quarantine in all of
  its domains.
-/
import Kairyu.RunnerFailureGuard
import Kairyu.Effect

namespace Kairyu

open List RunnerFailureEvent Option Keyed RunnerFailureDomain

/-! ### The newest of a sorted list -/

section

variable {α κ : Type} [LinearOrder κ] {rank : α → κ} {k : Nat} {ledger all : List α}

/-- What is left out by taking the last ones is below everything that is taken. -/
theorem mem_rtake_or (h : all.Pairwise fun a b => rank a ≤ rank b) {a : α} (ha : a ∈ all) :
    a ∈ all.rtake k ∨ (all.rtake k).length = k ∧ ∀ b ∈ all.rtake k, rank a ≤ rank b := by
  unfold List.rtake
  rw [← take_append_drop (all.length - k) all] at ha h
  rcases mem_append.mp ha with ha | ha
  · refine Or.inr ⟨?_, fun b hb => (pairwise_append.mp h).2.2 a ha b hb⟩
    have hpos : 0 < (all.take (all.length - k)).length := length_pos_of_mem ha
    rw [length_take] at hpos
    rw [length_drop]
    omega
  · exact Or.inl ha

/-- A ledger that has the newest of a list is its end. -/
theorem rtake_eq_of_newest [DecidableEq α] (hledger : ledger.Pairwise fun a b => rank a < rank b)
    (hall : all.Pairwise fun a b => rank a < rank b) (hsub : ∀ a ∈ ledger, a ∈ all) (hk : ledger.length ≤ k)
    (hnewest : ∀ a ∈ all, a ∈ ledger ∨ ledger.length = k ∧ ∀ b ∈ ledger, rank a ≤ rank b) : all.rtake k = ledger := by
  have hnodup : ∀ {list : List α}, list.Pairwise (fun a b => rank a < rank b) → list.Nodup := fun h =>
    h.imp fun hlt heq => absurd (congrArg rank heq) hlt.ne
  have hsplit : all.filter (fun a => decide (a ∉ ledger)) ++ ledger = all := by
    have hperm : (all.filter (fun a => decide (a ∉ ledger)) ++ ledger).Perm all := by
      apply (perm_ext_iff_of_nodup ?_ (hnodup hall)).mpr
      · intro a
        rw [mem_append, mem_filter, decide_eq_true_eq]
        by_cases ha : a ∈ ledger
        · exact ⟨fun _ => hsub a ha, fun _ => Or.inr ha⟩
        · exact ⟨fun h => h.elim And.left fun h => absurd h ha, fun h => Or.inl ⟨h, ha⟩⟩
      · refine nodup_append.mpr ⟨(hnodup hall).filter _, hnodup hledger, ?_⟩
        rintro a ha b hb rfl
        exact of_decide_eq_true (mem_filter.mp ha).2 hb
    refine hperm.eq_of_pairwise (fun a b _ _ hab hba => absurd hba hab.not_gt) ?_ hall
    refine pairwise_append.mpr ⟨hall.filter _, hledger, fun a ha b hb => ?_⟩
    obtain ⟨ha, hnot⟩ := mem_filter.mp ha
    have hnot := of_decide_eq_true hnot
    have hle := ((hnewest a ha).resolve_left hnot).2 b hb
    refine lt_of_le_of_ne hle fun heq => hnot ?_
    have hinj := inj_on_of_nodup_map (pairwise_map.mpr (hall.imp fun h => h.ne)) ha (hsub b hb) heq
    exact hinj ▸ hb
  unfold List.rtake
  rw [← hsplit, length_append]
  rcases eq_nil_or_concat' (all.filter fun a => decide (a ∉ ledger)) with hnil | ⟨older, a, hconcat⟩
  · rw [hnil, length_nil, Nat.zero_add, nil_append, Nat.sub_eq_zero_of_le hk, drop_zero]
  · have ha : a ∈ all.filter fun a => decide (a ∉ ledger) := by
      rw [hconcat]
      exact mem_append_right _ mem_cons_self
    obtain ⟨ha, hnot⟩ := mem_filter.mp ha
    rw [((hnewest a ha).resolve_left (of_decide_eq_true hnot)).1, Nat.add_sub_cancel, drop_left]

end

/-! ### Ledgers -/

theorem RunnerFailureDomain.identity_injective {d d' : RunnerFailureDomain} (h : d.identity = d'.identity) : d = d' := by
  have hne : Text.of "node" ≠ Text.of "gpu" := by decide
  cases d <;> cases d' <;> simp_all [identity]

namespace RunnerFailureEvent

theorem sorted_perm (events : List RunnerFailureEvent) : (sorted events).Perm events := perm_insertionSort _ _

theorem sorted_ordered (events : List RunnerFailureEvent) : (sorted events).Pairwise fun a b => a.rank ≤ b.rank :=
  pairwise_insertionSort _ _

variable {a b : RunnerFailureEvent}

theorem observationIdentity_of_rank (h : a.rank = b.rank) :
    a.observationIdentity = b.observationIdentity := congrArg (fun r => (ofLex r).2) h

theorem failedAt_of_rank (h : a.rank ≤ b.rank) : a.failedAt ≤ b.failedAt :=
  (Prod.Lex.le_iff.mp h).elim le_of_lt fun h => h.1.le

/-- Events of different observations, in order. -/
theorem strictly_ordered {events : List RunnerFailureEvent} (h : events.Pairwise fun a b => a.rank ≤ b.rank)
    (hnodup : (events.map (·.observationIdentity)).Nodup) : events.Pairwise fun a b => a.rank < b.rank :=
  (h.and (pairwise_map.mp hnodup)).imp fun ⟨hle, hne⟩ =>
    lt_of_le_of_ne hle fun heq => hne (observationIdentity_of_rank heq)

end RunnerFailureEvent

variable {state state' : RunnerFailureDomainState}

theorem RunnerFailureDomainState.Valid.ordered (h : state.Valid) : state.events.Pairwise fun a b => a.rank < b.rank :=
  strictly_ordered (h.1 ▸ sorted_ordered _) h.2.2

/-- Events are left out of a ledger. -/
theorem RunnerFailureDomainState.Valid.sublist (h : state.Valid)
    (hdomain : state'.domain = state.domain) (hsub : state'.events.Sublist state.events) : state'.Valid := by
  refine ⟨List.Pairwise.insertionSort_eq ?_, ?_, h.2.2.sublist (hsub.map _)⟩
  · exact (h.ordered.sublist hsub).imp fun hlt => hlt.le
  · exact fun e he => (h.2.1 e (hsub.subset he)).trans hdomain.symm

theorem keptEvents_sublist (cutoff : Instant) (quarantineUntil : Option Instant) (events : List RunnerFailureEvent) :
    (keptEvents cutoff quarantineUntil events).Sublist events := by
  unfold keptEvents
  split
  · exact List.Sublist.refl _
  · exact filter_sublist

variable {now later cutoff : Instant}

/-- The newest event stays as long as any. -/
theorem getLast_inWindow {events : List RunnerFailureEvent} (h : events.Pairwise fun a b => a.rank < b.rank)
    {last : RunnerFailureEvent} (hlast : (inWindow cutoff events).getLast? = some last) :
    events.getLast? = some last := by
  rcases eq_nil_or_concat' events with rfl | ⟨older, newest, rfl⟩
  · exact hlast
  · rw [List.getLast?_concat]
    unfold inWindow at hlast
    rw [filter_append] at hlast
    by_cases hin : cutoff ≤ newest.failedAt
    · rw [filter_cons_of_pos (by exact decide_eq_true hin), filter_nil, List.getLast?_concat] at hlast
      exact hlast
    · -- nothing is left
      exfalso
      have hmem := mem_of_getLast? hlast
      rw [mem_append, mem_filter, mem_filter, decide_eq_true_eq] at hmem
      rcases hmem with ⟨hmem, hle⟩ | ⟨hmem, hle⟩
      · have hlt := (pairwise_append.mp h).2.2 last hmem newest mem_cons_self
        exact hin (hle.trans (failedAt_of_rank hlt.le))
      · obtain rfl := mem_singleton.mp hmem
        exact hin hle

/-! ### States -/

theorem instantAfter_eq {t : Instant} {span : Int} (h : instantAfter t span = .ok later) : later = t + span := by
  unfold instantAfter at h
  split at h
  · next later' hadd =>
    cases h
    exact addSpan_eq_some hadd
  · cases h

theorem filter_after {until' : Instant} (h : now < until') : (some until').filter (now < ·) = some until' :=
  filter_some_pos (by exact decide_eq_true h)

/-- The quarantine of a domain is that of its evidence, unless it is past. -/
def Until (p : RunnerBackoffPolicy) (now : Instant) (events : List RunnerFailureEvent) (quarantineUntil : Option Instant) :
    Prop :=
  (events.length < p.quarantineThreshold → quarantineUntil = none) ∧
    ∀ last, events.getLast? = some last → p.quarantineThreshold ≤ events.length →
      ∃ until', instantAfter last.failedAt p.quarantine = .ok until' ∧
        (quarantineUntil = some until' ∨ quarantineUntil = none ∧ until' ≤ now)

/-- A state in order at an instant. -/
structure RunnerFailureDomainState.Sound (p : RunnerBackoffPolicy) (now : Instant) (state : RunnerFailureDomainState) :
    Prop where
  valid : state.Valid
  small : state.events.length ≤ p.maxEventsPerDomain
  past : ∀ e ∈ state.events, e.failedAt ≤ now
  deadline : Until p now state.events state.quarantineUntil

theorem RunnerFailureDomainState.Sound.compact {p : RunnerBackoffPolicy} (h : state.Sound p now) (hlater : now ≤ later)
    (hcompact : compactState cutoff later state = some state') : state'.Sound p later := by
  obtain rfl := compactState_some hcompact
  have hsub := keptEvents_sublist cutoff (state.quarantineUntil.filter (later < ·)) state.events
  refine ⟨h.valid.sublist rfl hsub, hsub.length_le.trans h.small, fun e he => (h.past e (hsub.subset he)).trans hlater, ?_⟩
  by_cases hquarantined : (state.quarantineUntil.filter (later < ·)).isSome = true
  · -- the quarantine goes on, with its evidence
    have hsame : state.quarantineUntil.filter (later < ·) = state.quarantineUntil := by
      cases huntil : state.quarantineUntil with
      | none => rfl
      | some until' =>
        rw [huntil, isSome_filter] at hquarantined
        exact filter_some_pos hquarantined
    unfold keptEvents
    rw [if_pos hquarantined, hsame]
    refine ⟨h.deadline.1, fun last hlast hlen => ?_⟩
    obtain ⟨until', hok, heq | ⟨hnone, hle⟩⟩ := h.deadline.2 last hlast hlen
    · exact ⟨until', hok, Or.inl heq⟩
    · exact ⟨until', hok, Or.inr ⟨hnone, hle.trans hlater⟩⟩
  · -- it is over, or there was none
    have hnone : state.quarantineUntil.filter (later < ·) = none := not_isSome_iff_eq_none.mp hquarantined
    unfold keptEvents
    rw [hnone]
    refine ⟨fun _ => rfl, fun last hlast hlen => ?_⟩
    have hlong : p.quarantineThreshold ≤ state.events.length := hlen.trans filter_sublist.length_le
    obtain ⟨until', hok, hcase⟩ := h.deadline.2 last (getLast_inWindow h.valid.ordered hlast) hlong
    refine ⟨until', hok, Or.inr ⟨rfl, ?_⟩⟩
    rcases hcase with heq | ⟨_, hle⟩
    · rw [heq] at hnone
      exact not_lt.mp fun hlt => some_ne_none _ ((filter_after hlt).symm.trans hnone)
    · exact hle.trans hlater

/-! ### The dictionaries -/

namespace RunnerFailureGuard

variable {p : RunnerBackoffPolicy} {now later : Instant} {states states' : States} {observations : Observations}

/-- The ledger of a domain, empty when there is no state. -/
def ledger (states : States) (d : RunnerFailureDomain) : List RunnerFailureEvent :=
  ((states.find d.identity).map (·.events)).getD []

def Quarantined (states : States) (now : Instant) (d : RunnerFailureDomain) : Prop :=
  ∃ state, states.find d.identity = some state ∧ ∃ until', state.quarantineUntil = some until' ∧ now < until'

/-- An event is in its ledger, or older than a full ledger. -/
def Entered (p : RunnerBackoffPolicy) (ledger : List RunnerFailureEvent) (event : RunnerFailureEvent) : Prop :=
  event ∈ ledger ∨ ledger.length = p.maxEventsPerDomain ∧ ∀ e ∈ ledger, event.rank ≤ e.rank

/-- The dictionaries agree, at the instant of their last compaction. -/
structure Sound (p : RunnerBackoffPolicy) (now : Instant) (states : States) (observations : Observations) : Prop where
  sound : ∀ state ∈ states.values, state.Sound p now
  seen : ∀ o ∈ observations.values, o.Valid ∧ o.failedAt ≤ now
  covered : ∀ state ∈ states.values, ∀ e ∈ state.events,
    ∃ o ∈ observations.values, state.domain ∈ o.domains ∧ e = o.event state.domain
  recorded : ∀ o ∈ observations.values, ∀ d ∈ o.domains, now - p.window ≤ o.failedAt ∨ Quarantined states now d →
    Entered p (ledger states d) (o.event d)
  domains : states.values.length ≤ p.maxDomains
  size : observations.values.length ≤ p.maxObservations

variable {d : RunnerFailureDomain}

theorem mem_of_find {state : RunnerFailureDomainState} (h : states.find d.identity = some state) :
    state ∈ states.values ∧ state.domain = d := by
  obtain ⟨hmem, hkey⟩ := find_eq_some.mp h
  exact ⟨hmem, identity_injective hkey⟩

/-- A quarantine that goes on keeps the state as it is. -/
theorem find_compact_quarantined (cutoff : Instant) (h : Quarantined states later d) :
    (compactStates cutoff later states).find d.identity = states.find d.identity := by
  obtain ⟨state, hfind, until', huntil, hlt⟩ := h
  unfold compactStates
  rw [find_filterMap, hfind, bind_some]
  unfold compactState keptEvents
  have hfilter : state.quarantineUntil.filter (later < ·) = some until' := by
    rw [huntil]
    exact filter_after hlt
  simp only [hfilter, isSome_some, if_true, reduceCtorEq, and_false, if_false]
  rw [← huntil]

theorem quarantined_compact (cutoff : Instant) :
    Quarantined (compactStates cutoff later states) later d ↔ Quarantined states later d := by
  constructor
  · rintro ⟨state', hfind, until', huntil, hlt⟩
    unfold compactStates at hfind
    rw [find_filterMap] at hfind
    obtain ⟨state, hstate, hcompact⟩ := bind_eq_some_iff.mp hfind
    obtain rfl := compactState_some hcompact
    exact ⟨state, hstate, until', (filter_eq_some_iff.mp huntil).1, hlt⟩
  · intro h
    have hfind := find_compact_quarantined cutoff h
    obtain ⟨state, hstate, hrest⟩ := h
    exact ⟨state, hfind.trans hstate, hrest⟩

theorem Quarantined.mono (h : Quarantined states later d) (hle : now ≤ later) : Quarantined states now d := by
  obtain ⟨state, hfind, until', huntil, hlt⟩ := h
  exact ⟨state, hfind, until', huntil, hle.trans_lt hlt⟩

/-- Without a quarantine the events in the window are left. -/
theorem ledger_compact (cutoff : Instant) (h : ¬ Quarantined states later d) :
    ledger (compactStates cutoff later states) d = inWindow cutoff (ledger states d) := by
  unfold ledger compactStates
  rw [find_filterMap]
  cases hfind : states.find d.identity with
  | none => rfl
  | some state =>
    have hnone : state.quarantineUntil.filter (later < ·) = none := by
      refine eq_none_iff_forall_not_mem.mpr fun until' hmem => h ?_
      obtain ⟨huntil, hlt⟩ := filter_eq_some_iff.mp hmem
      exact ⟨state, hfind, until', huntil, of_decide_eq_true hlt⟩
    rw [bind_some]
    unfold compactState keptEvents
    simp only [hnone, isSome_none, Bool.false_eq_true, if_false, and_true]
    split
    · next hempty => exact hempty.symm
    · rfl

/-- What is left of a ledger after a compaction. -/
theorem Sound.compact (h : Sound p now states observations) (hle : now ≤ later) :
    Sound p later (compactStates (later - p.window) later states)
      (compactObservations (later - p.window) (compactStates (later - p.window) later states) observations) where
  sound := by
    intro state' hstate'
    obtain ⟨state, hstate, hcompact⟩ := mem_filterMap.mp hstate'
    exact (h.sound state hstate).compact hle hcompact
  seen := by
    intro o ho
    obtain ⟨hvalid, hpast⟩ := h.seen o (mem_of_mem_filter ho)
    exact ⟨hvalid, hpast.trans hle⟩
  covered := by
    intro state' hstate' e he
    obtain ⟨state, hstate, hcompact⟩ := mem_filterMap.mp hstate'
    obtain rfl := compactState_some hcompact
    obtain ⟨o, ho, hdomain, heq⟩ := h.covered state hstate e ((keptEvents_sublist _ _ _).subset he)
    refine ⟨o, mem_filter.mpr ⟨ho, decide_eq_true ?_⟩, hdomain, heq⟩
    cases huntil : state.quarantineUntil.filter (later < ·) with
    | none =>
      simp only [huntil] at he
      have hin := of_decide_eq_true (mem_filter.mp he).2
      rw [heq] at hin
      exact Or.inl hin
    | some until' => exact Or.inr ⟨_, hstate', by rw [huntil]; rfl, e, he, by rw [heq]; rfl⟩
  recorded := by
    intro o ho d hd hcase
    have hold := mem_of_mem_filter ho
    by_cases hquarantined : Quarantined states later d
    · have hentered := h.recorded o hold d hd (Or.inr (hquarantined.mono hle))
      unfold ledger at hentered ⊢
      rw [find_compact_quarantined _ hquarantined]
      exact hentered
    · have hin : later - p.window ≤ o.failedAt :=
        hcase.resolve_right fun hq => hquarantined ((quarantined_compact _).mp hq)
      rw [ledger_compact _ hquarantined]
      rcases h.recorded o hold d hd (Or.inl (le_trans (sub_le_sub_right hle _) hin)) with hmem | ⟨hfull, hnewest⟩
      · exact Or.inl (mem_filter.mpr ⟨hmem, decide_eq_true hin⟩)
      · -- everything in the full ledger is newer, so it is in the window too
        have hall : inWindow (later - p.window) (ledger states d) = ledger states d :=
          filter_eq_self.mpr fun e he =>
            decide_eq_true (le_trans hin (failedAt_of_rank (hnewest e he)))
        rw [hall]
        exact Or.inr ⟨hfull, hnewest⟩
  domains := (length_filterMap_le _ _).trans h.domains
  size := (length_filter_le _ _).trans h.size

/-! ### An event enters a ledger -/

section

variable {events : List RunnerFailureEvent} {event x : RunnerFailureEvent} {before after : Option Instant}

/-- The ledger with one more event. -/
def withEvent (p : RunnerBackoffPolicy) (events : List RunnerFailureEvent) (event : RunnerFailureEvent) :
    List RunnerFailureEvent :=
  (sorted (events ++ [event])).rtake p.maxEventsPerDomain

theorem mem_sorted : x ∈ sorted (events ++ [event]) ↔ x ∈ events ∨ x = event := by
  rw [(sorted_perm _).mem_iff, mem_append, mem_singleton]

theorem mem_of_mem_withEvent (h : x ∈ withEvent p events event) : x ∈ events ∨ x = event :=
  mem_sorted.mp (mem_of_mem_drop h)

theorem length_withEvent : (withEvent p events event).length = min p.maxEventsPerDomain (events.length + 1) := by
  unfold withEvent List.rtake
  rw [length_drop, (sorted_perm _).length_eq, length_append, length_singleton]
  omega

theorem entered_self : Entered p (withEvent p events event) event :=
  mem_rtake_or (sorted_ordered _) (mem_sorted.mpr (Or.inr rfl))

theorem Entered.withEvent (h : Entered p events x) : Entered p (withEvent p events event) x := by
  have hordered := sorted_ordered (events ++ [event])
  rcases h with hmem | ⟨hfull, hnewest⟩
  · exact mem_rtake_or hordered (mem_sorted.mpr (Or.inl hmem))
  refine Or.inr ⟨by rw [length_withEvent]; omega, ?_⟩
  -- exactly one event, the oldest, leaves the full ledger
  have hperm : (sorted (events ++ [event])).Perm (event :: events) :=
    (sorted_perm _).trans (perm_append_singleton event events)
  unfold RunnerFailureGuard.withEvent List.rtake
  rw [hperm.length_eq, length_cons, hfull, Nat.add_sub_cancel_left]
  cases hsorted : sorted (events ++ [event]) with
  | nil => exact fun _ h => absurd h not_mem_nil
  | cons oldest rest =>
    rw [hsorted] at hordered hperm
    intro e he
    by_cases heq : oldest = event
    · subst heq
      exact hnewest e (hperm.cons_inv.mem_iff.mp he)
    · have hmem : oldest ∈ events :=
        (mem_cons.mp (hperm.mem_iff.mp mem_cons_self)).resolve_left heq
      exact (hnewest oldest hmem).trans (rel_of_pairwise_cons hordered he)

/-- Nothing is newer than the last event. -/
theorem rank_le_last {last : RunnerFailureEvent} (hlast : (withEvent p events event).getLast? = some last)
    (hx : x ∈ events ∨ x = event) : x.rank ≤ last.rank := by
  have hordered := sorted_ordered (events ++ [event])
  have hmem := mem_of_getLast? hlast
  rcases mem_rtake_or hordered (mem_sorted.mpr hx) with hin | ⟨_, hnewest⟩
  · obtain ⟨older, heq⟩ := List.getLast?_eq_some_iff.mp hlast
    have hpairwise : (withEvent p events event).Pairwise fun a b => a.rank ≤ b.rank := hordered.sublist (drop_sublist _ _)
    have hin : x ∈ withEvent p events event := hin
    rw [heq] at hpairwise hin
    rcases mem_append.mp hin with hin | hin
    · exact (pairwise_append.mp hpairwise).2.2 x hin last mem_cons_self
    · rw [mem_singleton.mp hin]
  · exact hnewest last hmem

/-- The quarantine follows the ledger, and does not end earlier. -/
theorem until_quarantineAfter (hp : p.Accepted) (h : Until p now events before)
    (hafter : quarantineAfter p (withEvent p events event) before = .ok after) :
    Until p now (withEvent p events event) after ∧
      ∀ until', before = some until' → now < until' → ∃ until'', after = some until'' ∧ now < until'' := by
  have hlength : (withEvent p events event).length = min p.maxEventsPerDomain (events.length + 1) := length_withEvent
  have htwo := hp.events.1
  have hthreshold := hp.quarantineEvents
  unfold quarantineAfter at hafter
  cases hlast : (withEvent p events event).getLast? with
  | none =>
    rw [List.getLast?_eq_none_iff] at hlast
    rw [hlast, length_nil] at hlength
    omega
  | some last =>
    rw [hlast] at hafter
    simp only at hafter
    split at hafter
    · next hlong =>
      cases hcandidate : instantAfter last.failedAt p.quarantine with
      | error e =>
        rw [hcandidate] at hafter
        cases hafter
      | ok candidate =>
        rw [hcandidate] at hafter
        have hfirst : ∀ until', before = some until' → until' ≤ candidate := by
          intro until' hbefore
          have hold : p.quarantineThreshold ≤ events.length := by
            by_contra hshort
            rw [h.1 (not_le.mp hshort)] at hbefore
            cases hbefore
          cases hnewest : events.getLast? with
          | none =>
            rw [List.getLast?_eq_none_iff.mp hnewest, length_nil] at hold
            have := hp.threshold.1
            omega
          | some newest =>
            obtain ⟨deadline, hok, hcase⟩ := h.2 newest hnewest hold
            have heq : until' = deadline := by
              rcases hcase with hcase | ⟨hcase, _⟩
              · exact Option.some.inj (hbefore.symm.trans hcase)
              · rw [hcase] at hbefore
                cases hbefore
            have hle := failedAt_of_rank (rank_le_last hlast (Or.inl (mem_of_getLast? hnewest)))
            rw [heq, instantAfter_eq hok, instantAfter_eq hcandidate]
            exact add_le_add_left hle _
        have hafter : after = some candidate := by
          obtain rfl := Except.ok.inj hafter
          cases hbefore : before with
          | none => rfl
          | some until' => exact congrArg some (max_eq_right (hfirst until' hbefore))
        refine ⟨⟨fun hshort => absurd hlong (not_le.mpr hshort), ?_⟩, ?_⟩
        · intro last' hlast' _
          cases hlast.symm.trans hlast'
          exact ⟨candidate, hcandidate, Or.inl hafter⟩
        · exact fun until' hbefore hlt => ⟨candidate, hafter, hlt.trans_le (hfirst until' hbefore)⟩
    · next hshort =>
      have hnone : before = none := h.1 (by omega)
      obtain rfl := Except.ok.inj hafter
      rw [hnone]
      exact ⟨⟨fun _ => rfl, fun _ _ hlong => absurd hlong hshort⟩, fun _ h => by cases h⟩

end

/-! ### Recording -/

/-- What has outlived the window is in quarantine everywhere. -/
def Settled (p : RunnerBackoffPolicy) (now : Instant) (states : States) (observations : Observations) : Prop :=
  ∀ o ∈ observations.values, o.failedAt < now - p.window → ∀ d ∈ o.domains, Quarantined states now d

theorem Settled.compact (h : Settled p now states observations) :
    Settled p now (compactStates (now - p.window) now states)
      (compactObservations (now - p.window) (compactStates (now - p.window) now states) observations) :=
  fun o ho hout d hd => (quarantined_compact _).mpr (h o (mem_of_mem_filter ho) hout d hd)

/-- Between two domains of an observation. -/
structure Entering (p : RunnerBackoffPolicy) (now : Instant) (observations : Observations) (seen : RunnerFailureObservation)
    (done : List RunnerFailureDomain) (states : States) : Prop where
  sound : ∀ state ∈ states.values, state.Sound p now
  covered : ∀ state ∈ states.values, ∀ e ∈ state.events,
    (∃ o ∈ observations.values, state.domain ∈ o.domains ∧ e = o.event state.domain) ∨
      state.domain ∈ done ∧ e = seen.event state.domain
  recorded : ∀ o ∈ observations.values, ∀ d ∈ o.domains, Entered p (ledger states d) (o.event d)
  entered : ∀ d ∈ done, Entered p (ledger states d) (seen.event d)
  settled : Settled p now states observations

theorem Sound.entering (h : Sound p now states observations) (hsettled : Settled p now states observations)
    (seen : RunnerFailureObservation) : Entering p now observations seen [] states where
  sound := h.sound
  covered state hstate e he := Or.inl (h.covered state hstate e he)
  recorded o ho d hd := by
    by_cases hin : now - p.window ≤ o.failedAt
    · exact h.recorded o ho d hd (Or.inl hin)
    · exact h.recorded o ho d hd (Or.inr (hsettled o ho (not_le.mp hin) d hd))
  entered d hd := absurd hd not_mem_nil
  settled := hsettled

theorem ledger_insert (states : States) (state : RunnerFailureDomainState) (d : RunnerFailureDomain) :
    ledger (states.insert state) d = if state.domain = d then state.events else ledger states d := by
  have hkey : state.identity = d.identity ↔ state.domain = d :=
    ⟨identity_injective, congrArg identity⟩
  unfold ledger
  rw [find_insert]
  simp only [hkey]
  split <;> rfl

theorem enterEvent_ok {event : RunnerFailureEvent} (h : enterEvent p states event = .ok states') :
    ∃ after, quarantineAfter p (withEvent p (ledger states event.domain) event)
        ((states.find event.domain.identity).bind (·.quarantineUntil)) = .ok after ∧
      RunnerFailureDomainState.Valid ⟨event.domain, withEvent p (ledger states event.domain) event, after⟩ ∧
      states' = states.insert ⟨event.domain, withEvent p (ledger states event.domain) event, after⟩ := by
  obtain ⟨after, hafter, hrest⟩ := Except.of_bind_ok h
  refine ⟨after, hafter, ?_⟩
  dsimp only at hrest
  split at hrest
  · cases hrest
  · next hvalid => exact ⟨not_not.mp hvalid, (Except.ok.inj hrest).symm⟩

variable {g : RunnerFailureGuard} {seen : RunnerFailureObservation} {done : List RunnerFailureDomain}

theorem Entering.step (hp : p.Accepted)
    (h : Entering p now observations seen done states) (hpast : seen.failedAt ≤ now) {d : RunnerFailureDomain}
    (henter : enterEvent p states (seen.event d) = .ok states') :
    Entering p now observations seen (d :: done) states' := by
  obtain ⟨after, hafter, hvalid, rfl⟩ := enterEvent_ok henter
  -- the state before, or the empty one
  have hbefore : Until p now (ledger states d) ((states.find d.identity).bind (·.quarantineUntil)) ∧
      ∀ e ∈ ledger states d, e.failedAt ≤ now ∧
        ((∃ o ∈ observations.values, d ∈ o.domains ∧ e = o.event d) ∨ d ∈ done ∧ e = seen.event d) := by
    unfold ledger
    cases hfind : states.find d.identity with
    | none => exact ⟨⟨fun _ => rfl, fun _ h => by cases h⟩, fun _ h => absurd h not_mem_nil⟩
    | some state =>
      obtain ⟨hmem, rfl⟩ := mem_of_find hfind
      exact ⟨(h.sound state hmem).deadline, fun e he => ⟨(h.sound state hmem).past e he, h.covered state hmem e he⟩⟩
  obtain ⟨hdeadline, hlonger⟩ := until_quarantineAfter hp hbefore.1 hafter
  have hquarantined : ∀ d', Quarantined states now d' →
      Quarantined (states.insert ⟨d, withEvent p (ledger states d) (seen.event d), after⟩) now d' := by
    rintro d' ⟨state, hfind, until', huntil, hlt⟩
    by_cases heq : d = d'
    · subst heq
      obtain ⟨until'', hafter', hlt'⟩ := hlonger until' (by rw [hfind]; exact huntil) hlt
      exact ⟨_, by rw [find_insert]; exact if_pos rfl, until'', hafter', hlt'⟩
    · refine ⟨state, ?_, until', huntil, hlt⟩
      rw [find_insert]
      exact (if_neg fun h => heq (identity_injective h)).trans hfind
  refine ⟨?_, ?_, ?_, ?_, fun o ho hout d' hd' => hquarantined d' (h.settled o ho hout d' hd')⟩
  · intro state hstate
    rcases mem_insert.mp hstate with rfl | ⟨hstate, _⟩
    · refine ⟨hvalid, by rw [length_withEvent]; exact min_le_left _ _, ?_, hdeadline⟩
      intro e he
      rcases mem_of_mem_withEvent he with he | rfl
      · exact (hbefore.2 e he).1
      · exact hpast
    · exact h.sound state hstate
  · intro state hstate e he
    rcases mem_insert.mp hstate with rfl | ⟨hstate, _⟩
    · rcases mem_of_mem_withEvent he with he | rfl
      · exact (hbefore.2 e he).2.imp_right fun ⟨hd, heq⟩ => ⟨mem_cons_of_mem _ hd, heq⟩
      · exact Or.inr ⟨mem_cons_self, rfl⟩
    · exact (h.covered state hstate e he).imp_right fun ⟨hd, heq⟩ => ⟨mem_cons_of_mem _ hd, heq⟩
  · intro o ho d' hd'
    rw [ledger_insert]
    split
    · next heq =>
      subst heq
      exact (h.recorded o ho d hd').withEvent
    · exact h.recorded o ho d' hd'
  · intro d' hd'
    rw [ledger_insert]
    split
    · next heq =>
      subst heq
      exact entered_self
    · next hne =>
      rcases mem_cons.mp hd' with rfl | hd'
      · exact (hne rfl).elim
      · exact h.entered d' hd'

theorem Entering.fold (hp : p.Accepted) (hpast : seen.failedAt ≤ now) (domains : List RunnerFailureDomain) :
    ∀ {done : List RunnerFailureDomain} {states : States},
    Entering p now observations seen done states → (domains.map seen.event).foldlM (enterEvent p) states = .ok states' →
    ∃ done', (∀ d, d ∈ done' ↔ d ∈ domains ∨ d ∈ done) ∧ Entering p now observations seen done' states' := by
  induction domains with
  | nil =>
    intro done states h hfold
    obtain rfl := Except.ok.inj hfold
    exact ⟨done, fun d => (or_iff_right not_mem_nil).symm, h⟩
  | cons d domains ih =>
    intro done states h hfold
    obtain ⟨middle, hstep, hrest⟩ := Except.of_bind_ok hfold
    obtain ⟨done', hdone, hentering⟩ := ih (h.step hp hpast hstep) hrest
    refine ⟨done', fun d' => (hdone d').trans ?_, hentering⟩
    rw [mem_cons, mem_cons]
    tauto

/-- An observation is stored with its events. -/
theorem Entering.close (h : Entering p now observations seen done states)
    (hdone : ∀ d, d ∈ done ↔ d ∈ seen.domains) (hseen : ∀ o ∈ observations.values, o.Valid ∧ o.failedAt ≤ now)
    (hnew : observations.find seen.identity = none) (hvalid : seen.Valid) (hpast : seen.failedAt ≤ now)
    (hin : now - p.window ≤ seen.failedAt) (hdomains : states.values.length ≤ p.maxDomains)
    (hsize : observations.values.length < p.maxObservations) :
    Sound p now states (observations.insert seen) ∧ Settled p now states (observations.insert seen) := by
  have hold : ∀ o ∈ observations.values, o ∈ (observations.insert seen).values := fun o ho =>
    mem_insert.mpr (Or.inr ⟨ho, find_eq_none.mp hnew o ho⟩)
  refine ⟨⟨h.sound, ?_, ?_, ?_, hdomains, ?_⟩, ?_⟩
  · intro o ho
    rcases mem_insert.mp ho with rfl | ⟨ho, _⟩
    · exact ⟨hvalid, hpast⟩
    · exact hseen o ho
  · intro state hstate e he
    rcases h.covered state hstate e he with ⟨o, ho, hrest⟩ | ⟨hd, heq⟩
    · exact ⟨o, hold o ho, hrest⟩
    · exact ⟨seen, mem_insert.mpr (Or.inl rfl), (hdone _).mp hd, heq⟩
  · intro o ho d hd _
    rcases mem_insert.mp ho with rfl | ⟨ho, _⟩
    · exact h.entered d ((hdone d).mpr hd)
    · exact h.recorded o ho d hd
  · rw [length_insert hnew]
    exact hsize
  · intro o ho hout d hd
    rcases mem_insert.mp ho with rfl | ⟨ho, _⟩
    · exact absurd hin (not_le.mpr hout)
    · exact h.settled o ho hout d hd

theorem compact_ok {t : Instant} (h : g.compact t = .ok (states, observations)) :
    instantAfter t (-g.policy.window) = .ok (t - g.policy.window) ∧
    states = compactStates (t - g.policy.window) t g.states ∧
      observations = compactObservations (t - g.policy.window) states g.observations := by
  obtain ⟨cutoff, hcutoff, hrest⟩ := Except.of_bind_ok h
  have hvalue : cutoff = t - g.policy.window := instantAfter_eq hcutoff
  subst hvalue
  dsimp only at hrest
  split at hrest
  · cases hrest
  · cases hrest
    exact ⟨hcutoff, rfl, rfl⟩

/-- Whatever outlives the window when something is recorded is in quarantine everywhere. -/
def SettledAt (g : RunnerFailureGuard) (t : Instant) : Prop :=
  ∀ states observations, g.compact t = .ok (states, observations) → Settled g.policy t states observations

/-- The dictionaries of a guard agree since some instant. -/
structure Kept (p : RunnerBackoffPolicy) (now : Instant) (g : RunnerFailureGuard) : Prop where
  policy : g.policy = p
  clock : ∀ t, g.lastObservedAt = some t → t ≤ now
  sound : ∃ since, since ≤ now ∧ Sound p since g.states g.observations

theorem Kept.mono (h : Kept p now g) (hle : now ≤ later) : Kept p later g := by
  obtain ⟨since, hsince, hsound⟩ := h.sound
  exact ⟨h.policy, fun t ht => (h.clock t ht).trans hle, since, hsince.trans hle, hsound⟩

/-- A guard that stored what it has compacted. -/
theorem Kept.stored (h : Kept p now g) (hsound : Sound p now states observations) {clock : Option Instant}
    (hclock : clock = g.lastObservedAt ∨ clock = some now) :
    Kept p now { g with states, observations, lastObservedAt := clock } := by
  refine ⟨h.policy, fun t ht => ?_, now, le_rfl, hsound⟩
  rcases hclock with rfl | rfl
  · exact h.clock t ht
  · exact (Option.some.inj ht).ge

theorem Settled.settledAt (h : Settled g.policy now g.states g.observations) : g.SettledAt now := by
  intro states observations hcompact
  obtain ⟨_, rfl, rfl⟩ := compact_ok hcompact
  exact h.compact

theorem observe_ok {status : RunnerStatus} {t : Instant} (h : g.observe status t = .ok (seen, states, observations)) :
    g.compact t = .ok (states, observations) ∧ seen.Valid ∧ seen.failedAt ≤ t := by
  obtain ⟨_, _, h⟩ := Except.of_bind_ok h
  obtain ⟨domains, _, h⟩ := Except.of_bind_ok h
  split at h
  · cases h
  next hpast =>
  obtain ⟨⟨states', observations'⟩, hcompact, h⟩ := Except.of_bind_ok h
  dsimp only at h
  split at h
  · cases h
  next hvalid =>
  cases h
  exact ⟨hcompact, not_not.mp hvalid, not_lt.mp hpast⟩

/-- Recording keeps the dictionaries in agreement. -/
theorem Kept.record (hp : p.Accepted) (h : Kept p now g) (hsettled : g.SettledAt now) (status : RunnerStatus) :
    Kept p now (record status now g).2 ∧ (record status now g).2.SettledAt now := by
  obtain ⟨since, hsince, hsound⟩ := h.sound
  obtain rfl := h.policy
  unfold RunnerFailureGuard.record
  cases hobserve : g.observe status now with
  | error e => exact ⟨h, hsettled⟩
  | ok result =>
    obtain ⟨seen, states, observations⟩ := result
    obtain ⟨hcompact, hvalid, hpast⟩ := observe_ok hobserve
    have hnow := hsettled states observations hcompact
    obtain ⟨_, hstates, hobservations⟩ := compact_ok hcompact
    have hsound : Sound g.policy now states observations := by
      rw [hobservations, hstates]
      exact hsound.compact hsince
    have hstored : ∀ clock, clock = g.lastObservedAt ∨ clock = some now →
        Kept g.policy now { g with states, observations, lastObservedAt := clock } ∧
          SettledAt { g with states, observations, lastObservedAt := clock } now := fun clock hclock =>
      ⟨h.stored hsound hclock, Settled.settledAt hnow⟩
    dsimp only
    cases hfind : observations.find seen.identity with
    | some existing =>
      dsimp only
      split
      · exact ⟨h, hsettled⟩
      · split
        · exact ⟨h, hsettled⟩
        · exact hstored _ (Or.inr rfl)
    | none =>
      dsimp only
      unfold recordNew
      split
      · exact hstored _ (Or.inr rfl)
      next hin =>
      split
      · exact ⟨h, hsettled⟩
      next hroom =>
      have hentering := hsound.entering hnow seen
      split
      · next hnone =>
        obtain ⟨hsound', hsettled'⟩ := hentering.close (fun d => by rw [hnone]) hsound.seen hfind hvalid hpast (not_lt.mp hin)
          hsound.domains (not_le.mp hroom)
        exact ⟨h.stored hsound' (Or.inr rfl), Settled.settledAt hsettled'⟩
      · split
        · exact ⟨h, hsettled⟩
        next states' hfold =>
        split
        · exact ⟨h, hsettled⟩
        next hfew =>
        obtain ⟨done, hdone, hentered⟩ := hentering.fold hp hpast _ hfold
        obtain ⟨hsound', hsettled'⟩ := hentered.close (fun d => (hdone d).trans (or_iff_left not_mem_nil)) hsound.seen
          hfind hvalid hpast (not_lt.mp hin) (not_lt.mp hfew) (not_le.mp hroom)
        split
        · exact ⟨h.stored hsound' (Or.inl rfl), Settled.settledAt hsettled'⟩
        · exact ⟨h.stored hsound' (Or.inr rfl), Settled.settledAt hsettled'⟩

/-! ### What calls keep -/

section

variable {P : RunnerFailureGuard → Prop}

theorem stage_keeps (hrecord : ∀ {g : RunnerFailureGuard} (status : RunnerStatus), P g → P (record status now g).2)
    (statuses : List RunnerStatus) : ∀ {g staged : RunnerFailureGuard}
    {decisions : List (Text × List RunnerBackoffDecision)}, P g → stage now statuses g = .ok (decisions, staged) →
    P staged := by
  induction statuses with
  | nil =>
    intro g staged decisions h hstage
    cases hstage
    exact h
  | cons status statuses ih =>
    intro g staged decisions h hstage
    have hnext := hrecord status h
    unfold RunnerFailureGuard.stage at hstage
    split at hstage
    · cases hstage
    next decision g' hrecord =>
    obtain ⟨⟨more, last⟩, hrest, hdone⟩ := Except.of_bind_ok hstage
    cases hdone
    rw [hrecord] at hnext
    exact ih hnext hrest

variable (htick : ∀ {g : RunnerFailureGuard}, P g → P { g with lastObservedAt := some now })
include htick

theorem recordMany_keeps (hrecord : ∀ {g : RunnerFailureGuard} (status : RunnerStatus), P g → P (record status now g).2)
    (h : P g) (statuses : List RunnerStatus) : P (recordMany statuses now g).2 := by
  unfold recordMany
  split
  · exact h
  · dsimp only
    split
    · exact h
    · split
      · exact h
      · next decisions staged hstage =>
        have hstaged := stage_keeps hrecord _ h hstage
        split
        · exact htick hstaged
        · exact hstaged

theorem decision_keeps (h : P g) (domain : RunnerFailureDomain) : P (decision domain now g).2 := by
  unfold decision
  split
  · exact h
  · exact h
  · exact htick h

theorem snapshot_keeps (h : P g) : P (snapshot now g).2 := by
  unfold snapshot
  split
  · exact h
  · exact htick h

end

/-! ### Runs -/

/-- The condition on a call that records. -/
def Call.Settled (g : RunnerFailureGuard) (t : Instant) : Call → Prop
  | .record _ | .recordMany _ => g.SettledAt t
  | _ => True

theorem Kept.tick (h : Kept p now g) : Kept p now { g with lastObservedAt := some now } :=
  ⟨h.policy, fun _ ht => (Option.some.inj ht).ge, h.sound⟩

theorem Kept.perform (hp : p.Accepted) (h : Kept p now g) {call : Call} (hsettled : call.Settled g now) :
    Kept p now (perform now call g).2 := by
  cases call with
  | record status => exact (h.record hp hsettled status).1
  | recordMany statuses =>
    exact (recordMany_keeps (P := fun g => Kept p now g ∧ g.SettledAt now) (fun h => ⟨h.1.tick, h.2⟩)
      (fun status h => h.1.record hp h.2 status) ⟨h, hsettled⟩ statuses).1
  | decision domain => exact decision_keeps Kept.tick h domain
  | snapshot => exact snapshot_keeps Kept.tick h

/-- Every call of a run that records meets the condition. -/
def Conforming : RunnerFailureGuard → List (Instant × Call) → Prop
  | _, [] => True
  | g, call :: rest => call.2.Settled g call.1 ∧ Conforming (perform call.1 call.2 g).2 rest

theorem Kept.run (hp : p.Accepted) (calls : List (Instant × Call)) : ∀ {g : RunnerFailureGuard} {now : Instant},
    Kept p now g → (now :: (calls.map Prod.fst ++ [later])).Pairwise (· ≤ ·) → Conforming g calls →
    Kept p later (run calls g).2 := by
  induction calls with
  | nil =>
    intro g now h hordered _
    exact h.mono (rel_of_pairwise_cons hordered mem_cons_self)
  | cons call calls ih =>
    intro g now h hordered ⟨hcall, hcalls⟩
    have hle : now ≤ call.1 := rel_of_pairwise_cons hordered mem_cons_self
    exact ih ((h.mono hle).perform hp hcall) hordered.of_cons hcalls

end RunnerFailureGuard

end Kairyu
