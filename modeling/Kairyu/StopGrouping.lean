/-
  Kairyu/StopGrouping.lean
  ========================
  **When stop strings are found independently of the steps.**

  A track searches the text whenever a step has made more of it stable, and stops at the
  earliest position where some stop string is complete.  Another grouping of the same
  tokens can find a stop string that begins earlier and completes later.  `NestingCovered` says
  which lists of stop strings exclude that, and `stop_grouping_iff` that no others do.
-/
import Kairyu.EngineTrack

namespace Kairyu

open List Option

/-! ### Occurrences -/

namespace Text

variable {p t u : Text} {i j : Nat}

theorem occurs_of_find (h : find p t = some i) : p <+: t.drop i := by
  have hlen := find_add_length_le h
  have hsplit := congrArg (List.drop i) (find_eq_some_append h)
  rw [drop_left' (by rw [length_take]; omega)] at hsplit
  rw [hsplit]
  exact prefix_append _ _

theorem not_occurs_before (h : find p t = some i) (hj : j < i) : ¬ p <+: t.drop j := by
  induction t generalizing i j with
  | nil =>
    have hzero := find_add_length_le h
    simp only [length_nil] at hzero
    omega
  | cons c cs ih =>
    by_cases hp : p <+: c :: cs
    · rw [find_at_start hp, some_inj] at h
      omega
    · rw [find_cons_of_ne hp, map_eq_some_iff] at h
      obtain ⟨k, hk, rfl⟩ := h
      cases j with
      | zero => simpa using hp
      | succ j =>
        exact ih hk (by omega)

/-- An occurrence is found there or earlier. -/
theorem find_of_occurs (h : p <+: t.drop i) : ∃ j ≤ i, find p t = some j := by
  cases hfind : find p t with
  | none =>
    exact absurd (h.isInfix.trans (drop_suffix i t).isInfix) (find_eq_none.mp hfind)
  | some j =>
    refine ⟨j, ?_, rfl⟩
    by_contra hlt
    exact not_occurs_before hfind (not_le.mp hlt) h

/-- An occurrence that ends within a text is one of the text itself. -/
theorem occurs_within (h : p <+: (t ++ u).drop i) (hend : i + p.length ≤ t.length) : p <+: t.drop i := by
  rw [drop_append_of_le_length (by omega)] at h
  exact prefix_of_prefix_length_le h (prefix_append _ _) (by rw [length_drop]; omega)

end Text

namespace StopMatcher

open Text

/-! ### The earliest stop -/

/-- The search of the matcher over all stops, from any search for one. -/
def fold (search : Text → Option Nat) (stops : List Text) (found : Option Nat) : Option Nat :=
  stops.foldl (fun found stop => earlier found (search stop)) found

variable {search : Text → Option Nat} {stops : List Text} {found : Option Nat} {q i : Nat}

theorem earlier_eq_none {a b : Option Nat} : earlier a b = none ↔ a = none ∧ b = none := by
  cases a <;> cases b <;> simp [earlier]
  split <;> simp

theorem earlier_eq_some {a b : Option Nat} (h : earlier a b = some q) :
    (a = some q ∨ b = some q) ∧ (∀ i, a = some i → q ≤ i) ∧ ∀ i, b = some i → q ≤ i := by
  cases a with
  | none =>
    cases b with
    | none => exact nomatch h
    | some b =>
      obtain rfl : b = q := some.inj h
      exact ⟨.inr rfl, nofun, fun i hi => (some.inj hi).le⟩
  | some a =>
    cases b with
    | none =>
      obtain rfl : a = q := some.inj h
      exact ⟨.inl rfl, fun i hi => (some.inj hi).le, nofun⟩
    | some b =>
      simp only [earlier] at h
      split at h
      · next hlt =>
        obtain rfl : b = q := some.inj h
        exact ⟨.inr rfl, fun i hi => (some.inj hi) ▸ hlt.le, fun i hi => (some.inj hi).le⟩
      · next hge =>
        obtain rfl : a = q := some.inj h
        exact ⟨.inl rfl, fun i hi => (some.inj hi).le, fun i hi => (some.inj hi) ▸ not_lt.mp hge⟩

theorem fold_eq_none : fold search stops found = none ↔ found = none ∧ ∀ s ∈ stops, search s = none := by
  induction stops generalizing found with
  | nil => simp [fold]
  | cons s stops ih =>
    have hstep : fold search (s :: stops) found = fold search stops (earlier found (search s)) := rfl
    rw [hstep, ih, earlier_eq_none]
    simp [and_assoc]

theorem fold_eq_some (h : fold search stops found = some q) :
    (found = some q ∨ ∃ s ∈ stops, search s = some q) ∧ (∀ i, found = some i → q ≤ i) ∧
      ∀ s ∈ stops, ∀ i, search s = some i → q ≤ i := by
  induction stops generalizing found with
  | nil =>
    obtain rfl : found = some q := h
    exact ⟨.inl rfl, fun i hi => (some.inj hi).le, by simp⟩
  | cons s stops ih =>
    have hstep : fold search stops (earlier found (search s)) = some q := h
    obtain ⟨hfrom, hle, hall⟩ := ih hstep
    have hearlier : ∀ r, earlier found (search s) = some r →
        (∀ i, found = some i → r ≤ i) ∧ ∀ i, search s = some i → r ≤ i :=
      fun r hr => (earlier_eq_some hr).2
    have hbound : (∀ i, found = some i → q ≤ i) ∧ ∀ i, search s = some i → q ≤ i := by
      cases hr : earlier found (search s) with
      | none =>
        obtain ⟨hnone, hnone'⟩ := earlier_eq_none.mp hr
        rw [hnone, hnone']
        exact ⟨nofun, nofun⟩
      | some r =>
        obtain ⟨hfound, hsearch⟩ := hearlier r hr
        exact ⟨fun i hi => (hle r hr).trans (hfound i hi), fun i hi => (hle r hr).trans (hsearch i hi)⟩
    refine ⟨?_, hbound.1, ?_⟩
    · rcases hfrom with hfound | ⟨s', hs', hsearch⟩
      · rcases (earlier_eq_some hfound).1 with hold | hnew
        · exact .inl hold
        · exact .inr ⟨s, mem_cons_self, hnew⟩
      · exact .inr ⟨s', mem_cons_of_mem _ hs', hsearch⟩
    · intro s' hs'
      rcases mem_cons.mp hs' with rfl | hs'
      · exact hbound.2
      · exact hall s' hs'

theorem fold_congr {search' : Text → Option Nat} (h : ∀ s ∈ stops, search' s = search s)
    (found : Option Nat) : fold search' stops found = fold search stops found := by
  induction stops generalizing found with
  | nil => rfl
  | cons s stops ih =>
    simp only [fold, foldl_cons, h s mem_cons_self]
    exact ih (fun s' hs' => h s' (mem_cons_of_mem _ hs')) _

/-- The earliest position of a stop string in the text. -/
def firstStop (stops : List Text) (text : Text) : Option Nat := fold (Text.find · text) stops none

variable {text : Text}

theorem firstStop_none : firstStop stops text = none ↔ ∀ s ∈ stops, Text.find s text = none := by
  rw [firstStop, fold_eq_none]
  simp

theorem firstStop_some (h : firstStop stops text = some q) :
    (∃ s ∈ stops, Text.find s text = some q) ∧ ∀ s ∈ stops, ∀ i, Text.find s text = some i → q ≤ i := by
  obtain ⟨hfrom, -, hall⟩ := fold_eq_some h
  exact ⟨hfrom.resolve_left nofun, hall⟩

/-- Where a stop occurs, one is found there or earlier. -/
theorem firstStop_of_occurs {s : Text} (hs : s ∈ stops) (h : s <+: text.drop i) :
    ∃ q ≤ i, firstStop stops text = some q := by
  obtain ⟨j, hj, hfind⟩ := Text.find_of_occurs h
  cases hfirst : firstStop stops text with
  | none => exact nomatch (firstStop_none.mp hfirst s hs).symm.trans hfind
  | some q => exact ⟨q, ((firstStop_some hfirst).2 s hs j hfind).trans hj, rfl⟩

/-! ### The incremental search -/

/-- The matcher has searched the text and found nothing, or has not searched yet. -/
structure Ready (stops : List Text) (text : Text) (m : StopMatcher) : Prop where
  stops_eq : m.stops = stops
  overlap : ∀ s ∈ stops, s.length ≤ m.overlap + 1
  found : m.found = none
  searched : m.searchedLength = -1 ∨
    m.searchedLength = text.length ∧ ∀ s ∈ stops, Text.find s text = none

theorem new_ready (stops : List Text) (text : Text) : Ready stops text (new stops) := by
  refine ⟨rfl, ?_, rfl, .inl rfl⟩
  intro s hs
  have hmem : s.length ∈ stops.map List.length := mem_map_of_mem hs
  cases hmax : (stops.map List.length).max? with
  | none =>
    rw [List.max?_eq_none_iff] at hmax
    rw [hmax] at hmem
    exact nomatch hmem
  | some longest =>
    have hle : s.length ≤ longest := (List.max?_eq_some_iff.mp hmax).2 s.length hmem
    simp only [new, hmax, getD_some]
    omega

/-- Searching the new part and the overlap finds what searching all of the text finds. -/
theorem findFrom_eq {s rest : Text} {overlap : Nat} (hs : s.length ≤ overlap + 1) (h : Text.find s text = none) :
    Text.findFrom s (text ++ rest) ((text.length : Int) - overlap).toNat = Text.find s (text ++ rest) := by
  rcases Nat.eq_zero_or_pos ((text.length : Int) - overlap).toNat with hzero | hpos
  · rw [hzero]
    simp [Text.findFrom]
  · rw [Text.findFrom, drop_append_of_le_length (by omega)]
    exact (Text.find_append_of_none h (by omega) rest).symm

theorem Ready.find {m : StopMatcher} (h : Ready stops text m) (rest : Text) :
    ∃ m', m.find (text ++ rest) = .ok (firstStop stops (text ++ rest), m') ∧ m'.found = firstStop stops (text ++ rest) ∧
      (firstStop stops (text ++ rest) = none → Ready stops (text ++ rest) m') := by
  have hfound : ¬ m.found.isSome = true := by simp [h.found]
  rw [StopMatcher.find, if_neg hfound]
  rcases h.searched with hnew | ⟨hlength, hclear⟩
  · have hfold : m.stops.foldl (fun found stop => earlier found (Text.findFrom stop (text ++ rest) 0)) none =
        firstStop stops (text ++ rest) := by
      rw [h.stops_eq]
      exact fold_congr (fun s _ => by simp [Text.findFrom]) none
    simp only [hnew, Int.reduceLT, if_true, hfold]
    refine ⟨_, rfl, rfl, fun hnone => ⟨h.stops_eq, h.overlap, hnone, .inr ⟨rfl, firstStop_none.mp hnone⟩⟩⟩
  · rw [if_neg (by rw [length_append]; omega)]
    by_cases hsame : rest = []
    · subst hsame
      rw [append_nil, if_pos hlength.symm]
      have hnone : firstStop stops text = none := firstStop_none.mpr hclear
      exact ⟨m, by rw [hnone], h.found.trans hnone.symm, fun _ => h⟩
    · have hpos : 0 < rest.length := length_pos_of_ne_nil hsame
      have hfold : m.stops.foldl (fun found stop => earlier found
          (Text.findFrom stop (text ++ rest) (m.searchedLength - m.overlap).toNat)) none =
          firstStop stops (text ++ rest) := by
        rw [h.stops_eq, hlength]
        exact fold_congr (fun s hs => findFrom_eq (h.overlap s hs) (hclear s hs)) none
      rw [if_neg (by rw [length_append]; omega)]
      have hstart : ¬ m.searchedLength < 0 := by rw [hlength]; omega
      simp only [if_neg hstart, hfold]
      exact ⟨_, rfl, rfl, fun hnone => ⟨h.stops_eq, h.overlap, hnone, .inr ⟨rfl, firstStop_none.mp hnone⟩⟩⟩

/-! ### Stops inside stops -/

/-- Whenever a stop string contains another one behind its start that completes first,
    some stop string at that start completes no later. -/
def NestingCovered (stops : List Text) : Prop :=
  ∀ s ∈ stops, ∀ t ∈ stops, ∀ k < s.length, 0 < k ∧ k + t.length < s.length ∧ t <+: s.drop k →
    ∃ r ∈ stops, r <+: s ∧ r.length ≤ k + t.length

instance (stops : List Text) : Decidable (NestingCovered stops) := by
  unfold NestingCovered
  infer_instance

/-- With covered stops the position found in a text is still the earliest one in every
    continuation of it. -/
theorem NestingCovered.firstStop_append (h : NestingCovered stops) (hq : firstStop stops text = some q)
    (rest : Text) : firstStop stops (text ++ rest) = some q := by
  obtain ⟨⟨t, ht, htq⟩, hmin⟩ := firstStop_some hq
  have hq' := Text.find_append_of_some htq rest
  cases hfirst : firstStop stops (text ++ rest) with
  | none => exact nomatch (firstStop_none.mp hfirst t ht).symm.trans hq'
  | some p =>
    obtain ⟨⟨s, hs, hsp⟩, hmin'⟩ := firstStop_some hfirst
    have hle : p ≤ q := hmin' t ht q hq'
    by_cases heq : p = q
    · rw [heq]
    -- Otherwise `s` begins at `p` before `t` and is not yet complete in `text`.
    exfalso
    have habsent : ∀ r ∈ stops, ¬ r <+: text.drop p := by
      intro r hr hoccurs
      obtain ⟨j, hj, hfind⟩ := Text.find_of_occurs hoccurs
      have := hmin r hr j hfind
      omega
    have hsoccurs := Text.occurs_of_find hsp
    have htlen := Text.find_add_length_le htq
    have hopen : text.length < p + s.length := by
      by_contra hclosed
      exact habsent s hs (Text.occurs_within hsoccurs (not_lt.mp hclosed))
    have hinside : t <+: s.drop (q - p) := by
      have hwhole : t <+: (text ++ rest).drop q := Text.occurs_of_find hq'
      have hdrop : s.drop (q - p) <+: (text ++ rest).drop q := by
        have hshift := hsoccurs.drop (q - p)
        rwa [drop_drop, show p + (q - p) = q by omega] at hshift
      exact prefix_of_prefix_length_le hwhole hdrop (by rw [length_drop]; omega)
    obtain ⟨r, hr, hrs, hrlen⟩ := h s hs t ht (q - p) (by omega) ⟨by omega, by omega, hinside⟩
    exact habsent r hr (Text.occurs_within (hrs.trans hsoccurs) (by omega))

end StopMatcher

/-! ### Groupings of a token sequence -/

/-- The text never retracts when ids are added. -/
def Detokenizer.Growing (detok : Detokenizer) : Prop :=
  ∀ ids more, detok.stable ids <+: detok.stable (ids ++ more)

/-- The steps that commit the ids: all but the last leave the request running. -/
inductive Grouping (request : EngineRequest) (stateReason reason : Option FinishReason) :
    List TokenId → List TrackUpdateInput → Prop where
  | last (item : TrackUpdateInput) (hfinished : item.finished = true) (hrequest : item.request = request)
      (hstate : item.stateFinishReason = stateReason) (hreason : item.finishReason = reason) :
      Grouping request stateReason reason item.newIds [item]
  | step (item : TrackUpdateInput) {rest : List TokenId} {items : List TrackUpdateInput}
      (hrunning : item.finished = false) (hrest : rest ≠ []) (hitems : Grouping request stateReason reason rest items) :
      Grouping request stateReason reason (item.newIds ++ rest) (item :: items)

namespace RequestTrack

open StopMatcher

variable {detok : Detokenizer} {stops : List Text} {track : RequestTrack} {item : TrackUpdateInput}
  {request : EngineRequest} {stateReason reason : Option FinishReason}

/-- The ids that are text when the request ends with them. -/
def shown (request : EngineRequest) (stateReason : Option FinishReason) (ids : List TokenId) : List TokenId :=
  visibleNewIds { newIds := ids, finished := true, stateFinishReason := stateReason, request }

/-- What has become stable after the ids. -/
def textOf (detok : Detokenizer) (ids : List TokenId) : Text := if ids = [] then [] else detok.stable ids

/-- The text of the whole request before stop strings. -/
def endText (detok : Detokenizer) (ids : List TokenId) : Text :=
  if textOf detok ids <+: detok.final ids then detok.final ids else textOf detok ids

/-- The text and the finish reason of a request that produced the text. -/
def verdict (stops : List Text) (reason : Option FinishReason) (text : Text) : Text × Option FinishReason :=
  match firstStop stops text with
  | some stopAt => (text.take stopAt, some .stop)
  | none => (text, some (reason.getD .length))

theorem visibleNewIds_running (h : item.finished = false) : visibleNewIds item = item.newIds := by
  unfold visibleNewIds
  split
  · rfl
  · rw [if_neg (by simp [h])]

theorem visibleNewIds_last (hfinished : item.finished = true) (hrequest : item.request = request)
    (hstate : item.stateFinishReason = stateReason) : visibleNewIds item = shown request stateReason item.newIds := by
  subst hrequest hstate
  simp only [shown, visibleNewIds, hfinished]

theorem shown_append {ids rest : List TokenId} (h : rest ≠ []) :
    shown request stateReason (ids ++ rest) = ids ++ shown request stateReason rest := by
  obtain ⟨front, terminal, rfl⟩ : ∃ front terminal, rest = front ++ [terminal] :=
    ⟨rest.dropLast, rest.getLast h, (dropLast_append_getLast h).symm⟩
  simp only [shown, visibleNewIds, ← append_assoc, List.getLast?_concat, dropLast_concat]
  split
  · rfl
  · rw [append_assoc]

theorem textOf_append (h : detok.Growing) (ids more : List TokenId) :
    textOf detok ids <+: textOf detok (ids ++ more) := by
  unfold textOf
  by_cases hids : ids = []
  · rw [if_pos hids]
    exact nil_prefix
  · rw [if_neg hids, if_neg (by simp [hids])]
    exact h ids more

theorem textOf_endText (ids : List TokenId) : textOf detok ids <+: endText detok ids := by
  unfold endText
  split
  · assumption
  · exact prefix_rfl

/-- The track between two steps: nothing found in the stable text. -/
structure Running (detok : Detokenizer) (stops : List Text) (track : RequestTrack) : Prop where
  detok_eq : track.detok = detok
  stable : track.stable = textOf detok track.pushed
  matcher : Ready stops track.stable track.matcher

theorem new_running (n : Nat) : Running detok stops (new detok stops n) :=
  ⟨rfl, rfl, new_ready stops []⟩

/-- The text a step searches. -/
def nextText (detok : Detokenizer) (pushed : List TokenId) (item : TrackUpdateInput) : Text :=
  if item.finished then endText detok (pushed ++ visibleNewIds item) else textOf detok (pushed ++ visibleNewIds item)

/-- What a step does to a running track. -/
structure Materialized (detok : Detokenizer) (stops : List Text) (track : RequestTrack) (item : TrackUpdateInput)
    (update : StreamUpdate) (track' : RequestTrack) : Prop where
  grows : track.stable <+: track'.stable
  stable : track'.stable = nextText detok track.pushed item
  pushed : track'.pushed = track.pushed ++ visibleNewIds item
  holdback : track'.holdback = track.holdback
  found : track'.matcher.found = firstStop stops track'.stable
  stopped : ∀ stopAt, firstStop stops track'.stable = some stopAt →
    update.finished = true ∧ update.text = track'.stable.take stopAt ∧ update.finishReason = some .stop
  ended : firstStop stops track'.stable = none → item.finished = true →
    update.finished = true ∧ update.text = track'.stable ∧
      update.finishReason = some (item.finishReason.getD .length)
  running : firstStop stops track'.stable = none → item.finished = false → update.finished = false ∧
    update.text = track'.stable.take (track'.stable.length - track.holdback) ∧ Running detok stops track'

section

variable (h : Running detok stops track)
include h

theorem Running.take_stable (item : TrackUpdateInput) :
    (track.take item).stable = textOf detok (track.pushed ++ visibleNewIds item) := by
  by_cases hvisible : visibleNewIds item = []
  · simp only [take, hvisible, if_true, append_nil, h.stable]
  · simp only [take, if_neg hvisible, h.detok_eq]
    rw [textOf, if_neg (by simp [hvisible])]

theorem Running.finalized (item : TrackUpdateInput) :
    (track.take item).finalized = endText detok (track.pushed ++ visibleNewIds item) := by
  simp only [RequestTrack.finalized, endText, h.take_stable]
  rw [show (track.take item).detok = detok from h.detok_eq,
    show (track.take item).pushed = track.pushed ++ visibleNewIds item from rfl]

/-- Every step searches all of its text and shows what it may. -/
theorem Running.materialize (hgrow : detok.Growing) (item : TrackUpdateInput) :
    ∃ update early track', track.materializeUpdate item = .ok (update, early, track') ∧
      Materialized detok stops track item update track' := by
  have hgrows : track.stable <+: nextText detok track.pushed item := by
    rw [h.stable, nextText]
    split
    · exact (textOf_append hgrow _ _).trans (textOf_endText _)
    · exact textOf_append hgrow _ _
  obtain ⟨rest, hrest⟩ := id hgrows
  obtain ⟨matcher, hfind, hfound, hready⟩ := h.matcher.find rest
  rw [hrest] at hfind hfound hready
  have hmatcher : (track.take item).matcher = track.matcher := rfl
  cases hfinished : item.finished with
  | true =>
    have htext : (track.take item).finalized = nextText detok track.pushed item := by
      rw [h.finalized, nextText, if_pos hfinished]
    simp only [materializeUpdate, hfinished, htext, hmatcher, hfind]
    cases hfirst : firstStop stops (nextText detok track.pushed item) with
    | some stopAt =>
      refine ⟨_, _, _, rfl, hgrows, rfl, rfl, rfl, hfound, ?_, ?_, ?_⟩
      all_goals simp [hfirst, update]
    | none =>
      refine ⟨_, _, _, rfl, hgrows, rfl, rfl, rfl, hfound, ?_, ?_, ?_⟩
      all_goals simp [hfirst, hfinished, update]
  | false =>
    have htext : (track.take item).stable = nextText detok track.pushed item := by
      rw [h.take_stable, nextText, if_neg (by simp [hfinished])]
    simp only [materializeUpdate, hfinished, hmatcher, htext, hfind]
    cases hfirst : firstStop stops (nextText detok track.pushed item) with
    | some stopAt =>
      refine ⟨_, _, _, rfl, hgrows, rfl, rfl, rfl, hfound, ?_, ?_, ?_⟩
      all_goals simp [hfirst, update]
    | none =>
      refine ⟨_, _, _, rfl, hgrows, rfl, rfl, rfl, hfound, by simp [hfirst], by simp [hfinished], fun _ _ => ?_⟩
      exact ⟨rfl, rfl, h.detok_eq, htext.symm.trans (h.take_stable item), hready hfirst⟩

/-- The last step reports the verdict on the whole text. -/
theorem Running.report_last (hgrow : detok.Growing)
    (hfinished : item.finished = true) (hreason : item.finishReason = reason) :
    ∃ update, track.report [item] = .ok (some update) ∧ (update.text, update.finishReason) =
      verdict stops reason (endText detok (track.pushed ++ visibleNewIds item)) := by
  obtain ⟨update, early, track', hrun, hstep⟩ := h.materialize hgrow item
  have hstable := hstep.stable
  rw [nextText, if_pos hfinished] at hstable
  refine ⟨update, ?_, ?_⟩
  all_goals cases hfirst : firstStop stops track'.stable
  · simp [report, hrun, hstep.ended hfirst hfinished]
  · simp [report, hrun, hstep.stopped _ hfirst]
  · simp [← hstable, verdict, hfirst, hstep.ended hfirst hfinished, hreason]
  · simp [← hstable, verdict, hfirst, hstep.stopped _ hfirst]

/-- An earlier step reports what it found, or leaves the track running. -/
theorem Running.report_step (hgrow : detok.Growing) (hrunning : item.finished = false) (items : List TrackUpdateInput) :
    (∃ stopAt update, firstStop stops (textOf detok (track.pushed ++ item.newIds)) = some stopAt ∧
        track.report (item :: items) = .ok (some update) ∧
        update.text = (textOf detok (track.pushed ++ item.newIds)).take stopAt ∧ update.finishReason = some .stop) ∨
      ∃ track', firstStop stops (textOf detok (track.pushed ++ item.newIds)) = none ∧
        Running detok stops track' ∧ track'.pushed = track.pushed ++ item.newIds ∧
        track.report (item :: items) = track'.report items := by
  obtain ⟨update, early, track', hrun, hstep⟩ := h.materialize hgrow item
  have hpushed := hstep.pushed
  have hstable := hstep.stable
  rw [nextText, if_neg (by simp [hrunning]), visibleNewIds_running hrunning] at hstable
  rw [visibleNewIds_running hrunning] at hpushed
  rw [← hstable]
  cases hfirst : firstStop stops track'.stable with
  | some stopAt =>
    obtain ⟨hdone, htext, hreason⟩ := hstep.stopped stopAt hfirst
    exact .inl ⟨stopAt, update, rfl, by simp [report, hrun, hdone], htext, hreason⟩
  | none =>
    obtain ⟨hgoing, -, hnext⟩ := hstep.running hfirst hrunning
    exact .inr ⟨track', rfl, hnext, hpushed, by simp [report, hrun, hgoing]⟩

end

/-- With covered stops every grouping reports the verdict on the whole text. -/
theorem Running.report_grouping (hcovered : NestingCovered stops) (hgrow : detok.Growing) {ids : List TokenId}
    {items : List TrackUpdateInput} (hgroup : Grouping request stateReason reason ids items)
    (h : Running detok stops track) :
    ∃ update, track.report items = .ok (some update) ∧ (update.text, update.finishReason) =
      verdict stops reason (endText detok (track.pushed ++ shown request stateReason ids)) := by
  induction hgroup generalizing track with
  | last item hfinished hrequest hstate hreason =>
    rw [← visibleNewIds_last hfinished hrequest hstate]
    exact h.report_last hgrow hfinished hreason
  | @step item rest items hrunning hrest hitems ih =>
    rw [shown_append hrest, ← append_assoc]
    rcases h.report_step hgrow hrunning items with ⟨stopAt, update, hfirst, hreport, htext, hfinish⟩ |
      ⟨track', -, hrunning', hpushed, hreport⟩
    · obtain ⟨tail, htail⟩ : textOf detok (track.pushed ++ item.newIds) <+:
          endText detok (track.pushed ++ item.newIds ++ shown request stateReason rest) :=
        (textOf_append hgrow _ _).trans (textOf_endText _)
      have hwhole := hcovered.firstStop_append hfirst tail
      obtain ⟨⟨t, -, hfind⟩, -⟩ := firstStop_some hfirst
      have hlen := Text.find_add_length_le hfind
      refine ⟨update, hreport, ?_⟩
      have htake : (textOf detok (track.pushed ++ item.newIds) ++ tail).take stopAt =
          (textOf detok (track.pushed ++ item.newIds)).take stopAt :=
        take_append_of_le_length (by omega)
      simp only [← htail, verdict, hwhole, htext, hfinish, htake]
    · rw [hreport, ← hpushed]
      exact ih hrunning'

/-! ### The condition is necessary -/

/-- A detokenizer that shows one more character of a text with each id. -/
def spelling (text : Text) : Detokenizer where
  stable ids := text.take ids.length
  final ids := text.take ids.length

theorem spelling_growing (text : Text) : (spelling text).Growing := by
  intro ids more
  refine take_prefix_take_left ?_
  rw [length_append]
  exact Nat.le_add_right _ _

/-- A step of a request that spells a text. -/
def spelled (count : Nat) (finished : Bool) : TrackUpdateInput where
  newIds := List.replicate count 0
  finished
  request := default

theorem textOf_spelling (text : Text) (count : Nat) :
    textOf (spelling text) (List.replicate count 0) = text.take count := by
  cases count with
  | zero => rfl
  | succ count => simp [textOf, spelling]

theorem endText_spelling (text : Text) (count : Nat) :
    endText (spelling text) (List.replicate count 0) = text.take count := by
  have hfinal : (spelling text).final (List.replicate count 0) = text.take count := by simp [spelling]
  rw [endText, textOf_spelling, hfinal, if_pos prefix_rfl]

/-- All of a stop string in one step: the request ends at its start. -/
theorem report_whole {s : Text} (hs : s ∈ stops) {update : StreamUpdate}
    (h : (new (spelling s) stops 0).report [spelled s.length true] = .ok (some update)) : update.text = [] := by
  have hrunning : Running (spelling s) stops (new (spelling s) stops 0) := new_running 0
  have hfinished : (spelled s.length true).finished = true := rfl
  obtain ⟨update', hreport, htext⟩ := hrunning.report_last (spelling_growing s) hfinished rfl
  obtain rfl : update' = update := some.inj (Except.ok.inj (hreport.symm.trans h))
  have hvisible : visibleNewIds (spelled s.length true) = List.replicate s.length 0 := by
    simp only [visibleNewIds, spelled]
    split
    · rfl
    · rw [if_neg (by simp)]
  have hnew : (new (spelling s) stops 0).pushed = [] := rfl
  rw [hvisible, hnew, nil_append, endText_spelling, take_length] at htext
  obtain ⟨q, hq, hfirst⟩ : ∃ q ≤ 0, firstStop stops s = some q := firstStop_of_occurs hs prefix_rfl
  obtain rfl : q = 0 := Nat.le_zero.mp hq
  rw [verdict, hfirst] at htext
  exact (Prod.mk.inj htext).1

/-- Its first part in one step: a stop string inside it is found, so the request ends
    behind its start unless some stop string begins there. -/
theorem report_cut {s t : Text} {k : Nat} (ht : t ∈ stops) (hk : 0 < k) (hlen : k + t.length < s.length)
    (hinside : t <+: s.drop k) (hnone : ∀ r ∈ stops, r <+: s → ¬ r.length ≤ k + t.length)
    (items : List TrackUpdateInput) {update : StreamUpdate}
    (h : (new (spelling s) stops 0).report (spelled (k + t.length) false :: items) = .ok (some update)) :
    update.text ≠ [] := by
  have htext : textOf (spelling s) ((new (spelling s) stops 0).pushed ++ (spelled (k + t.length) false).newIds) =
      s.take (k + t.length) := textOf_spelling s (k + t.length)
  have hoccurs : t <+: (s.take (k + t.length)).drop k := by
    rw [drop_take, Nat.add_sub_cancel_left]
    exact prefix_take_iff.mpr ⟨hinside, le_rfl⟩
  obtain ⟨q, -, hfirst⟩ := firstStop_of_occurs ht hoccurs
  have hrunning : Running (spelling s) stops (new (spelling s) stops 0) := new_running 0
  have hunfinished : (spelled (k + t.length) false).finished = false := rfl
  rcases hrunning.report_step (spelling_growing s) hunfinished items with
    ⟨stopAt, update', hstop, hreport, hcut, -⟩ | ⟨_, hclear, -⟩
  · obtain rfl : update' = update := some.inj (Except.ok.inj (hreport.symm.trans h))
    rw [htext] at hstop hcut
    obtain ⟨⟨r, hr, hfind⟩, -⟩ := firstStop_some hstop
    have hpos : stopAt ≠ 0 := by
      rintro rfl
      have hbegins : r <+: s.take (k + t.length) := by simpa using Text.occurs_of_find hfind
      exact hnone r hr (hbegins.trans (List.take_prefix _ _)) (prefix_take_iff.mp hbegins).2
    rw [hcut]
    apply ne_nil_of_length_pos
    rw [length_take, length_take]
    omega
  · rw [htext] at hclear
    exact nomatch hclear.symm.trans hfirst

/-- The steps of any two groupings of the same ids report the same text and the same
    finish reason, for every growing detokenizer, exactly if the stop strings are covered. -/
theorem stop_grouping_iff (stops : List Text) : (∀ detok : Detokenizer, detok.Growing →
      ∀ (numPromptTokens : Nat) (request : EngineRequest) (stateReason reason : Option FinishReason)
        (ids : List TokenId) (items items' : List TrackUpdateInput),
        Grouping request stateReason reason ids items → Grouping request stateReason reason ids items' →
        ∃ update update', (new detok stops numPromptTokens).report items = .ok (some update) ∧
          (new detok stops numPromptTokens).report items' = .ok (some update') ∧
          update.text = update'.text ∧ update.finishReason = update'.finishReason) ↔ NestingCovered stops := by
  constructor
  · intro hsame s hs t ht k _ ⟨hpos, hlen, hinside⟩
    by_contra hnone
    push Not at hnone
    have hsum : (spelled (k + t.length) false).newIds ++ (spelled (s.length - (k + t.length)) true).newIds =
        (spelled s.length true).newIds := by
      simp only [spelled, ← replicate_add]
      congr 1
      omega
    have hrest : (spelled (s.length - (k + t.length)) true).newIds ≠ [] := by
      apply ne_nil_of_length_pos
      simp only [spelled, length_replicate]
      omega
    have hcut : Grouping default none none (spelled s.length true).newIds
        [spelled (k + t.length) false, spelled (s.length - (k + t.length)) true] :=
      hsum ▸ .step _ rfl hrest (.last _ rfl rfl rfl rfl)
    obtain ⟨update, update', hwhole, hparts, htext, -⟩ :=
      hsame (spelling s) (spelling_growing s) 0 default none none _ _ _ (.last _ rfl rfl rfl rfl) hcut
    apply report_cut ht hpos hlen hinside (fun r hr hrs => not_le.mpr (hnone r hr hrs)) _ hparts
    rw [← htext]
    exact report_whole hs hwhole
  · intro hcovered detok hgrow numPromptTokens request stateReason reason ids items items' hitems hitems'
    obtain ⟨update, hreport, hverdict⟩ := (new_running numPromptTokens).report_grouping hcovered hgrow hitems
    obtain ⟨update', hreport', hverdict'⟩ := (new_running numPromptTokens).report_grouping hcovered hgrow hitems'
    have hboth := Prod.mk.inj (hverdict.trans hverdict'.symm)
    exact ⟨update, update', hreport, hreport', hboth.1, hboth.2⟩

/-- The stop strings "abcd" and "bc" on the text "abcd": with one id a step the request
    ends at "bc", with all ids in one step at "abcd". -/
theorem one_step_differs : let stops := [Text.of "abcd", Text.of "bc"]
    let track := new (spelling (Text.of "abcd")) stops 0
    (track.report [spelled 1 false, spelled 1 false, spelled 1 false, spelled 1 true]).toOption.join.map (·.text) =
        some (Text.of "a") ∧
      (track.report [spelled 4 true]).toOption.join.map (·.text) = some [] := by
  decide +kernel

end RequestTrack

end Kairyu
