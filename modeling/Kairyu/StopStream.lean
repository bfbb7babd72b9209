/-
  Kairyu/StopStream.lean
  ======================
  **What a streaming client sees of a request** (`engine/engine_loop.py`).

  Until a stop string is found, an update shows the stable text without the hold-back, and
  a stop that completes later begins behind it.  So the texts of a request's updates only
  grow (`Shown`), and none reaches behind the start of the stop that ends them.
-/
import Kairyu.StopGrouping

namespace Kairyu

open List

namespace StopMatcher

variable {stops : List Text} {m : StopMatcher} {text : Text} {texts : List Text}

/-- One call of `find` for each text. -/
def findAll (m : StopMatcher) : List Text → Except StopError StopMatcher
  | [] => .ok m
  | text :: texts => do
    let (_, m) ← m.find text
    m.findAll texts

theorem findAll_of_found (h : m.found.isSome = true) (texts : List Text) : m.findAll texts = .ok m := by
  induction texts with
  | nil => rfl
  | cons text texts ih =>
    rw [findAll, find, if_pos h]
    exact ih

/-- As long as nothing is found, a call finds what a search of its whole text finds. -/
theorem Ready.findAll {next : Text} (h : Ready stops text m) (hgrow : (text :: texts ++ [next]).IsChain (· <+: ·)) :
    ∃ m', m.findAll texts = .ok m' ∧ (m'.found = none → ∃ m'', m'.find next = .ok (firstStop stops next, m'')) := by
  induction texts generalizing text m with
  | nil =>
    obtain ⟨rest, rfl⟩ := isChain_pair.mp hgrow
    obtain ⟨m', hfind, -⟩ := h.find rest
    exact ⟨m, rfl, fun _ => ⟨m', hfind⟩⟩
  | cons first texts ih =>
    obtain ⟨⟨rest, rfl⟩, hgrow⟩ := isChain_cons_cons.mp hgrow
    obtain ⟨m', hfind, hfound, hready⟩ := h.find rest
    rw [StopMatcher.findAll, hfind]
    cases hfirst : firstStop stops (text ++ rest) with
    | none => exact ih (hready hfirst) hgrow
    | some stopAt =>
      have hsome : m'.found = some stopAt := hfound.trans hfirst
      refine ⟨m', findAll_of_found (by rw [hsome]; rfl) texts, fun hnone => ?_⟩
      rw [hsome] at hnone
      cases hnone

end StopMatcher

namespace RequestTrack

open StopMatcher

variable {detok : Detokenizer} {stops : List Text} {track final : RequestTrack} {t t' : Text} {texts : List Text}

/-- The texts of the updates, up to the one that finishes the request, and the track after them. -/
def emitted (track : RequestTrack) : List TrackUpdateInput → Except StopError (List Text × RequestTrack)
  | [] => .ok ([], track)
  | item :: items => do
    let (update, _, track) ← track.materializeUpdate item
    if update.finished then return ([update.text], track)
    let (texts, track) ← track.emitted items
    return (update.text :: texts, track)

/-- What may cross the streaming boundary. -/
def visible (track : RequestTrack) : Text := track.stable.take (track.stable.length - track.holdback)

/-- The texts only grow, and end before a stop that is found. -/
structure Shown (stops : List Text) (final : RequestTrack) (texts : List Text) : Prop where
  chain : texts.Pairwise (· <+: ·)
  within : ∀ t ∈ texts, t <+: final.stable
  stop : ∀ stopAt, final.matcher.found = some stopAt →
    firstStop stops final.stable = some stopAt ∧ ∀ t ∈ texts, t.length ≤ stopAt

theorem Shown.singleton (hwithin : t <+: final.stable) (hfound : final.matcher.found = firstStop stops final.stable)
    (hstop : ∀ stopAt, final.matcher.found = some stopAt → t.length ≤ stopAt) : Shown stops final [t] := by
  refine ⟨pairwise_singleton .., by simpa using hwithin, fun stopAt h => ⟨hfound.symm.trans h, ?_⟩⟩
  simpa using hstop stopAt h

theorem Shown.cons (h : Shown stops final (t' :: texts)) (hpre : t <+: t') : Shown stops final (t :: t' :: texts) := by
  refine ⟨pairwise_cons.mpr ⟨fun next hnext => ?_, h.chain⟩, forall_mem_cons.mpr ⟨?_, h.within⟩,
    fun stopAt hstop => ⟨(h.stop stopAt hstop).1, forall_mem_cons.mpr ⟨?_, (h.stop stopAt hstop).2⟩⟩⟩
  · rcases mem_cons.mp hnext with rfl | hnext
    · exact hpre
    · exact hpre.trans ((pairwise_cons.mp h.chain).1 next hnext)
  · exact hpre.trans (h.within t' mem_cons_self)
  · exact hpre.length_le.trans ((h.stop stopAt hstop).2 t' mem_cons_self)

/-- A running track whose hold-back covers every stop. -/
structure Streaming (detok : Detokenizer) (stops : List Text) (track : RequestTrack) : Prop where
  running : Running detok stops track
  holdback : ∀ s ∈ stops, s.length ≤ track.holdback + 1
  clear : firstStop stops track.stable = none

/-- A stop that completes later begins behind what is visible. -/
theorem Streaming.visible_le (h : Streaming detok stops track) {text : Text} {stopAt : Nat}
    (hgrows : track.stable <+: text) (hstop : firstStop stops text = some stopAt) :
    track.stable.length - track.holdback ≤ stopAt := by
  obtain ⟨rest, rfl⟩ := hgrows
  obtain ⟨⟨s, hs, hfind⟩, -⟩ := firstStop_some hstop
  have hlong := h.holdback s hs
  by_contra hlt
  have hoccurs := Text.occurs_within (Text.occurs_of_find hfind) (by omega)
  obtain ⟨_, -, hfirst⟩ := firstStop_of_occurs hs hoccurs
  rw [h.clear] at hfirst
  cases hfirst

theorem visible_grows {text : Text} {n : Nat} (hgrows : track.stable <+: text)
    (hn : track.stable.length - track.holdback ≤ n) : track.visible <+: text.take n := by
  obtain ⟨rest, rfl⟩ := hgrows
  have htake : (track.stable ++ rest).take (track.stable.length - track.holdback) = track.visible :=
    take_append_of_le_length (Nat.sub_le ..)
  rw [← htake]
  exact take_prefix_take_left hn

theorem Streaming.emitted (hgrow : detok.Growing) (items : List TrackUpdateInput) (h : Streaming detok stops track) :
    ∃ texts final, track.emitted items = .ok (texts, final) ∧ Shown stops final (track.visible :: texts) := by
  induction items generalizing track with
  | nil =>
    refine ⟨[], track, rfl, .singleton (List.take_prefix ..) (h.running.matcher.found.trans h.clear.symm) ?_⟩
    simp [h.running.matcher.found]
  | cons item items ih =>
    obtain ⟨update, early, track', hrun, hstep⟩ := h.running.materialize hgrow item
    rw [RequestTrack.emitted, hrun]
    cases hfirst : firstStop stops track'.stable with
    | some stopAt =>
      obtain ⟨hdone, htext, -⟩ := hstep.stopped stopAt hfirst
      have hfound := hstep.found.trans hfirst
      refine ⟨[update.text], track', by simp [hdone, bind, Except.bind, pure, Except.pure], Shown.cons ?_ ?_⟩
      · rw [htext]
        refine .singleton (List.take_prefix ..) hstep.found fun found h => ?_
        cases hfound.symm.trans h
        exact length_take_le ..
      · rw [htext]
        exact visible_grows hstep.grows (h.visible_le hstep.grows hfirst)
    | none =>
      have hfound := hstep.found.trans hfirst
      cases hfinished : item.finished with
      | true =>
        obtain ⟨hdone, htext, -⟩ := hstep.ended hfirst hfinished
        refine ⟨[update.text], track', by simp [hdone, bind, Except.bind, pure, Except.pure], Shown.cons ?_ ?_⟩
        · rw [htext]
          exact .singleton prefix_rfl hstep.found (by simp [hfound])
        · rw [htext]
          exact (List.take_prefix ..).trans hstep.grows
      | false =>
        obtain ⟨hgoing, htext, hnext⟩ := hstep.running hfirst hfinished
        rw [← hstep.holdback] at htext
        obtain ⟨texts, final, hrest, hshown⟩ := ih ⟨hnext, by rw [hstep.holdback]; exact h.holdback, hfirst⟩
        refine ⟨update.text :: texts, final, by simp [hgoing, hrest, bind, Except.bind, pure, Except.pure], ?_⟩
        rw [htext]
        refine hshown.cons (visible_grows hstep.grows ?_)
        rw [hstep.holdback]
        exact Nat.sub_le_sub_right hstep.grows.length_le _

/-- **Streamed text never retracts and never leaks a stop string.** -/
theorem streamed_text_never_retracts (stops : List Text) (hne : ∀ s ∈ stops, s ≠ []) :
    (∀ before text, (before ++ [text]).IsChain (· <+: ·) → ∃ m, (StopMatcher.new stops).findAll before = .ok m ∧
        (m.found = none → ∃ m', m.find text = .ok (firstStop stops text, m'))) ∧
    ∀ detok : Detokenizer, detok.Growing → ∀ n items, ∃ texts final,
      (RequestTrack.new detok stops n).emitted items = .ok (texts, final) ∧ Shown stops final texts := by
  constructor
  · intro before text hgrow
    exact (new_ready stops []).findAll (isChain_cons.mpr ⟨fun _ _ => nil_prefix, hgrow⟩)
  · intro detok hgrow n items
    have hready := new_ready stops []
    have hclear : firstStop stops [] = none :=
      firstStop_none.mpr fun s hs => Text.find_eq_none.mpr fun h => hne s hs (infix_nil.mp h)
    obtain ⟨texts, final, hrun, hshown⟩ := Streaming.emitted hgrow items ⟨new_running n, hready.overlap, hclear⟩
    refine ⟨texts, final, hrun, (pairwise_cons.mp hshown.chain).2, ?_, fun stopAt hstop => ?_⟩
    · exact (forall_mem_cons.mp hshown.within).2
    · exact ⟨(hshown.stop stopAt hstop).1, (forall_mem_cons.mp (hshown.stop stopAt hstop).2).2⟩

/-- The stop `b` of the text `ab` is held back and then cut off. -/
theorem streamed_text_never_retracts_spelled :
    (∀ s ∈ [Text.of "b"], s ≠ []) ∧ ∃ texts final, (RequestTrack.new (spelling (Text.of "ab")) [Text.of "b"] 0).emitted
      [spelled 1 false, spelled 1 true] = .ok (texts, final) ∧ Shown [Text.of "b"] final texts :=
  ⟨by decide, (streamed_text_never_retracts [Text.of "b"] (by decide)).2 _ (spelling_growing _) 0 _⟩

end RequestTrack

end Kairyu
