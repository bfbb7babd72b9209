/-
  Kairyu/ToolStreamBrackets.lean
  ==============================
  **The order of a scanner's events.**

  Whatever it is fed, a scanner emits text and call starts only while it has no call
  open, and arguments and stops only while it has one (`Bracketed`).  When it gives up,
  `streamInvalid` is the last event it ever emits (`feed_grammatical`).
-/
import Kairyu.ToolStreamFallbacks

namespace Kairyu

/-- Events that lead from a call open or not to a call open or not. -/
inductive Bracketed : Bool → List ToolStreamEvent → Bool → Prop where
  | nil (b : Bool) : Bracketed b [] b
  | text {events : List ToolStreamEvent} {b : Bool} (t : Text) (h : Bracketed false events b) :
      Bracketed false (.textDelta t :: events) b
  | start {events : List ToolStreamEvent} {b : Bool} (name : Text) (h : Bracketed true events b) :
      Bracketed false (.toolStart name :: events) b
  | args {events : List ToolStreamEvent} {b : Bool} (json : Text) (h : Bracketed true events b) :
      Bracketed true (.toolArgsDelta json :: events) b
  | stop {events : List ToolStreamEvent} {b : Bool} (h : Bracketed false events b) :
      Bracketed true (.toolStop :: events) b

theorem Bracketed.append {a b c : Bool} {xs ys : List ToolStreamEvent} (hx : Bracketed a xs b)
    (hy : Bracketed b ys c) : Bracketed a (xs ++ ys) c := by
  induction hx with
  | nil => exact hy
  | text t _ ih => exact .text t (ih hy)
  | start name _ ih => exact .start name (ih hy)
  | args json _ ih => exact .args json (ih hy)
  | stop _ ih => exact .stop (ih hy)

namespace ToolStreamScanner

variable {codec : FloatCodec} {s t : ToolStreamScanner} {step : Step} {final : Bool}

/-- The scanner has a call open. -/
def calling (s : ToolStreamScanner) : Bool := s.progressive.isSome

/-- A call is open only inside an envelope of the generic mode. -/
def Placed (s : ToolStreamScanner) : Prop :=
  s.calling = true → s.inCall = true ∧ s.state = .generic

/-- A step from a scanner with or without an open call: it leaves the scanner live and
    its events lead to whether a call is open there, or they end with its invalidation. -/
def Grammatical (a : Bool) (step : Step) : Prop :=
  (step.2.invalidated = false ∧ step.2.Placed ∧ Bracketed a step.1 step.2.calling) ∨
    step.2.invalidated = true ∧ ∃ events b message,
      step.1 = events ++ [.streamInvalid message] ∧ Bracketed a events b

theorem grammatical_of_live {a : Bool} (hlive : step.2.invalidated = false) (hplaced : step.2.Placed)
    (h : Bracketed a step.1 step.2.calling) : Grammatical a step := Or.inl ⟨hlive, hplaced, h⟩

theorem invalidate_grammatical (s : ToolStreamScanner) (message : String) (a : Bool) :
    Grammatical a (s.invalidate message) := Or.inr ⟨rfl, [], a, message, rfl, .nil a⟩

/-- A step and, when the scanner is still live, the step after it. -/
theorem Grammatical.andThen {a : Bool} {next : ToolStreamScanner → Step} (h : Grammatical a step)
    (hlive : step.2.invalidated = false → step.2.Placed → Grammatical step.2.calling (next step.2))
    (hdead : step.2.invalidated = true → next step.2 = ([], step.2)) :
    Grammatical a (ToolStreamScanner.andThen step next) := by
  rcases h with ⟨hs, hplaced, hfirst⟩ | ⟨hs, events, b, message, hevents, hfirst⟩
  · rcases hlive hs hplaced with ⟨hs', hplaced', hsecond⟩ | ⟨hs', events, b, message, hevents, hsecond⟩
    · exact Or.inl ⟨hs', hplaced', hfirst.append hsecond⟩
    · refine Or.inr ⟨hs', step.1 ++ events, b, message, ?_, hfirst.append hsecond⟩
      simp [hevents]
  · refine Or.inr ⟨?_, events, b, message, ?_, hfirst⟩
    · rw [andThen_snd, hdead hs]
      exact hs
    · rw [andThen_fst, hdead hs, hevents, List.append_nil]

theorem Grammatical.start (name : Text) (h : Grammatical true step) :
    Grammatical false (.toolStart name :: step.1, step.2) := by
  rcases h with ⟨hlive, hplaced, hevents⟩ | ⟨hdead, events, b, message, hevents, hfirst⟩
  · exact Or.inl ⟨hlive, hplaced, .start name hevents⟩
  · exact Or.inr ⟨hdead, .toolStart name :: events, b, message, by simp [hevents], .start name hfirst⟩

theorem bracketed_textEvents (u : Text) : Bracketed false (textEvents u) false := by
  simp only [textEvents]
  split
  · exact .nil false
  · exact .text u (.nil false)

theorem placed_of_none (h : s.progressive = none) : s.Placed := by
  intro hcalling
  simp [calling, h] at hcalling

section

variable (hs : s.invalidated = false) (hp : s.progressive = none)
include hs hp

theorem text_grammatical (u : Text) : Grammatical false (s.text u) := by
  have hnone := (text_progressive s u).trans hp
  by_cases h : s.Voids u
  · rw [text_of_voids h]
    exact invalidate_grammatical _ _ _
  · have hcalling : (s.text u).2.calling = false := by simp [calling, hnone]
    refine grammatical_of_live ?_ (placed_of_none hnone) ?_
    · rw [text_of_not_voids h]
      exact hs
    · rw [hcalling, text_of_not_voids h]
      exact bracketed_textEvents u

theorem commit_grammatical (name : Text)
    (arguments : JsonFields) : Grammatical false (s.commit codec name arguments) := by
  refine grammatical_of_live hs (placed_of_none hp) ?_
  have hcalling : (s.commit codec name arguments).2.calling = false := by simp [calling, commit, hp]
  rw [hcalling]
  exact .start _ (.args _ (.stop (.nil false)))

theorem closeEnvelope_grammatical (body : Text) : Grammatical false (s.closeEnvelope codec body) := by
  have htext := text_grammatical hs hp (genericOpen ++ body ++ genericClose)
  simp only [closeEnvelope]
  split
  · split
    · exact commit_grammatical hs hp _ _
    · exact htext
  · split
    · split
      · split
        · exact commit_grammatical hs hp _ _
        · exact htext
      · exact htext
    · exact htext

theorem dangling_grammatical (u : Text) : Grammatical false (s.dangling u) := by
  simp only [dangling]
  split
  · exact invalidate_grammatical _ _ _
  · exact text_grammatical hs hp _

end

theorem dangling_progressive (s : ToolStreamScanner) (u : Text) : (s.dangling u).2.progressive = s.progressive := by
  simp only [dangling]
  split
  · rfl
  · exact text_progressive s _

/-- Following the arguments keeps the call open. -/
theorem advance_bracketed (s : ToolStreamScanner) (p : Progressive) (body : Text) :
    (s.advance p body).2.invalidated = s.invalidated ∧ (s.advance p body).2.progressive.isSome = true ∧
      Bracketed true (s.advance p body).1 true := by
  simp only [advance]
  split
  · exact ⟨rfl, rfl, .nil true⟩
  · refine ⟨rfl, rfl, ?_⟩
    split
    · exact .nil true
    · exact .args _ (.nil true)

section

variable (hs : s.invalidated = false)
include hs

theorem advance_grammatical (hcall : s.inCall = true) (hstate : s.state = .generic) (p : Progressive) (body : Text) :
    Grammatical true (s.advance p body) := by
  obtain ⟨hkeep, hopen, hevents⟩ := advance_bracketed s p body
  have hinput := advance_sameInput s p body
  refine grammatical_of_live (hkeep.trans hs) ?_ ?_
  · exact fun _ => ⟨hinput.inCall.trans hcall, hinput.state.trans hstate⟩
  · rw [calling, hopen]
    exact hevents

theorem progressiveEvents_grammatical (hcall : s.inCall = true) (hstate : s.state = .generic) (body : Text) :
    Grammatical s.calling (s.progressiveEvents codec body) := by
  cases hp : s.progressive with
  | some p =>
    simp only [progressiveEvents, hp, calling]
    exact advance_grammatical hs hcall hstate p body
  | none =>
    simp only [progressiveEvents, hp, calling]
    split
    · refine grammatical_of_live hs (placed_of_none hp) ?_
      simp only [calling, hp]
      exact .nil false
    · next p _ =>
      refine Grammatical.start p.name (advance_grammatical ?_ ?_ ?_ p body)
      · exact hs
      · exact hcall
      · exact hstate

theorem finishProgressive_grammatical (p : Progressive) (body : Text) :
    Grammatical true (s.finishProgressive codec p body) := by
  obtain ⟨hkeep, -, hfirst⟩ := advance_bracketed s p body
  have hlive := hkeep.trans hs
  simp only [finishProgressive, ToolStreamScanner.andThen]
  split
  · split
    · exact Or.inl ⟨hlive, placed_of_none rfl, hfirst.append (.stop (.nil false))⟩
    · exact Or.inr ⟨rfl, (s.advance p body).1, true, _, rfl, hfirst⟩
  · exact Or.inr ⟨rfl, (s.advance p body).1, true, _, rfl, hfirst⟩

theorem endEnvelope_grammatical (body : Text) : Grammatical s.calling (s.endEnvelope codec body) := by
  cases hp : s.progressive with
  | none =>
    simp only [endEnvelope, hp, calling]
    exact closeEnvelope_grammatical hs hp body
  | some p =>
    simp only [endEnvelope, hp, calling]
    exact finishProgressive_grammatical hs p body

theorem awaitClose_grammatical (hcall : s.inCall = true) (hstate : s.state = .generic) (final : Bool) :
    Grammatical s.calling (s.awaitClose codec final) := by
  have hprogress : Grammatical s.calling (s.progressiveEvents codec s.buffer) :=
    progressiveEvents_grammatical hs hcall hstate s.buffer
  cases final with
  | false => simpa [awaitClose] using hprogress
  | true =>
    cases hp : s.progressive with
    | none =>
      rw [awaitClose_final hp]
      have hnone : s.calling = false := by simp [calling, hp]
      rw [hnone]
      rcases dangling_grammatical hs hp s.buffer with ⟨hlive, -, hevents⟩ | hdead
      · have hnone' := (dangling_progressive s s.buffer).trans hp
        exact Or.inl ⟨hlive, placed_of_none hnone', hevents⟩
      · exact Or.inr hdead
    | some p =>
      have hsome : s.calling = true := by simp [calling, hp]
      obtain ⟨-, hopen, hevents⟩ := advance_bracketed s p s.buffer
      rw [hsome]
      refine Or.inr ⟨?_, (s.advance p s.buffer).1, true,
        "generic tool call ended after streaming unterminated arguments", ?_, hevents⟩
      · simp [awaitClose, progressiveEvents, hp, hopen, invalidate]
      · simp [awaitClose, progressiveEvents, hp, hopen, invalidate]

theorem scanBuffer_grammatical (hplaced : s.Placed) (hstate : s.state = .generic) (final : Bool) :
    Grammatical s.calling (s.scanBuffer codec final) := by
  induction hlen : s.buffer.length using Nat.strong_induction_on generalizing s with
  | _ n ih =>
    cases hcall : s.inCall with
    | true =>
      cases hcut : Text.cut genericClose s.buffer with
      | none =>
        rw [scanBuffer_awaitClose hs hcall hcut]
        exact awaitClose_grammatical hs hcall hstate final
      | some found =>
        obtain ⟨body, rest⟩ := found
        have hkeep : SameInput (s.moveTo rest false) ((s.moveTo rest false).endEnvelope codec body).2 :=
          endEnvelope_sameInput _ body
        rw [scanBuffer_close hs hcall hcut]
        refine (endEnvelope_grammatical (s := s.moveTo rest false) hs body).andThen ?_ ?_
        · intro hlive hplaced'
          refine ih _ ?_ hlive hplaced' (hkeep.state.trans hstate) rfl
          rw [hkeep.buffer, ← hlen]
          exact cut_length_lt genericClose_ne_nil hcut
        · exact fun hdead => scanBuffer_of_invalidated hdead
    | false =>
      have hnone : s.progressive = none := by
        by_contra hne
        have := (hplaced (Option.isSome_iff_ne_none.mpr hne)).1
        exact nomatch this.symm.trans hcall
      have hcalling : s.calling = false := by simp [calling, hnone]
      rw [hcalling]
      cases hcut : Text.cut genericOpen s.buffer with
      | none =>
        rw [scanBuffer_awaitOpen hs hcall hcut]
        refine text_grammatical ?_ ?_ _
        · exact hs
        · exact hnone
      | some found =>
        obtain ⟨before, rest⟩ := found
        have hkeep := text_sameInput (s.moveTo rest true) before
        rw [scanBuffer_open hs hcall hcut]
        refine (text_grammatical (s := s.moveTo rest true) hs hnone before).andThen ?_ ?_
        · intro hlive hplaced'
          refine ih _ ?_ hlive hplaced' (hkeep.state.trans hstate) rfl
          rw [hkeep.buffer, ← hlen]
          exact cut_length_lt genericOpen_ne_nil hcut
        · exact fun hdead => scanBuffer_of_invalidated hdead

end

/-! ### Any scanner -/

theorem Whole.bracketed {events : List ToolStreamEvent} (h : Whole codec events) : Bracketed false events false := by
  induction h with
  | nil => exact .nil false
  | text _ ih => exact .text _ ih
  | call _ _ _ ih => exact .start _ (.args _ (.stop ih))

variable (hs : s.invalidated = false)
include hs

section

variable (hp : s.progressive = none)
include hp

theorem replayed_grammatical (final : Bool) : Grammatical false (s.replayed.scanBuffer codec final) := by
  have hreplay : Grammatical s.replayed.calling (s.replayed.scanBuffer codec final) :=
    scanBuffer_grammatical (s := s.replayed) hs (placed_of_none hp) rfl final
  have hcalling : s.replayed.calling = false := by simp [calling, replayed, hp]
  rwa [hcalling] at hreplay

theorem structureFailure_grammatical (final : Bool) : Grammatical false (s.structureFailure codec final) := by
  simp only [structureFailure]
  split
  · exact invalidate_grammatical _ _ _
  · exact replayed_grammatical hs hp final

theorem waits_grammatical : Grammatical false ([], s) := by
  refine grammatical_of_live hs (placed_of_none hp) ?_
  simp only [calling, hp]
  exact .nil false

theorem scanDsmlBuffer_grammatical (final : Bool) : Grammatical false (s.scanDsmlBuffer codec final) := by
  induction hlen : s.buffer.length using Nat.strong_induction_on generalizing s with
  | _ n ih =>
    cases hround : s.dsmlRound codec final with
    | stop step =>
      rw [scanDsmlBuffer_stop hs hround]
      rcases dsmlRound_stop_cases hround with rfl | rfl | ⟨x, rfl, hprogressive, hlive⟩
      · exact waits_grammatical hs hp
      · exact replayed_grammatical hs hp final
      · exact structureFailure_grammatical (hlive.trans hs) (hprogressive.trans hp) final
    | again step =>
      obtain ⟨hnext, -⟩ := dsmlRound_again hround
      have hlive := hnext.invalidated.trans hs
      have hnone := hnext.progressive.trans hp
      have hcalling : step.2.calling = false := by simp [calling, hnone]
      rw [scanDsmlBuffer_again hs hround]
      refine Grammatical.andThen (Or.inl ⟨hlive, placed_of_none hnone, ?_⟩) ?_ ?_
      · rw [hcalling]
        exact hnext.whole.bracketed
      · intro _ _
        rw [hcalling]
        exact ih _ (hlen ▸ hnext.shorter) hlive hnone rfl
      · exact fun hdead => nomatch hlive.symm.trans hdead

theorem finalize_grammatical : Grammatical false (s.finalize codec) := by
  have hreplay : Grammatical false (s.fallbackToGeneric codec true) := replayed_grammatical hs hp true
  simp only [finalize]
  split
  · split
    · refine commit_grammatical ?_ ?_ _ _
      · exact hs
      · exact hp
    · exact hreplay
  · exact hreplay

theorem holdCall_grammatical (final : Bool) : Grammatical false (s.holdCall codec final) := by
  simp only [holdCall]
  split
  · exact finalize_grammatical hs hp
  · exact waits_grammatical hs hp

theorem feedLlama_grammatical (final : Bool) : Grammatical false (s.feedLlama codec final) := by
  simp only [feedLlama]
  split
  · split
    · exact holdCall_grammatical (s := { s with state := .hold }) hs hp final
    · exact replayed_grammatical hs hp final
  · exact holdCall_grammatical hs hp final

end

/-- **A scanner's events are bracketed**, from any scanner whose open call is in place. -/
theorem feed_grammatical (hplaced : s.Placed) (u : Text)
    (final : Bool) : Grammatical s.calling (s.feed codec u final) := by
  have hnone : s.state ≠ .generic → s.progressive = none := by
    intro hstate
    by_contra hne
    exact hstate (hplaced (Option.isSome_iff_ne_none.mpr hne)).2
  rcases inDsml_or s with hstate | hstate | hstate
  · rw [feed_generic hs hstate]
    exact scanBuffer_grammatical (s := s.push u) hs hplaced hstate final
  · have hp := hnone (by rcases hstate with h | h | h | h <;> simp [h])
    rw [feed_dsml hs hstate]
    simp only [calling, hp]
    exact scanDsmlBuffer_grammatical (s := s.push u) hs hp final
  · have hp := hnone (by rcases hstate with h | h <;> simp [h])
    rw [feed_llama hs hstate]
    simp only [calling, hp]
    exact feedLlama_grammatical (s := s.push u) hs hp final

end ToolStreamScanner

end Kairyu
