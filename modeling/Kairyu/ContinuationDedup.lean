/-
  Kairyu/ContinuationDedup.lean
  =============================
  **Dropping a repeated head** (`_ContinuationDeduper` and `dedup_public_continuation` of
  `orchestration/conductor.py`).

  The deduper holds text back while it may still be a repetition of the committed head,
  and then while it may still be the sentinel alone.  What is left to say from a state
  is a function of the text that is still to come (`remaining`); feeding a delta takes its
  output from there, so the split into deltas does not matter.
-/
import Kairyu.Text

namespace Kairyu

open List

def noContinuationSentinel : Text := Text.of "NO_CONTINUATION"

def dedupPublicContinuation (committed continuation : Text) : Text :=
  if committed = [] then continuation
  else
    let stripped := Text.lstrip continuation
    let stripped := if committed <+: stripped then stripped.drop committed.length else continuation
    if Text.strip stripped = noContinuationSentinel then [] else stripped

structure ContinuationDeduper where
  committed : Text
  buffer : Text := []
  matching : Bool := decide (committed ≠ [])
  sentinelActive : Bool := decide (committed ≠ [])
  sentinelBuffer : Text := []

namespace ContinuationDeduper

def sentinelFeed (d : ContinuationDeduper) (out : Text) : Text × ContinuationDeduper :=
  if d.sentinelActive = false ∨ out = [] then (out, d)
  else
    let candidate := d.sentinelBuffer ++ out
    let stripped := Text.strip candidate
    if stripped = [] ∨ stripped <+: noContinuationSentinel then ([], { d with sentinelBuffer := candidate })
    else (candidate, { d with sentinelActive := false, sentinelBuffer := [] })

def feed (d : ContinuationDeduper) (delta : Text) : Text × ContinuationDeduper :=
  if d.matching = false then d.sentinelFeed delta
  else
    let candidate := d.buffer ++ delta
    let stripped := Text.lstrip candidate
    if d.committed <+: stripped then
      sentinelFeed { d with matching := false, buffer := [] } (stripped.drop d.committed.length)
    else if stripped <+: d.committed then ([], { d with buffer := candidate })
    else sentinelFeed { d with matching := false, buffer := [] } candidate

def flush (d : ContinuationDeduper) : Text × ContinuationDeduper :=
  let combined := d.sentinelBuffer ++ d.buffer
  (if d.sentinelActive = true ∧ Text.strip combined = noContinuationSentinel then [] else combined,
    { d with buffer := [], matching := false, sentinelBuffer := [], sentinelActive := false })

/-- What the deltas and the final `flush` publish. -/
def publish (d : ContinuationDeduper) : List Text → Text
  | [] => d.flush.1
  | delta :: deltas => (d.feed delta).1 ++ (d.feed delta).2.publish deltas

/-! ### What is left to say -/

/-- What becomes of a text that is not a repetition. -/
def unlessSentinel (t : Text) : Text := if Text.strip t = noContinuationSentinel then [] else t

theorem dedup_eq {committed : Text} (h : committed ≠ []) (t : Text) : dedupPublicContinuation committed t =
    unlessSentinel (if committed <+: Text.lstrip t then (Text.lstrip t).drop committed.length else t) :=
  if_neg h

def remaining (d : ContinuationDeduper) (t : Text) : Text :=
  if d.matching then dedupPublicContinuation d.committed (d.buffer ++ t)
  else if d.sentinelActive then unlessSentinel (d.sentinelBuffer ++ t)
  else t

/-- What is held back is still undecided. -/
structure Holding (d : ContinuationDeduper) : Prop where
  matching : d.matching = true → d.committed ≠ [] ∧ ¬ d.committed <+: Text.lstrip d.buffer ∧
    d.sentinelActive = true ∧ d.sentinelBuffer = []
  passed : d.matching = false → d.buffer = []
  inactive : d.sentinelActive = false → d.sentinelBuffer = []

variable {d : ContinuationDeduper}

theorem sentinelFeed_remaining (hpassed : d.matching = false) (hbuffer : d.buffer = [])
    (hinactive : d.sentinelActive = false → d.sentinelBuffer = []) (out t : Text) :
    (d.sentinelFeed out).1 ++ (d.sentinelFeed out).2.remaining t = d.remaining (out ++ t) ∧
      (d.sentinelFeed out).2.Holding := by
  have hholding : d.Holding := ⟨by simp [hpassed], fun _ => hbuffer, hinactive⟩
  unfold sentinelFeed
  split
  · next h =>
    refine ⟨?_, hholding⟩
    rcases h with h | rfl
    · simp [remaining, hpassed, h]
    · rfl
  · next h =>
    rw [not_or] at h
    dsimp only
    split
    · refine ⟨by simp [remaining, hpassed, h.1], by simp [hpassed], fun _ => hbuffer, by simp [h.1]⟩
    · next hnot =>
      refine ⟨?_, by simp [hpassed], fun _ => hbuffer, fun _ => rfl⟩
      have hne : Text.strip (d.sentinelBuffer ++ out ++ t) ≠ noContinuationSentinel := by
        intro heq
        have hpre := Text.strip_prefix_strip (d.sentinelBuffer ++ out) t
        rw [heq] at hpre
        exact hnot (.inr hpre)
      simp [remaining, hpassed, h.1, unlessSentinel, ← append_assoc, hne]

theorem Holding.feed (h : d.Holding) (delta t : Text) :
    (d.feed delta).1 ++ (d.feed delta).2.remaining t = d.remaining (delta ++ t) ∧ (d.feed delta).2.Holding := by
  unfold ContinuationDeduper.feed
  split
  · next hpassed => exact sentinelFeed_remaining hpassed (h.passed hpassed) h.inactive delta t
  · next hmatching =>
    rw [Bool.not_eq_false] at hmatching
    obtain ⟨hne, -, hactive, hempty⟩ := h.matching hmatching
    have hwhole : d.remaining (delta ++ t) = dedupPublicContinuation d.committed (d.buffer ++ delta ++ t) := by
      rw [remaining, if_pos hmatching, append_assoc]
    -- once a decision falls, the rest goes to the sentinel's automaton
    have hdecided : ∀ out, dedupPublicContinuation d.committed (d.buffer ++ delta ++ t) = unlessSentinel (out ++ t) →
        (sentinelFeed { d with matching := false, buffer := [] } out).1 ++
            (sentinelFeed { d with matching := false, buffer := [] } out).2.remaining t = d.remaining (delta ++ t) ∧
          (sentinelFeed { d with matching := false, buffer := [] } out).2.Holding := by
      intro out hout
      rw [hwhole, hout]
      have hfed := sentinelFeed_remaining (d := { d with matching := false, buffer := [] }) rfl rfl h.inactive out t
      simpa [remaining, hactive, hempty] using hfed
    dsimp only
    split
    · next hpre =>
      have hstart : Text.lstrip (d.buffer ++ delta) ≠ [] := fun hnil => hne (prefix_nil.mp (hnil ▸ hpre))
      apply hdecided
      rw [dedup_eq hne, Text.lstrip_append_of_ne_nil hstart, if_pos (hpre.trans (prefix_append _ t)),
        drop_append_of_le_length hpre.length_le]
    · next hnot =>
      split
      · refine ⟨by rw [hwhole, remaining, if_pos hmatching]; rfl, ?_, fun hpassed => ?_, h.inactive⟩
        · exact fun _ => ⟨hne, hnot, hactive, hempty⟩
        · rw [hmatching] at hpassed
          cases hpassed
      · next hnot' =>
        have hstart : Text.lstrip (d.buffer ++ delta) ≠ [] := fun hnil => hnot' (hnil ▸ nil_prefix)
        apply hdecided
        rw [dedup_eq hne, Text.lstrip_append_of_ne_nil hstart, if_neg]
        intro hpre
        rcases prefix_or_prefix_of_prefix hpre (prefix_append _ t) with hless | hmore
        · exact hnot hless
        · exact hnot' hmore

theorem Holding.flush (h : d.Holding) : d.flush.1 = d.remaining [] := by
  unfold ContinuationDeduper.flush remaining
  cases hmatching : d.matching with
  | true =>
    obtain ⟨hne, hnot, hactive, hempty⟩ := h.matching hmatching
    simp [dedup_eq hne, unlessSentinel, hnot, hactive, hempty]
  | false =>
    cases hactive : d.sentinelActive with
    | true => simp [unlessSentinel, h.passed hmatching]
    | false => simp [h.passed hmatching, h.inactive hactive]

/-- **The split into deltas does not matter.** -/
theorem Holding.publish (h : d.Holding) (deltas : List Text) : d.publish deltas = d.remaining deltas.flatten := by
  induction deltas generalizing d with
  | nil => exact h.flush
  | cons delta deltas ih =>
    obtain ⟨hfed, hnext⟩ := h.feed delta deltas.flatten
    rw [ContinuationDeduper.publish, ih hnext, hfed]
    rfl

theorem holding_new (committed : Text) : Holding { committed } := by
  constructor <;> simp +contextual [Text.lstrip]

/-- **Head deduplication is chunking-independent.**  What is dropped is one repetition of the
    committed text, with the white space before it, and then a rest that is the sentinel
    alone up to white space. -/
theorem publish_eq_dedup (committed : Text) (deltas : List Text) :
    publish { committed } deltas = dedupPublicContinuation committed deltas.flatten ∧
      ∃ dropped rest, deltas.flatten = dropped ++ rest ∧
        (dropped = [] ∨ ∃ space, Text.blank space = true ∧ dropped = space ++ committed) ∧
        (publish { committed } deltas = rest ∨
          publish { committed } deltas = [] ∧ committed ≠ [] ∧ Text.strip rest = noContinuationSentinel) := by
  have hwhole : publish { committed } deltas = dedupPublicContinuation committed deltas.flatten := by
    rw [(holding_new committed).publish]
    by_cases hnil : committed = [] <;> simp [remaining, dedupPublicContinuation, hnil]
  refine ⟨hwhole, ?_⟩
  rw [hwhole]
  generalize deltas.flatten = t
  by_cases hnil : committed = []
  · exact ⟨[], t, rfl, .inl rfl, .inl (if_pos hnil)⟩
  have hsay : ∀ rest, unlessSentinel rest = rest ∨
      unlessSentinel rest = [] ∧ committed ≠ [] ∧ Text.strip rest = noContinuationSentinel := by
    intro rest
    by_cases hstrip : Text.strip rest = noContinuationSentinel
    · exact .inr ⟨if_pos hstrip, hnil, hstrip⟩
    · exact .inl (if_neg hstrip)
  rw [dedup_eq hnil]
  split
  · next hpre =>
    obtain ⟨rest, hrest⟩ := hpre
    refine ⟨t.takeWhile Text.isSpace ++ committed, rest, ?_, .inr ⟨_, ?_, rfl⟩, ?_⟩
    · rw [append_assoc, hrest, Text.lstrip, takeWhile_append_dropWhile]
    · exact all_takeWhile
    · rw [← hrest, drop_left]
      exact hsay rest
  · exact ⟨[], t, rfl, .inl rfl, hsay t⟩

/-- The white space before a repetition is dropped with it. -/
theorem publish_drops_space : publish { committed := Text.of "a" } [Text.of " ", Text.of "a b"] = Text.of " b" ∧
      (Text.of "a").length + (Text.of " b").length < [Text.of " ", Text.of "a b"].flatten.length := by
  decide +kernel

end ContinuationDeduper

end Kairyu
