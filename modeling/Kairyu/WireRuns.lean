/-
  Kairyu/WireRuns.lean
  ====================
  **The process boundary is transparent.**

  `Synced` relates the service's cursor and the accumulator to the update both have come
  to.  One update keeps it, suppressed or sent, and from it follow what the accumulator
  returns, what the streamed deltas add up to, and that no other sequence of the sent
  events is accepted.
-/
import Kairyu.Effect
import Kairyu.JsonRoundTrip
import Kairyu.WireEvents

namespace Kairyu

open List WireAccumulator WireEventCursor Wire

/-! ### Codecs -/

theorem writeNatural_ne_minus (n : Nat) : ∃ c cs, Json.writeNatural n = c :: cs ∧ c ≠ cp '-' := by
  have hdigit : ∀ c ∈ Json.writeNatural n, c ≠ cp '-' := by
    intro c hc hminus
    subst hminus
    unfold Json.writeNatural at hc
    split at hc
    · exact absurd hc (by decide)
    · obtain ⟨d, hd, hval⟩ := mem_map.mp (mem_reverse.mp hc)
      have hlt : d < 10 := Nat.digits_lt_base (by omega) hd
      have hvalue := congrArg Fin.val hval
      rw [Fin.val_ofNat] at hvalue
      have hcp : (cp '-').val = 45 := by decide
      omega
  have hne : Json.writeNatural n ≠ [] := by
    unfold Json.writeNatural
    split
    · exact cons_ne_nil _ _
    · next hn => simpa [Nat.digits_eq_nil_iff_eq_zero] using hn
  obtain ⟨c, cs, hwrite⟩ := exists_cons_of_ne_nil hne
  exact ⟨c, cs, hwrite, hdigit c (by rw [hwrite]; exact mem_cons_self)⟩

theorem keyValue_writeInteger (i : Int) : keyValue (Json.writeInteger i) = i := by
  have hvalue := Json.naturalValue_write i.natAbs
  unfold Json.writeInteger
  split
  · next hneg =>
    rw [keyValue, if_pos rfl]
    omega
  · next hpos =>
    obtain ⟨c, cs, hwrite, hminus⟩ := writeNatural_ne_minus i.natAbs
    rw [hwrite] at hvalue ⊢
    rw [keyValue, if_neg hminus]
    omega

theorem decodeEntry_encodeEntry (entry : LogprobEntry) : decodeEntry (encodeEntry entry) = entry := by
  simp [decodeEntry, encodeEntry, Function.comp_def, keyValue_writeInteger]

theorem decodeEntries_encodeEntries (rows : Option (List LogprobEntry)) :
    (rows.map (·.map encodeEntry)).map (·.map decodeEntry) = rows := by
  cases rows with
  | none => rfl
  | some rows => simp [Function.comp_def, decodeEntry_encodeEntry]

theorem unpackBytes_packBytes (bytes : Option (List Int)) : unpackBytes (packBytes bytes) = some bytes := by
  cases bytes with
  | none => rfl
  | some bytes =>
    have hmap : (bytes.map Packed.int).mapM Packed.asInt = some bytes := by
      induction bytes with
      | nil => rfl
      | cons b bytes ih => simp [Packed.asInt, ih]
    simp [packBytes, unpackBytes, hmap]

mutual

theorem decodeTokenLogprob_encode : ∀ entry, decodeTokenLogprob (encodeTokenLogprob entry) = some entry
  | .mk token tokenId logprob bytes top => by
    simp [encodeTokenLogprob, decodeTokenLogprob, unpackBytes_packBytes, decodeTokenLogprobs_encode top]

theorem decodeTokenLogprobs_encode : ∀ entries, decodeTokenLogprobs (encodeTokenLogprobs entries) = some entries
  | [] => rfl
  | entry :: entries => by
    simp [encodeTokenLogprobs, decodeTokenLogprobs, decodeTokenLogprob_encode entry,
      decodeTokenLogprobs_encode entries]

end

theorem decodeContent_encode (rows : Option (List RichLogprob)) :
    decodeContent (rows.map encodeTokenLogprobs) = some rows := by
  cases rows with
  | none => rfl
  | some rows => simp [decodeContent, decodeTokenLogprobs_encode]

theorem encodeTokenLogprobs_eq_map (entries : List RichLogprob) :
    encodeTokenLogprobs entries = entries.map encodeTokenLogprob := by
  induction entries with
  | nil => rfl
  | cons entry entries ih => rw [encodeTokenLogprobs, ih, map_cons]

/-! ### Stage metrics -/

theorem blank_of_safeStage {stage : String} (h : safeStage stage = true) : Text.blank (Text.of stage) = false := by
  unfold safeStage at h
  cases hchars : stage.toList with
  | nil => simp [hchars] at h
  | cons c cs =>
    simp only [hchars, Bool.and_eq_true] at h
    have hlower : 97 ≤ c.toNat ∧ c.toNat ≤ 122 := by
      have := h.1.1
      simp only [Char.isLower, Bool.and_eq_true, decide_eq_true_eq] at this
      exact this
    have hspace : Text.isSpace (cp c) = false := by
      have hval : (cp c).val = c.toNat := rfl
      simp only [Text.isSpace]
      simp only [Bool.or_eq_false_iff, Bool.and_eq_false_iff, decide_eq_false_iff_not, beq_eq_false_iff_ne]
      omega
    simp [Text.blank, Text.of, hchars, hspace]

/-- Each stage has one metric. -/
def StagesDistinct (metrics : List GenerationStageMetric) : Prop := (metrics.map (·.row.stage)).Nodup

variable {metrics : List GenerationStageMetric} {metric : GenerationStageMetric}

/-- The metrics behind the first have neither its stage nor one seen before. -/
theorem StagesDistinct.unseen {seen : List String}
    (h : StagesDistinct (metric :: metrics)) (hseen : ∀ m ∈ metric :: metrics, m.row.stage ∉ seen) :
    ∀ m ∈ metrics, m.row.stage ∉ metric.row.stage :: seen := by
  intro m hm hmem
  rcases mem_cons.mp hmem with heq | hmem
  · exact (nodup_cons.mp h).1 (mem_map.mpr ⟨m, hm, heq⟩)
  · exact hseen m (mem_cons_of_mem _ hm) hmem

theorem stageMetricsToWire_eq (h : StagesDistinct metrics) (seen : List String)
    (hseen : ∀ m ∈ metrics, m.row.stage ∉ seen) : stageMetricsToWire seen metrics = .ok (metrics.map (·.row)) := by
  induction metrics generalizing seen with
  | nil => rfl
  | cons metric metrics ih =>
    have hrest := (nodup_cons.mp h).2
    have hvalid := metric.valid
    simp only [StageRow.valid, Bool.and_eq_true, decide_eq_true_eq] at hvalid
    rw [stageMetricsToWire, blank_of_safeStage hvalid.1.1,
      if_neg (not_lt.mpr hvalid.2.1), if_neg (hseen metric mem_cons_self), ih hrest _ (h.unseen hseen)]
    rfl

theorem decodeStageMetrics_rows (h : StagesDistinct metrics) (seen : List String)
    (hseen : ∀ m ∈ metrics, m.row.stage ∉ seen) : decodeStageMetrics seen (metrics.map (·.row)) = .ok metrics := by
  induction metrics generalizing seen with
  | nil => rfl
  | cons metric metrics ih =>
    have hrest := (nodup_cons.mp h).2
    rw [map_cons, decodeStageMetrics, dif_pos metric.valid, if_neg (hseen metric mem_cons_self),
      ih hrest _ (h.unseen hseen)]
    rfl

/-- The later metrics have every stage of the earlier ones, with no smaller numbers. -/
def StagesGrown (earlier later : List GenerationStageMetric) : Prop :=
  ∀ old ∈ earlier, ∃ new ∈ later, new.row.stage = old.row.stage ∧ old.row.durationNs ≤ new.row.durationNs ∧
    old.row.occurrences ≤ new.row.occurrences

theorem find_stage (h : StagesDistinct metrics) (hmem : metric ∈ metrics) :
    metrics.find? (·.row.stage == metric.row.stage) = some metric := by
  induction metrics with
  | nil => exact nomatch hmem
  | cons head metrics ih =>
    obtain ⟨hfresh, hrest⟩ := nodup_cons.mp h
    rcases mem_cons.mp hmem with rfl | hmem
    · simp
    · have hne : (head.row.stage == metric.row.stage) = false := by
        rw [beq_eq_false_iff_ne]
        exact fun heq => hfresh (mem_map.mpr ⟨metric, hmem, heq.symm⟩)
      rw [List.find?_cons_of_neg (by simp [hne])]
      exact ih hrest hmem

theorem checkStageMetrics_grown {current previous : List GenerationStageMetric} (hdistinct : StagesDistinct current)
    (h : StagesGrown previous current) : checkStageMetrics current previous = .ok () := by
  induction previous with
  | nil => rfl
  | cons old previous ih =>
    obtain ⟨new, hnew, hstage, hduration, hoccurrences⟩ := h old mem_cons_self
    have hfind := find_stage hdistinct hnew
    rw [hstage] at hfind
    rw [checkStageMetrics, hfind]
    simp only
    rw [if_neg (by omega)]
    exact ih fun m hm => h m (mem_cons_of_mem _ hm)

/-! ### Cumulative updates -/

/-- Entries that once appeared stay, and only more are added. -/
def Grown {α : Type} (earlier later : Option (List α)) : Prop :=
  ∀ rows, earlier = some rows → ∃ rows', later = some rows' ∧ rows <+: rows'

/-- What an engine loop lets follow an update of the same request. -/
structure WireUpdate.Follows (u u' : WireUpdate) : Prop where
  running : u.finished = false
  outputs : u.outputs <+: u'.outputs
  logprobs : Grown u.logprobs u'.logprobs
  content : Grown u.logprobContent u'.logprobContent
  prompt : u'.numPromptTokens = u.numPromptTokens
  text : u'.finished = false → u.text <+: u'.text
  steady : u'.finished = false → u'.outputs = u.outputs → u'.text = u.text
  metrics : StagesGrown u.stageMetrics u'.stageMetrics

/-- The updates of one request, in order. -/
structure Cumulative (updates : List WireUpdate) : Prop where
  chain : updates.IsChain WireUpdate.Follows
  distinct : ∀ u ∈ updates, StagesDistinct u.stageMetrics

/-! ### One kind of log probabilities -/

section Rows

variable {α β : Type} {rows rows' : Option (List α)}

theorem Grown.count_le (h : Grown rows rows') : countOf rows ≤ countOf rows' := by
  cases rows with
  | none => exact Nat.zero_le _
  | some r =>
    obtain ⟨r', rfl, hbegins⟩ := h r rfl
    exact hbegins.length_le

theorem Grown.some_of_some (h : Grown rows rows') (hsome : rows.isSome = true) : rows'.isSome = true := by
  obtain ⟨r, rfl⟩ := Option.isSome_iff_exists.mp hsome
  obtain ⟨r', rfl, -⟩ := h r rfl
  rfl

/-- Rows that grew by nothing are the same. -/
theorem Grown.eq (h : Grown rows rows') (hcount : countOf rows' = countOf rows) (hsome : rows'.isSome = rows.isSome) :
    rows' = rows := by
  cases rows with
  | none => exact Option.not_isSome_iff_eq_none.mp (by simp [hsome])
  | some r =>
    obtain ⟨r', rfl, hbegins⟩ := h r rfl
    exact congrArg some (hbegins.eq_of_length hcount.symm).symm

theorem extendRows_grown (apart omitted offsetName : String) (f : α → β) (h : Grown rows rows') :
    extendRows apart omitted offsetName (rows.map (·.map f)) (rows'.map fun r => (r.drop (countOf rows)).map f)
      (rows'.map fun _ => countOf rows) = .ok (rows'.map (·.map f)) := by
  have hcount : countOf (rows.map (·.map f)) = countOf rows := by cases rows <;> simp [countOf]
  cases rows' with
  | none =>
    obtain rfl : rows = none := by
      cases rows with
      | none => rfl
      | some r => exact nomatch h.some_of_some rfl
    rfl
  | some r' =>
    simp only [extendRows]
    cases rows with
    | none => simp [countOf]
    | some r =>
      obtain ⟨r'', heq, tail, rfl⟩ := h r rfl
      cases heq
      simp [countOf]

end Rows

/-! ### Texts -/

theorem commonLength_le (t t' : Text) : commonLength t t' ≤ t.length ∧ t.take (commonLength t t') = t'.take (commonLength t t') := by
  induction t generalizing t' with
  | nil => simp [commonLength]
  | cons c cs ih =>
    cases t' with
    | nil => simp [commonLength]
    | cons c' cs' =>
      by_cases hc : c = c'
      · subst hc
        have hrec := ih cs'
        simp only [commonLength, ne_eq, not_true_eq_false, if_false, take_succ_cons]
        exact ⟨Nat.succ_le_succ hrec.1, congrArg _ hrec.2⟩
      · simp [commonLength, hc]

variable {t t' delta : Text}

theorem commonLength_of_begins (h : t <+: t') : commonLength t t' = t.length := by
  induction t generalizing t' with
  | nil => simp [commonLength]
  | cons c cs ih =>
    obtain ⟨rest, rfl⟩ := h
    simp [commonLength, ih (prefix_append cs rest)]

/-- Where a delta from one text to the next begins. -/
def deltaOffset (finished : Bool) (t t' : Text) : Nat := if finished then commonLength t t' else t.length

variable {finished : Bool}

theorem deltaOffset_spec (h : finished = false → t <+: t') : deltaOffset finished t t' ≤ t.length ∧
      t.take (deltaOffset finished t t') ++ t'.drop (deltaOffset finished t t') = t' := by
  have hcommon := commonLength_le t t'
  unfold deltaOffset
  cases finished with
  | true =>
    refine ⟨hcommon.1, ?_⟩
    rw [if_pos rfl, hcommon.2, take_append_drop]
  | false =>
    obtain ⟨rest, rfl⟩ := h rfl
    simp

theorem deltaOffset_of_begins (h : t <+: t') : deltaOffset finished t t' = t.length := by
  unfold deltaOffset
  split
  · exact commonLength_of_begins h
  · rfl

variable {acc acc' : WireAccumulator}

namespace WireAccumulator

/-- The lists `text_parts` has been bound to, the current one last. -/
def lists (acc : WireAccumulator) : List (List Text) := acc.replaced ++ [acc.textParts]

/-- Every list only had parts appended. -/
def Keeps (acc acc' : WireAccumulator) : Prop :=
  acc.replaced.length ≤ acc'.replaced.length ∧
    ∀ i ≤ acc.replaced.length, acc.lists.getD i [] <+: acc'.lists.getD i []

theorem Keeps.refl (acc : WireAccumulator) : Keeps acc acc := ⟨le_rfl, fun _ _ => prefix_rfl⟩

theorem Keeps.trans {acc'' : WireAccumulator} (h : Keeps acc acc') (h' : Keeps acc' acc'') : Keeps acc acc'' :=
  ⟨h.1.trans h'.1, fun i hi => (h.2 i hi).trans (h'.2 i (hi.trans h.1))⟩

theorem keeps_append (hreplaced : acc'.replaced = acc.replaced) (part : Text)
    (hparts : acc'.textParts = acc.textParts ++ [part]) : Keeps acc acc' := by
  refine ⟨by rw [hreplaced], ?_⟩
  intro i hi
  simp only [lists, hreplaced, hparts, getD_eq_getElem?_getD]
  rcases Nat.lt_or_eq_of_le hi with hlt | rfl
  · rw [List.getElem?_append_left hlt, List.getElem?_append_left hlt]
  · simp

theorem keeps_replace (hreplaced : acc'.replaced = acc.replaced ++ [acc.textParts]) :
    Keeps acc acc' := by
  refine ⟨by simp [hreplaced], ?_⟩
  intro i hi
  have hlt : i < (acc.replaced ++ [acc.textParts]).length := by
    rw [length_append, length_singleton]
    omega
  simp only [lists, hreplaced, getD_eq_getElem?_getD]
  rw [List.getElem?_append_left hlt]

/-- A text taken in one state reads the same in every later one. -/
theorem Keeps.read (h : Keeps acc acc') (event : WireEvent) (materialize : Bool) :
    (acc.normalized event materialize).text.read acc' = acc.textParts.flatten := by
  cases materialize with
  | true => rfl
  | false =>
    obtain ⟨tail, htail⟩ := h.2 acc.replaced.length le_rfl
    have hlast : acc.lists.getD acc.replaced.length [] = acc.textParts := by simp [lists]
    have hread : (acc.normalized event false).text.read acc' =
        ((acc'.lists.getD acc.replaced.length []).take acc.textParts.length).flatten := rfl
    rw [hread, ← htail, hlast, take_left' rfl]

variable {acc : WireAccumulator} {t t' : Text} {finished : Bool}

theorem takeText_delta (hparts : acc.textParts.flatten = t) (hlength : acc.textLength = t.length)
    (h : finished = false → t <+: t') :
    ∃ parts replaced, acc.takeText finished (deltaOffset finished t t') (t'.drop (deltaOffset finished t t')) =
        .ok { acc with textParts := parts, replaced, textLength := t'.length } ∧
      parts.flatten = t' ∧ Keeps acc { acc with textParts := parts, replaced, textLength := t'.length } := by
  obtain ⟨hle, hjoin⟩ := deltaOffset_spec h
  have hsum : deltaOffset finished t t' + (t'.drop (deltaOffset finished t t')).length = t'.length := by
    have := congrArg List.length hjoin
    rw [length_append, length_take] at this
    omega
  have hrewrite : ¬ (deltaOffset finished t t' ≠ acc.textLength ∧ finished = false) := by
    rintro ⟨hne, hfinished⟩
    exact hne ((deltaOffset_of_begins (h hfinished)).trans hlength.symm)
  rw [takeText, if_neg (by omega), if_neg hrewrite, hsum]
  split
  · next hend =>
    refine ⟨_, _, rfl, ?_, keeps_append rfl _ rfl⟩
    rw [hend, hlength, take_length] at hjoin
    simp only [flatten_append, hparts, flatten_singleton, hend, hlength]
    exact hjoin
  · refine ⟨_, _, rfl, ?_, keeps_replace rfl⟩
    rw [hparts, flatten_singleton]
    exact hjoin

end WireAccumulator

/-! ### One update -/

/-- The rows that the events of a request carry. -/
def rowsOf (traceRequested : Bool) (u : WireUpdate) : Option (List StageRow) :=
  if traceRequested then some (u.stageMetrics.map (·.row)) else none

/-- The metrics the accumulator has after an update. -/
def metricsOf (traceRequested : Bool) (u : WireUpdate) : List GenerationStageMetric :=
  if traceRequested then u.stageMetrics else []

/-- The event of an update that is not suppressed. -/
def sentEvent (requestId : RequestId) (traceRequested : Bool) (cursor : WireEventCursor) (u : WireUpdate) : WireEvent where
  wireVersion := version
  requestId
  sequence := cursor.sequence
  finished := u.finished
  finishReason := u.finishReason
  numCachedTokens := u.numCachedTokens
  cumulativeLogprob := u.cumulativeLogprob
  stageMetrics := rowsOf traceRequested u
  body := cursor.body u

/-- The cursor stands behind the update, whatever was suppressed. -/
structure Behind (traceRequested : Bool) (u : WireUpdate) (cursor : WireEventCursor) : Prop where
  sequence : 0 < cursor.sequence
  outputCount : cursor.outputCount = u.outputs.length
  text : cursor.text = u.text
  logprobCount : cursor.logprobCount = countOf u.logprobs
  contentCount : cursor.logprobContentCount = countOf u.logprobContent
  hasLogprobs : cursor.hasLogprobs = u.logprobs.isSome
  hasContent : cursor.hasLogprobContent = u.logprobContent.isSome
  rows : traceRequested = true → cursor.stageMetrics = u.stageMetrics.map (·.row)

/-- The accumulator holds the update. -/
structure Holds (traceRequested : Bool) (u : WireUpdate) (acc : WireAccumulator) : Prop where
  started : acc.started = true
  version : acc.wireVersion = some version
  outputs : acc.outputs = u.outputs
  text : acc.textParts.flatten = u.text
  textLength : acc.textLength = u.text.length
  logprobs : acc.logprobs = u.logprobs.map (·.map encodeEntry)
  content : acc.logprobContent = u.logprobContent.map encodeTokenLogprobs
  prompt : acc.numPromptTokens = u.numPromptTokens
  metrics : acc.stageMetrics = metricsOf traceRequested u

/-- Both ends stand at the same update. -/
structure Synced (traceRequested : Bool) (u : WireUpdate) (cursor : WireEventCursor) (acc : WireAccumulator) : Prop where
  behind : Behind traceRequested u cursor
  holds : Holds traceRequested u acc
  sequence : acc.nextSequence = cursor.sequence

variable {requestId : RequestId} {traceRequested : Bool} {u u' : WireUpdate} {cursor : WireEventCursor}
  {acc : WireAccumulator}

theorem advance_behind (cursor : WireEventCursor) (u : WireUpdate) :
    Behind traceRequested u (cursor.advance u (rowsOf traceRequested u)) where
  sequence := Nat.succ_pos _
  outputCount := rfl
  text := rfl
  logprobCount := rfl
  contentCount := rfl
  hasLogprobs := rfl
  hasContent := rfl
  rows h := by simp [advance, rowsOf, h]

theorem validate_first (u : WireUpdate) : ({} : WireEventCursor).validate u = .ok () := by
  simp [validate, validateMonotonicLength, bind, Except.bind]

theorem validateMonotonicLength_ok {field : String} {current previous : Nat} (h : previous ≤ current) :
    validateMonotonicLength field current previous = .ok () := if_neg (not_lt.mpr h)

theorem Behind.validate (h : Behind traceRequested u cursor) (hfollows : u.Follows u') :
    cursor.validate u' = .ok () := by
  have hkept : ¬ (u.logprobs.isSome = true ∧ u'.logprobs = none) := by
    rintro ⟨hsome, hnone⟩
    have := hfollows.logprobs.some_of_some hsome
    simp [hnone] at this
  have hkept' : ¬ (u.logprobContent.isSome = true ∧ u'.logprobContent.isNone = true) := by
    rintro ⟨hsome, hnone⟩
    have := hfollows.content.some_of_some hsome
    simp [Option.isNone_iff_eq_none.mp hnone] at this
  simp only [WireEventCursor.validate, h.outputCount, h.logprobCount, h.contentCount, h.hasLogprobs, h.hasContent, h.text,
    validateMonotonicLength_ok hfollows.outputs.length_le, validateMonotonicLength_ok hfollows.logprobs.count_le,
    validateMonotonicLength_ok hfollows.content.count_le, bind, Except.bind, if_neg hkept, if_neg hkept']
  split
  · next hrunning =>
    have hbegins := hfollows.text hrunning.2
    simp [validateMonotonicLength_ok hbegins.length_le, hbegins]
  · rfl

/-- What the service does with a valid update. -/
theorem v2EventFromUpdate_eq (hdistinct : StagesDistinct u.stageMetrics) (hvalid : cursor.validate u = .ok ()) :
    v2EventFromUpdate requestId u cursor traceRequested =
      .ok (if cursor.unchanged u (rowsOf traceRequested u) then (none, cursor)
        else (some (sentEvent requestId traceRequested cursor u), cursor.advance u (rowsOf traceRequested u))) := by
  have hrows : tracedRows traceRequested u = .ok (rowsOf traceRequested u) := by
    unfold tracedRows rowsOf
    split
    · rw [stageMetricsToWire_eq hdistinct [] (by simp)]
      rfl
    · rfl
  simp only [v2EventFromUpdate, hrows, bind, Except.bind, hvalid]
  split <;> rfl

/-- A suppressed update says nothing new. -/
theorem Synced.suppressed (h : Synced traceRequested u cursor acc) (hfollows : u.Follows u')
    (hsame : cursor.unchanged u' (rowsOf traceRequested u') = true) : Synced traceRequested u' cursor acc := by
  simp only [unchanged, Bool.and_eq_true, beq_iff_eq, Bool.not_eq_true',
    h.behind.outputCount, h.behind.text, h.behind.logprobCount, h.behind.contentCount, h.behind.hasLogprobs,
    h.behind.hasContent] at hsame
  obtain ⟨⟨⟨⟨⟨⟨⟨⟨-, houtputs⟩, htext⟩, hlogprobs⟩, hcontent⟩, hsome⟩, hsome'⟩, hrows⟩, hrunning⟩ := hsame
  have houtputs : u'.outputs = u.outputs := (hfollows.outputs.eq_of_length houtputs.symm).symm
  have htext : u'.text = u.text := ((hfollows.text hrunning).eq_of_length htext.symm).symm
  have hlogprobs : u'.logprobs = u.logprobs := hfollows.logprobs.eq hlogprobs hsome
  have hcontent : u'.logprobContent = u.logprobContent := hfollows.content.eq hcontent hsome'
  have hmetrics : traceRequested = true → u'.stageMetrics = u.stageMetrics := by
    intro htrace
    simp only [rowsOf, htrace, if_true, Option.all_some, beq_iff_eq, h.behind.rows htrace] at hrows
    refine map_injective_iff.mpr ?_ hrows
    rintro ⟨row, hvalid⟩ ⟨row', hvalid'⟩ heq
    cases heq
    rfl
  have hof : metricsOf traceRequested u' = metricsOf traceRequested u := by
    unfold metricsOf
    split
    · next htrace => exact hmetrics htrace
    · rfl
  refine ⟨⟨h.behind.sequence, ?_, ?_, ?_, ?_, ?_, ?_, ?_⟩, ⟨h.holds.started, h.holds.version, ?_, ?_, ?_, ?_, ?_, ?_, ?_⟩,
    h.sequence⟩
  · rw [houtputs, h.behind.outputCount]
  · rw [htext, h.behind.text]
  · rw [hlogprobs, h.behind.logprobCount]
  · rw [hcontent, h.behind.contentCount]
  · rw [hlogprobs, h.behind.hasLogprobs]
  · rw [hcontent, h.behind.hasContent]
  · intro htrace
    rw [hmetrics htrace, h.behind.rows htrace]
  · rw [houtputs, h.holds.outputs]
  · rw [htext, h.holds.text]
  · rw [htext, h.holds.textLength]
  · rw [hlogprobs, h.holds.logprobs]
  · rw [hcontent, h.holds.content]
  · rw [hfollows.prompt, h.holds.prompt]
  · rw [hof, h.holds.metrics]

theorem takeStageMetrics_rows (acc : WireAccumulator) {previous : List GenerationStageMetric} (hdistinct : StagesDistinct u'.stageMetrics)
    (hgrown : StagesGrown previous u'.stageMetrics)
    (hprevious : acc.stageMetrics = if traceRequested then previous else []) :
    acc.takeStageMetrics (rowsOf traceRequested u') = .ok { acc with stageMetrics := metricsOf traceRequested u' } := by
  cases traceRequested with
  | false =>
    simp only [Bool.false_eq_true, if_false] at hprevious
    simp only [rowsOf, metricsOf, takeStageMetrics, Bool.false_eq_true, if_false, ← hprevious]
  | true =>
    simp only [rowsOf, metricsOf, if_true, takeStageMetrics,
      decodeStageMetrics_rows hdistinct [] (by simp), hprevious, checkStageMetrics_grown hdistinct hgrown, bind,
      Except.bind, pure, Except.pure]

/-- What `apply` returns says of an update, read when the accumulator is in state `acc`. -/
structure Reproduces (acc : WireAccumulator) (u : WireUpdate) (normal : NormalizedEvent) : Prop where
  outputs : normal.outputs = u.outputs
  text : normal.text.read acc = u.text
  logprobs : normal.logprobs.map (·.map decodeEntry) = u.logprobs
  content : decodeContent normal.logprobContent = some u.logprobContent
  promptTokens : normal.numPromptTokens = u.numPromptTokens
  cachedTokens : normal.numCachedTokens = u.numCachedTokens
  cumulativeLogprob : normal.cumulativeLogprob = u.cumulativeLogprob
  finished : normal.finished = u.finished
  finishReason : normal.finishReason = u.finishReason

/-- The state behind an event, its result read then or later. -/
theorem Holds.reproduces (h : Holds traceRequested u acc)
    (hcached : acc.numCachedTokens = u.numCachedTokens) (hlogprob : acc.cumulativeLogprob = u.cumulativeLogprob)
    (hkeeps : acc.Keeps acc') (cursor : WireEventCursor) (materialize : Bool) :
    Reproduces acc' u (acc.normalized (sentEvent requestId traceRequested cursor u) materialize) where
  outputs := h.outputs
  text := (hkeeps.read _ _).trans h.text
  logprobs := by
    have hrows : (acc.normalized (sentEvent requestId traceRequested cursor u) materialize).logprobs =
        u.logprobs.map (·.map encodeEntry) := h.logprobs
    rw [hrows, decodeEntries_encodeEntries]
  content := by
    have hrows : (acc.normalized (sentEvent requestId traceRequested cursor u) materialize).logprobContent =
        u.logprobContent.map encodeTokenLogprobs := h.content
    rw [hrows, decodeContent_encode]
  promptTokens := h.prompt
  cachedTokens := hcached
  cumulativeLogprob := hlogprob
  finished := rfl
  finishReason := rfl

variable {event : WireEvent}

/-- An event of the supported version whose parts are accepted. -/
theorem WireAccumulator.apply_eq {taken final : WireAccumulator}
    (hevent : event.wireVersion = version) (hversion : acc.wireVersion.getD version = version)
    (hbody : { acc with wireVersion := some version }.takeBody event = .ok taken)
    (hmetrics : { taken with
      numCachedTokens := event.numCachedTokens
      cumulativeLogprob := event.cumulativeLogprob }.takeStageMetrics event.stageMetrics = .ok final)
    (materialize : Bool) : acc.apply event materialize = .ok (final.normalized event materialize, final) := by
  simp only [apply, hevent, hversion, ne_eq, not_true_eq_false, if_false, hbody, bind, Except.bind, hmetrics, pure,
    Except.pure]

/-- The first update goes out as a snapshot. -/
theorem apply_first (requestId : RequestId) (hdistinct : StagesDistinct u.stageMetrics) (materialize : Bool) :
    ∃ acc, ({} : WireAccumulator).apply (sentEvent requestId traceRequested {} u) materialize =
        .ok (acc.normalized (sentEvent requestId traceRequested {} u) materialize, acc) ∧
      Synced traceRequested u (({} : WireEventCursor).advance u (rowsOf traceRequested u)) acc ∧
      acc.numCachedTokens = u.numCachedTokens ∧ acc.cumulativeLogprob = u.cumulativeLogprob := by
  let acc : WireAccumulator := {
    started := true
    nextSequence := 1
    outputs := u.outputs
    textParts := [u.text]
    textLength := u.text.length
    logprobs := u.logprobs.map (·.map encodeEntry)
    logprobContent := u.logprobContent.map encodeTokenLogprobs
    numPromptTokens := u.numPromptTokens
    numCachedTokens := u.numCachedTokens
    cumulativeLogprob := u.cumulativeLogprob
    wireVersion := some version }
  have hgrown : StagesGrown [] u.stageMetrics := nofun
  have hmetrics : acc.takeStageMetrics (rowsOf traceRequested u) =
      .ok { acc with stageMetrics := metricsOf traceRequested u } :=
    takeStageMetrics_rows acc hdistinct hgrown (by cases traceRequested <;> rfl)
  refine ⟨{ acc with stageMetrics := metricsOf traceRequested u }, ?_, ⟨advance_behind _ _, ?_, rfl⟩, rfl, rfl⟩
  · have hbody : { ({} : WireAccumulator) with wireVersion := some version }.takeBody
        (sentEvent requestId traceRequested {} u) =
        .ok { acc with numCachedTokens := 0, cumulativeLogprob := 0 } := by
      cases hlogprobs : u.logprobs <;> cases hcontent : u.logprobContent <;>
        simp [takeBody, sentEvent, body, snapshot, acc]
    exact apply_eq rfl rfl hbody hmetrics materialize
  · exact ⟨rfl, rfl, rfl, append_nil _, rfl, rfl, rfl, rfl, rfl⟩

/-- A delta whose parts are accepted. -/
theorem WireAccumulator.delta_eq (acc shown : WireAccumulator) {sequence outputOffset textOffset : Nat}
    {newTokenIds : List TokenId} {textDelta : Text} {logprobOffset contentOffset : Option Nat}
    {newLogprobs logprobs : Option (List WireEntry)} {newContent content : Option (List Packed)}
    (hstarted : acc.started = true) (hsequence : sequence = acc.nextSequence)
    (houtputs : outputOffset = acc.outputs.length)
    (htext : { acc with outputs := acc.outputs ++ newTokenIds }.takeText finished textOffset textDelta = .ok shown)
    (hlogprobs : extendRows "engine wire delta logprobs and offset must appear together"
      "engine wire delta omitted active logprob metadata" "logprob_offset" shown.logprobs newLogprobs logprobOffset =
        .ok logprobs) (hcontent : extendRows "engine wire delta logprob content and offset must appear together"
      "engine wire delta omitted active rich logprob metadata" "logprob_content_offset" shown.logprobContent newContent
      contentOffset = .ok content) :
    acc.delta sequence finished outputOffset newTokenIds textOffset textDelta logprobOffset newLogprobs contentOffset
      newContent = .ok { shown with logprobs, logprobContent := content, nextSequence := shown.nextSequence + 1 } := by
  rw [delta, if_neg (by simp [hstarted]), if_neg (not_not.mpr hsequence), if_neg (not_not.mpr houtputs)]
  simp only [bind, Except.bind, htext, hlogprobs, hcontent, pure, Except.pure]

/-- A later update goes out as a delta. -/
theorem Synced.apply_next (h : Synced traceRequested u cursor acc) (requestId : RequestId) (hfollows : u.Follows u')
    (hdistinct : StagesDistinct u'.stageMetrics) (materialize : Bool) :
    ∃ acc', acc.apply (sentEvent requestId traceRequested cursor u') materialize =
        .ok (acc'.normalized (sentEvent requestId traceRequested cursor u') materialize, acc') ∧
      Synced traceRequested u' (cursor.advance u' (rowsOf traceRequested u')) acc' ∧ acc.Keeps acc' ∧
      acc'.numCachedTokens = u'.numCachedTokens ∧ acc'.cumulativeLogprob = u'.cumulativeLogprob := by
  have houtputs : acc.outputs ++ u'.outputs.drop cursor.outputCount = u'.outputs := by
    rw [h.holds.outputs, h.behind.outputCount]
    exact prefix_iff_eq_append.mp hfollows.outputs
  have hoffset : cursor.textOffset u' = deltaOffset u'.finished u.text u'.text := by
    rw [textOffset, h.behind.text, deltaOffset]
  let received : WireAccumulator := { acc with
    wireVersion := some version, outputs := acc.outputs ++ u'.outputs.drop cursor.outputCount }
  obtain ⟨parts, replaced, htext, hflatten, hkeeps⟩ : ∃ parts replaced, _ ∧ _ ∧ WireAccumulator.Keeps received _ :=
    takeText_delta h.holds.text h.holds.textLength hfollows.text
  have hlogprobs := extendRows_grown "engine wire delta logprobs and offset must appear together"
    "engine wire delta omitted active logprob metadata" "logprob_offset" encodeEntry hfollows.logprobs
  have hcontent := extendRows_grown "engine wire delta logprob content and offset must appear together"
    "engine wire delta omitted active rich logprob metadata" "logprob_content_offset" encodeTokenLogprob
    hfollows.content
  rw [← h.holds.logprobs, ← h.behind.logprobCount] at hlogprobs
  simp only [← encodeTokenLogprobs_eq_map, ← h.behind.contentCount] at hcontent
  have hheld : u.logprobContent.map (fun rows => encodeTokenLogprobs rows) = acc.logprobContent := h.holds.content.symm
  rw [hheld] at hcontent
  let taken : WireAccumulator := { received with
    textParts := parts
    replaced
    textLength := u'.text.length
    logprobs := u'.logprobs.map (·.map encodeEntry)
    logprobContent := u'.logprobContent.map encodeTokenLogprobs
    nextSequence := acc.nextSequence + 1 }
  have hbody : { acc with wireVersion := some version }.takeBody (sentEvent requestId traceRequested cursor u') =
      .ok taken := by
    simp only [sentEvent, body, if_neg h.behind.sequence.ne', hoffset]
    exact delta_eq { acc with wireVersion := some version }
      { received with textParts := parts, replaced, textLength := u'.text.length } h.holds.started h.sequence.symm
      (h.behind.outputCount.trans (congrArg List.length h.holds.outputs.symm)) htext hlogprobs hcontent
  have hmetrics := takeStageMetrics_rows
    { taken with numCachedTokens := u'.numCachedTokens, cumulativeLogprob := u'.cumulativeLogprob } hdistinct
    hfollows.metrics h.holds.metrics
  refine ⟨_, apply_eq rfl (by rw [h.holds.version]; rfl) hbody hmetrics materialize,
    ⟨advance_behind _ _, ⟨h.holds.started, rfl, houtputs, hflatten, rfl, rfl, rfl, ?_, rfl⟩, ?_⟩, hkeeps, rfl, rfl⟩
  · exact h.holds.prompt.trans hfollows.prompt.symm
  · exact congrArg (· + 1) h.sequence

/-! ### All updates -/

/-- The events that carry the updates behind `u`. -/
inductive Sends (requestId : RequestId) (traceRequested : Bool) :
    WireUpdate → WireEventCursor → List WireUpdate → List (Option WireEvent) → Prop where
  | nil (u : WireUpdate) (cursor : WireEventCursor) : Sends requestId traceRequested u cursor [] []
  | suppressed {u u' : WireUpdate} {cursor : WireEventCursor} {updates : List WireUpdate}
      {events : List (Option WireEvent)} (hfollows : u.Follows u')
      (hsame : cursor.unchanged u' (rowsOf traceRequested u') = true)
      (hrest : Sends requestId traceRequested u' cursor updates events) :
      Sends requestId traceRequested u cursor (u' :: updates) (none :: events)
  | sent {u u' : WireUpdate} {cursor : WireEventCursor} {updates : List WireUpdate} {events : List (Option WireEvent)}
      (hfollows : u.Follows u') (hdistinct : StagesDistinct u'.stageMetrics)
      (hrest : Sends requestId traceRequested u' (cursor.advance u' (rowsOf traceRequested u')) updates events) :
      Sends requestId traceRequested u cursor (u' :: updates)
        (some (sentEvent requestId traceRequested cursor u') :: events)

/-- The updates that were not suppressed. -/
def sentUpdates (updates : List WireUpdate) (events : List (Option WireEvent)) : List WireUpdate :=
  (updates.zip events).filterMap fun (update, event) => event.map fun _ => update

variable {updates : List WireUpdate} {events : List (Option WireEvent)}

theorem encodeUpdates_cons {event : Option WireEvent} {cursor' : WireEventCursor}
    (hevent : v2EventFromUpdate requestId u cursor traceRequested = .ok (event, cursor'))
    (hevents : encodeUpdates requestId traceRequested cursor' updates = .ok events) :
    encodeUpdates requestId traceRequested cursor (u :: updates) = .ok (event :: events) := by
  simp only [encodeUpdates, hevent, hevents, bind, Except.bind, pure, Except.pure]

/-- Behind the first event the service raises nothing. -/
theorem Synced.encodes (h : Synced traceRequested u cursor acc) (requestId : RequestId)
    (hchain : (u :: updates).IsChain WireUpdate.Follows) (hdistinct : ∀ u' ∈ updates, StagesDistinct u'.stageMetrics) :
    ∃ events, encodeUpdates requestId traceRequested cursor updates = .ok events ∧
      Sends requestId traceRequested u cursor updates events := by
  induction updates generalizing u cursor acc with
  | nil => exact ⟨[], rfl, .nil u cursor⟩
  | cons u' updates ih =>
    obtain ⟨hfollows, hrest⟩ := isChain_cons_cons.mp hchain
    have hdistinct' := hdistinct u' mem_cons_self
    have hlater : ∀ u'' ∈ updates, StagesDistinct u''.stageMetrics :=
      fun u'' hmem => hdistinct u'' (mem_cons_of_mem _ hmem)
    have hevent : v2EventFromUpdate requestId u' cursor traceRequested = _ :=
      v2EventFromUpdate_eq hdistinct' (h.behind.validate hfollows)
    by_cases hsame : cursor.unchanged u' (rowsOf traceRequested u') = true
    · rw [if_pos hsame] at hevent
      obtain ⟨events, hevents, hsends⟩ := ih (h.suppressed hfollows hsame) hrest hlater
      exact ⟨_, encodeUpdates_cons hevent hevents, .suppressed hfollows hsame hsends⟩
    · rw [if_neg hsame] at hevent
      obtain ⟨acc', -, hsynced, -⟩ := h.apply_next requestId hfollows hdistinct' true
      obtain ⟨events, hevents, hsends⟩ := ih hsynced hrest hlater
      exact ⟨_, encodeUpdates_cons hevent hevents, .sent hfollows hdistinct' hsends⟩

theorem applyAll_cons {acc'' : WireAccumulator} {materialize : WireEvent → Bool}
    {rest : List WireEvent} {normal : NormalizedEvent} {normals : List NormalizedEvent}
    (hevent : acc.apply event (materialize event) = .ok (normal, acc'))
    (hrest : acc'.applyAll materialize rest = .ok (normals, acc'')) :
    acc.applyAll materialize (event :: rest) = .ok (normal :: normals, acc'') := by
  simp only [applyAll, hevent, hrest, bind, Except.bind, pure, Except.pure]

section

variable (hsends : Sends requestId traceRequested u cursor updates events)
include hsends

/-- The accumulator takes every event and gives the updates back. -/
theorem Sends.applied
    (h : Synced traceRequested u cursor acc) (materialize : WireEvent → Bool) :
    ∃ normals acc', acc.applyAll materialize events.reduceOption = .ok (normals, acc') ∧ acc.Keeps acc' ∧
      List.Forall₂ (Reproduces acc') (sentUpdates updates events) normals ∧
      Holds traceRequested ((u :: updates).getLast (cons_ne_nil _ _)) acc' := by
  induction hsends generalizing acc with
  | nil u cursor => exact ⟨[], acc, rfl, .refl acc, .nil, h.holds⟩
  | suppressed hfollows hsame _ ih => exact ih (h.suppressed hfollows hsame)
  | @sent u u' cursor updates events hfollows hdistinct _ ih =>
    let event := sentEvent requestId traceRequested cursor u'
    obtain ⟨acc', hevent, hsynced, hkeeps, hcached, hlogprob⟩ :=
      h.apply_next requestId hfollows hdistinct (materialize event)
    obtain ⟨normals, acc'', hrest, hkeeps', hnormals, hholds⟩ := ih hsynced
    exact ⟨_, acc'', applyAll_cons hevent hrest, hkeeps.trans hkeeps',
      .cons (hsynced.holds.reproduces hcached hlogprob hkeeps' cursor _) hnormals, hholds⟩

/-- The sent events are numbered without a gap. -/
theorem Sends.sequences :
    events.reduceOption.map (·.sequence) = List.range' cursor.sequence events.reduceOption.length := by
  induction hsends with
  | nil => rfl
  | suppressed _ _ _ ih => exact ih
  | @sent u u' cursor updates events _ _ _ ih =>
    rw [reduceOption_cons_of_some, map_cons, ih]
    rfl

end

/-! ### Other deliveries -/

namespace WireAccumulator

variable {acc' : WireAccumulator}

theorem takeText_number {finished : Bool} {textOffset : Nat} {textDelta : Text}
    (h : acc.takeText finished textOffset textDelta = .ok acc') :
    acc'.nextSequence = acc.nextSequence ∧ acc'.started = acc.started := by
  unfold takeText at h
  split_ifs at h
  · cases h
    exact ⟨rfl, rfl⟩
  · cases h
    exact ⟨rfl, rfl⟩

theorem takeStageMetrics_number {rows : Option (List StageRow)} (h : acc.takeStageMetrics rows = .ok acc') :
    acc'.nextSequence = acc.nextSequence ∧ acc'.started = acc.started := by
  cases rows with
  | none =>
    cases h
    exact ⟨rfl, rfl⟩
  | some rows =>
    obtain ⟨_, -, h⟩ := Except.of_bind_ok h
    obtain ⟨_, -, h⟩ := Except.of_bind_ok h
    cases h
    exact ⟨rfl, rfl⟩

variable (hfresh : acc.started = false → acc.nextSequence = 0)
include hfresh

theorem takeBody_number {event : WireEvent} (h : acc.takeBody event = .ok acc') :
    event.sequence = acc.nextSequence ∧ acc'.nextSequence = acc.nextSequence + 1 ∧ acc'.started = true := by
  unfold takeBody at h
  split at h
  · unfold snapshot at h
    split at h
    · cases h
    · next hstarted =>
      split at h
      · cases h
      · next hsequence =>
        cases h
        rw [hfresh (Bool.eq_false_iff.mpr hstarted)]
        exact ⟨not_not.mp hsequence, rfl, rfl⟩
  · unfold delta at h
    split_ifs at h with hstarted hsequence houtputs
    obtain ⟨shown, htext, h⟩ := Except.of_bind_ok h
    obtain ⟨_, -, h⟩ := Except.of_bind_ok h
    obtain ⟨_, -, h⟩ := Except.of_bind_ok h
    have hnumber := takeText_number htext
    cases h
    exact ⟨not_not.mp hsequence, congrArg (· + 1) hnumber.1, hnumber.2.trans (Bool.not_eq_false _ ▸ hstarted)⟩

/-- An accepted event is the next one. -/
theorem apply_number {event : WireEvent} {materialize : Bool} {normal : NormalizedEvent}
    (h : acc.apply event materialize = .ok (normal, acc')) :
    event.sequence = acc.nextSequence ∧ acc'.nextSequence = acc.nextSequence + 1 ∧ acc'.started = true := by
  unfold apply at h
  simp only at h
  split_ifs at h
  obtain ⟨taken, hbody, h⟩ := Except.of_bind_ok h
  obtain ⟨final, hmetrics, h⟩ := Except.of_bind_ok h
  obtain ⟨hsequence, hnext, hstarted⟩ := takeBody_number (by exact hfresh) hbody
  obtain ⟨hnext', hstarted'⟩ := takeStageMetrics_number hmetrics
  cases h
  exact ⟨hsequence, hnext'.trans hnext, hstarted'.trans hstarted⟩

/-- Accepted events are numbered without a gap. -/
theorem applyAll_numbers {materialize : WireEvent → Bool} {delivered : List WireEvent} {normals : List NormalizedEvent}
    (h : acc.applyAll materialize delivered = .ok (normals, acc')) :
    delivered.map (·.sequence) = List.range' acc.nextSequence delivered.length := by
  induction delivered generalizing acc normals with
  | nil => rfl
  | cons event delivered ih =>
    obtain ⟨⟨normal, acc1⟩, hfirst, h⟩ := Except.of_bind_ok h
    obtain ⟨⟨others, acc2⟩, hrest, h⟩ := Except.of_bind_ok h
    obtain ⟨hsequence, hnext, hstarted⟩ := apply_number hfresh hfirst
    cases h
    have hfresh' : acc1.started = false → acc1.nextSequence = 0 := fun hnot => nomatch hnot.symm.trans hstarted
    rw [map_cons, ih hfresh' hrest, hsequence, hnext, length_cons, List.range'_succ]

end WireAccumulator

/-- Two lists numbered from one number agree as far as the shorter one goes, if one has
    only elements of the other. -/
theorem prefix_of_numbered {α : Type} {f : α → Nat} {l d : List α} {n : Nat}
    (hl : l.map f = List.range' n l.length) (hd : d.map f = List.range' n d.length) (hmem : ∀ x ∈ d, x ∈ l) :
    d <+: l := by
  have hnumber : ∀ (l : List α), l.map f = List.range' n l.length → ∀ i (h : i < l.length), f l[i] = n + i := by
    intro l hl i h
    have hget := congrArg (·[i]?) hl
    simpa [List.getElem?_eq_getElem h, List.getElem?_range', h] using hget
  rw [prefix_iff_getElem?]
  intro i hi
  obtain ⟨j, hj, hget⟩ := mem_iff_getElem.mp (hmem d[i] (getElem_mem hi))
  have hij : n + j = n + i := by
    rw [← hnumber l hl j hj, hget, hnumber d hd i hi]
  obtain rfl : j = i := Nat.add_left_cancel hij
  rw [List.getElem?_eq_getElem hj, hget]

/-! ### The stream of deltas -/

variable {completion : CompletionOutput} {completions : List CompletionOutput}

theorem readDeltas_cons {offset next : Nat} {rest : Text}
    (hdelta : completion.deltaAfter offset = .ok (delta, next)) (hrest : readDeltas next completions = .ok rest) :
    readDeltas offset (completion :: completions) = .ok (delta ++ rest) := by
  simp only [readDeltas, hdelta, hrest, bind, Except.bind, pure, Except.pure]

/-- A delta that begins where the reader is. -/
theorem deltaAfter_next {offset : Nat} (hdelta : completion.textDelta = some delta)
    (hoffset : completion.textOffset = some (offset : Int)) :
    completion.deltaAfter offset = .ok (delta, offset + delta.length) := by
  simp only [CompletionOutput.deltaAfter, deltaFrom, hdelta, hoffset]
  split
  · next hend =>
    have hnil : delta = [] := eq_nil_of_length_eq_zero (by omega)
    rw [hnil]
    rfl
  · simp

/-- A terminal text that begins with the text before it. -/
def TextExtends (updates : List WireUpdate) : Prop :=
  updates.IsChain fun u u' => u'.finished = true → u.text <+: u'.text

theorem WireUpdate.Follows.text_begins (hfollows : u.Follows u') (h : u'.finished = true → u.text <+: u'.text) :
    u.text <+: u'.text := by
  cases hfinished : u'.finished with
  | true => exact h hfinished
  | false => exact hfollows.text hfinished

theorem Sends.text_begins (hsends : Sends requestId traceRequested u cursor updates events)
    (hextends : TextExtends (u :: updates)) : u.text <+: ((u :: updates).getLast (cons_ne_nil _ _)).text := by
  induction hsends with
  | nil => exact prefix_rfl
  | suppressed hfollows _ _ ih =>
    obtain ⟨hfirst, hrest⟩ := isChain_cons_cons.mp hextends
    exact (hfollows.text_begins hfirst).trans (ih hrest)
  | sent hfollows _ _ ih =>
    obtain ⟨hfirst, hrest⟩ := isChain_cons_cons.mp hextends
    exact (hfollows.text_begins hfirst).trans (ih hrest)

/-- The result of a delta that extends the text, as a reader at its start sees it. -/
theorem Synced.deltaAfter (h : Synced traceRequested u cursor acc) (requestId : RequestId) (hbegins : u.text <+: u'.text)
    (acc' reading : WireAccumulator) (materialize : Bool) :
    (((acc'.normalized (sentEvent requestId traceRequested cursor u') materialize).result true).completion
      reading).deltaAfter u.text.length = .ok (u'.text.drop u.text.length, u'.text.length) := by
  have hshown : (cursor.body u').shown = (u.text.length, u'.text.drop u.text.length) := by
    have hoffset : cursor.textOffset u' = u.text.length := by
      rw [textOffset, h.behind.text]
      exact deltaOffset_of_begins hbegins
    simp only [body, if_neg h.behind.sequence.ne', WireBody.shown, hoffset]
  have hlength : u.text.length + (u'.text.drop u.text.length).length = u'.text.length := by
    have := hbegins.length_le
    rw [length_drop]
    omega
  rw [← hlength]
  apply deltaAfter_next
  · exact congrArg (fun shown => some shown.2) hshown
  · exact congrArg (fun shown => some (shown.1 : Int)) hshown

/-- An event of a delta is passed over only if it has no new tokens and is not the last. -/
theorem Synced.needsMaterialization (h : Synced traceRequested u cursor acc) (requestId : RequestId) (hfollows : u.Follows u') :
    (sentEvent requestId traceRequested cursor u').needsMaterialization = false ↔
      u'.outputs = u.outputs ∧ u'.finished = false := by
  have hdrop : u'.outputs.drop u.outputs.length = [] ↔ u'.outputs = u.outputs := by
    constructor
    · intro hnil
      have hjoin := prefix_iff_eq_append.mp hfollows.outputs
      rw [hnil, append_nil] at hjoin
      exact hjoin.symm
    · intro heq
      rw [heq, drop_length]
  simp [WireEvent.needsMaterialization, sentEvent, body, h.behind.sequence.ne', WireBody.isSnapshot,
    WireBody.newTokenIds, h.behind.outputCount, hdrop]

variable {results : List EngineResult}

/-- An event whose result is yielded. -/
theorem streamResults_yield {emitted : Int} {rest : List WireEvent}
    {outputs : List TokenId} (hevent : acc.apply event event.finished = .ok (acc'.normalized event event.finished, acc'))
    (hneeds : event.needsMaterialization = true) (houtputs : acc'.outputs = outputs)
    (hfresh : emitted < outputs.length ∨ event.finished = true)
    (hrest : streamResults acc' outputs.length rest = (results, none)) (hended : event.finished = true → results = []) :
    streamResults acc emitted (event :: rest) =
      ((acc'.normalized event event.finished).result true :: results, none) := by
  have hnormal : (acc'.normalized event event.finished).outputs = outputs := houtputs
  have hfinished : (acc'.normalized event event.finished).finished = event.finished := rfl
  have hyield : (decide (emitted < outputs.length) || event.finished) = true := by
    simpa using hfresh
  rw [streamResults, hevent]
  simp only [hneeds, hnormal, hfinished, hyield, if_true, hrest]
  cases hlast : event.finished with
  | true => simp [hended hlast]
  | false => simp

/-- Nothing follows a finished update. -/
theorem Sends.ended (hsends : Sends requestId traceRequested u cursor updates events) (hfinished : u.finished = true)
    {emitted : Int} (hresults : streamResults acc emitted events.reduceOption = (results, none)) : results = [] := by
  cases hsends with
  | nil => exact (congrArg Prod.fst hresults).symm
  | suppressed hfollows => exact nomatch hfinished.symm.trans hfollows.running
  | sent hfollows => exact nomatch hfinished.symm.trans hfollows.running

/-- The part read from one result and what the later ones add. -/
theorem readDeltas_joined {before text last : Text}
    (hdelta : completion.deltaAfter before.length = .ok (text.drop before.length, text.length))
    (hread : readDeltas text.length completions = .ok (last.drop text.length)) (hbegins : before <+: text)
    (hlast : text <+: last) : readDeltas before.length (completion :: completions) = .ok (last.drop before.length) := by
  obtain ⟨middle, rfl⟩ := hbegins
  obtain ⟨tail, rfl⟩ := hlast
  rw [readDeltas_cons hdelta hread]
  simp

/-- What the events of a stream still add to what was read. -/
theorem Sends.streamed (hsends : Sends requestId traceRequested u cursor updates events)
    (h : Synced traceRequested u cursor acc) (hextends : TextExtends (u :: updates)) (reading : WireAccumulator) :
    ∃ results, streamResults acc u.outputs.length events.reduceOption = (results, none) ∧
      readDeltas u.text.length (results.map (·.completion reading)) =
        .ok (((u :: updates).getLast (cons_ne_nil _ _)).text.drop u.text.length) := by
  induction hsends generalizing acc with
  | nil u cursor => exact ⟨[], rfl, by simp [readDeltas]⟩
  | @suppressed u u' cursor updates events hfollows hsame _ ih =>
    have hsynced := h.suppressed hfollows hsame
    have hresult := ih hsynced (isChain_cons_cons.mp hextends).2
    rw [← hsynced.holds.outputs, h.holds.outputs, ← hsynced.holds.text, h.holds.text] at hresult
    exact hresult
  | @sent u u' cursor updates events hfollows hdistinct hrest ih =>
    obtain ⟨hfirst, hlater⟩ := isChain_cons_cons.mp hextends
    have hbegins := hfollows.text_begins hfirst
    obtain ⟨acc', hevent, hsynced, -⟩ := h.apply_next requestId hfollows hdistinct u'.finished
    obtain ⟨results, hresults, hread⟩ := ih hsynced hlater
    have hdelta := h.deltaAfter requestId hbegins acc' reading u'.finished
    have hneeds := h.needsMaterialization requestId hfollows
    have hfinished : (sentEvent requestId traceRequested cursor u').finished = u'.finished := rfl
    rw [reduceOption_cons_of_some]
    by_cases hskip : (sentEvent requestId traceRequested cursor u').needsMaterialization = false
    · obtain ⟨houtputs, hrunning⟩ := hneeds.mp hskip
      rw [houtputs] at hresults
      rw [hfollows.steady hrunning houtputs] at hread
      rw [streamResults, hfinished, hevent]
      simp only [hskip]
      exact ⟨results, hresults, hread⟩
    · have hfresh : (u.outputs.length : Int) < u'.outputs.length ∨ u'.finished = true := by
        by_contra hstale
        obtain ⟨hlength, hrunning⟩ := not_or.mp hstale
        refine hskip (hneeds.mpr ⟨?_, Bool.eq_false_iff.mpr hrunning⟩)
        exact (hfollows.outputs.eq_of_length_le (by omega)).symm
      refine ⟨_, streamResults_yield hevent (Bool.eq_true_of_not_eq_false hskip) hsynced.holds.outputs hfresh hresults
        (fun hended => hrest.ended hended hresults), ?_⟩
      exact readDeltas_joined hdelta hread hbegins (hrest.text_begins hlater)

/-! ### The boundary -/

/-- Whatever the service sends of cumulative updates, the accumulator takes and gives
    back, read at once or later.  The deltas of a stream add up to the last text unless it
    takes back what was shown.  No other order, and no selection, of the events is accepted
    but a beginning of them. -/
theorem boundary_transparent (requestId : RequestId) (traceRequested : Bool) (materialize : WireEvent → Bool)
    (updates : List WireUpdate) (h : Cumulative updates) :
    ∃ events normals acc, encodeUpdates requestId traceRequested {} updates = .ok events ∧
      ({} : WireAccumulator).applyAll materialize events.reduceOption = .ok (normals, acc) ∧
      List.Forall₂ (Reproduces acc) (sentUpdates updates events) normals ∧
      (∀ u, updates.getLast? = some u → Holds traceRequested u acc) ∧
      (TextExtends updates → ∃ results, streamResults {} (-1) events.reduceOption = (results, none) ∧
        readDeltas 0 (results.map (·.completion acc)) = .ok ((updates.getLast?.map (·.text)).getD [])) ∧
      ∀ delivered, (∀ event ∈ delivered, event ∈ events.reduceOption) →
        (∃ error, ({} : WireAccumulator).applyAll materialize delivered = .error error) ∨
          delivered <+: events.reduceOption := by
  cases updates with
  | nil =>
    refine ⟨[], [], {}, rfl, rfl, .nil, nofun, fun _ => ⟨[], rfl, rfl⟩, ?_⟩
    intro delivered hmem
    exact .inr (eq_nil_iff_forall_not_mem.mpr (fun e he => nomatch hmem e he) ▸ prefix_rfl)
  | cons u updates =>
    have hdistinct := h.distinct u mem_cons_self
    let first := sentEvent requestId traceRequested {} u
    have hfirst : v2EventFromUpdate requestId u {} traceRequested = _ := v2EventFromUpdate_eq hdistinct (validate_first u)
    obtain ⟨acc, happly, hsynced, hcached, hlogprob⟩ := apply_first requestId hdistinct (materialize first)
    obtain ⟨events, hevents, hsends⟩ := hsynced.encodes requestId h.chain
      (fun u' hu' => h.distinct u' (mem_cons_of_mem _ hu'))
    obtain ⟨normals, acc', happlied, hkeeps, hnormals, hholds⟩ := hsends.applied hsynced materialize
    refine ⟨some first :: events, _, acc', encodeUpdates_cons hfirst hevents, applyAll_cons happly happlied,
      .cons (hsynced.holds.reproduces hcached hlogprob hkeeps _ _) hnormals, ?_, ?_, ?_⟩
    · intro last hlast
      rw [List.getLast?_eq_some_getLast (cons_ne_nil _ _), Option.some_inj] at hlast
      exact hlast ▸ hholds
    · intro hextends
      obtain ⟨acc1, happly1, hsynced1, -⟩ := apply_first requestId hdistinct first.finished
      obtain ⟨results, hresults, hread⟩ := hsends.streamed hsynced1 hextends acc'
      have hfresh : (-1 : Int) < u.outputs.length := by omega
      have hyield := streamResults_yield happly1 rfl hsynced1.holds.outputs (.inl hfresh) hresults
        (fun hended => hsends.ended hended hresults)
      have hdelta : (((acc1.normalized first first.finished).result true).completion acc').deltaAfter 0 =
          .ok (u.text, 0 + u.text.length) := deltaAfter_next rfl rfl
      rw [Nat.zero_add] at hdelta
      exact ⟨_, hyield, readDeltas_joined hdelta hread nil_prefix (hsends.text_begins hextends)⟩
    · intro delivered hmem
      have hnumbers : (first :: events.reduceOption).map (·.sequence) =
          List.range' 0 (first :: events.reduceOption).length := by
        rw [map_cons, hsends.sequences]
        rfl
      cases hdelivered : ({} : WireAccumulator).applyAll materialize delivered with
      | error error => exact .inl ⟨error, rfl⟩
      | ok result =>
        exact .inr (prefix_of_numbered hnumbers (applyAll_numbers (fun _ => rfl) hdelivered) hmem)

/-- Two tokens of the text "hi", the second one the end. -/
def hiUpdates : List WireUpdate :=
  [⟨[1], Text.of "h", false, none, none, 0, 3, 0, none, []⟩,
    ⟨[1, 2], Text.of "hi", true, some .stop, none, 0, 3, 0, none, []⟩]

theorem boundary_transparent_hi : Cumulative hiUpdates ∧
    ∃ events normals acc, encodeUpdates "r" false {} hiUpdates = .ok events ∧
      ({} : WireAccumulator).applyAll (·.finished) events.reduceOption = .ok (normals, acc) ∧
      readDeltas 0 ((streamResults {} (-1) events.reduceOption).1.map (·.completion acc)) = .ok (Text.of "hi") := by
  have h : Cumulative hiUpdates := by
    refine ⟨.cons_cons ⟨rfl, ⟨[2], rfl⟩, nofun, nofun, rfl, nofun, nofun, nofun⟩ (.singleton _), ?_⟩
    intro u hu
    rcases mem_cons.mp hu with rfl | hu
    · exact nodup_nil
    · obtain rfl := mem_singleton.mp hu
      exact nodup_nil
  obtain ⟨events, normals, acc, hevents, hnormals, -, -, hstream, -⟩ := boundary_transparent "r" false (·.finished) _ h
  obtain ⟨results, hresults, hread⟩ := hstream (.cons_cons (fun _ => ⟨Text.of "i", rfl⟩) (.singleton _))
  exact ⟨h, events, normals, acc, hevents, hnormals, by rw [hresults]; exact hread⟩

end Kairyu
