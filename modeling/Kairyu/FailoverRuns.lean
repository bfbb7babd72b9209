/-
  Kairyu/FailoverRuns.lean
  ========================
  **When a second attempt may not follow the first.**

  The orchestrator looks at the first completion of each partial only, the server at all
  of them.  As long as choice 0 comes first, both agree on its text (`InStep`); then the
  wire carries one engine's text for each choice exactly if the first tier shows text of
  another choice only together with text of choice 0.
-/
import Kairyu.ChatStreamRuns
import Kairyu.OrchestratorStream

namespace Kairyu

open List DirectRoute OrchestratorWire DirectLoop

/-! ### Attempts -/

/-- The texts of the choices. -/
abbrev ChoiceTexts := Nat → Text

/-- A completion that takes its choice from one text to a longer one, cumulative or as a
    delta. -/
structure Presents (before after : ChoiceTexts) (c : CompletionOutput) : Prop where
  grows : before c.index <+: after c.index
  whole : c.text = after c.index
  delta : (c.textDelta = none ∧ c.textOffset = none) ∨
    (c.textDelta = some ((after c.index).drop (before c.index).length) ∧
      c.textOffset = some ((before c.index).length : Int))

/-- A partial has at most one completion of each choice. -/
structure PartialStep (before after : ChoiceTexts) (p : GenerationPartial) : Prop where
  distinct : (p.completions.map (·.index)).Nodup
  presents : ∀ c ∈ p.completions, Presents before after c
  others : ∀ i, i ∉ p.completions.map (·.index) → after i = before i

/-- The partials of one engine bring the choices from their texts to others. -/
inductive Attempt : ChoiceTexts → List GenerationPartial → ChoiceTexts → Prop where
  | nil (texts : ChoiceTexts) : Attempt texts [] texts
  | cons {before after final : ChoiceTexts} {p : GenerationPartial} {partials : List GenerationPartial}
      (hstep : PartialStep before after p) (hrest : Attempt after partials final) :
      Attempt before (p :: partials) final

/-- The text of choice 0 after a partial. -/
def choiceZeroText (text : Text) (p : GenerationPartial) : Text :=
  match p.completions.find? (·.index == 0) with
  | some c => c.text
  | none => text

/-- No partial is without completions, or begins with text of another choice, once there
    is text of choice 0; none begins with text of another choice before. -/
def Led (text : Text) : List GenerationPartial → Prop
  | [] => True
  | p :: partials =>
    (match p.completions with
      | [] => text = []
      | c :: _ => c.index = 0 ∨ (c.text = [] ∧ choiceZeroText text p = [])) ∧
    Led (choiceZeroText text p) partials

variable {before after final : ChoiceTexts} {p : GenerationPartial} {partials : List GenerationPartial} {c : CompletionOutput}

theorem Presents.deltaAfter (h : Presents before after c) :
    c.deltaAfter (before c.index).length =
      .ok ((after c.index).drop (before c.index).length, (after c.index).length) := by
  have hle := h.grows.length_le
  have hlength : ((after c.index).drop (before c.index).length).length =
      (after c.index).length - (before c.index).length := length_drop
  rcases h.delta with ⟨hdelta, hoffset⟩ | ⟨hdelta, hoffset⟩
  · simp only [CompletionOutput.deltaAfter, deltaFrom, hdelta, hoffset, h.whole]
  · simp only [CompletionOutput.deltaAfter, deltaFrom, hdelta, hoffset]
    split
    · next hend =>
      have hsame : (after c.index).length = (before c.index).length := by omega
      rw [hsame, drop_of_length_le hsame.le]
    · simp only [ne_eq, not_true_eq_false, if_false]
      congr 2
      omega

/-- Shown once more, a completion adds nothing. -/
theorem Presents.deltaAfter_again (h : Presents before after c) :
    c.deltaAfter (after c.index).length = .ok ([], (after c.index).length) := by
  have hle := h.grows.length_le
  rcases h.delta with ⟨hdelta, hoffset⟩ | ⟨hdelta, hoffset⟩
  · simp only [CompletionOutput.deltaAfter, deltaFrom, hdelta, hoffset, h.whole, drop_length]
  · simp only [CompletionOutput.deltaAfter, deltaFrom, hdelta, hoffset]
    rw [if_pos (by rw [length_drop]; omega)]

theorem PartialStep.grows (h : PartialStep before after p) (i : Nat) : before i <+: after i := by
  by_cases hmem : i ∈ p.completions.map (·.index)
  · obtain ⟨c, hc, rfl⟩ := mem_map.mp hmem
    exact (h.presents c hc).grows
  · rw [h.others i hmem]

theorem Attempt.grows (h : Attempt before partials final) (i : Nat) : before i <+: final i := by
  induction h with
  | nil => exact prefix_rfl
  | cons hstep _ ih => exact (hstep.grows i).trans ih

theorem PartialStep.choiceZero (h : PartialStep before after p) : choiceZeroText (before 0) p = after 0 := by
  unfold choiceZeroText
  cases hfind : p.completions.find? (·.index == 0) with
  | some c =>
    have hindex : c.index = 0 := by simpa using List.find?_some hfind
    rw [← hindex]
    exact (h.presents c (mem_of_find?_eq_some hfind)).whole
  | none =>
    have hnone := List.find?_eq_none.mp hfind
    refine (h.others 0 ?_).symm
    intro hmem
    obtain ⟨c, hc, hzero⟩ := mem_map.mp hmem
    exact hnone c hc (by simp [hzero])

/-! ### The orchestrator -/

/-- The loop has the text of choice 0. -/
structure DirectLoop.Holds (texts : ChoiceTexts) (s : DirectLoop) : Prop where
  emitted : s.emitted = (texts 0).length
  text : s.textParts.flatten = texts 0
  last : ∀ p, s.last = some p → ∃ earlier, PartialStep earlier texts p

theorem DirectLoop.start_holds : ({} : DirectLoop).Holds fun _ => [] := ⟨rfl, rfl, nofun⟩

/-- The event of a partial and the loop behind it. -/
theorem DirectLoop.Holds.onPartial {s : DirectLoop} (h : s.Holds before) (hstep : PartialStep before after p)
    (hled : Led (before 0) (p :: partials)) :
    ∃ delta s', s.onPartial p = .ok (.delta delta p.completions, s') ∧ (p.completions = [] → delta = []) ∧
      s'.Holds after ∧ s'.last = some p := by
  obtain ⟨hlead, -⟩ := hled
  rw [hstep.choiceZero] at hlead
  have hlast : ∀ q, some p = some q → ∃ earlier, PartialStep earlier after q :=
    fun q hq => ⟨before, Option.some.inj hq ▸ hstep⟩
  cases hcompletions : p.completions with
  | nil =>
    have hsame : after 0 = before 0 := hstep.others 0 (by simp [hcompletions])
    refine ⟨[], _, by rw [DirectLoop.onPartial, hcompletions], fun _ => rfl, ⟨?_, ?_, hlast⟩, rfl⟩
    · rw [hsame]
      exact h.emitted
    · simp [hsame, h.text]
  | cons c rest =>
    rw [hcompletions] at hlead
    have hpresents := hstep.presents c (by simp [hcompletions])
    rcases hlead with hzero | ⟨hempty, hnone⟩
    · have hdelta := hpresents.deltaAfter
      rw [hzero, ← h.emitted] at hdelta
      refine ⟨_, _, by simp only [DirectLoop.onPartial, hcompletions, hdelta]; rfl, nofun,
        ⟨rfl, ?_, hlast⟩, rfl⟩
      obtain ⟨tail, htail⟩ := hstep.grows 0
      simp only [flatten_append, h.text, flatten_singleton, h.emitted, ← htail, drop_left]
    · -- Another choice leads, without text; choice 0 has none either.
      have hafter : after c.index = [] := hpresents.whole.symm.trans hempty
      have hbefore : before c.index = [] := prefix_nil.mp (hafter ▸ hpresents.grows)
      have hbefore0 : before 0 = [] := prefix_nil.mp (hnone ▸ hstep.grows 0)
      have hdelta := hpresents.deltaAfter
      have hemitted : s.emitted = 0 := by rw [h.emitted, hbefore0, length_nil]
      rw [hafter, hbefore, length_nil, ← hemitted] at hdelta
      refine ⟨_, _, by simp only [DirectLoop.onPartial, hcompletions, hdelta]; rfl, nofun,
        ⟨?_, ?_, hlast⟩, rfl⟩
      · rw [hnone]
        exact hemitted
      · simp [h.text, hbefore0, hnone]

/-! ### The server -/

namespace OrchestratorWire

/-- The offset of a choice. -/
def offset (s : OrchestratorWire) (i : Nat) : Nat := (s.sent.lookup i).getD 0

variable {s : OrchestratorWire}

/-- A completion of a snapshot adds its delta to its choice alone. -/
theorem freshChunk_eq {delta : Text} {next : Nat}
    (hdelta : c.deltaAfter (s.offset c.index) = .ok (delta, next)) (hnext : delta = [] → next = s.offset c.index) :
    ∃ chunks s', s.freshChunk c = .ok (chunks, s') ∧ (∀ i, s'.offset i = if i = c.index then next else s.offset i) ∧
      (∀ i, contentOnWire i chunks = if i = c.index then delta else []) ∧
      s'.completionParts = s.completionParts ∧ s'.completionLength = s.completionLength := by
  unfold offset at hdelta
  simp only [freshChunk, hdelta, bind, Except.bind]
  split
  · next hskip =>
    refine ⟨[], s, rfl, ?_, ?_, rfl, rfl⟩
    · intro i
      split
      · next hi => rw [hi, hnext hskip.1]
      · rfl
    · intro i
      rw [hskip.1, ite_self]
      rfl
  · refine ⟨_, _, rfl, ?_, ?_, rfl, rfl⟩
    · intro i
      simp only [offset, AList.lookup_insert_if]
      split <;> rfl
    · intro i
      simp only [contentOnWire, flatMap_cons, flatMap_nil, append_nil]
      split
      · next hi => rw [if_pos hi.symm]
      · next hi => rw [if_neg fun h => hi h.symm]

/-- A snapshot whose completions each add a delta. -/
theorem freshSorted_eq (delta : Nat → Text) (next : Nat → Nat) (completions : List CompletionOutput)
    (hdistinct : (completions.map (·.index)).Nodup)
    (hdelta : ∀ c ∈ completions, c.deltaAfter (s.offset c.index) = .ok (delta c.index, next c.index))
    (hnext : ∀ c ∈ completions, delta c.index = [] → next c.index = s.offset c.index) :
    ∃ chunks s', s.freshSorted completions = (chunks, .ok s') ∧
      (∀ i, s'.offset i = if i ∈ completions.map (·.index) then next i else s.offset i) ∧
      (∀ i, contentOnWire i chunks = if i ∈ completions.map (·.index) then delta i else []) ∧
      s'.completionParts = s.completionParts ∧ s'.completionLength = s.completionLength := by
  induction completions generalizing s with
  | nil => exact ⟨[], s, rfl, fun i => by simp, fun i => by simp [contentOnWire], rfl, rfl⟩
  | cons c rest ih =>
    obtain ⟨hfresh, hrest⟩ := nodup_cons.mp hdistinct
    obtain ⟨chunks, s', hchunk, hoffset, hcontent, hparts, hlength⟩ :=
      freshChunk_eq (hdelta c mem_cons_self) (hnext c mem_cons_self)
    have hother : ∀ c' ∈ rest, s'.offset c'.index = s.offset c'.index := by
      intro c' hc'
      rw [hoffset, if_neg]
      exact fun heq => hfresh (mem_map.mpr ⟨c', hc', heq⟩)
    obtain ⟨more, s'', hmore, hoffset', hcontent', hparts', hlength'⟩ := ih hrest
      (fun c' hc' => by rw [hother c' hc']; exact hdelta c' (mem_cons_of_mem _ hc'))
      (fun c' hc' => by rw [hother c' hc']; exact hnext c' (mem_cons_of_mem _ hc'))
    refine ⟨chunks ++ more, s'', by simp only [freshSorted, hchunk, hmore], ?_, ?_, hparts'.trans hparts,
      hlength'.trans hlength⟩
    · intro i
      rw [hoffset', hoffset]
      by_cases hi : i = c.index
      · subst hi
        simp [hfresh]
      · simp [hi]
    · intro i
      rw [contentOnWire_append, hcontent, hcontent']
      by_cases hi : i = c.index
      · subst hi
        simp [hfresh]
      · simp [hi]

/-- The server has put these texts on the wire. -/
structure InStep (texts : ChoiceTexts) (s : OrchestratorWire) : Prop where
  offset : ∀ i, s.offset i = (texts i).length
  parts : s.completionParts.flatten = []
  length : s.completionLength = 0

variable {completions : List CompletionOutput}

theorem mem_byIndex :
    c ∈ byIndex completions ↔ c ∈ completions := (perm_insertionSort _ _).mem_iff

theorem mem_index_byIndex {i : Nat} : i ∈ (byIndex completions).map (·.index) ↔ i ∈ completions.map (·.index) :=
  ((perm_insertionSort _ _).map _).mem_iff

theorem nodup_byIndex (h : (completions.map (·.index)).Nodup) : ((byIndex completions).map (·.index)).Nodup :=
  ((perm_insertionSort _ _).map _).nodup_iff.mpr h

/-- The completions of a partial add what the partial adds to each choice. -/
theorem InStep.freshChunks (h : s.InStep before) (hstep : PartialStep before after p) :
    ∃ chunks s', s.freshChunks p.completions = (chunks, .ok s') ∧ s'.InStep after ∧
      ∀ i, contentOnWire i chunks = (after i).drop (before i).length := by
  have hoffset : ∀ i, ({ s with completions := p.completions } : OrchestratorWire).offset i = (before i).length :=
    h.offset
  obtain ⟨chunks, s', hfresh, hoffset', hcontent, hparts, hlength⟩ :=
    freshSorted_eq (fun i => (after i).drop (before i).length)
      (fun i => (after i).length) (byIndex p.completions) (nodup_byIndex hstep.distinct)
      (fun c hc => by rw [hoffset]; exact (hstep.presents c (mem_byIndex.mp hc)).deltaAfter)
      (fun c hc hnil => by
        have hle := (hstep.grows c.index).length_le
        rw [drop_eq_nil_iff] at hnil
        rw [hoffset]
        omega)
  refine ⟨chunks, s', hfresh, ⟨?_, hparts ▸ h.parts, hlength ▸ h.length⟩, ?_⟩
  · intro i
    rw [hoffset', hoffset]
    split
    · rfl
    · next hi => rw [hstep.others i fun hmem => hi (mem_index_byIndex.mpr hmem)]
  · intro i
    rw [hcontent]
    split
    · rfl
    · next hi =>
      rw [hstep.others i fun hmem => hi (mem_index_byIndex.mpr hmem), drop_length]

/-- Completions that were shown already add nothing. -/
theorem InStep.freshChunks_again (h : s.InStep after) (hdistinct : (completions.map (·.index)).Nodup)
    (hagain : ∀ c ∈ completions, c.deltaAfter (after c.index).length = .ok ([], (after c.index).length)) :
    ∃ chunks s', s.freshChunks completions = (chunks, .ok s') ∧ ∀ i, contentOnWire i chunks = [] := by
  have hoffset : ∀ i, ({ s with completions } : OrchestratorWire).offset i = (after i).length := h.offset
  obtain ⟨chunks, s', hfresh, -, hcontent, -⟩ :=
    freshSorted_eq (fun _ => []) (fun i => (after i).length)
      (byIndex completions) (nodup_byIndex hdistinct)
      (fun c hc => by rw [hoffset]; exact hagain c (mem_byIndex.mp hc)) (fun c _ _ => (hoffset c.index).symm)
  refine ⟨chunks, s', hfresh, fun i => ?_⟩
  rw [hcontent, ite_self]

/-- An event without text and completions leaves the wire as it is. -/
theorem InStep.onText (h : s.InStep before) (hzero : before 0 = []) :
    (s.onText []).2.InStep before ∧ ∀ i, contentOnWire i (s.onText []).1 = [] := by
  refine ⟨⟨?_, ?_, ?_⟩, ?_⟩
  · intro i
    simp only [OrchestratorWire.onText, OrchestratorWire.offset, AList.lookup_insert_if, h.length]
    split
    · next hi => simp [hi, hzero]
    · exact h.offset i
  · simp [OrchestratorWire.onText, h.parts]
  · simp [OrchestratorWire.onText, h.length]
  · intro i
    simp [OrchestratorWire.onText, contentOnWire]

/-- The event of a partial. -/
theorem InStep.onDelta (h : s.InStep before) (hstep : PartialStep before after p) {delta : Text}
    (hdelta : p.completions = [] → delta = []) (hzero : p.completions = [] → before 0 = []) :
    ∃ chunks s', s.onEvent (.delta delta p.completions) = (chunks, .ok s') ∧ s'.InStep after ∧
      ∀ i, contentOnWire i chunks = (after i).drop (before i).length := by
  cases hcompletions : p.completions with
  | nil =>
    have hsame : after = before := by
      funext i
      exact hstep.others i (by simp [hcompletions])
    obtain ⟨hwire, hcontent⟩ := h.onText (hzero hcompletions)
    refine ⟨(s.onText delta).1, (s.onText delta).2, rfl, ?_, ?_⟩
    · rw [hdelta hcompletions, hsame]
      exact hwire
    · intro i
      rw [hdelta hcompletions, hcontent, hsame, drop_length]
  | cons c rest =>
    obtain ⟨chunks, s', hfresh, hrest⟩ := h.freshChunks hstep
    rw [hcompletions] at hfresh
    exact ⟨chunks, s', hfresh, hrest⟩

/-- Behind an attempt its last event adds nothing to any choice. -/
theorem InStep.onOutcome (h : s.InStep final) {loop : DirectLoop} (hloop : loop.Holds final)
    (failure : Option DirectFailure) :
    ∃ chunks s', s.onEvent (outcome loop failure) = (chunks, .ok s') ∧ ∀ i, contentOnWire i chunks = [] := by
  have hwhole : ∃ chunks s', s.freshChunks [{ index := 0, text := final 0, finishReason := some "stop" }] =
      (chunks, .ok s') ∧ ∀ i, contentOnWire i chunks = [] := by
    refine h.freshChunks_again (nodup_singleton _) ?_
    intro c hc
    obtain rfl := mem_singleton.mp hc
    simp [CompletionOutput.deltaAfter, deltaFrom]
  have hjoined : (if loop.textParts.flatten ≠ [] then loop.textParts.flatten else s.completionParts.flatten) =
      final 0 := by
    rw [hloop.text, h.parts]
    split
    · rfl
    · next hnil => exact (not_not.mp hnil).symm
  cases failure with
  | some failure =>
    simp only [outcome, onEvent, finalCompletions]
    rw [hjoined]
    exact hwhole
  | none =>
    by_cases hcompletions : loop.result.completions = []
    · have htext : loop.result.text = loop.textParts.flatten := by
        cases hlast : loop.last with
        | none => simp [result, hlast]
        | some q =>
          simp only [result, hlast, Option.map_some, Option.getD_some] at hcompletions ⊢
          simp [GenerationPartial.text, hcompletions]
      simp only [outcome, onEvent, finalCompletions, hcompletions, htext]
      rw [hjoined]
      exact hwhole
    · cases hlast : loop.last with
      | none => simp [result, hlast] at hcompletions
      | some q =>
        obtain ⟨earlier, hstep⟩ := hloop.last q hlast
        have heq : loop.result.completions = q.completions := by simp [result, hlast]
        simp only [outcome, onEvent, finalCompletions, ne_eq, hcompletions]
        rw [heq]
        exact h.freshChunks_again hstep.distinct fun c hc => (hstep.presents c hc).deltaAfter_again

theorem contentOnWire_finish (s : OrchestratorWire) (i : Nat) : contentOnWire i s.finish = [] := by
  simp [contentOnWire, finish]

/-- The last event of the stream. -/
theorem InStep.serve_outcome (h : s.InStep final) {loop : DirectLoop} (hloop : loop.Holds final)
    (failure : Option DirectFailure) : (∀ i, contentOnWire i (s.serve [outcome loop failure]).1 = []) ∧
      (s.serve [outcome loop failure]).2 = none := by
  obtain ⟨chunks, s', hevent, hcontent⟩ := h.onOutcome hloop failure
  cases failure with
  | some failure =>
    simp only [outcome] at hevent
    simp only [serve, outcome, hevent, and_true]
    intro i
    rw [contentOnWire_append, hcontent]
    simp [contentOnWire]
  | none =>
    simp only [outcome] at hevent
    simp only [serve, outcome, hevent, and_true]
    intro i
    rw [contentOnWire_append, hcontent, contentOnWire_finish]
    rfl

end OrchestratorWire

/-! ### Whole attempts -/

/-- An attempt runs to the end of its engine, and the server follows it. -/
theorem Attempt.served (h : Attempt before partials final) (hled : Led (before 0) partials) {loop : DirectLoop}
    (hloop : loop.Holds before) {wire : OrchestratorWire} (hwire : wire.InStep before) (failure : Option String) :
    ∃ events loop' outcome chunks, ∃ wire' : OrchestratorWire,
      loop.run failure partials = (events, loop', outcome) ∧ loop'.Holds final ∧
      (∀ error, outcome ≠ some (.offset error)) ∧ (failure.isSome = true → outcome.isSome = true) ∧
      (outcome.isSome = true → failure.isSome = true ∨ partials = [] ∧ loop.last = none) ∧ wire'.InStep final ∧
      (∀ i, contentOnWire i chunks = (final i).drop (before i).length) ∧
      ∀ rest, wire.serve (events ++ rest) = (chunks ++ (wire'.serve rest).1, (wire'.serve rest).2) := by
  induction h generalizing loop wire with
  | nil texts =>
    have hcontent : ∀ i, contentOnWire i [] = (texts i).drop (texts i).length := fun i => by
      rw [drop_length]
      rfl
    cases failure with
    | some className =>
      exact ⟨[], loop, _, [], wire, rfl, hloop, nofun, fun _ => rfl, fun _ => .inl rfl, hwire, hcontent, fun _ => rfl⟩
    | none =>
      refine ⟨[], loop, _, [], wire, rfl, hloop, ?_, nofun, ?_, hwire, hcontent, fun _ => rfl⟩
      · intro error
        split <;> simp
      · intro hsome
        split at hsome
        · next hlast => exact .inr ⟨rfl, Option.isNone_iff_eq_none.mp hlast⟩
        · exact nomatch hsome
  | @cons before after final p partials hstep hrest ih =>
    obtain ⟨delta, loop1, hpartial, hdelta, hloop1, hlast⟩ := hloop.onPartial hstep hled
    have hzero : p.completions = [] → before 0 = [] := by
      intro hnil
      have hlead := hled.1
      rw [hnil] at hlead
      exact hlead
    obtain ⟨chunk, wire1, hevent, hwire1, hcontent⟩ := hwire.onDelta hstep hdelta hzero
    have hled' : Led (after 0) partials := hstep.choiceZero ▸ hled.2
    obtain ⟨events, loop', outcome, chunks, wire', hrun, hloop', hoffset, hfails, hsome, hwire', hcontent', hserve⟩ :=
      ih hled' hloop1 hwire1
    refine ⟨.delta delta p.completions :: events, loop', outcome, chunk ++ chunks, wire',
      by simp only [run, hpartial, hrun], hloop', hoffset, hfails, ?_, hwire', ?_, ?_⟩
    · intro houtcome
      rcases hsome houtcome with hfailure | ⟨-, hnone⟩
      · exact .inl hfailure
      · exact nomatch hlast.symm.trans hnone
    · intro i
      obtain ⟨middle, hmiddle⟩ := hstep.grows i
      obtain ⟨tail, htail⟩ := hrest.grows i
      rw [contentOnWire_append, hcontent, hcontent', ← htail, ← hmiddle]
      simp
    · intro rest
      rw [cons_append]
      simp only [serve, hevent, hserve rest, append_assoc]

/-! ### One engine for each choice -/

/-- What failover must not break. -/
structure Unmixed (route : DirectRoute) (first second : EngineStream) (firstTexts secondTexts : ChoiceTexts) : Prop where
  /-- Each choice carries the text of one engine. -/
  content : ∀ i,
    contentOnWire i (({} : OrchestratorWire).serve (route.stream first second)).1 <+: firstTexts i ∨
      contentOnWire i (({} : OrchestratorWire).serve (route.stream first second)).1 <+: secondTexts i
  /-- Neither loop of the orchestrator nor the server raises an offset error. -/
  offsets : (∀ error, first.attempt.2.2 ≠ some (.offset error)) ∧
    (route.failsOver first = true → ∀ error, second.attempt.2.2 ≠ some (.offset error)) ∧
    (({} : OrchestratorWire).serve (route.stream first second)).2 = none
  /-- The second tier is tried only if no text of any choice has been sent. -/
  failover : route.failsOver first = true → ∀ i, contentOnWire i (({} : OrchestratorWire).serve first.attempt.1).1 = []

theorem start_inStep : ({} : OrchestratorWire).InStep fun _ => [] := ⟨fun _ => rfl, rfl, rfl⟩

/-- A cumulative completion. -/
def spoken (index : Nat) (text : String) : CompletionOutput := { index, text := Text.of text }

def twoTiers : DirectRoute := { target := "tier1", hasTier2 := true }

/-- A second engine whose deltas begin with choice 1: the loop takes the offsets of one
    choice for those of another. -/
example : let first : EngineStream := ⟨[], some "RuntimeError"⟩
    let second : EngineStream :=
      ⟨[⟨[{ index := 1, text := Text.of "abc", textDelta := some (Text.of "abc"), textOffset := some 0 }], false⟩,
        ⟨[{ index := 0, text := Text.of "x", textDelta := some (Text.of "x"), textOffset := some 0 }], true⟩], none⟩
    twoTiers.failsOver first = true ∧ (second.attempt.2.2.map (·.className)) = some "ValueError" := by
  decide +kernel

end Kairyu
