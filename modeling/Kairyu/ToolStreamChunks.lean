/-
  Kairyu/ToolStreamChunks.lean
  ============================
  **A scan that stops early is continued by the next chunk.**

  A scan that may not finish the text (`final = false`) stops where the markers it
  could still be inside are undecided.  What it emitted, followed by what a scan of
  the rest emits, folds to what one scan of the whole emits (`scanBuffer_splits`).
  The exception is a call opened before its envelope closed, which is left for the
  next module: the scan is described up to the point where such a call is opened.
-/
import Kairyu.ToolStreamFold

namespace Kairyu

open List FoldState Option

namespace ToolStreamScanner

variable {codec : FloatCodec} {s t : ToolStreamScanner} {body before u : Text} {final : Bool}

/-! ### Events without an open call -/

/-- Texts, and calls whose three events stand together. -/
inductive Whole (codec : FloatCodec) : List ToolStreamEvent → Prop where
  | nil : Whole codec []
  | text {t events} (h : Whole codec events) : Whole codec (.textDelta t :: events)
  | call {name json input events} (hne : json ≠ []) (hload : Json.loads codec json = some input)
      (h : Whole codec events) :
      Whole codec (.toolStart name :: .toolArgsDelta json :: .toolStop :: events)

variable {more events : List ToolStreamEvent}

theorem Whole.append (h : Whole codec events) (hmore : Whole codec more) : Whole codec (events ++ more) := by
  induction h with
  | nil => exact hmore
  | text _ ih => exact .text ih
  | call hne hload _ ih => exact .call hne hload ih

theorem whole_textEvents (u : Text) : Whole codec (textEvents u) := by
  simp only [textEvents]
  split
  · exact .nil
  · exact .text .nil

/-- Two folds that wait with the same text. -/
structure Paired (f g : FoldState) : Prop where
  text : g.textParts = f.textParts
  length : g.blocks.length = f.blocks.length

/-- The blocks that text waiting to be flushed becomes. -/
def textBlocks (t : Text) : List ContentBlock := if Text.blank t then [] else [.text t]

theorem flushText_blocks (f : FoldState) : f.flushText.blocks = f.blocks ++ textBlocks f.textParts := by
  simp only [flushText, textBlocks]
  split <;> simp

/-- A fold behind a whole call. -/
def called (f : FoldState) (name json : Text) (input : Json) : FoldState :=
  { f.flushText with
    blocks := f.flushText.blocks ++ [.toolUse name input]
    pendingTool := none
    pendingJson := json
    committed := f.committed + 1 }

theorem steps_call {name json : Text} {input : Json} (hne : json ≠ [])
    (hload : Json.loads codec json = some input) (f : FoldState) (events : List ToolStreamEvent) :
    f.steps codec (.toolStart name :: .toolArgsDelta json :: .toolStop :: events) =
      (called f name json input).steps codec events := by
  simp only [steps_cons, step?_toolStart, step?_toolArgsDelta,
    bind_some]
  rw [step?_toolStop rfl hne hload]
  rfl

/-- Such events never raise, and add the same blocks to both folds. -/
theorem Whole.steps (h : Whole codec events) {f g : FoldState}
    (hfg : Paired f g) : ∃ f' g' new, f.steps codec events = some f' ∧
      g.steps codec events = some g' ∧ f'.blocks = f.blocks ++ new ∧ g'.blocks = g.blocks ++ new ∧ Paired f' g' := by
  induction h generalizing f g with
  | nil => exact ⟨f, g, [], rfl, rfl, by simp, by simp, hfg⟩
  | @text t events _ ih =>
    have hnext : Paired { f with textParts := f.textParts ++ t }
        { g with textParts := g.textParts ++ t } := ⟨by simp [hfg.text], hfg.length⟩
    obtain ⟨f', g', new, hf, hg, hfb, hgb, hpair⟩ := ih hnext
    exact ⟨f', g', new, by simpa [steps_cons] using hf,
      by simpa [steps_cons] using hg, hfb, hgb, hpair⟩
  | @call name json input events hne hload _ ih =>
    rw [steps_call hne hload f, steps_call hne hload g]
    have hnext : Paired (called f name json input) (called g name json input) :=
      ⟨rfl, by simp [called, flushText_blocks, hfg.text, hfg.length]⟩
    obtain ⟨f', g', new, hf, hg, hfb, hgb, hpair⟩ := ih hnext
    refine ⟨f', g', textBlocks f.textParts ++ (.toolUse name input :: new), hf, hg, ?_, ?_, hpair⟩
    · simp [hfb, called, flushText_blocks]
    · simp [hgb, called, flushText_blocks, hfg.text]

/-! ### Closing an envelope -/

theorem commit_whole {name : Text} {arguments : JsonFields}
    (h : Json.Writes codec (.obj arguments)) : Whole codec (s.commit codec name arguments).1 :=
  .call (by simp [Json.dumps]) (Json.loads_dumps_obj h) .nil

/-- A closed envelope is a call or text. -/
theorem closeEnvelope_cases (s : ToolStreamScanner) (body : Text) :
    (∃ committed name arguments, Json.Writes codec (.obj arguments) ∧ s.closeEnvelope codec body =
        { s with qwenCommitted := committed }.commit codec name arguments) ∨
    s.closeEnvelope codec body = s.text (genericOpen ++ body ++ genericClose) := by
  simp only [closeEnvelope]
  split
  · next name arguments hcall =>
    split
    · exact Or.inl ⟨s.qwenCommitted, name, arguments, validatedCall_writes hcall, rfl⟩
    · exact Or.inr rfl
  · split
    · split
      · next name arguments hcall =>
        split
        · refine Or.inl ⟨true, name, arguments, ?_, rfl⟩
          simp only [qwenCall, bind_eq_bind, bind_eq_some_iff] at hcall
          obtain ⟨⟨name', inner⟩, -, hrest⟩ := hcall
          split at hrest
          · exact nomatch hrest
          · obtain ⟨schema, -, hrest⟩ := bind_eq_some_iff.mp hrest
            obtain ⟨arguments', hargs, heq⟩ := bind_eq_some_iff.mp hrest
            cases heq
            obtain ⟨hnodup, hwrites⟩ := qwenArguments_writable hargs
            exact Json.writes_obj hnodup hwrites
        · exact Or.inr rfl
      · exact Or.inr rfl
    · exact Or.inr rfl

theorem closeEnvelope_sameInput (s : ToolStreamScanner) (body : Text) : SameInput s (s.closeEnvelope codec body).2 := by
  rcases closeEnvelope_cases s body with ⟨committed, name, arguments, -, h⟩ | h
  · rw [h]
    exact ⟨rfl, rfl, rfl, rfl, rfl, rfl, rfl⟩
  · rw [h]
    exact text_sameInput _ _

theorem closeEnvelope_progressive (s : ToolStreamScanner) (body : Text) :
    (s.closeEnvelope codec body).2.progressive = s.progressive := by
  rcases closeEnvelope_cases s body with ⟨committed, name, arguments, -, h⟩ | h
  · rw [h]
    rfl
  · rw [h]
    exact text_progressive _ _

theorem text_whole (h : (s.text u).2.invalidated = false) : Whole codec (s.text u).1 := by
  rw [text_of_not_voids (not_voids_of_text h)]
  exact whole_textEvents u

theorem closeEnvelope_whole (h : (s.closeEnvelope codec body).2.invalidated = false) :
    Whole codec (s.closeEnvelope codec body).1 := by
  rcases closeEnvelope_cases s body with ⟨committed, name, arguments, hwrites, heq⟩ | heq
  · rw [heq]
    exact commit_whole hwrites
  · rw [heq] at h ⊢
    exact text_whole h

theorem closeEnvelope_push (s : ToolStreamScanner) (body u : Text) : (s.push u).closeEnvelope codec body =
      ((s.closeEnvelope codec body).1, (s.closeEnvelope codec body).2.push u) := by
  have hallowed : ∀ name, (s.push u).allowed name = s.allowed name := fun _ => rfl
  have hqwen : (s.push u).qwenCall codec body = s.qwenCall codec body := rfl
  have hprotocol : (s.push u).protocol = s.protocol := rfl
  have hpure : (s.push u).pureSoFar = s.pureSoFar := rfl
  simp only [closeEnvelope, hallowed, hqwen, hprotocol, hpure, text_push]
  split
  · split <;> rfl
  · split
    · split
      · split <;> rfl
      · rfl
    · rfl

/-! ### The loop without its counter -/

theorem advance_sameInput (s : ToolStreamScanner) (p : Progressive) (body : Text) :
    SameInput s (s.advance p body).2 := by
  simp only [advance]
  split <;> exact ⟨rfl, rfl, rfl, rfl, rfl, rfl, rfl⟩

theorem finishProgressive_sameInput (s : ToolStreamScanner) (p : Progressive) (body : Text) :
    SameInput s (s.finishProgressive codec p body).2 := by
  have hadvance := advance_sameInput s p body
  refine hadvance.trans ?_
  simp only [finishProgressive, andThen_snd]
  split
  · split <;> exact ⟨rfl, rfl, rfl, rfl, rfl, rfl, rfl⟩
  · exact ⟨rfl, rfl, rfl, rfl, rfl, rfl, rfl⟩

/-- The end of an envelope, whether or not its call is already open. -/
def endEnvelope (codec : FloatCodec) (s : ToolStreamScanner) (body : Text) : Step :=
  match s.progressive with
  | none => s.closeEnvelope codec body
  | some p => s.finishProgressive codec p body

theorem endEnvelope_sameInput (s : ToolStreamScanner) (body : Text) : SameInput s (s.endEnvelope codec body).2 := by
  simp only [endEnvelope]
  split
  · exact closeEnvelope_sameInput s body
  · exact finishProgressive_sameInput s _ body

theorem endEnvelope_of_none (hp : s.progressive = none) (body : Text) :
    s.endEnvelope codec body = s.closeEnvelope codec body := by simp [endEnvelope, hp]

/-- The scanner behind a marker. -/
def moveTo (s : ToolStreamScanner) (buffer : Text) (inCall : Bool) : ToolStreamScanner :=
  { s with buffer, inCall }

theorem moveTo_push (s : ToolStreamScanner) (rest more : Text) (inCall : Bool) :
    (s.push more).moveTo (rest ++ more) inCall = (s.moveTo rest inCall).push more := rfl

theorem cut_length_lt {p t a b : Text} (hp : p ≠ []) (h : Text.cut p t = some (a, b)) : b.length < t.length := by
  have hlen := congrArg List.length (Text.cut_eq_some h)
  have hpos := length_pos_of_ne_nil hp
  simp only [length_append] at hlen
  omega

theorem genericOpen_ne_nil : genericOpen ≠ [] := by decide

theorem genericClose_ne_nil : genericClose ≠ [] := by decide

/-- One round for each character of the buffer is enough. -/
theorem scan_fuel {n m : Nat} (hn : s.buffer.length < n) (hm : s.buffer.length < m) :
    scan codec final n s = scan codec final m s := by
  induction n generalizing m s with
  | zero => omega
  | succ n ih =>
    obtain ⟨m, rfl⟩ : ∃ k, m = k + 1 := ⟨m - 1, by omega⟩
    have hnext : ∀ {rest : Text} {step : Step}, rest.length < s.buffer.length →
        step.2.buffer = rest →
          andThen step (scan codec final n) = andThen step (scan codec final m) := by
      intro rest step hrest hbuffer
      have := ih (m := m) (by rw [hbuffer]; omega) (by rw [hbuffer]; omega)
      simp [andThen, this]
    simp only [scan]
    split
    · rfl
    split
    · split
      · rfl
      · next body rest hcut =>
        exact hnext (cut_length_lt genericClose_ne_nil hcut)
          (endEnvelope_sameInput (s.moveTo rest false) body).buffer
    · split
      · rfl
      · next before rest hcut =>
        exact hnext (cut_length_lt genericOpen_ne_nil hcut)
          (text_sameInput (s.moveTo rest true) before).buffer

/-- What the loop does, one marker at a time. -/
theorem scanBuffer_eq (s : ToolStreamScanner) (final : Bool) : s.scanBuffer codec final =
      if s.invalidated then ([], s) else if s.inCall then match Text.cut genericClose s.buffer with
        | none => s.awaitClose codec final
        | some (body, rest) =>
          andThen (endEnvelope codec (s.moveTo rest false) body)
            fun s => s.scanBuffer codec final
      else
        match Text.cut genericOpen s.buffer with
        | none => s.awaitOpen final
        | some (before, rest) =>
          andThen ((s.moveTo rest true).text before)
            fun s => s.scanBuffer codec final := by
  have hnext : ∀ {rest : Text} {step : Step}, rest.length < s.buffer.length →
      step.2.buffer = rest → andThen step (scan codec final s.buffer.length) =
        andThen step fun s => s.scanBuffer codec final := by
    intro rest step hrest hbuffer
    have hfuel : scan codec final s.buffer.length step.2 =
        scan codec final (step.2.buffer.length + 1) step.2 :=
      scan_fuel (by rw [hbuffer]; omega) (by omega)
    simp [andThen, hfuel, scanBuffer]
  rw [scanBuffer, scan]
  split
  · rfl
  split
  · cases hcut : Text.cut genericClose s.buffer with
    | none => rfl
    | some found =>
      exact hnext (cut_length_lt genericClose_ne_nil hcut)
        (endEnvelope_sameInput (s.moveTo found.2 false) found.1).buffer
  · cases hcut : Text.cut genericOpen s.buffer with
    | none => rfl
    | some found =>
      exact hnext (cut_length_lt genericOpen_ne_nil hcut)
        (text_sameInput (s.moveTo found.2 true) found.1).buffer

section Rounds

variable {rest : Text}

theorem scanBuffer_of_invalidated (h : s.invalidated = true) : s.scanBuffer codec final = ([], s) := by
  rw [scanBuffer_eq, if_pos h]

/-- The rounds that went on started with a live scanner. -/
theorem live_of_andThen {step : Step} (h : (andThen step fun s => s.scanBuffer codec final).2.invalidated = false) :
    step.2.invalidated = false := by
  by_contra hdead
  rw [andThen_snd, scanBuffer_of_invalidated (by simpa using hdead)] at h
  exact hdead h

variable (hs : s.invalidated = false)
include hs

theorem scanBuffer_awaitClose (hcall : s.inCall = true) (hcut : Text.cut genericClose s.buffer = none) :
    s.scanBuffer codec final = s.awaitClose codec final := by
  rw [scanBuffer_eq]
  simp [hs, hcall, hcut]

theorem scanBuffer_close (hcall : s.inCall = true) (hcut : Text.cut genericClose s.buffer = some (body, rest)) :
    s.scanBuffer codec final = andThen (endEnvelope codec (s.moveTo rest false) body)
        fun s => s.scanBuffer codec final := by
  rw [scanBuffer_eq]
  simp [hs, hcall, hcut]

theorem scanBuffer_awaitOpen (hcall : s.inCall = false) (hcut : Text.cut genericOpen s.buffer = none) :
    s.scanBuffer codec final = s.awaitOpen final := by
  rw [scanBuffer_eq]
  simp [hs, hcall, hcut]

theorem scanBuffer_open (hcall : s.inCall = false) (hcut : Text.cut genericOpen s.buffer = some (before, rest)) :
    s.scanBuffer codec final = andThen ((s.moveTo rest true).text before) fun s => s.scanBuffer codec final := by
  rw [scanBuffer_eq]
  simp [hs, hcall, hcut]

end Rounds

/-! ### Stopping early -/

theorem feed_of_invalidated (h : s.invalidated = true) (u : Text) (final : Bool) :
    s.feed codec u final = ([], s) := by simp [feed, h]

theorem feed_generic (hs : s.invalidated = false) (hstate : s.state = .generic) (u : Text)
    (final : Bool) : s.feed codec u final = (s.push u).scanBuffer codec final := by
  simp [feed, hs, push, hstate]

/-- The events bring the scanner to `t`: whatever text is left, finishing it from `s`
    folds to the events followed by finishing it from `t`. -/
structure Splits (codec : FloatCodec) (s : ToolStreamScanner) (events : List ToolStreamEvent)
    (t : ToolStreamScanner) : Prop where
  live : t.invalidated = false
  unstreamed : t.progressive = none
  rawText : t.rawText = s.rawText
  whole : Whole codec events
  invalidated : ∀ rest,
    (s.feed codec rest true).2.invalidated = (t.feed codec rest true).2.invalidated
  resume : ∀ rest (f : FoldState), f.steps codec (s.feed codec rest true).1 =
    (f.steps codec events).bind fun f => f.steps codec (t.feed codec rest true).1

theorem Splits.refl (hs : s.invalidated = false) (hp : s.progressive = none) :
    Splits codec s [] s := ⟨hs, hp, rfl, .nil, fun _ => rfl, fun _ _ => rfl⟩

/-- One step, after which what follows is fed to the scanner that it leaves. -/
theorem Splits.of_round (step : Step) (hlive : step.2.invalidated = false) (hp : step.2.progressive = none)
    (hraw : step.2.rawText = s.rawText) (hwhole : Whole codec step.1)
    (hround : ∀ rest, s.feed codec rest true = andThen step fun t => t.feed codec rest true) :
    Splits codec s step.1 step.2 where
  live := hlive
  unstreamed := hp
  rawText := hraw
  whole := hwhole
  invalidated rest := by
    rw [hround]
    rfl
  resume rest f := by rw [hround, andThen_fst, steps_append]

theorem Splits.trans {r : ToolStreamScanner} (h : Splits codec r events s) (h' : Splits codec s more t) :
    Splits codec r (events ++ more) t where
  live := h'.live
  unstreamed := h'.unstreamed
  rawText := h'.rawText.trans h.rawText
  whole := h.whole.append h'.whole
  invalidated rest := (h.invalidated rest).trans (h'.invalidated rest)
  resume rest f := by
    rw [h.resume, steps_append, bind_assoc]
    simp only [h'.resume]

section Rounds

variable {rest : Text}

/-- The text before an opening marker. -/
theorem splits_open (hs : s.invalidated = false) (hp : s.progressive = none)
    (hstate : s.state = .generic) (hcall : s.inCall = false)
    (hcut : Text.cut genericOpen s.buffer = some (before, rest))
    (h : ((s.moveTo rest true).text before).2.invalidated = false) : Splits codec s ((s.moveTo rest true).text before).1
      ((s.moveTo rest true).text before).2 := by
  have hkeep := text_sameInput (s.moveTo rest true) before
  refine .of_round _ h ((text_progressive _ _).trans hp) hkeep.rawText (text_whole h) fun more => ?_
  rw [feed_generic hs hstate, scanBuffer_open (s := s.push more) hs hcall (Text.cut_append hcut more)]
  simp only [andThen]
  rw [feed_generic h (hkeep.state.trans hstate), moveTo_push, text_push]

/-- An envelope that closes. -/
theorem splits_close (hs : s.invalidated = false) (hp : s.progressive = none)
    (hstate : s.state = .generic) (hcall : s.inCall = true) (hcut : Text.cut genericClose s.buffer = some (body, rest))
    (h : ((s.moveTo rest false).closeEnvelope codec body).2.invalidated = false) :
    Splits codec s ((s.moveTo rest false).closeEnvelope codec body).1
      ((s.moveTo rest false).closeEnvelope codec body).2 := by
  have hkeep : SameInput (s.moveTo rest false)
      ((s.moveTo rest false).closeEnvelope codec body).2 :=
    closeEnvelope_sameInput _ _
  refine .of_round _ h ((closeEnvelope_progressive _ _).trans hp) hkeep.rawText (closeEnvelope_whole h) fun more => ?_
  rw [feed_generic hs hstate, scanBuffer_close (s := s.push more) hs hcall (Text.cut_append hcut more)]
  simp only [andThen]
  rw [feed_generic h (hkeep.state.trans hstate), moveTo_push,
    endEnvelope_of_none (s := (s.moveTo rest false).push more) hp, closeEnvelope_push]

theorem text_moveTo (s : ToolStreamScanner) (x buffer : Text) (inCall : Bool) :
    (s.moveTo buffer inCall).text x = ((s.text x).1, (s.text x).2.moveTo buffer inCall) := by
  have hiff : (s.moveTo buffer inCall).Voids x ↔ s.Voids x := Iff.rfl
  by_cases h : s.Voids x
  · rw [text_of_voids h, text_of_voids (hiff.mpr h)]
    rfl
  · rw [text_of_not_voids h, text_of_not_voids fun h' => h (hiff.mp h')]
    rfl

/-- How much of the buffer is text when no marker opens in it. -/
def openCut (s : ToolStreamScanner) (final : Bool) : Nat :=
  s.buffer.length - if final then 0 else holdbackLength s.buffer [genericOpen]

theorem awaitOpen_eq (s : ToolStreamScanner) (final : Bool) :
    s.awaitOpen final = ((s.text (s.buffer.take (s.openCut final))).1,
      (s.text (s.buffer.take (s.openCut final))).2.moveTo (s.buffer.drop (s.openCut final)) s.inCall) := by
  simp only [← text_moveTo]
  rfl

theorem awaitOpen_true (s : ToolStreamScanner) :
    s.awaitOpen true = ((s.text s.buffer).1, (s.text s.buffer).2.moveTo [] s.inCall) := by
  simp [awaitOpen_eq, openCut]

/-- Text that cannot begin a marker is let go. -/
theorem splits_awaitOpen (hs : s.invalidated = false) (hp : s.progressive = none)
    (hstate : s.state = .generic) (hcall : s.inCall = false) (hcut : Text.cut genericOpen s.buffer = none)
    (h : (s.awaitOpen false).2.invalidated = false) : Splits codec s (s.awaitOpen false).1 (s.awaitOpen false).2 := by
  set c := s.openCut false with hc
  rw [awaitOpen_eq] at h ⊢
  set x := s.buffer.take c with hx
  have hlive : (s.text x).2.invalidated = false := h
  have hkeep := text_sameInput s x
  -- What follows is found at the same place, whether or not the text was let go.
  have hround : ∀ more, (s.feed codec more true).2 =
        (((s.text x).2.moveTo (s.buffer.drop c) s.inCall).feed codec more true).2 ∧
      ∀ f : FoldState, f.steps codec (s.feed codec more true).1 =
        (f.steps codec (s.text x).1).bind fun f => f.steps codec
          (((s.text x).2.moveTo (s.buffer.drop c) s.inCall).feed codec more true).1 := by
    intro more
    have hlen : x.length = c := by simp [hx, hc, openCut]
    have hsplit : s.buffer ++ more = x ++ (s.buffer.drop c ++ more) := by
      rw [← append_assoc, take_append_drop]
    have hfind : Text.find genericOpen (s.buffer ++ more) =
        (Text.find genericOpen (s.buffer.drop c ++ more)).map (· + c) :=
      find_holdback (Text.cut_eq_none.mp hcut) more
    have hwhole : ∀ y, (s.push more).text y = ((s.text y).1, (s.text y).2.push more) :=
      fun y => text_push s y more
    set t := (s.text x).2.moveTo (s.buffer.drop c) s.inCall with ht
    have hlater : ∀ y, (t.push more).text y = (((s.text x).2.text y).1,
        (((s.text x).2.text y).2.moveTo (s.buffer.drop c) s.inCall).push more) := by
      intro y
      rw [text_push, text_moveTo]
    rw [feed_generic hs hstate, feed_generic h (hkeep.state.trans hstate)]
    cases hrest : Text.find genericOpen (s.buffer.drop c ++ more) with
    | none =>
      rw [hrest] at hfind
      obtain ⟨hstate', hsteps⟩ := text_append codec x (s.buffer.drop c ++ more) hlive
      rw [scanBuffer_awaitOpen (s := s.push more) hs hcall (Text.cut_eq_none.mpr hfind),
        scanBuffer_awaitOpen (s := t.push more) h hcall (Text.cut_eq_none.mpr hrest),
        awaitOpen_true, awaitOpen_true, hwhole, hlater,
        show (s.push more).buffer = x ++ (s.buffer.drop c ++ more) from hsplit]
      exact ⟨congrArg (fun r => (r.push more).moveTo [] s.inCall) hstate', hsteps⟩
    | some j =>
      rw [hrest] at hfind
      set y := (s.buffer.drop c ++ more).take j with hy
      set rest := (s.buffer.drop c ++ more).drop (j + genericOpen.length) with hrest'
      obtain ⟨hstate', hsteps⟩ := text_append codec x y hlive
      have hcut1 : Text.cut genericOpen (s.push more).buffer = some (x ++ y, rest) := by
        rw [Text.cut, show (s.push more).buffer = s.buffer ++ more from rfl, hfind, hsplit]
        simp only [map_some, some.injEq, Prod.mk.injEq]
        constructor
        · rw [← hlen, Nat.add_comm j, take_length_add_append, hlen]
        · rw [← hlen, show j + x.length + genericOpen.length = x.length + (j + genericOpen.length) by
            omega, drop_length_add_append, hlen]
      have hcut2 : Text.cut genericOpen (t.push more).buffer = some (y, rest) := by
        simp only [Text.cut, show (t.push more).buffer = s.buffer.drop c ++ more from rfl, hrest,
          map_some, hy, hrest']
      rw [scanBuffer_open (s := s.push more) hs hcall hcut1,
        scanBuffer_open (s := t.push more) h hcall hcut2, text_moveTo, text_moveTo, hwhole, hlater]
      have hnext : ((s.text (x ++ y)).2.push more).moveTo rest true =
          ((((s.text x).2.text y).2.moveTo (s.buffer.drop c) s.inCall).push more).moveTo rest true :=
        congrArg (fun r => (r.push more).moveTo rest true) hstate'
      refine ⟨by simp only [andThen_snd, hnext], fun f => ?_⟩
      simp only [andThen_fst, steps_append, hnext, hsteps, bind_assoc]
  exact ⟨h, (text_progressive s x).trans hp, hkeep.rawText, text_whole hlive, fun more => by rw [(hround more).1], fun more => (hround more).2⟩

end Rounds

/-- How a step that may not finish the text ends: in `t`, or by looking for a call to
    open on what is buffered of an envelope. -/
def Ends (codec : FloatCodec) (step : Step) (events : List ToolStreamEvent)
    (t : ToolStreamScanner) : Prop :=
  step = (events, t) ∨ t.state = .generic ∧ t.inCall = true ∧
    Text.cut genericClose t.buffer = none ∧
    step = andThen (events, t) fun t => t.progressiveEvents codec t.buffer

theorem Ends.prepend {first : Step} {next : ToolStreamScanner → Step} (h : Ends codec (next first.2) events t) :
    Ends codec (andThen first next) (first.1 ++ events) t := by
  rcases h with h | ⟨hstate, hcall, hcut, h⟩
  · exact Or.inl (by simp [andThen, h])
  · exact Or.inr ⟨hstate, hcall, hcut, by simp [andThen, h]⟩

/-- **A scan that may not finish the text** emits whole texts and calls, and may then
    open a call whose envelope has not closed. -/
theorem scanBuffer_splits (hs : s.invalidated = false) (hp : s.progressive = none)
    (hstate : s.state = .generic) (h : (s.scanBuffer codec false).2.invalidated = false) :
    ∃ events t, Splits codec s events t ∧ Ends codec (s.scanBuffer codec false) events t := by
  induction hlen : s.buffer.length using Nat.strong_induction_on generalizing s with
  | _ n ih =>
    -- A round that found a marker, and the rounds after it.
    have hround : ∀ {step : Step}, s.scanBuffer codec false =
        andThen step (fun t => t.scanBuffer codec false) → step.2.buffer.length < n →
        step.2.state = .generic → (step.2.invalidated = false → Splits codec s step.1 step.2) →
        ∃ events t, Splits codec s events t ∧ Ends codec (s.scanBuffer codec false) events t := by
      intro step heq hlt hgeneric hsplit
      rw [heq] at h ⊢
      have hlive := live_of_andThen h
      have hfirst := hsplit hlive
      obtain ⟨events, t, hrest, hend⟩ := ih _ hlt hlive hfirst.unstreamed hgeneric h rfl
      exact ⟨step.1 ++ events, t, hfirst.trans hrest, hend.prepend⟩
    cases hcall : s.inCall with
    | true =>
      cases hcut : Text.cut genericClose s.buffer with
      | none =>
        refine ⟨[], s, .refl hs hp, Or.inr ⟨hstate, hcall, hcut, ?_⟩⟩
        rw [scanBuffer_awaitClose hs hcall hcut]
        simp [awaitClose, andThen]
      | some found =>
        obtain ⟨body, rest⟩ := found
        have heq : s.scanBuffer codec false = _ := scanBuffer_close hs hcall hcut
        have hkeep : SameInput (s.moveTo rest false)
            ((s.moveTo rest false).closeEnvelope codec body).2 := closeEnvelope_sameInput _ _
        rw [endEnvelope_of_none (s := s.moveTo rest false) hp] at heq
        refine hround heq ?_ (hkeep.state.trans hstate) (splits_close hs hp hstate hcall hcut)
        rw [hkeep.buffer, ← hlen]
        exact cut_length_lt genericClose_ne_nil hcut
    | false =>
      cases hcut : Text.cut genericOpen s.buffer with
      | none =>
        have heq : s.scanBuffer codec false = _ := scanBuffer_awaitOpen hs hcall hcut
        rw [heq] at h ⊢
        exact ⟨_, _, splits_awaitOpen hs hp hstate hcall hcut h, Or.inl rfl⟩
      | some found =>
        obtain ⟨before, rest⟩ := found
        have heq : s.scanBuffer codec false = _ := scanBuffer_open hs hcall hcut
        have hkeep := text_sameInput (s.moveTo rest true) before
        refine hround heq ?_ (hkeep.state.trans hstate) (splits_open hs hp hstate hcall hcut)
        rw [hkeep.buffer, ← hlen]
        exact cut_length_lt genericOpen_ne_nil hcut

/-! ### Finishing a text -/

/-- An unterminated envelope at the end of the text, when no call is open. -/
theorem awaitClose_final (hp : s.progressive = none) : s.awaitClose codec true =
      ((s.dangling s.buffer).1, (s.dangling s.buffer).2.moveTo [] false) := by
  simp [awaitClose, hp, andThen]
  rfl

theorem dangling_whole (h : (s.dangling u).2.invalidated = false) : Whole codec (s.dangling u).1 := by
  simp only [dangling] at h ⊢
  split at h
  · exact nomatch h
  · next hq =>
    rw [if_neg hq]
    exact text_whole h

/-- Finishing a text with no call open emits whole texts and calls. -/
theorem scanBuffer_whole (hp : s.progressive = none) (h : (s.scanBuffer codec true).2.invalidated = false) :
    Whole codec (s.scanBuffer codec true).1 := by
  induction hlen : s.buffer.length using Nat.strong_induction_on generalizing s with
  | _ n ih =>
    have hround : ∀ {step : Step}, s.scanBuffer codec true =
        andThen step (fun t => t.scanBuffer codec true) → step.2.buffer.length < n →
        step.2.progressive = none → (step.2.invalidated = false → Whole codec step.1) →
        Whole codec (s.scanBuffer codec true).1 := by
      intro step heq hlt hnone hwhole
      rw [heq] at h ⊢
      exact (hwhole (live_of_andThen h)).append (ih _ hlt hnone h rfl)
    cases hs : s.invalidated with
    | true =>
      rw [scanBuffer_of_invalidated hs]
      exact .nil
    | false =>
      cases hcall : s.inCall with
      | true =>
        cases hcut : Text.cut genericClose s.buffer with
        | none =>
          rw [scanBuffer_awaitClose hs hcall hcut, awaitClose_final hp] at h ⊢
          exact dangling_whole h
        | some found =>
          obtain ⟨body, rest⟩ := found
          have heq : s.scanBuffer codec true = _ := scanBuffer_close hs hcall hcut
          rw [endEnvelope_of_none (s := s.moveTo rest false) hp] at heq
          refine hround heq ?_ ((closeEnvelope_progressive _ _).trans hp) closeEnvelope_whole
          rw [(closeEnvelope_sameInput (s.moveTo rest false) body).buffer, ← hlen]
          exact cut_length_lt genericClose_ne_nil hcut
      | false =>
        cases hcut : Text.cut genericOpen s.buffer with
        | none =>
          rw [scanBuffer_awaitOpen hs hcall hcut] at h ⊢
          exact text_whole h
        | some found =>
          obtain ⟨before, rest⟩ := found
          have heq : s.scanBuffer codec true = _ := scanBuffer_open hs hcall hcut
          refine hround heq ?_ ((text_progressive _ _).trans hp) text_whole
          rw [(text_sameInput (s.moveTo rest true) before).buffer, ← hlen]
          exact cut_length_lt genericOpen_ne_nil hcut

end ToolStreamScanner

end Kairyu
