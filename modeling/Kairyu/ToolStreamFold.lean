/-
  Kairyu/ToolStreamFold.lean
  ==========================
  **What the scanners and their fold do, one step at a time**: marker searches on a
  growing buffer, events folded one after the other, and the frame of a scan (which
  fields its events depend on).
-/
import Kairyu.JsonRoundTrip
import Kairyu.ToolStream

namespace Kairyu

open List Json

/-! ### Markers in a growing buffer -/

namespace Text

variable {p t u a b : Text}

theorem cut_eq_some (h : cut p t = some (a, b)) : t = a ++ (p ++ b) := by
  obtain ⟨i, hi, heq⟩ := Option.map_eq_some_iff.mp h
  cases heq
  exact find_eq_some_append hi

theorem cut_append (h : cut p t = some (a, b)) (u : Text) : cut p (t ++ u) = some (a, b ++ u) := by
  obtain ⟨i, hi, heq⟩ := Option.map_eq_some_iff.mp h
  have hle := find_add_length_le hi
  cases heq
  simp [cut, find_append_of_some hi u, take_append_of_le_length (show i ≤ t.length by omega),
    drop_append_of_le_length hle]

theorem cut_eq_none : cut p t = none ↔ find p t = none := by simp [cut]

theorem after_eq_some : after p t = some u ↔ t = p ++ u := by
  simp only [after]
  split
  · next h =>
    obtain ⟨r, rfl⟩ := h
    simp
  · next h =>
    simp only [reduceCtorEq, false_iff]
    rintro rfl
    exact h (prefix_append _ _)

@[simp] theorem after_append : after p (p ++ u) = some u := after_eq_some.mpr rfl

@[simp] theorem blank_nil : blank [] = true := rfl

theorem blank_append : blank (a ++ b) = (blank a && blank b) := by simp [blank]

end Text

/-- Searching downwards from `n`, a hit is at least as large as any other one. -/
theorem le_find_descending (P : Nat → Bool) {n k : Nat} (hk : 1 ≤ k) (hkn : k ≤ n) (hP : P k = true) :
    k ≤ ((((List.range n).map (· + 1)).reverse).find? P).getD 0 := by
  induction n with
  | zero => omega
  | succ n ih =>
    rw [range_succ, map_append, reverse_append]
    simp only [map_cons, map_nil, reverse_cons, reverse_nil, nil_append, singleton_append, List.find?_cons]
    cases hn : P (n + 1) with
    | true => simpa using hkn
    | false =>
      have hne : k ≠ n + 1 := by
        rintro rfl
        simp [hn] at hP
      exact ih (by omega)

/-- What is held back includes every suffix that can still begin the marker. -/
theorem le_holdbackLength {buffer watch : Text} {j : Nat} (hj : j < buffer.length)
    (hlen : buffer.length - j < watch.length) (hpre : buffer.drop j <+: watch) :
    buffer.length - j ≤ holdbackLength buffer [watch] := by
  have hdrop : buffer.length - (buffer.length - j) = j := by omega
  refine le_find_descending _ (by omega) ?_ ?_
  · simp only [map_cons, map_nil, foldl_cons, foldl_nil]
    omega
  · simpa [hdrop] using hpre

/-- The text that is let go holds no part of a marker, whatever follows. -/
theorem find_holdback {buffer watch : Text} (hnone : Text.find watch buffer = none) (u : Text) :
    Text.find watch (buffer ++ u) =
      (Text.find watch (buffer.drop (buffer.length - holdbackLength buffer [watch]) ++ u)).map
        (· + (buffer.length - holdbackLength buffer [watch])) := by
  set cut := buffer.length - holdbackLength buffer [watch] with hcut
  rw [Text.find_eq_drop (k := cut) (by rw [length_append]; omega), drop_append_of_le_length (by omega)]
  intro j hj hpre
  have hjlt : j < buffer.length := by omega
  rw [drop_append_of_le_length (by omega)] at hpre
  by_cases hlen : buffer.length - j < watch.length
  · have hshort : buffer.drop j <+: watch := by
      refine prefix_of_prefix_length_le (prefix_append _ u) hpre ?_
      simp only [length_drop]
      omega
    have := le_holdbackLength hjlt hlen hshort
    omega
  · have hwhole : watch <+: buffer.drop j := by
      refine prefix_of_prefix_length_le hpre (prefix_append _ u) ?_
      simp only [length_drop]
      omega
    exact Text.find_eq_none.mp hnone (hwhole.isInfix.trans (drop_suffix j buffer).isInfix)

/-! ### Events folded one after the other -/

namespace FoldState

variable {codec : FloatCodec} {f f' g : FoldState} {events more : List ToolStreamEvent}

/-- One event; `none` where the fold raises or voids the stream. -/
def step? (codec : FloatCodec) (f : FoldState) : ToolStreamEvent → Option FoldState
  | .streamInvalid _ => none
  | event => (f.step codec event).toOption

/-- The events in order. -/
def steps (codec : FloatCodec) (f : FoldState) : List ToolStreamEvent → Option FoldState
  | [] => some f
  | event :: rest => (f.step? codec event).bind fun f => f.steps codec rest

@[simp] theorem steps_nil : f.steps codec [] = some f := rfl

theorem steps_cons {event : ToolStreamEvent} :
    f.steps codec (event :: events) = (f.step? codec event).bind fun f => f.steps codec events := rfl

theorem steps_append : f.steps codec (events ++ more) = (f.steps codec events).bind fun f => f.steps codec more := by
  induction events generalizing f with
  | nil => simp
  | cons event rest ih =>
    simp only [cons_append, steps_cons, Option.bind_assoc, ih]

variable {t name : Text}

@[simp] theorem step?_textDelta : f.step? codec (.textDelta t) = some { f with textParts := f.textParts ++ t } := rfl

@[simp] theorem step?_toolStart : f.step? codec (.toolStart name) =
    some { f.flushText with pendingTool := some name, pendingJson := [] } := rfl

@[simp] theorem step?_toolArgsDelta :
    f.step? codec (.toolArgsDelta t) = some { f with pendingJson := f.pendingJson ++ t } := rfl

@[simp] theorem step?_streamInvalid {message : String} : f.step? codec (.streamInvalid message) = none := rfl

/-- A call whose arguments were sent whole. -/
theorem step?_toolStop {input : Json} (hpending : f.pendingTool = some name)
    (hne : f.pendingJson ≠ []) (hload : loads codec f.pendingJson = some input) :
    f.step? codec .toolStop = some { f with
      blocks := f.blocks ++ [.toolUse name input]
      pendingTool := none
      committed := f.committed + 1 } := by
  simp [step?, step, hpending, hne, hload, Except.toOption]

/-- A fold that neither raises nor voids is the fold of the source. -/
theorem run_of_steps {raw : Text} (h : f.steps codec events = some f') :
    f.run codec raw events = .ok (f'.finish raw) := by
  induction events generalizing f with
  | nil =>
    cases h
    rfl
  | cons event rest ih =>
    rw [steps_cons, Option.bind_eq_some_iff] at h
    obtain ⟨f1, hstep, hrest⟩ := h
    cases event with
    | streamInvalid message => exact nomatch hstep
    | textDelta | toolStart | toolArgsDelta | toolStop =>
      simp only [step?] at hstep
      cases hstep' : f.step codec _ with
      | error e =>
        rw [hstep'] at hstep
        exact nomatch hstep
      | ok f2 =>
        rw [hstep'] at hstep
        cases hstep
        simp only [run, hstep']
        exact ih hrest

end FoldState

/-! ### One scanner step -/

namespace ToolStreamScanner

variable {codec : FloatCodec} {s t : ToolStreamScanner} {body before u : Text} {final : Bool}
  {next : ToolStreamScanner → Step}

@[simp] theorem andThen_fst {step : Step} : (andThen step next).1 = step.1 ++ (next step.2).1 := rfl

@[simp] theorem andThen_snd {step : Step} : (andThen step next).2 = (next step.2).2 := rfl

/-- The input side of the scanner, which only the loops themselves move. -/
structure SameInput (s t : ToolStreamScanner) : Prop where
  buffer : t.buffer = s.buffer
  inCall : t.inCall = s.inCall
  rawText : t.rawText = s.rawText
  state : t.state = s.state
  protocol : t.protocol = s.protocol
  tools : t.tools = s.tools
  choice : t.choice = s.choice

theorem SameInput.trans {r : ToolStreamScanner} (h : SameInput r s) (h' : SameInput s t) : SameInput r t :=
  ⟨h'.buffer.trans h.buffer, h'.inCall.trans h.inCall, h'.rawText.trans h.rawText,
    h'.state.trans h.state, h'.protocol.trans h.protocol, h'.tools.trans h.tools,
    h'.choice.trans h.choice⟩

/-- Text that a committed Qwen call does not admit. -/
def Voids (s : ToolStreamScanner) (x : Text) : Prop :=
  s.protocol = .qwen ∧ Text.blank x = false ∧ s.qwenCommitted = true

/-- The scanner after text that it admits. -/
def marked (s : ToolStreamScanner) (x : Text) : ToolStreamScanner :=
  { s with
    pureSoFar := if s.protocol = .qwen ∧ Text.blank x = false then false else s.pureSoFar }

def textEvents (x : Text) : List ToolStreamEvent := if x = [] then [] else [.textDelta x]

theorem text_of_voids (h : s.Voids u) :
    s.text u = s.invalidate "text outside Qwen tool calls voids the committed calls" := by
  simp [text, h.1, h.2.1, h.2.2]

theorem text_of_not_voids (h : ¬ s.Voids u) : s.text u = (textEvents u, s.marked u) := by
  simp only [text, textEvents, marked]
  by_cases hq : s.protocol = .qwen ∧ Text.blank u = false
  · have hc : s.qwenCommitted = false := by
      by_contra hc
      exact h ⟨hq.1, hq.2, by simpa using hc⟩
    simp [hq, hc]
  · simp [hq]

theorem not_voids_of_text (h : (s.text u).2.invalidated = false) : ¬ s.Voids u := by
  intro hv
  rw [text_of_voids hv] at h
  exact nomatch h

theorem text_sameInput (s : ToolStreamScanner) (x : Text) : SameInput s (s.text x).2 := by
  by_cases h : s.Voids x
  · rw [text_of_voids h]
    exact ⟨rfl, rfl, rfl, rfl, rfl, rfl, rfl⟩
  · rw [text_of_not_voids h]
    exact ⟨rfl, rfl, rfl, rfl, rfl, rfl, rfl⟩

theorem text_progressive (s : ToolStreamScanner) (x : Text) : (s.text x).2.progressive = s.progressive := by
  by_cases h : s.Voids x
  · rw [text_of_voids h]
    rfl
  · rw [text_of_not_voids h]
    rfl

theorem textEvents_steps (u : Text) (f : FoldState) :
    f.steps codec (textEvents u) = some { f with textParts := f.textParts ++ u } := by
  by_cases hu : u = []
  · simp [textEvents, hu]
  · simp [textEvents, hu, FoldState.steps_cons]

theorem text_push (s : ToolStreamScanner) (x u : Text) : (s.push u).text x = ((s.text x).1, (s.text x).2.push u) := by
  have hiff : (s.push u).Voids x ↔ s.Voids x := Iff.rfl
  by_cases h : s.Voids x
  · rw [text_of_voids h, text_of_voids (hiff.mpr h)]
    rfl
  · rw [text_of_not_voids h, text_of_not_voids (fun h' => h (hiff.mp h'))]
    rfl

/-- Two pieces of text do what their concatenation does. -/
theorem text_append (codec : FloatCodec) (x y : Text) (h : (s.text x).2.invalidated = false) :
    (s.text (x ++ y)).2 = ((s.text x).2.text y).2 ∧ ∀ f : FoldState, f.steps codec (s.text (x ++ y)).1 =
        (f.steps codec (s.text x).1).bind fun f => f.steps codec ((s.text x).2.text y).1 := by
  have hx := not_voids_of_text h
  rw [text_of_not_voids hx]
  have hblank := Text.blank_append (a := x) (b := y)
  by_cases hy : s.Voids y
  · have hxy : s.Voids (x ++ y) := ⟨hy.1, by simp [hblank, hy.2.1], hy.2.2⟩
    rw [text_of_voids hxy, text_of_voids (show (s.marked x).Voids y from hy)]
    have hbx : Text.blank x = true := by
      by_contra hbx
      exact hx ⟨hy.1, by simpa using hbx, hy.2.2⟩
    refine ⟨by simp [marked, hbx], fun f => ?_⟩
    rw [textEvents_steps]
    rfl
  · have hxy : ¬ s.Voids (x ++ y) := by
      rintro ⟨hq, hb, hc⟩
      rw [hblank, Bool.and_eq_false_iff] at hb
      rcases hb with hb | hb
      · exact hx ⟨hq, hb, hc⟩
      · exact hy ⟨hq, hb, hc⟩
    rw [text_of_not_voids hxy, text_of_not_voids (show ¬ (s.marked x).Voids y from hy)]
    constructor
    · simp only [marked, hblank]
      by_cases hq : s.protocol = .qwen
      · cases Text.blank x <;> cases Text.blank y <;> simp [hq]
      · simp [hq]
    · intro f
      simp [textEvents_steps]

end ToolStreamScanner

/-! ### Calls that are committed whole -/

section Calls

variable {codec : FloatCodec} {t : Text} {fields arguments : JsonFields}

theorem strictHooks_strict : strictHooks.Strict where
  constant _ := rfl
  pairs pairs fields h := by
    simp only [strictHooks] at h
    split at h
    · next hnodup =>
      cases h
      exact ⟨rfl, hnodup⟩
    · exact nomatch h

variable {v : Json}

theorem strictJsonLoads_eq_some (h : strictJsonLoads codec t = some v) :
    isFinite v = true ∧ ∃ w y w', t = w ++ (y ++ w') ∧ Ws w ∧ Ws w' ∧ Derives codec strictHooks y (.value v) := by
  obtain ⟨hload, hfinite⟩ := Option.filter_eq_some_iff.mp h
  exact ⟨hfinite, loadsWith_sound hload⟩

/-- What the strict reader returns can be written and read back. -/
theorem strictJsonLoads_writes (h : strictJsonLoads codec t = some v) : Writes codec v := by
  obtain ⟨hfinite, _, _, _, _, _, _, hder⟩ := strictJsonLoads_eq_some h
  exact hder.writesFinite strictHooks_strict hfinite

theorem strictJsonLoads_field_writes (h : strictJsonLoads codec t = some (.obj fields)) :
    ∀ entry ∈ fields, Writes codec entry.2 := by
  obtain ⟨hfinite, _, _, _, _, _, _, hder⟩ := strictJsonLoads_eq_some h
  rw [isFinite, isFiniteFields_iff] at hfinite
  rcases hder.members_of_obj strictHooks_strict with rfl | ⟨y, hy⟩
  · simp
  · exact fun entry hentry => hy.writesFinite strictHooks_strict entry hentry (hfinite entry hentry)

variable {key body name : Text}

theorem mem_of_get (h : Json.get fields key = some v) : (key, v) ∈ fields := by
  obtain ⟨before, after, hsplit, -⟩ := lookup_eq_some_iff.mp h
  simp [hsplit]

theorem validatedCall_eq_some {payload : Option Json} : validatedCall codec payload = some (name, arguments) ↔
      ∃ fields, payload = some (.obj fields) ∧ Json.get fields (Text.of "name") = some (.str name) ∧
        Text.blank name = false ∧ parsedArguments codec (payloadArguments fields) = some (.obj arguments) ∧
        isFinite (.obj arguments) = true := by
  constructor
  · intro h
    simp only [validatedCall] at h
    split at h
    · next fields =>
      split at h
      · next name' hname =>
        split at h
        · exact nomatch h
        · next hblank =>
          split at h
          · next arguments' hargs =>
            split at h
            · next hfinite =>
              cases h
              exact ⟨fields, rfl, hname, by simpa using hblank, hargs, hfinite⟩
            · exact nomatch h
          · exact nomatch h
      · exact nomatch h
    · exact nomatch h
  · rintro ⟨fields, rfl, hname, hblank, hargs, hfinite⟩
    simp [validatedCall, hname, hblank, hargs, hfinite]

/-- The arguments of a validated call can be written and read back. -/
theorem validatedCall_writes (h : validatedCall codec (strictJsonLoads codec t) = some (name, arguments)) :
    Writes codec (.obj arguments) := by
  obtain ⟨fields, hload, -, -, hargs, -⟩ := validatedCall_eq_some.mp h
  have hwrites : ∀ key v, Json.get fields key = some v → Writes codec v :=
    fun key v hv => strictJsonLoads_field_writes hload _ (mem_of_get hv)
  have hpayload : Writes codec (payloadArguments fields) := by
    simp only [payloadArguments]
    cases ha : Json.get fields (Text.of "arguments") with
    | some v => exact hwrites _ v ha
    | none =>
      cases hp : Json.get fields (Text.of "parameters") with
      | some v => exact hwrites _ v hp
      | none => exact writes_obj (by simp) (by simp)
  cases hvalue : payloadArguments fields with
  | str t =>
    rw [hvalue] at hargs
    exact strictJsonLoads_writes hargs
  | obj fields' =>
    rw [hvalue] at hargs hpayload
    cases hargs
    exact hpayload
  | _ =>
    rw [hvalue] at hargs
    exact nomatch hargs

/-- Arguments under distinct keys that can all be written and read back. -/
def Writable (codec : FloatCodec) (arguments : JsonFields) : Prop :=
  (arguments.map Prod.fst).Nodup ∧ ∀ entry ∈ arguments, Writes codec entry.2

theorem Writable.snoc (h : Writable codec arguments) (hkey : key ∉ arguments.map Prod.fst) (hv : Writes codec v) :
    Writable codec (arguments ++ [(key, v)]) := by
  constructor
  · rw [map_append, nodup_append]
    refine ⟨h.1, by simp, ?_⟩
    intro a ha b hb heq
    simp only [map_cons, map_nil, mem_singleton] at hb
    exact hkey (by rwa [← hb, ← heq])
  · intro entry hentry
    rcases mem_append.mp hentry with hentry | hentry
    · exact h.2 entry hentry
    · rw [mem_singleton.mp hentry]
      exact hv

theorem qwenParameterValue_writes {value : Text} {schema : Json}
    (h : qwenParameterValue codec value schema = some v) : Writes codec v := by
  simp only [qwenParameterValue] at h
  split at h
  · split at h
    · exact nomatch h
    · split at h
      · cases h
        exact writes_str _
      · split at h
        · cases h
          exact writes_null
        · split at h
          · exact nomatch h
          · split at h
            · cases h
              exact writes_str _
            · split at h
              · exact nomatch h
              · next parsed hparsed =>
                split at h
                · cases h
                  exact strictJsonLoads_writes hparsed
                · exact nomatch h
  · cases h
    exact writes_str _

theorem qwenParameters_writable {schema : ParametersSchema} {n : Nat} {result : JsonFields}
    (h : qwenParameters codec schema n arguments body = some result)
    (hargs : Writable codec arguments) : Writable codec result := by
  induction n generalizing arguments body with
  | zero => exact nomatch h
  | succ n ih =>
    simp only [qwenParameters] at h
    split at h
    · split at h
      · cases h
        exact hargs
      · exact nomatch h
    · next before name value rest hsearch =>
      split at h
      · exact nomatch h
      · next hok =>
        split at h
        · exact nomatch h
        · split at h
          · exact nomatch h
          · next v hv =>
            simp only [not_or] at hok
            exact ih h (hargs.snoc hok.2.2 (qwenParameterValue_writes hv))

theorem qwenArguments_writable {schema : JsonFields}
    (h : qwenArguments codec body schema = some arguments) : Writable codec arguments := by
  simp only [qwenArguments] at h
  split at h
  · exact nomatch h
  · split at h
    · exact nomatch h
    · next hparams =>
      split at h
      · cases h
        exact qwenParameters_writable hparams ⟨by simp, by simp⟩
      · exact nomatch h

theorem dsmlParameters_writable {n : Nat} {result : JsonFields}
    (h : dsmlParameters codec n arguments body = some result)
    (hargs : Writable codec arguments) : Writable codec result := by
  induction n generalizing arguments body with
  | zero => exact nomatch h
  | succ n ih =>
    simp only [dsmlParameters] at h
    split at h
    · split at h
      · cases h
        exact hargs
      · exact nomatch h
    · split at h
      · exact nomatch h
      · next hok =>
        simp only [not_or] at hok
        split at h
        · exact ih h (hargs.snoc hok.2 (writes_str _))
        · split at h
          · exact nomatch h
          · next v hv => exact ih h (hargs.snoc hok.2 (strictJsonLoads_writes hv))

end Calls

end Kairyu
