/-
  Kairyu/ResponseRuns.lean
  ========================
  **A Responses stream folds to its own response.**

  The assembler keeps an invariant between its calls (`OutputAssembler.Inv`): an item is
  open when the scanner says so, reasoning waits only for an open message or call, and
  the message text with the white space held back is the prose so far.  Every call keeps
  it or records a failure, so the events of a whole run are accepted by the client and
  fold to the terminal response (`responses_stream_folds_to_response`).
-/
import Kairyu.ResponseClient
import Kairyu.ToolStreamBrackets
import Kairyu.Trimming

namespace Kairyu

open Client Emission

namespace OutputAssembler

open ResponseEmitter List Emission

variable {a a1 a2 : OutputAssembler} {e : ResponseEmitter} {status : ItemStatus}

/-! ### Calls that succeed -/

/-- The call succeeds, leaves `a'` and has this effect on the emitter. -/
def Performs (a : OutputAssembler) (emission : Emission OutputAssembler) (a' : OutputAssembler)
    (kind : Option ItemKind) (reasoning prose : Text) (answer : Bool) : Prop :=
  ∃ frames, emission = .ok (frames, a') ∧
    Effect a.emitter (frames, a'.emitter) kind reasoning prose answer

theorem Performs.andThen {first : Emission OutputAssembler} {next : OutputAssembler → Emission OutputAssembler}
    {k1 k2 : Option ItemKind} {r1 r2 p1 p2 : Text} {b1 b2 : Bool}
    (h : Performs a first a1 k1 r1 p1 b1) (h' : Performs a1 (next a1) a2 k2 r2 p2 b2) :
    Performs a (andThen first next) a2 k2 (r1 ++ r2) (p1 ++ p2) (b1 || b2) := by
  obtain ⟨frames, hfirst, heffect⟩ := h
  obtain ⟨more, hnext, heffect'⟩ := h'
  exact ⟨frames ++ more, by simp [Emission.andThen, hfirst, hnext], heffect.append heffect'⟩

theorem performs_nil (a : OutputAssembler) : Performs a (.ok ([], a)) a a.emitter.openKind [] [] false :=
  ⟨[], rfl, effect_nil a.emitter⟩

variable {kind : Option ItemKind} {p r : Text} {emission : Emission OutputAssembler} {b : Bool}

theorem performs_emit (f : ResponseEmitter → List Frame × ResponseEmitter)
    (h : Effect a.emitter (f a.emitter) kind r p b) :
    Performs a (a.emit f) (a.withEmitter (f a.emitter).2) kind r p b := ⟨_, rfl, h⟩

variable {step : List Frame × ResponseEmitter}

theorem performs_emitting (f : ResponseEmitter → Emission ResponseEmitter)
    (hok : f a.emitter = .ok step) (h : Effect a.emitter step kind r p b) :
    Performs a (a.emitting f) (a.withEmitter step.2) kind r p b :=
  ⟨step.1, by simp [emitting, hok], h⟩

theorem Performs.congr {r' p' : Text} {b' : Bool} (h : Performs a emission a1 kind r p b) (hr : r = r') (hp : p = p')
    (hb : b = b') : Performs a emission a1 kind r' p' b' := by
  subst hr hp hb
  exact h

theorem Performs.openKind (h : Performs a emission a1 kind r p b) : a1.emitter.openKind = kind := by
  obtain ⟨_, -, heffect⟩ := h
  exact heffect.openKind

theorem placeReasoning_performs (hnone : a.emitter.openKind = none) (text : Text)
    (hstatus : status ≠ .inProgress) (keep : Bool) :
    ∃ e', Performs a (a.placeReasoning text status keep) (a.withEmitter e')
      (if keep = true then some .reasoning else none) text [] false := by
  have hbegin := beginReasoning_effect hnone
  obtain ⟨step, hok, hdelta⟩ := reasoningDelta_effect hbegin.openKind text
  have hfirst := performs_emit (·.beginReasoning) hbegin
  have hsecond := performs_emitting (a := a.withEmitter a.emitter.beginReasoning.2) (·.reasoningDelta text) hok hdelta
  have hlast : ∃ e', Performs (a.withEmitter step.2)
      (if keep = true then .ok ([], a.withEmitter step.2)
        else (a.withEmitter step.2).emit (·.close status))
      (a.withEmitter e') (if keep = true then some .reasoning else none) [] [] false := by
    cases keep with
    | true =>
      refine ⟨step.2, ?_⟩
      rw [← hdelta.openKind]
      exact performs_nil _
    | false => exact ⟨_, performs_emit (·.close status) (close_effect step.2 hstatus)⟩
  obtain ⟨e', hlast⟩ := hlast
  refine ⟨e', Performs.congr (hfirst.andThen (hsecond.andThen hlast)) ?_ rfl rfl⟩
  simp

/-- `_close` places the reasoning that waited. -/
theorem close_performs (a : OutputAssembler) (hstatus : status ≠ .inProgress) (keep : Bool) :
    ∃ e', Performs a (a.close status keep) { a with emitter := e', lateReasoning := [] }
      (if keep = true ∧ a.lateReasoning ≠ [] then some .reasoning else none) a.lateReasoning.flatten [] false := by
  have hclose := performs_emit (·.close status) (close_effect a.emitter hstatus)
  have hnone := (close_effect a.emitter hstatus).openKind
  by_cases hlate : a.lateReasoning = []
  · have hsame : ({ a with emitter := (a.emitter.close status).2, lateReasoning := [] } :
        OutputAssembler) = a.withEmitter (a.emitter.close status).2 := by simp [withEmitter, hlate]
    have heq : a.close status keep = a.emit (·.close status) := by
      simp [close, andThen, emit, withEmitter, hlate]
    refine ⟨(a.emitter.close status).2, ?_⟩
    rw [hsame, heq, if_neg fun h => h.2 hlate]
    exact hclose.congr (by simp [hlate]) rfl rfl
  · obtain ⟨e', hplace⟩ := placeReasoning_performs
      (a := { a.withEmitter (a.emitter.close status).2 with lateReasoning := [] }) hnone
      a.lateReasoning.flatten hstatus keep
    have hne : (a.withEmitter (a.emitter.close status).2).lateReasoning ≠ [] := hlate
    have hkind : (if keep = true ∧ a.lateReasoning ≠ [] then some .reasoning else none :
        Option ItemKind) = if keep = true then some .reasoning else none := by simp [hlate]
    refine ⟨e', ?_⟩
    rw [hkind]
    refine Performs.congr (hclose.andThen ?_) (nil_append _) (nil_append _) (Bool.false_or _)
    rw [if_neg hne]
    exact hplace

theorem writeText_performs (h : a.emitter.openKind = some .message) (hencodes : a.emitter.Encodes) (t : Text) :
    ∃ e', Performs a (a.writeText t) { a with emitter := e', pendingWs := [] } (some .message) []
      (a.pendingWs ++ t) false := by
  obtain ⟨step, hok, heffect⟩ := textDelta_effect h hencodes (a.pendingWs ++ t)
  exact ⟨step.2, step.1, by simp [writeText, emitting, hok, withEmitter], heffect⟩

/-- Drawing an identifier is not seen by the client. -/
theorem effect_of_newId {name : String} (h : Effect (e.newId name).2 step kind r p b) :
    Effect e step kind r p b := ⟨h.emits, h.openKind, h.reasoning, h.prose, h.hasAnswer, h.encodes⟩

theorem startCall_performs (h : a.emitter.openKind = none) (callId : Option Text) (name : Text) :
    ∃ e', Performs a (a.startCall callId name) { a with emitter := e', calls := a.calls + 1 }
      (some .functionCall) [] [] true := by
  have hbegin : ∀ (callId name : Text) (nameSpace : Option Text) (e : ResponseEmitter),
      Effect a.emitter (e.beginCall callId name nameSpace) (some .functionCall) [] [] true →
      Performs a
        (andThen ((a.withEmitter e).emit (·.beginCall callId name nameSpace)) fun a =>
          .ok ([], { a with calls := a.calls + 1 }))
        { a with emitter := (e.beginCall callId name nameSpace).2, calls := a.calls + 1 }
        (some .functionCall) [] [] true := by
    intro callId name nameSpace e heffect
    exact ⟨(e.beginCall callId name nameSpace).1, by simp [andThen, emit, withEmitter], heffect⟩
  cases callId with
  | some callId => exact ⟨_, hbegin callId _ _ a.emitter (beginCall_effect h _ _ _)⟩
  | none =>
    exact ⟨_, hbegin _ _ _ (a.emitter.newId "call").2
      (effect_of_newId (beginCall_effect (e := (a.emitter.newId "call").2) h _ _ _))⟩

/-! ### The invariant -/

/-- What holds between the events of a run that has not failed, after this prose and these
    items, this reasoning, and with a call open in the scanner or not. -/
structure Inv (a : OutputAssembler) (tokens : List ProseToken) (reasoned : Text) (calling : Bool) :
    Prop where
  failure : a.failure = none
  encodes : a.emitter.Encodes
  calling : a.emitter.openKind = some .functionCall ↔ calling = true
  late : a.lateReasoning ≠ [] →
    a.emitter.openKind = some .message ∨ a.emitter.openKind = some .functionCall
  reasoning : textOf .reasoning a.emitter.items ++ a.lateReasoning.flatten = reasoned
  message : a.emitter.openKind = some .message → a.pendingWs = []
  prose : Trimmed tokens (textOf .message a.emitter.items ++ a.pendingWs)
  answered : a.emitter.openKind ≠ some .message → a.emitter.hasAnswer = true →
    TrimmedBefore tokens (textOf .message a.emitter.items)
  unanswered : a.emitter.hasAnswer = false →
    BlankProse tokens ∧ textOf .message a.emitter.items = []

/-- What is delivered of a run that failed. -/
structure Delivers (e : ResponseEmitter) (tokens : List ProseToken) (reasoned : Text) : Prop where
  reasoning : textOf .reasoning e.items <+: reasoned
  prose : ∃ done, done <+: tokens ∧ Trimmed done (textOf .message e.items)

/-- A run so far, failed or not. -/
def Holds (a : OutputAssembler) (tokens : List ProseToken) (reasoned : Text) (calling : Bool) : Prop :=
  Inv a tokens reasoned calling ∨ a.failure.isSome = true ∧ Delivers a.emitter tokens reasoned

section Invariant

variable {tokens more : List ProseToken} {reasoned r : Text} {calling : Bool}

section

variable (h : Inv a tokens reasoned calling)
include h

theorem Inv.trimmed (hanswer : a.emitter.hasAnswer = true) :
    Trimmed tokens (textOf .message a.emitter.items) := by
  by_cases hmessage : a.emitter.openKind = some .message
  · have hprose := h.prose
    rwa [h.message hmessage, append_nil] at hprose
  · exact (h.answered hmessage hanswer).trimmed

/-- The message text as it stands, before an item. -/
theorem Inv.trimmedOpen : TrimmedOpen tokens (textOf .message a.emitter.items) := by
  cases hanswer : a.emitter.hasAnswer with
  | true => exact (h.trimmed hanswer).toOpen
  | false =>
    obtain ⟨hblank, htext⟩ := h.unanswered hanswer
    rw [htext]
    exact hblank.trimmedOpen

theorem Inv.delivers : Delivers a.emitter tokens reasoned := by
  refine ⟨h.reasoning ▸ prefix_append _ _, ?_⟩
  cases hanswer : a.emitter.hasAnswer with
  | true => exact ⟨tokens, prefix_rfl, h.trimmed hanswer⟩
  | false => exact ⟨[], nil_prefix, (h.unanswered hanswer).2 ▸ trimmed_nil⟩

/-- An item is not prose. -/
theorem Inv.item : Inv a (tokens ++ [.item]) reasoned calling :=
  { h with
    prose := h.prose.toOpen.snoc_item
    answered := fun hopen hanswer => (h.answered hopen hanswer).snoc_item
    unanswered := fun hanswer => ⟨(h.unanswered hanswer).1.snoc_item, (h.unanswered hanswer).2⟩ }

end

theorem Delivers.mono (h : Delivers e tokens reasoned) (more : List ProseToken) (hr : reasoned <+: r) :
    Delivers e (tokens ++ more) r := by
  obtain ⟨done, hdone, htrimmed⟩ := h.prose
  exact ⟨h.reasoning.trans hr, done, hdone.trans (prefix_append _ _), htrimmed⟩

/-! ### One event -/

/-- What the event adds to the prose and the items. -/
def eventToken : ToolStreamEvent → Option ProseToken
  | .textDelta t => some (.prose t)
  | .toolStart _ => some .item
  | _ => none

/-- The call succeeds with frames the client accepts, and the run goes on or has failed. -/
def Continues (a : OutputAssembler) (emission : Emission OutputAssembler) (tokens : List ProseToken)
    (reasoned : Text) (calling : Bool) : Prop :=
  ∃ frames a', emission = .ok (frames, a') ∧ Emits a.emitter (frames, a'.emitter) ∧
    a'.scanner = a.scanner ∧ Holds a' tokens reasoned calling

theorem Performs.continues (h : Performs a emission a1 kind r p b) (hscanner : a1.scanner = a.scanner)
    (hinv : Inv a1 tokens reasoned calling) : Continues a emission tokens reasoned calling := by
  obtain ⟨frames, hok, heffect⟩ := h
  exact ⟨frames, a1, hok, heffect.emits, hscanner, Or.inl hinv⟩

theorem openMessage_hasAnswer (h : e.openKind = some .message) : e.hasAnswer = true := by
  obtain ⟨pre, item, hitems, -, hkind⟩ := exists_last_of_openKind h
  simp [hasAnswer, hitems, hkind]

section

variable (h : Inv a tokens reasoned false)
include h

/-- A message got the white space held back and a text. -/
theorem Inv.written {t : Text}
    (hperforms : Performs a emission a1 (some .message) r (a.pendingWs ++ t) b) (hscanner : a1.scanner = a.scanner)
    (hfailure : a1.failure = none) (hws : a1.pendingWs = [])
    (hlate : r ++ a1.lateReasoning.flatten = a.lateReasoning.flatten) :
    Continues a emission (tokens ++ [.prose t]) reasoned false := by
  refine hperforms.continues hscanner ?_
  obtain ⟨_, -, heffect⟩ := hperforms
  have hanswer := openMessage_hasAnswer heffect.openKind
  refine ⟨hfailure, heffect.encodes h.encodes, ?_, fun _ => Or.inl heffect.openKind, ?_, fun _ => hws, ?_, ?_, ?_⟩
  · rw [heffect.openKind]
    simp
  · rw [heffect.reasoning, append_assoc, hlate]
    exact h.reasoning
  · rw [heffect.prose, hws, append_nil, ← append_assoc]
    exact h.prose.snoc_prose t
  · exact fun hne => absurd heffect.openKind hne
  · exact fun hno => Bool.noConfusion (hanswer.symm.trans hno)

/-- Text for the open message. -/
theorem writeText_continues (hopen : a.emitter.openKind = some .message)
    (t : Text) : Continues a (a.writeText t) (tokens ++ [.prose t]) reasoned false := by
  obtain ⟨e', hperforms⟩ := writeText_performs hopen h.encodes t
  exact h.written hperforms rfl h.failure rfl rfl

/-- White space outside a message is held back. -/
theorem hold_continues (hopen : a.emitter.openKind ≠ some .message) {t : Text} (ht : Text.blank t = true) :
    Continues a (.ok ([], { a with pendingWs := a.pendingWs ++ t })) (tokens ++ [.prose t]) reasoned false := by
  refine Performs.continues ⟨[], rfl, effect_nil a.emitter⟩ rfl ?_
  refine ⟨h.failure, h.encodes, h.calling, h.late, h.reasoning, fun hkind => absurd hkind hopen, ?_, ?_, ?_⟩
  · rw [← append_assoc]
    exact h.prose.snoc_prose t
  · exact fun _ hanswer => (h.answered hopen hanswer).snoc_blank ht
  · intro hanswer
    obtain ⟨hblank, htext⟩ := h.unanswered hanswer
    exact ⟨hblank.snoc_blank ht, htext⟩

end

/-- A message with its first text. -/
theorem beginText_performs (h : a.emitter.openKind = none) (t : Text) :
    ∃ e', Performs a (andThen (a.emit (·.beginMessage)) fun a => a.writeText t)
      { a with emitter := e', pendingWs := [] } (some .message) [] (a.pendingWs ++ t) true := by
  have hbegin := beginMessage_effect h
  obtain ⟨e', hwrite⟩ := writeText_performs (a := a.withEmitter a.emitter.beginMessage.2)
    hbegin.openKind (hbegin.encodes (encodes_of_closed h)) t
  exact ⟨e', (performs_emit (·.beginMessage) hbegin).andThen hwrite⟩

theorem beginText_continues (h : Inv a tokens reasoned false) (t : Text) :
    Continues a (andThen (a.close .completed false) fun a =>
        andThen (a.emit (·.beginMessage)) fun a => a.writeText t) (tokens ++ [.prose t]) reasoned false := by
  obtain ⟨e1, hclose⟩ := close_performs a (show ItemStatus.completed ≠ .inProgress by simp) false
  have hclosed : e1.openKind = none := by simpa using hclose.openKind
  obtain ⟨e2, htext⟩ := beginText_performs (a := { a with emitter := e1, lateReasoning := [] }) hclosed t
  exact h.written (hclose.andThen htext) rfl h.failure rfl (by simp)

/-- The start of a call that is not refused. -/
theorem startCall_continues (h : Inv a tokens reasoned false) (callId : Option Text) (name : Text) : Continues a
      (andThen (a.close .completed false) fun a => { a with pendingWs := [] }.startCall callId name)
      (tokens ++ [.item]) reasoned true := by
  obtain ⟨e1, hclose⟩ := close_performs a (show ItemStatus.completed ≠ .inProgress by simp) false
  have hclosed : e1.openKind = none := by simpa using hclose.openKind
  obtain ⟨e2, hstart⟩ := startCall_performs
    (a := { a with emitter := e1, lateReasoning := [], pendingWs := [] }) hclosed callId name
  refine Performs.continues (hclose.andThen hstart) rfl ?_
  obtain ⟨_, -, hfirst⟩ := hclose
  obtain ⟨_, -, hsecond⟩ := hstart
  have heffect := hfirst.append hsecond
  have hbefore : TrimmedBefore (tokens ++ [.item]) (textOf .message e2.items) := by
    rw [heffect.prose, nil_append, append_nil]
    exact h.trimmedOpen.before_item
  have hanswer : e2.hasAnswer = true := by
    rw [heffect.hasAnswer]
    simp
  refine ⟨h.failure, heffect.encodes h.encodes, ?_, ?_, ?_, fun _ => rfl, ?_, fun _ _ => hbefore, ?_⟩
  · rw [heffect.openKind]
    simp
  · exact fun hne => absurd rfl hne
  · rw [heffect.reasoning, ← h.reasoning]
    simp
  · rw [append_nil]
    exact hbefore.trimmed
  · exact fun hno => nomatch hanswer.symm.trans hno

/-- A call that writes no prose and leaves a message open only if one was. -/
theorem Inv.kept {reasoned' : Text} {calling' : Bool}
    (h : Inv a tokens reasoned calling) (hperforms : Performs a emission a1 kind r [] false)
    (hscanner : a1.scanner = a.scanner) (hfailure : a1.failure = a.failure) (hws : a1.pendingWs = a.pendingWs)
    (hmessage : kind = some .message ↔ a.emitter.openKind = some .message)
    (hcalling : kind = some .functionCall ↔ calling' = true)
    (hlate : a1.lateReasoning ≠ [] → kind = some .message ∨ kind = some .functionCall)
    (hreasoned : textOf .reasoning a.emitter.items ++ (r ++ a1.lateReasoning.flatten) = reasoned') :
    Continues a emission tokens reasoned' calling' := by
  refine hperforms.continues hscanner ?_
  obtain ⟨_, -, -, hkind, hreasoning, hprose, hanswer, hencodes⟩ := hperforms
  rw [append_nil] at hprose
  rw [Bool.or_false] at hanswer
  refine ⟨hfailure.trans h.failure, hencodes h.encodes, ?_, ?_, ?_, ?_, ?_, ?_, ?_⟩ <;>
    simp only [hkind, hreasoning, hprose, hanswer, hws]
  · exact hcalling
  · exact hlate
  · rw [append_assoc]
    exact hreasoned
  · exact fun hopen => h.message (hmessage.mp hopen)
  · exact h.prose
  · exact fun hopen => h.answered (mt hmessage.mpr hopen)
  · exact h.unanswered

/-- Arguments of the open call. -/
theorem arguments_continues (h : Inv a tokens reasoned true) (t : Text) :
    Continues a (a.emitting (·.argumentsDelta t)) tokens reasoned true := by
  have hopen := h.calling.mpr rfl
  obtain ⟨step, hok, heffect⟩ := argumentsDelta_effect hopen t
  exact h.kept (performs_emitting (·.argumentsDelta t) hok heffect) rfl rfl rfl (by rw [hopen]) (by simp)
    (fun _ => Or.inr rfl) h.reasoning

/-- The end of the open call. -/
theorem stop_continues (h : Inv a tokens reasoned true) :
    Continues a (a.close .completed true) tokens reasoned false := by
  obtain ⟨e', hclose⟩ := close_performs a (show ItemStatus.completed ≠ .inProgress by simp) true
  refine h.kept hclose rfl rfl rfl ?_ ?_ (fun hne => absurd rfl hne) (by simpa using h.reasoning)
  · rw [h.calling.mpr rfl]
    split <;> simp
  · split <;> simp

/-- A failure is recorded and nothing is emitted. -/
theorem fail_continues (h : Inv a tokens reasoned calling) (payload : FailurePayload)
    (more : List ProseToken) (b : Bool) :
    Continues a (.ok ([], { a with failure := some payload })) (tokens ++ more) reasoned b := by
  exact ⟨[], _, rfl, emits_nil _, rfl, Or.inr ⟨rfl, h.delivers.mono more prefix_rfl⟩⟩

variable {c : Bool} {event : ToolStreamEvent}

/-- **One event** in the order the scanner keeps. -/
theorem applyEvent_continues (h : Inv a tokens reasoned b) (hevent : Bracketed b [event] c) (callId : Option Text) :
    Continues a (a.applyEvent callId event) (tokens ++ (eventToken event).toList) reasoned c := by
  cases hevent with
  | text t hrest =>
    cases hrest
    simp only [applyEvent]
    split
    · next hopen =>
      split
      · next hblank => exact hold_continues h hopen hblank
      · exact beginText_continues h t
    · next hopen => exact writeText_continues h (not_not.mp hopen) t
  | start name hrest =>
    cases hrest
    simp only [applyEvent]
    split
    · exact fail_continues h _ _ _
    · exact startCall_continues h callId name
  | args json hrest =>
    cases hrest
    simp only [eventToken, Option.toList_none, append_nil]
    exact arguments_continues h json
  | stop hrest =>
    cases hrest
    simp only [eventToken, Option.toList_none, append_nil]
    exact stop_continues h

/-! ### One call -/

theorem Continues.andThen {first : Emission OutputAssembler} {next : OutputAssembler → Emission OutputAssembler}
    (h : Continues a first tokens reasoned b)
    (hnext : ∀ a', Inv a' tokens reasoned b → Continues a' (next a') (tokens ++ more) reasoned c)
    (hfailed : ∀ a', a'.failure.isSome = true → next a' = .ok ([], a')) :
    Continues a (andThen first next) (tokens ++ more) reasoned c := by
  obtain ⟨frames, a1, hok, hemits, hscanner, hinv | ⟨hfailure, hdelivers⟩⟩ := h
  · obtain ⟨frames', a2, hok', hemits', hscanner', hholds⟩ := hnext a1 hinv
    exact ⟨frames ++ frames', a2, by simp [Emission.andThen, hok, hok'], hemits.append hemits',
      hscanner'.trans hscanner, hholds⟩
  · exact ⟨frames, a1, by simp [Emission.andThen, hok, hfailed a1 hfailure], hemits, hscanner,
      Or.inr ⟨hfailure, hdelivers.mono more prefix_rfl⟩⟩

theorem apply_of_failure (h : a.failure.isSome = true) (callId : Option Text)
    (events : List ToolStreamEvent) : apply callId events a = .ok ([], a) := by
  cases events <;> simp [apply, h]

theorem bracketed_cons {rest : List ToolStreamEvent} (h : Bracketed b (event :: rest) c) :
    ∃ m, Bracketed b [event] m ∧ Bracketed m rest c := by
  cases h with
  | text t h => exact ⟨false, .text t (.nil _), h⟩
  | start name h => exact ⟨true, .start name (.nil _), h⟩
  | args json h => exact ⟨true, .args json (.nil _), h⟩
  | stop h => exact ⟨false, .stop (.nil _), h⟩

variable {events : List ToolStreamEvent}

/-- **The events of a scanner**, by induction over them. -/
theorem apply_continues (h : Inv a tokens reasoned b) (hevents : Bracketed b events c) (callId : Option Text) :
    Continues a (apply callId events a) (tokens ++ events.filterMap eventToken) reasoned c := by
  induction events generalizing a tokens b with
  | nil =>
    cases hevents
    rw [filterMap_nil, append_nil]
    exact (performs_nil a).continues rfl h
  | cons event rest ih =>
    obtain ⟨m, hfirst, hrest⟩ := bracketed_cons hevents
    have htokens : tokens ++ (event :: rest).filterMap eventToken =
        tokens ++ (eventToken event).toList ++ rest.filterMap eventToken := by
      rw [filterMap_cons]
      cases eventToken event <;> simp
    simp only [apply, h.failure, htokens]
    exact (applyEvent_continues h hfirst callId).andThen (fun a' hinv => ih hinv hrest)
      fun a' hfailed => apply_of_failure hfailed callId rest

theorem andThen_assoc (first : Emission OutputAssembler) (f g : OutputAssembler → Emission OutputAssembler) :
    andThen (andThen first f) g = andThen first fun a => andThen (f a) g := by
  cases first with
  | error error => rfl
  | ok step =>
    simp only [andThen]
    cases f step.2 with
    | error error => rfl
    | ok step' =>
      simp only
      cases g step'.2 <;> simp

theorem apply_append (callId : Option Text) (xs ys : List ToolStreamEvent) (a : OutputAssembler) :
    apply callId (xs ++ ys) a = andThen (apply callId xs a) (apply callId ys) := by
  induction xs generalizing a with
  | nil => cases hys : apply callId ys a <;> simp [apply, andThen, hys]
  | cons event rest ih =>
    cases hfailure : a.failure.isSome with
    | true => simp [andThen, apply_of_failure hfailure]
    | false => simp only [cons_append, apply, hfailure, Bool.false_eq_true, if_false, andThen_assoc, ← ih]

/-- Events that end with the scanner's invalidation. -/
theorem apply_invalid {message : String} (h : Inv a tokens reasoned b)
    (hevents : Bracketed b events c) (callId : Option Text) :
    ∃ frames a', apply callId (events ++ [.streamInvalid message]) a = .ok (frames, a') ∧
      Emits a.emitter (frames, a'.emitter) ∧ a'.failure.isSome = true ∧
      Delivers a'.emitter (tokens ++ events.filterMap eventToken) reasoned := by
  obtain ⟨frames, a', hok, hemits, -, hinv | ⟨hfailure, hdelivers⟩⟩ := apply_continues h hevents callId
  · obtain ⟨a'', hlast, hfailure, hemitter⟩ : ∃ a'',
        apply callId [.streamInvalid message] a' = .ok ([], a'') ∧ a''.failure.isSome = true ∧
          a''.emitter = a'.emitter :=
      ⟨{ a' with failure := some (gateFailure (Text.of "invalid_tool_call") (Text.of message)) },
        by simp [andThen, apply, hinv.failure, applyEvent], rfl, rfl⟩
    refine ⟨frames, a'', ?_, hemitter ▸ hemits, hfailure, hemitter ▸ hinv.delivers⟩
    rw [apply_append, hok]
    simp only [andThen, hlast, append_nil]
  · refine ⟨frames, a', ?_, hemits, hfailure, hdelivers⟩
    rw [apply_append, hok]
    simp [andThen, apply_of_failure hfailure]

/-- Reasoning that need not wait. -/
theorem reason_performs (h : ¬ a.emitter.openKind = some .message ∧
    ¬ a.emitter.openKind = some .functionCall) (t : Text) : ∃ e', Performs a (andThen
        (if a.emitter.openKind ≠ some .reasoning then a.emit (·.beginReasoning) else .ok ([], a))
        fun a => a.emitting (·.reasoningDelta t)) (a.withEmitter e') (some .reasoning) t [] false := by
  have hfirst : ∃ e1, Performs a
      (if a.emitter.openKind ≠ some .reasoning then a.emit (·.beginReasoning) else .ok ([], a))
      (a.withEmitter e1) (some .reasoning) [] [] false := by
    cases hkind : a.emitter.openKind with
    | none =>
      exact ⟨_, performs_emit (·.beginReasoning) (beginReasoning_effect hkind)⟩
    | some kind =>
      cases kind with
      | message => exact absurd hkind h.1
      | functionCall => exact absurd hkind h.2
      | reasoning =>
        rw [if_neg (by simp), ← hkind]
        exact ⟨a.emitter, performs_nil a⟩
  obtain ⟨e1, hfirst⟩ := hfirst
  obtain ⟨step, hok, hdelta⟩ := reasoningDelta_effect hfirst.openKind t
  exact ⟨step.2, hfirst.andThen (performs_emitting (·.reasoningDelta t) hok hdelta)⟩

theorem reasoning_continues (h : Inv a tokens reasoned calling) {t : Text} (ht : t ≠ []) :
    Continues a (a.reasoning t) (tokens ++ [.item]) (reasoned ++ t) calling := by
  have hlive : ¬ (t = [] ∨ a.failure.isSome = true) := by simp [ht, h.failure]
  simp only [reasoning, if_neg hlive]
  split
  · next hopen =>
    refine h.item.kept ⟨[], rfl, effect_nil a.emitter⟩ rfl rfl rfl Iff.rfl h.calling (fun _ => hopen) ?_
    rw [← h.reasoning]
    simp
  · next hopen =>
    simp only [not_or] at hopen
    have hlate : a.lateReasoning = [] := by
      by_contra hne
      exact (h.late hne).elim hopen.1 hopen.2
    obtain ⟨e', hperforms⟩ := reason_performs hopen t
    refine h.item.kept hperforms rfl rfl rfl ?_ ?_ (fun hne => absurd hlate hne) ?_
    · exact iff_of_false (by simp) hopen.1
    · rw [← h.calling]
      exact iff_of_false (by simp) hopen.2
    · rw [← h.reasoning]
      simp [hlate, withEmitter]

end Invariant

end OutputAssembler

/-! ### Whole runs -/

/-- The calls of a run. -/
inductive OutputCall where
  | heartbeat
  | reasoning (text : Text)
  | content (delta : Text) (final : Bool)
  | parsedCalls (calls : List ParsedCall)

def OutputAssembler.perform (codec : FloatCodec) (a : OutputAssembler) :
    OutputCall → Emission OutputAssembler
  | .heartbeat => a.emit (·.heartbeat)
  | .reasoning text => a.reasoning text
  | .content delta final => a.content codec delta final
  | .parsedCalls calls => parsedCalls calls a

def OutputAssembler.performAll (codec : FloatCodec) :
    List OutputCall → OutputAssembler → Emission OutputAssembler
  | [], a => .ok ([], a)
  | call :: rest, a => andThen (a.perform codec call) (performAll codec rest)

namespace OutputCall

/-- The scanner after the call. -/
def scanner (codec : FloatCodec) (scanner : Option ToolStreamScanner) :
    OutputCall → Option ToolStreamScanner
  | .content delta final =>
    scanner.map fun s => if delta = [] ∧ final = false then s else (s.feed codec delta final).2
  | _ => scanner

/-- The prose and the items of the call: what the scanner makes of its content, reasoning
    and parsed calls. -/
def tokens (codec : FloatCodec) (scanner : Option ToolStreamScanner) : OutputCall → List ProseToken
  | .heartbeat => []
  | .reasoning text => if text = [] then [] else [.item]
  | .content delta final =>
    match scanner with
    | none => if delta = [] then [] else [.prose delta]
    | some s =>
      if delta = [] ∧ final = false then []
      else (s.feed codec delta final).1.filterMap OutputAssembler.eventToken
  | .parsedCalls calls => calls.map fun _ => .item

def reasoned : OutputCall → Text
  | .reasoning text => text
  | _ => []

/-- The prose and the items of a run. -/
def allTokens (codec : FloatCodec) : Option ToolStreamScanner → List OutputCall → List ProseToken
  | _, [] => []
  | s, call :: rest => call.tokens codec s ++ allTokens codec (call.scanner codec s) rest

/-- The reasoning of a run. -/
def allReasoned (calls : List OutputCall) : Text := (calls.map reasoned).flatten

/-- The scanner has a call open. -/
def callOpen : Option ToolStreamScanner → Bool
  | none => false
  | some s => s.calling

/-- Parsed calls come only while the scanner has no call open. -/
def Orderly (codec : FloatCodec) : Option ToolStreamScanner → List OutputCall → Prop
  | _, [] => True
  | s, call :: rest =>
    (∀ calls, call = .parsedCalls calls → callOpen s = false) ∧ Orderly codec (call.scanner codec s) rest

end OutputCall

namespace OutputAssembler

open ResponseEmitter OutputCall List

variable {codec : FloatCodec} {a : OutputAssembler} {tokens : List ProseToken} {reasoned : Text}
  {scanner : Option ToolStreamScanner}

/-- A live scanner whose open call is in place. -/
def Ready (scanner : Option ToolStreamScanner) : Prop :=
  ∀ s, scanner = some s → s.invalidated = false ∧ s.Placed

/-- A run so far. -/
def Going (a : OutputAssembler) (scanner : Option ToolStreamScanner) (tokens : List ProseToken)
    (reasoned : Text) : Prop :=
  (Inv a tokens reasoned (callOpen scanner) ∧ a.scanner = scanner ∧ Ready scanner) ∨
    a.failure.isSome = true ∧ Delivers a.emitter tokens reasoned

/-- The call succeeds with frames the client accepts, and the run goes on. -/
def Steps (a : OutputAssembler) (emission : Emission OutputAssembler)
    (scanner : Option ToolStreamScanner) (tokens : List ProseToken) (reasoned : Text) : Prop :=
  ∃ frames a', emission = .ok (frames, a') ∧ Emits a.emitter (frames, a'.emitter) ∧
    Going a' scanner tokens reasoned

theorem Continues.steps {emission : Emission OutputAssembler}
    (h : Continues a emission tokens reasoned (callOpen scanner)) (hscanner : a.scanner = scanner)
    (hready : Ready scanner) : Steps a emission scanner tokens reasoned := by
  obtain ⟨frames, a', hok, hemits, hsame, hinv | hfailed⟩ := h
  · exact ⟨frames, a', hok, hemits, Or.inl ⟨hinv, hsame.trans hscanner, hready⟩⟩
  · exact ⟨frames, a', hok, hemits, Or.inr hfailed⟩

theorem Inv.withScanner {calling : Bool} (h : Inv a tokens reasoned calling)
    (scanner : Option ToolStreamScanner) : Inv { a with scanner } tokens reasoned calling :=
  ⟨h.failure, h.encodes, h.calling, h.late, h.reasoning, h.message, h.prose, h.answered, h.unanswered⟩

theorem content_unscanned (hfailure : a.failure = none) (hscanner : a.scanner = none) (delta : Text) (final : Bool) :
    a.content codec delta final = apply none (if delta = [] then [] else [.textDelta delta]) a := by
  simp [content, hfailure, hscanner]

theorem content_scanned {s : ToolStreamScanner} (hfailure : a.failure = none)
    (hscanner : a.scanner = some s) {delta : Text} {final : Bool} (hfed : ¬(delta = [] ∧ final = false)) :
    a.content codec delta final =
      apply none (s.feed codec delta final).1 { a with scanner := some (s.feed codec delta final).2 } := by
  rw [content, if_neg (by simp [hfailure]), hscanner]
  exact if_neg hfed

theorem content_unfed {s : ToolStreamScanner} (hscanner : a.scanner = some s) :
    a.content codec [] false = .ok ([], a) := by
  simp [content, hscanner]

theorem content_steps (h : Inv a tokens reasoned (callOpen scanner)) (hscanner : a.scanner = scanner)
    (hready : Ready scanner) (delta : Text) (final : Bool) :
    Steps a (a.content codec delta final) ((OutputCall.content delta final).scanner codec scanner)
      (tokens ++ (OutputCall.content delta final).tokens codec scanner) reasoned := by
  cases scanner with
  | none =>
    have hevents : Bracketed (callOpen none) (if delta = [] then [] else [.textDelta delta])
        (callOpen none) := by
      split
      · exact .nil false
      · exact .text delta (.nil false)
    have htokens : (if delta = [] then [] else [ToolStreamEvent.textDelta delta]).filterMap eventToken =
        (OutputCall.content delta final).tokens codec none := by
      simp only [OutputCall.tokens]
      split <;> rfl
    rw [content_unscanned h.failure hscanner, ← htokens]
    exact (apply_continues h hevents none).steps hscanner hready
  | some s =>
    obtain ⟨hlive, hplaced⟩ := hready s rfl
    by_cases hfed : delta = [] ∧ final = false
    · obtain ⟨rfl, rfl⟩ := hfed
      rw [content_unfed hscanner]
      simpa [OutputCall.scanner, OutputCall.tokens] using
        ((performs_nil a).continues rfl h).steps hscanner hready
    · have hfeed : ToolStreamScanner.Grammatical s.calling (s.feed codec delta final) :=
        ToolStreamScanner.feed_grammatical hlive hplaced delta final
      rw [content_scanned h.failure hscanner hfed]
      simp only [OutputCall.scanner, OutputCall.tokens, if_neg hfed]
      rcases hfeed with ⟨hlive', hplaced', hevents⟩ | ⟨-, events, b, message, hfeed, hevents⟩
      · have hready' : Ready (some (s.feed codec delta final).2) := by
          rintro s' ⟨⟩
          exact ⟨hlive', hplaced'⟩
        have hstep := apply_continues (h.withScanner (some (s.feed codec delta final).2)) hevents none
        obtain ⟨frames, a', hok, hemits, hgoing⟩ := hstep.steps rfl hready'
        exact ⟨frames, a', hok, hemits, hgoing⟩
      · obtain ⟨frames, a', hok, hemits, hfailed⟩ :=
          apply_invalid (h.withScanner (some (s.feed codec delta final).2)) hevents none
        refine ⟨frames, a', ?_, hemits, Or.inr ?_⟩
        · rw [hfeed]
          exact hok
        · simpa [hfeed, eventToken, filterMap_cons] using hfailed

theorem parsedCall_continues (h : Inv a tokens reasoned false) (call : ParsedCall) :
    Continues a (a.parsedCall call) (tokens ++ [.item]) reasoned false :=
  apply_continues h (.start _ (.args _ (.stop (.nil false)))) _

theorem parsedCalls_of_failure (h : a.failure.isSome = true) (calls : List ParsedCall) :
    parsedCalls calls a = .ok ([], a) := by
  induction calls with
  | nil => rfl
  | cons call rest ih => simp [parsedCalls, parsedCall, apply_of_failure h, andThen, ih]

theorem parsedCalls_continues (h : Inv a tokens reasoned false) (calls : List ParsedCall) :
    Continues a (parsedCalls calls a) (tokens ++ calls.map fun _ => .item) reasoned false := by
  induction calls generalizing a tokens with
  | nil =>
    rw [map_nil, append_nil]
    exact (performs_nil a).continues rfl h
  | cons call rest ih =>
    have hrest := (parsedCall_continues h call).andThen (fun a' hinv => ih hinv)
      fun a' hfailure => parsedCalls_of_failure hfailure rest
    simpa [parsedCalls, append_assoc] using hrest

/-- A call after a failure, heartbeats apart. -/
theorem perform_of_failure (h : a.failure.isSome = true) {call : OutputCall}
    (hcall : call ≠ .heartbeat) : a.perform codec call = .ok ([], a) := by
  cases call with
  | heartbeat => exact absurd rfl hcall
  | reasoning text => simp [perform, reasoning, h]
  | content delta final => simp [perform, content, h]
  | parsedCalls calls => exact parsedCalls_of_failure h calls

theorem perform_steps_of_failure (h : a.failure.isSome = true) (hdelivers : Delivers a.emitter tokens reasoned)
    (call : OutputCall) : Steps a (a.perform codec call) (call.scanner codec scanner)
      (tokens ++ call.tokens codec scanner) (reasoned ++ call.reasoned) := by
  have hmono := hdelivers.mono (call.tokens codec scanner) (prefix_append reasoned call.reasoned)
  by_cases hcall : call = .heartbeat
  · subst hcall
    exact ⟨_, _, rfl, (heartbeat_effect a.emitter).emits, Or.inr ⟨h, hmono.reasoning, hmono.prose⟩⟩
  · exact ⟨[], a, perform_of_failure h hcall, emits_nil _, Or.inr ⟨h, hmono⟩⟩

section

variable (h : Going a scanner tokens reasoned)
include h

theorem perform_steps (call : OutputCall) (horder : ∀ calls, call = .parsedCalls calls → callOpen scanner = false) :
    Steps a (a.perform codec call) (call.scanner codec scanner)
      (tokens ++ call.tokens codec scanner) (reasoned ++ call.reasoned) := by
  rcases h with ⟨hinv, hscanner, hready⟩ | ⟨hfailure, hdelivers⟩
  · cases call with
    | heartbeat =>
      have heffect := heartbeat_effect a.emitter
      have hstep := hinv.kept (performs_emit (·.heartbeat) heffect) rfl rfl rfl Iff.rfl hinv.calling hinv.late
        hinv.reasoning
      simpa [perform, OutputCall.tokens, OutputCall.reasoned, OutputCall.scanner] using
        hstep.steps hscanner hready
    | reasoning text =>
      by_cases htext : text = []
      · have hstep := (performs_nil a).continues rfl hinv
        simpa [perform, reasoning, htext, OutputCall.tokens, OutputCall.reasoned, OutputCall.scanner] using
          hstep.steps hscanner hready
      · have hstep := reasoning_continues hinv htext
        simpa [perform, htext, OutputCall.tokens, OutputCall.reasoned, OutputCall.scanner] using
          hstep.steps hscanner hready
    | content delta final =>
      simpa [perform, OutputCall.reasoned] using content_steps hinv hscanner hready delta final
    | parsedCalls calls =>
      have hclosed := horder calls rfl
      rw [hclosed] at hinv
      have hstep := parsedCalls_continues hinv calls
      rw [← hclosed] at hstep
      simpa [perform, OutputCall.tokens, OutputCall.reasoned, OutputCall.scanner] using
        hstep.steps hscanner hready
  · exact perform_steps_of_failure hfailure hdelivers call

theorem performAll_steps {calls : List OutputCall} (horder : Orderly codec scanner calls) :
    ∃ scanner', Steps a (performAll codec calls a) scanner'
      (tokens ++ allTokens codec scanner calls) (reasoned ++ allReasoned calls) := by
  induction calls generalizing a scanner tokens reasoned with
  | nil =>
    exact ⟨scanner, [], a, rfl, emits_nil _, by simpa [allTokens, allReasoned] using h⟩
  | cons call rest ih =>
    obtain ⟨hcall, hrest⟩ := horder
    obtain ⟨frames, a1, hok, hemits, hgoing⟩ := perform_steps h call hcall
    obtain ⟨scanner', more, a2, hok', hemits', hgoing'⟩ := ih hgoing hrest
    refine ⟨scanner', frames ++ more, a2, ?_, hemits.append hemits', ?_⟩
    · simp only [performAll, andThen, hok, hok']
    · simpa [allTokens, allReasoned, append_assoc] using hgoing'

theorem Going.delivers : Delivers a.emitter tokens reasoned := by
  rcases h with ⟨hinv, -, -⟩ | ⟨-, hdelivers⟩
  · exact hinv.delivers
  · exact hdelivers

end

/-! ### Finishing -/

/-- What is delivered of a run that is finished. -/
structure Finished (e : ResponseEmitter) (tokens : List ProseToken) (reasoned : Text) : Prop where
  reasoning : textOf .reasoning e.items = reasoned
  prose : Trimmed tokens (textOf .message e.items)

variable {e : ResponseEmitter} {frames : List Frame}

theorem Finished.delivers (h : Finished e tokens reasoned) : Delivers e tokens reasoned :=
  ⟨h.reasoning ▸ prefix_rfl, tokens, prefix_rfl, h.prose⟩

/-- A response with no answer gets a message with the white space held back. -/
theorem emptyAnswer_performs {status : ItemStatus} (hnone : a.emitter.openKind = none)
    (hencodes : a.emitter.Encodes) (hstatus : status ≠ .inProgress) : ∃ e', Performs a
      (andThen (a.emit (·.beginMessage)) fun a => andThen
          (if a.pendingWs = [] then .ok ([], a) else a.emitting (·.textDelta a.pendingWs))
          fun a => a.emit (·.close status)) (a.withEmitter e') none [] a.pendingWs true := by
  have hbegin := performs_emit (·.beginMessage) (beginMessage_effect hnone)
  have hencodes' := (beginMessage_effect hnone).encodes hencodes
  have hkind := (beginMessage_effect hnone).openKind
  have htext : ∃ e1, Performs (a.withEmitter a.emitter.beginMessage.2)
      (if a.pendingWs = [] then .ok ([], a.withEmitter a.emitter.beginMessage.2)
        else (a.withEmitter a.emitter.beginMessage.2).emitting (·.textDelta a.pendingWs))
      (a.withEmitter e1) (some .message) [] a.pendingWs false := by
    by_cases hws : a.pendingWs = []
    · rw [hws, ← hkind]
      exact ⟨_, performs_nil (a.withEmitter a.emitter.beginMessage.2)⟩
    · rw [if_neg hws]
      obtain ⟨step, hok, heffect⟩ := textDelta_effect hkind hencodes' a.pendingWs
      exact ⟨step.2, performs_emitting
        (·.textDelta a.pendingWs) hok heffect⟩
  obtain ⟨e1, htext⟩ := htext
  have hclose := performs_emit (a := a.withEmitter e1) (·.close status) (close_effect e1 hstatus)
  exact ⟨(e1.close status).2, Performs.congr (hbegin.andThen (htext.andThen hclose)) rfl (by simp) rfl⟩

/-- The items after the last one is closed, when there is an answer already. -/
theorem Inv.finished {calling : Bool} {step : List Frame × ResponseEmitter} {k : Option ItemKind}
    (h : Inv a tokens reasoned calling) (heffect : Effect a.emitter step k a.lateReasoning.flatten [] false)
    (hanswer : a.emitter.hasAnswer = true) : Finished step.2 tokens reasoned := by
  constructor
  · rw [heffect.reasoning, h.reasoning]
  · rw [heffect.prose, append_nil]
    exact h.trimmed hanswer

theorem Going.finish (h : Going a scanner tokens reasoned) (incomplete : Bool) :
    ∃ frames a', a.finish incomplete = .ok (frames, a') ∧ Emits a.emitter (frames, a'.emitter) ∧
      Delivers a'.emitter tokens reasoned ∧ (a'.failure = none → Finished a'.emitter tokens reasoned) := by
  rcases h with ⟨h, -, -⟩ | ⟨hfailure, hdelivers⟩
  case inr =>
    refine ⟨[], a, by simp [OutputAssembler.finish, hfailure], emits_nil _, hdelivers, fun hnone => ?_⟩
    simp [hnone] at hfailure
  have hlive : ¬ a.failure.isSome = true := by simp [h.failure]
  simp only [OutputAssembler.finish, if_neg hlive]
  split
  · exact ⟨[], _, rfl, emits_nil _, h.delivers, fun hnone => nomatch hnone⟩
  · have hstatus := ended_ne_inProgress (incomplete = true)
    obtain ⟨e1, hclose⟩ := close_performs a hstatus false
    obtain ⟨hkind, hanswer⟩ : e1.openKind = none ∧ e1.hasAnswer = a.emitter.hasAnswer := by
      obtain ⟨frames, -, heffect⟩ := hclose
      exact ⟨by simpa using heffect.openKind, by simpa using heffect.hasAnswer⟩
    cases hanswered : a.emitter.hasAnswer with
    | true =>
      obtain ⟨frames, hok, heffect⟩ := hclose
      have hfinished : Finished e1 tokens reasoned := h.finished heffect hanswered
      refine ⟨frames, _, ?_, heffect.emits, hfinished.delivers, fun _ => hfinished⟩
      simp [andThen, hok, hanswer, hanswered]
    | false =>
      obtain ⟨hblank, htext⟩ := h.unanswered hanswered
      have hencodes : e1.Encodes := by
        obtain ⟨frames, -, heffect⟩ := hclose
        exact heffect.encodes h.encodes
      obtain ⟨e2, hempty⟩ := emptyAnswer_performs
        (a := { a with emitter := e1, lateReasoning := [] }) hkind hencodes hstatus
      have hno : ¬ e1.hasAnswer = true := by simp [hanswer, hanswered]
      obtain ⟨frames, hok, hclosed⟩ := hclose
      obtain ⟨more, hok', hanswer'⟩ := hempty
      have heffect : Effect a.emitter (frames ++ more, e2) none (a.lateReasoning.flatten ++ [])
          ([] ++ a.pendingWs) (false || true) := hclosed.append hanswer'
      have hfinished : Finished e2 tokens reasoned := by
        constructor
        · rw [heffect.reasoning, append_nil, h.reasoning]
        · have hprose := h.prose
          rw [htext] at hprose
          rw [heffect.prose, htext]
          exact hprose
      refine ⟨frames ++ more, { a with emitter := e2, lateReasoning := [] }, ?_, heffect.emits,
        hfinished.delivers, fun _ => hfinished⟩
      rw [hok, andThen]
      simp only [if_neg hno, hok']
      rfl

/-! ### The whole stream -/

/-- The text of a client's items of one kind. -/
def wireText (kind : ItemKind) (items : List WireItem) : Text :=
  (items.map fun item => (item.deltas kind).getD []).flatten

theorem wireText_output (kind : ItemKind) (e : ResponseEmitter) : wireText kind e.output = textOf kind e.items := by
  have hwire : ∀ item : Item, (item.wire.deltas kind).getD [] = if item.kind = kind then item.text else [] := by
    intro item
    cases hkind : item.kind <;> cases kind <;> simp [Item.wire, hkind, WireItem.deltas]
  simp [wireText, textOf, output, hwire, Function.comp_def]

theorem deltas_abandoned (kind : ItemKind) (item : WireItem) : item.abandoned.deltas kind = item.deltas kind := by
  rcases item with ⟨id, status, content⟩ | ⟨id, status, content, encrypted⟩ |
    ⟨id, status, callId, name, arguments, nameSpace⟩ <;>
  cases status <;> simp only [WireItem.abandoned]
  · rcases content with _ | ⟨_ | _, _ | _⟩ <;> rfl
  · rcases content with _ | ⟨_ | _, _ | _⟩ <;> rfl
  · rfl

theorem wireText_abandoned (kind : ItemKind) (items : List WireItem) :
    wireText kind (items.map WireItem.abandoned) = wireText kind items := by
  simp [wireText, deltas_abandoned, Function.comp_def]

/-- The client reads the frames to their end, and its items are the response's output. -/
structure Folds (frames : List Frame) (response : ResponseEnvelope) (client : Client) : Prop where
  run : run {} frames = some client
  ended : client.stage = .ended
  sequence : frames.map (·.sequenceNumber) = List.range frames.length
  output : response.output = client.items
  settled : ∀ item ∈ client.items, item.status ≠ .inProgress

/-- A failure after these frames, with what was delivered of the input. -/
def FailureFolds (frames : List Frame) (e : ResponseEmitter) (tokens : List ProseToken)
    (reasoned : Text) : Prop :=
  ∀ payload usage, ∃ client,
    Folds (frames ++ (e.fail payload usage).2.1) (e.fail payload usage).1 client ∧
      wireText .reasoning client.items <+: reasoned ∧
      ∃ done, done <+: tokens ∧ Trimmed done (wireText .message client.items)

/-- A completion after these frames: every item is done once, and all of the input is
    delivered. -/
def CompletionFolds (frames : List Frame) (e : ResponseEmitter) (tokens : List ProseToken)
    (reasoned : Text) : Prop :=
  ∀ status usage details, ∃ client,
    Folds (frames ++ (e.complete status usage details).2.1) (e.complete status usage details).1 client ∧
      (frames ++ (e.complete status usage details).2.1).filterMap
        (fun frame => doneIndex frame.event) = List.range client.items.length ∧
      wireText .reasoning client.items = reasoned ∧
      Trimmed tokens (wireText .message client.items)

theorem settled_initial : Settled {} := ⟨by simp, by simp⟩

theorem folds_of_run {response : ResponseEnvelope} {client : Client} (hrun : run {} frames = some client)
    (hended : client.stage = .ended) (houtput : response.output = client.items) : Folds frames response client where
  run := hrun
  ended := hended
  sequence := by
    rw [(run_sequence hrun).1, range_eq_range']
  output := houtput
  settled := (run_settled settled_initial hrun).idle (Or.inr hended)

section

variable (hrun : run {} frames = some e.view)
include hrun

theorem failureFolds (h : Delivers e tokens reasoned) : FailureFolds frames e tokens reasoned := by
  intro payload usage
  have hsettled := run_settled settled_initial hrun
  obtain ⟨n, hfail, houtput⟩ := fail_run hsettled payload usage
  have htext : ∀ kind, wireText kind (e.fail payload usage).1.output = textOf kind e.items := by
    intro kind
    rw [houtput, abandon_output hsettled, wireText_abandoned, wireText_output]
  have hall : run {} (frames ++ (e.fail payload usage).2.1) =
      some ⟨n, (e.fail payload usage).1.output, .ended⟩ := by
    rw [run_append, hrun, Option.bind_some, hfail]
  refine ⟨_, folds_of_run hall rfl rfl, ?_, ?_⟩
  · rw [htext]
    exact h.reasoning
  · rw [htext]
    exact h.prose

theorem complete_done (status : ResponseStatus) (usage : Json) (details : Option Json) :
    (frames ++ (e.complete status usage details).2.1).filterMap (fun frame => doneIndex frame.event) =
      List.range (e.close (if status = .incomplete then .incomplete else .completed)).2.output.length := by
  set closed := e.close (if status = .incomplete then .incomplete else .completed) with hclosed
  have hclose : Effect e closed _ _ _ _ := close_effect e (ended_ne_inProgress (status = .incomplete))
  -- The terminal event is left out: it finishes no item.
  have hlast : (e.complete status usage details).2.1.filterMap (fun frame => doneIndex frame.event) =
      closed.1.filterMap (fun frame => doneIndex frame.event) := by
    simp only [complete, events, ← hclosed]
    cases status <;> simp [doneIndex]
  have hbefore : run {} (frames ++ closed.1) = some closed.2.view := by
    rw [run_append, hrun]
    exact hclose.emits
  rw [view_of_idle hclose.openKind] at hbefore
  obtain ⟨-, -, -, hdone⟩ := run_finished hbefore (by simp) (by simp)
  rw [filterMap_append, hlast, ← filterMap_append, hdone, range_eq_range']
  rfl

theorem completionFolds (h : Finished e tokens reasoned) : CompletionFolds frames e tokens reasoned := by
  intro status usage details
  have hclose := close_effect e (ended_ne_inProgress (status = .incomplete))
  obtain ⟨n, hcomplete, houtput⟩ := complete_run e status usage details
  have htext : ∀ kind, wireText kind (e.complete status usage details).1.output =
      textOf kind (e.close (if status = .incomplete then .incomplete else .completed)).2.items := by
    intro kind
    rw [houtput, wireText_output]
  have hall : run {} (frames ++ (e.complete status usage details).2.1) =
      some ⟨n, (e.complete status usage details).1.output, .ended⟩ := by
    rw [run_append, hrun, Option.bind_some, hcomplete]
  refine ⟨_, folds_of_run hall rfl rfl, ?_, ?_, ?_⟩
  · rw [houtput]
    exact complete_done hrun status usage details
  · rw [htext, hclose.reasoning, append_nil]
    exact h.reasoning
  · rw [htext, hclose.prose, append_nil]
    exact h.prose

end

section

variable (source : Option (ToolCallProtocol × List JsonFields × NormalizedToolChoice))

theorem ready_scannerFor :
    Ready (source.map fun (protocol, tools, choice) => toolStreamScannerFor protocol tools choice) := by
  intro s hs
  obtain ⟨⟨protocol, tools, choice⟩, -, rfl⟩ := Option.map_eq_some_iff.mp hs
  exact ⟨rfl, ToolStreamScanner.placed_of_none rfl⟩

theorem callOpen_scannerFor :
    callOpen (source.map fun (protocol, tools, choice) => toolStreamScannerFor protocol tools choice) = false := by
  cases source <;> rfl

end

/-- Before the first call. -/
theorem inv_initial (h : a.emitter.items = []) (hfailure : a.failure = none) (hws : a.pendingWs = [])
    (hlate : a.lateReasoning = []) : Inv a [] [] false := by
  have hkind : a.emitter.openKind = none := by simp [openKind, h]
  have hanswer : a.emitter.hasAnswer = false := by simp [hasAnswer, h]
  refine ⟨hfailure, ?_, ?_, ?_, ?_, ?_, ?_, ?_, ?_⟩
  · intro pre item hitems
    rw [h] at hitems
    simp at hitems
  · simp [hkind]
  · exact fun hne => absurd hlate hne
  · simp [h, hlate, textOf]
  · exact fun _ => hws
  · simpa [h, hws, textOf] using trimmed_nil
  · exact fun _ hyes => by cases hanswer.symm.trans hyes
  · exact fun _ => ⟨blankProse_nil, by simp [h, textOf]⟩

/-- **A Responses stream folds to its own response.**  The calls of a run, then `finish`,
    then `complete` when no failure was recorded: the client accepts every frame and ends
    with the output of the terminal response, all of the reasoning and the prose up to
    white space next to items.  A failure may end the stream at any point. -/
theorem responses_stream_folds_to_response (codec : FloatCodec) (emitter : ResponseEmitter)
    (hfresh : emitter.sequence = 0 ∧ emitter.items = []) (started : Bool)
    (source : Option (ToolCallProtocol × List JsonFields × NormalizedToolChoice))
    (choice : Option NormalizedToolChoice) (parallel : Option Bool)
    (namespaces : List (Text × Text × Text)) (calls : List OutputCall) (horder : Orderly codec
      (source.map fun (protocol, tools, choice) => toolStreamScannerFor protocol tools choice) calls) :
    let scanner :=
      source.map fun (protocol, tools, choice) => toolStreamScannerFor protocol tools choice
    let opening := if started then emitter.start else ([], emitter)
    let a : OutputAssembler := { emitter := opening.2, scanner, choice, parallel, namespaces }
    let tokens := allTokens codec scanner calls
    let reasoned := allReasoned calls
    ∃ frames a', performAll codec calls a = .ok (frames, a') ∧
      FailureFolds (opening.1 ++ frames) a'.emitter tokens reasoned ∧
      ∀ incomplete, ∃ closing a'', a'.finish incomplete = .ok (closing, a'') ∧
        FailureFolds (opening.1 ++ frames ++ closing) a''.emitter tokens reasoned ∧
        (a''.failure = none → CompletionFolds (opening.1 ++ frames ++ closing) a''.emitter tokens reasoned) := by
  intro scanner opening a tokens reasoned
  have hready : Ready scanner := ready_scannerFor source
  have hclosed : callOpen scanner = false := callOpen_scannerFor source
  have hopening : run {} opening.1 = some a.emitter.view ∧ a.emitter.items = [] := by
    obtain ⟨hsequence, hitems⟩ := hfresh
    have hview : emitter.view = {} := by simp [view, hsequence, output, openKind, hitems]
    cases started with
    | false => exact ⟨congrArg some hview.symm, hitems⟩
    | true => exact ⟨hview ▸ (start_effect emitter).emits, hitems⟩
  obtain ⟨hstart, hitems⟩ := hopening
  have hgoing : Going a scanner [] [] :=
    Or.inl ⟨hclosed ▸ inv_initial hitems rfl rfl rfl, rfl, hready⟩
  obtain ⟨scanner', frames, a', hok, hemits, hgoing'⟩ := performAll_steps hgoing horder
  have hrun : run {} (opening.1 ++ frames) = some a'.emitter.view := by
    rw [run_append, hstart]
    exact hemits
  have hdelivers : Delivers a'.emitter tokens reasoned := hgoing'.delivers
  refine ⟨frames, a', hok, failureFolds hrun hdelivers, fun incomplete => ?_⟩
  obtain ⟨closing, a'', hfinish, hemits', hdelivers', hfinished⟩ := hgoing'.finish incomplete
  have hrun' : run {} (opening.1 ++ frames ++ closing) = some a''.emitter.view := by
    rw [run_append, hrun]
    exact hemits'
  exact ⟨closing, a'', hfinish, failureFolds hrun' hdelivers', fun hnone => completionFolds hrun' (hfinished hnone)⟩

def sampleEmitter : ResponseEmitter where
  responseId := Text.of "resp_1"
  createdAt := 0
  uuids := fun n => List.replicate n (cp 'a')

/-- Reasoning inside a message, and a call after it. -/
def sampleCalls : List OutputCall :=
  [.content (Text.of "Hi ") false, .reasoning (Text.of "r"), .content (Text.of "there") false,
    .parsedCalls [⟨none, some (some (Text.of "f"), some (Text.of "\x7b\x7d"))⟩], .content [] true]

theorem responses_stream_folds_to_response_sample : Orderly FloatCodec.decimal none sampleCalls ∧
      ∃ frames a', performAll FloatCodec.decimal sampleCalls { emitter := sampleEmitter.start.2 } = .ok (frames, a') ∧
        ∃ closing a'', a'.finish false = .ok (closing, a'') ∧ a''.failure = none ∧
          CompletionFolds (sampleEmitter.start.1 ++ frames ++ closing) a''.emitter
            [.prose (Text.of "Hi "), .item, .prose (Text.of "there"), .item] (Text.of "r") := by
  have horder : Orderly FloatCodec.decimal none sampleCalls := by
    simp [sampleCalls, Orderly, callOpen, OutputCall.scanner]
  obtain ⟨frames, a', hok, -, hfinish⟩ := responses_stream_folds_to_response FloatCodec.decimal
    sampleEmitter ⟨rfl, rfl⟩ true none none none [] sampleCalls horder
  obtain ⟨closing, a'', hok', -, hfolds⟩ := hfinish false
  have hfailure : a''.failure = none := by
    cases hok
    cases hok'
    rfl
  exact ⟨horder, frames, a', hok, closing, a'', hok', hfailure, hfolds hfailure⟩

/-- Reasoning that came inside a message and is not placed by `finish` is lost. -/
theorem unfinished_reasoning_lost : ∃ frames a', performAll FloatCodec.decimal
        [.content (Text.of "Hi") true, .reasoning (Text.of "r")] { emitter := sampleEmitter } = .ok (frames, a') ∧
      a'.failure = none ∧ wireText .reasoning (a'.emitter.complete .completed .null none).1.output = [] ∧
      allReasoned [.content (Text.of "Hi") true, .reasoning (Text.of "r")] = Text.of "r" :=
  ⟨_, _, rfl, rfl, rfl, rfl⟩

end OutputAssembler

end Kairyu
