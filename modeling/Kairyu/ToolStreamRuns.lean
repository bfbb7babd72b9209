/-
  Kairyu/ToolStreamRuns.lean
  ==========================
  **Tool-call streaming and chunking.**

  A scanner that has opened a call is compared with its twin that reads the same text
  and has not (`Streaming`): both go on from the same scanner once the envelope closes,
  and the arguments streamed are the member of the payload that stood in the second
  place.  By induction over the chunks the folds of a chunked and of a one-shot run hold
  the same blocks exactly when no call closes with `arguments` other than the
  `parameters` it streamed (`chunked_tool_stream_folds_alike`).
-/
import Kairyu.ToolStreamFallbacks
import Kairyu.ToolStreamProgressive

namespace Kairyu

open List FoldState Option ArgumentsScan ToolStreamScanner Json

namespace ArgumentsScan

variable {a b : ArgumentsScan} {x y : Text}

/-- What was consumed suffices. -/
theorem run_consumed (h : a.run x = (b, y)) : a.run y = (b, y) ∧ y <+: x := by
  induction x generalizing a y with
  | nil =>
    cases h
    exact ⟨rfl, nil_prefix⟩
  | cons c cs ih =>
    simp only [run] at h
    split at h
    · next hc =>
      cases h
      exact ⟨by simp [run], by simp⟩
    · next hc =>
      cases h
      obtain ⟨hrun, hpre⟩ := ih rfl
      exact ⟨by simp [run, hc, hrun], cons_prefix_cons.mpr ⟨rfl, hpre⟩⟩

/-- An object ends with its brace. -/
theorem run_complete_getLast (ha : a.complete = false) (h : a.run x = (b, y))
    (hb : b.complete = true) : y.getLast? = some (cp '}') := by
  induction x generalizing a y with
  | nil =>
    cases h
    cases ha.symm.trans hb
  | cons c cs ih =>
    simp only [run] at h
    split at h
    · next hc =>
      cases h
      have hbrace : c = cp '}' := by
        by_contra hne
        have hstep : (a.step c).complete = a.complete := by
          simp only [step]
          repeat' split
          all_goals rfl
        cases (hstep.symm.trans hc).symm.trans ha
      simp [hbrace]
    · next hc =>
      cases h
      have hlast := ih (by simpa using hc) rfl
      rw [List.getLast?_cons, hlast]
      rfl

end ArgumentsScan

namespace ToolStreamScanner

variable {codec : FloatCodec} {s t u : ToolStreamScanner} {p : Progressive} {sent c : Text}

/-! ### An open call and its twin -/

/-- `t` with the call `p` opened. -/
def opened (t : ToolStreamScanner) (p : Progressive) : ToolStreamScanner :=
  { t with progressive := some p, committedCalls := t.committedCalls + 1 }

/-- The body so far is `front ++ object`, and `sent` of the object was streamed. -/
structure Streams (codec : FloatCodec) (p : Progressive) (sent front literal : Text)
    (isArguments : Bool) (object : Text) : Prop where
  canonical : CanonicalFront front literal isArguments
  brace : object.head? = some (cp '{')
  scan : ({} : ArgumentsScan).run object = (p.scan, sent)
  scanAt : p.scanAt = front.length + sent.length
  name : strictJsonLoads codec (cp '"' :: literal) = some (.str p.name)

/-- `t` is in an envelope on which the call `p` was opened. -/
structure Streaming (codec : FloatCodec) (t : ToolStreamScanner) (p : Progressive)
    (sent : Text) : Prop where
  live : t.invalidated = false
  state : t.state = .generic
  inCall : t.inCall = true
  unclosed : Text.cut genericClose t.buffer = none
  unstreamed : t.progressive = none
  streams : ∃ front literal isArguments object, t.buffer = front ++ object ∧
    Streams codec p sent front literal isArguments object

def argumentEvents (sent : Text) : List ToolStreamEvent :=
  if sent = [] then [] else [.toolArgsDelta sent]

variable {isArguments : Bool} {body rest front object literal : Text}

/-- Following the body carries on from what was streamed. -/
theorem advance_streams (h : Streams codec p sent front literal isArguments object) (more : Text) :
    ∃ p' new, s.advance p (front ++ (object ++ more)) =
        (argumentEvents new, { s with progressive := some p' }) ∧ p'.name = p.name ∧
      Streams codec p' (sent ++ new) front literal isArguments (object ++ more) := by
  have hbrace : (object ++ more).head? = some (cp '{') := by
    rw [List.head?_append, h.brace]
    rfl
  by_cases hcomplete : p.scan.complete = true
  · refine ⟨p, [], ?_, rfl, h.canonical, hbrace, ?_, by simpa using h.scanAt, h.name⟩
    · simp [advance, hcomplete, argumentEvents]
    · rw [append_nil, ← h.scan]
      exact run_append_of_complete rfl (by rw [h.scan]; exact hcomplete) more
  · have hopen : (({} : ArgumentsScan).run object).1.complete = false := by
      rw [h.scan]
      simpa using hcomplete
    have hsent : sent = object := by
      rw [← run_snd_of_incomplete hopen, h.scan]
    have hdrop : (front ++ (object ++ more)).drop p.scanAt = more := by
      rw [h.scanAt, hsent, ← append_assoc, drop_left' (by simp)]
    refine ⟨{ p with
        scan := (p.scan.run more).1, scanAt := p.scanAt + (p.scan.run more).2.length },
      (p.scan.run more).2, ?_, rfl, h.canonical, hbrace, ?_, ?_, h.name⟩
    · simp [advance, hcomplete, hdrop, argumentEvents]
    · rw [run_append_of_incomplete hopen, h.scan, hsent]
    · simp [h.scanAt, Nat.add_assoc]

/-- Looking for a call to open finds none, or opens one and streams what is there of its
    arguments. -/
theorem progressiveEvents_open (codec : FloatCodec) (hs : t.invalidated = false) (hstate : t.state = .generic)
    (hcall : t.inCall = true) (hcut : Text.cut genericClose t.buffer = none) (hp : t.progressive = none) :
    t.progressiveEvents codec t.buffer = ([], t) ∨ ∃ p sent, t.progressiveEvents codec t.buffer =
          (.toolStart p.name :: argumentEvents sent, t.opened p) ∧ Streaming codec t p sent := by
  simp only [progressiveEvents, hp]
  cases hopen : t.openProgressive codec t.buffer with
  | none => exact Or.inl rfl
  | some p0 =>
    simp only [openProgressive] at hopen
    split at hopen
    · exact nomatch hopen
    · next found hmatch =>
      split at hopen
      · next name hname =>
        split at hopen
        · cases hopen
          obtain ⟨front, literal, hfront, hliteral, hbody, hbrace⟩ := canonicalFront_of_match hmatch
          have hat : t.buffer.length - found.rest.length = front.length := by
            rw [hbody, length_append, Nat.add_sub_cancel]
          have hdrop : t.buffer.drop front.length = found.rest := by rw [hbody, drop_left]
          cases hrun : ({} : ArgumentsScan).run found.rest with
          | mk scan sent =>
          refine Or.inr ⟨⟨name, front.length + sent.length, scan⟩, sent, ?_, hs, hstate, hcall,
            hcut, hp, front, literal, found.isArguments, found.rest, hbody, hfront, hbrace, hrun,
            rfl, hliteral ▸ hname⟩
          simp [andThen, advance, hat, hdrop, hrun, argumentEvents, opened]
        · exact nomatch hopen
      · exact nomatch hopen

/-- A chunk that does not close the envelope. -/
theorem feed_advance (h : Streaming codec t p sent) (hcut : Text.cut genericClose (t.buffer ++ c) = none) :
    ∃ p' new, (t.opened p).feed codec c false = (argumentEvents new, (t.push c).opened p') ∧
      p'.name = p.name ∧ Streaming codec (t.push c) p' (sent ++ new) := by
  obtain ⟨front, literal, isArguments, object, hbody, hstreams⟩ := h.streams
  obtain ⟨p', new, hadvance, hname, hnext⟩ :=
    advance_streams hstreams c
  have hbuffer : t.buffer ++ c = front ++ (object ++ c) := by rw [hbody, append_assoc]
  refine ⟨p', new, ?_, hname, h.live, h.state, h.inCall, hcut, h.unstreamed,
    front, literal, isArguments, _, hbuffer, hnext⟩
  have hlive : (t.opened p).invalidated = false := h.live
  have hcall : ((t.opened p).push c).inCall = true := h.inCall
  rw [feed_generic hlive h.state, scanBuffer_awaitClose (s := (t.opened p).push c) hlive hcall hcut]
  have hsome : ((t.opened p).push c).progressive = some p := rfl
  have hfollow : ((t.opened p).push c).advance p ((t.opened p).push c).buffer =
      ((t.opened p).push c).advance p (front ++ (object ++ c)) := congrArg _ hbuffer
  simp only [awaitClose, progressiveEvents, hsome]
  rw [hfollow, hadvance]
  rfl

/-! ### Closing the envelope of an open call -/

/-- The body of the envelope holds all that was buffered, or lacks the part of it that
    turned out to begin the closing marker. -/
theorem body_of_cut {front object body rest : Text} (hnone : Text.cut genericClose (front ++ object) = none)
    (hbrace : object.head? = some (cp '{')) (hcut : Text.cut genericClose (front ++ object ++ c) = some (body, rest)) :
    ∃ object', body = front ++ object' ∧ object'.head? = some (cp '{') ∧
      ((∃ more, object' = object ++ more) ∨ ∃ z, object = object' ++ z ∧ cp '}' ∉ z) := by
  obtain ⟨tail, rfl⟩ := List.head?_eq_some_iff.mp hbrace
  rcases append_eq_append_iff.mp (Text.cut_eq_some hcut) with ⟨more, hbody, -⟩ | ⟨z, hbuffer, hz⟩
  · exact ⟨cp '{' :: (tail ++ more), by simp [hbody], rfl, Or.inl ⟨more, rfl⟩⟩
  · have hmarker : z <+: genericClose := by
      rcases prefix_or_prefix_of_prefix (prefix_append genericClose rest)
        (hz ▸ prefix_append z c) with ⟨more, rfl⟩ | h
      · have : Text.find genericClose (front ++ cp '{' :: tail) = none := Text.cut_eq_none.mp hnone
        exact absurd ⟨body, more, by simp [hbuffer]⟩ (Text.find_eq_none.mp this)
      · exact h
    have hchars : cp '{' ∉ z ∧ cp '}' ∉ z :=
      ⟨fun h => absurd (hmarker.subset h) (by decide), fun h => absurd (hmarker.subset h) (by decide)⟩
    rcases append_eq_append_iff.mp hbuffer with ⟨w, hbody, hw⟩ | ⟨w, -, hw⟩
    · cases w with
      | nil =>
        rw [nil_append] at hw
        exact absurd (hw ▸ mem_cons_self) hchars.1
      | cons d ds =>
        obtain ⟨rfl, rfl⟩ := List.cons.inj hw
        exact ⟨cp '{' :: ds, hbody, rfl, Or.inr ⟨z, rfl, hchars.2⟩⟩
    · exact absurd (hw ▸ mem_append_right w mem_cons_self) hchars.1

/-- What was streamed of an object that is complete does not reach behind its brace. -/
theorem Streams.of_append {z : Text} (h : Streams codec p sent front literal isArguments (object ++ z))
    (hbrace : object.head? = some (cp '{')) (hz : cp '}' ∉ z) (hcomplete : p.scan.complete = true) :
    Streams codec p sent front literal isArguments object := by
  refine ⟨h.canonical, hbrace, ?_, h.scanAt, h.name⟩
  obtain ⟨hrun, hsent⟩ := run_consumed h.scan
  have hlast := run_complete_getLast rfl h.scan hcomplete
  have hshort : sent <+: object := by
    rcases prefix_or_prefix_of_prefix hsent (prefix_append object z) with h' | ⟨w, rfl⟩
    · exact h'
    · have hw : w <+: z := (prefix_append_right_inj object).mp hsent
      cases w with
      | nil => simp
      | cons d ds =>
        rw [List.getLast?_append_of_ne_nil _ (by simp)] at hlast
        exact absurd (hw.subset (mem_of_getLast? hlast)) hz
  obtain ⟨r, rfl⟩ := hshort
  rw [run_append_of_complete rfl (by rw [hrun]; exact hcomplete) r, hrun]

/-- Following the whole body, as far as it streams a complete object. -/
theorem advance_body (h : Streams codec p sent front literal isArguments object)
    (hnone : Text.cut genericClose (front ++ object) = none)
    (hcut : Text.cut genericClose (front ++ object ++ c) = some (body, rest)) :
    ∃ p' new, s.advance p body = (argumentEvents new, { s with progressive := some p' }) ∧
      p'.name = p.name ∧ (p'.scan.complete = true → ∃ object', body = front ++ object' ∧
        Streams codec p' (sent ++ new) front literal isArguments object') := by
  obtain ⟨object', rfl, hbrace, ⟨more, rfl⟩ | ⟨z, rfl, hz⟩⟩ := body_of_cut hnone h.brace hcut
  · obtain ⟨p', new, hadvance, hname, hnext⟩ := advance_streams h more
    exact ⟨p', new, hadvance, hname, fun _ => ⟨_, rfl, hnext⟩⟩
  · by_cases hcomplete : p.scan.complete = true
    · refine ⟨p, [], ?_, rfl, fun _ => ⟨object', rfl, ?_⟩⟩
      · simp [advance, hcomplete, argumentEvents]
      · rw [append_nil]
        exact h.of_append hbrace hz hcomplete
    · have hsent : sent = object' ++ z := by
        rw [← ArgumentsScan.run_snd_of_incomplete (x := object' ++ z)
          (by rw [h.scan]; simpa using hcomplete), h.scan]
      have hdrop : (front ++ object').drop p.scanAt = [] := by
        rw [drop_eq_nil_iff, h.scanAt, hsent]
        simp only [length_append]
        omega
      refine ⟨p, [], ?_, rfl, fun h' => absurd h' hcomplete⟩
      simp [advance, hdrop, ArgumentsScan.run, argumentEvents]

/-- The object streamed is the second member of the payload. -/
theorem streamed_object {payload : JsonFields} (h : Streams codec p sent front literal isArguments object)
    (hload : strictJsonLoads codec (front ++ object) = some (.obj payload)) :
    ∃ input more, sent ≠ [] ∧ loads codec sent = some (.obj input) ∧
      payload = (Text.of "name", .str p.name) :: (argumentsKey isArguments, .obj input) :: more := by
  obtain ⟨hload, -⟩ := filter_eq_some_iff.mp hload
  obtain ⟨name, input, more, y, r, hname, hpayload, rfl, hder⟩ :=
    canonical_payload h.canonical h.brace hload
  obtain ⟨d, ds, rfl, -⟩ := hder.heads
  have hsent : sent = d :: ds := by
    have hrun := run_object hder h.brace r
    rw [h.scan] at hrun
    exact congrArg Prod.snd hrun
  have hplain : Derives codec plainHooks (d :: ds) (.value (.obj input)) := by
    refine hder.mono (fun bits v hv => ?_) fun pairs fields hpairs => ?_
    · exact nomatch (strictHooks_strict.constant bits).symm.trans hv
    · obtain ⟨rfl, hnodup⟩ := strictHooks_strict.pairs pairs fields hpairs
      exact plainHooks_pairs hnodup
  have hbom : (d :: ds).head? ≠ some (cp '\ufeff') := by
    have hbrace : (d :: ds).head? = some (cp '{') := h.brace
    rw [hbrace]
    decide
  rw [h.name] at hname
  cases hname
  cases hpayload
  exact ⟨input, more, by simp [hsent], hsent ▸ hplain.loadsWith hbom, rfl⟩

/-- The call that closes its envelope, in the scanner that opened it and in its twin. -/
structure Finishes (codec : FloatCodec) (t : ToolStreamScanner) (p : Progressive) (sent body : Text)
    (new : Text) (payload input arguments : JsonFields) : Prop where
  events : (t.opened p).finishProgressive codec p body =
    (argumentEvents new ++ [.toolStop], (t.commit codec p.name arguments).2)
  commits : t.closeEnvelope codec body = t.commit codec p.name arguments
  ne_nil : sent ++ new ≠ []
  loads : loads codec (sent ++ new) = some (.obj input)
  reads : strictJsonLoads codec body = some (.obj payload)
  call : validatedCall codec (some (.obj payload)) = some (p.name, arguments)
  member : ∃ isArguments more, (matchProgressive body).map (·.isArguments) = some isArguments ∧
    payload = (Text.of "name", .str p.name) :: (argumentsKey isArguments, .obj input) :: more

theorem finish_streams (hp : t.progressive = none)
    (h : Streams codec p sent front literal isArguments object) (hnone : Text.cut genericClose (front ++ object) = none)
    (hcut : Text.cut genericClose (front ++ object ++ c) = some (body, rest))
    (hlive : ((t.opened p).finishProgressive codec p body).2.invalidated = false) :
    ∃ new payload input arguments, Finishes codec t p sent body new payload input arguments := by
  obtain ⟨p', new, hadvance, hname, hobject⟩ := advance_body (s := t.opened p) h hnone hcut
  simp only [finishProgressive, hadvance, andThen] at hlive
  cases hcall : validatedCall codec (strictJsonLoads codec body) with
  | none =>
    simp only [hcall] at hlive
    cases hlive
  | some call =>
    obtain ⟨name, arguments⟩ := call
    simp only [hcall] at hlive
    split at hlive
    · next hok =>
      obtain ⟨hcomplete, rfl, hallowed⟩ := hok
      obtain ⟨object', rfl, hstreams⟩ := hobject hcomplete
      obtain ⟨payload, hpayload, -⟩ := validatedCall_eq_some.mp hcall
      obtain ⟨input, more, hne, hload, hmembers⟩ := streamed_object hstreams hpayload
      have hmatch := matchProgressive_of_canonicalFront hstreams.canonical hstreams.brace
      rw [hname] at hmembers
      refine ⟨new, payload, input, arguments, ?_, ?_, hne, hload, hpayload, hpayload ▸ hcall,
        isArguments, more, by rw [hmatch]; rfl, hmembers⟩
      · simp only [finishProgressive, hadvance, andThen, hcall]
        rw [if_pos ⟨hcomplete, trivial, hallowed⟩]
        simp [commit, opened, hp]
      · have hallowed' : t.allowed p.name = true := hallowed
        simp [closeEnvelope, hcall, hallowed']
    · cases hlive

end ToolStreamScanner

/-! ### Comparing blocks -/

/-- The same block, where tool inputs are compared by `same`. -/
inductive ContentBlock.Alike (same : Json → Json → Prop) : ContentBlock → ContentBlock → Prop where
  | text (t : Text) : Alike same (.text t) (.text t)
  | toolUse {a b : Json} (name : Text) (h : same a b) : Alike same (.toolUse name a) (.toolUse name b)

theorem ContentBlock.Alike.refl {same : Json → Json → Prop} (hsame : ∀ v, same v v) :
    ∀ block, ContentBlock.Alike same block block
  | .text t => .text t
  | .toolUse name v => .toolUse name (hsame v)

/-- Two folds that would give the same blocks if the events ended here. -/
def FoldState.Alike (same : Json → Json → Prop) (f g : FoldState) : Prop :=
  List.Forall₂ (ContentBlock.Alike same) f.flushText.blocks g.flushText.blocks

section Blocks

variable {same : Json → Json → Prop} {xs ys : List ContentBlock}

theorem forall₂_append_iff {as bs : List ContentBlock} (hlen : xs.length = ys.length) :
    List.Forall₂ (ContentBlock.Alike same) (xs ++ as) (ys ++ bs) ↔
      List.Forall₂ (ContentBlock.Alike same) xs ys ∧ List.Forall₂ (ContentBlock.Alike same) as bs := by
  induction xs generalizing ys with
  | nil =>
    cases ys with
    | nil => simp
    | cons y ys => exact nomatch hlen
  | cons x xs ih =>
    cases ys with
    | nil => exact nomatch hlen
    | cons y ys =>
      have hlen' : xs.length = ys.length := by simpa using hlen
      simp [ih hlen', and_assoc]

theorem forall₂_append_same (hsame : ∀ v, same v v) (hlen : xs.length = ys.length) (new : List ContentBlock) :
    List.Forall₂ (ContentBlock.Alike same) (xs ++ new) (ys ++ new) ↔ List.Forall₂ (ContentBlock.Alike same) xs ys := by
  have hnew : List.Forall₂ (ContentBlock.Alike same) new new :=
    forall₂_same.mpr fun block _ => ContentBlock.Alike.refl hsame block
  rw [forall₂_append_iff hlen, and_iff_left hnew]

/-- Folds that wait with the same text are alike when their blocks are. -/
theorem ToolStreamScanner.Paired.alike_iff {f g : FoldState} (h : Paired f g)
    (hsame : ∀ v, same v v) : f.Alike same g ↔ List.Forall₂ (ContentBlock.Alike same) f.blocks g.blocks := by
  simp only [Alike, flushText_blocks, h.text]
  exact forall₂_append_same hsame h.length.symm _

/-- The blocks of two folds that end like this. -/
theorem ToolStreamScanner.Paired.finish_alike_iff {f g : FoldState} (h : Paired f g) (raw : Text) :
    List.Forall₂ (ContentBlock.Alike same) (f.finish raw).blocks (g.finish raw).blocks ↔ f.Alike same g := by
  have hlength : f.flushText.blocks.length = g.flushText.blocks.length := by
    simp [flushText_blocks, h.text, h.length]
  have hempty : f.flushText.blocks = [] ↔ g.flushText.blocks = [] := by
    rw [← length_eq_zero_iff, ← length_eq_zero_iff, hlength]
  simp only [finish, Alike]
  by_cases hg : g.flushText.blocks = []
  · rw [hg, hempty.mpr hg]
    exact ⟨fun _ => .nil, fun _ => .cons (.text raw) .nil⟩
  · rw [if_neg hg, if_neg fun hf => hg (hempty.mp hf)]

end Blocks

namespace ToolStreamScanner

variable {codec : FloatCodec} {s t u : ToolStreamScanner} {p : Progressive} {c : Text}
  {f g : FoldState} {same : Json → Json → Prop}

/-! ### A run and its twin -/

/-- The scanner closes, on this chunk, an envelope whose call it has open, and the object
    it streamed under `parameters` is not what the envelope validates to. -/
def Diverts (codec : FloatCodec) (same : Json → Json → Prop) (s : ToolStreamScanner)
    (chunk : Text) : Prop :=
  s.progressive ≠ none ∧ ∃ body rest payload streamed name arguments,
    Text.cut genericClose (s.buffer ++ chunk) = some (body, rest) ∧
    (matchProgressive body).map (·.isArguments) = some false ∧
    strictJsonLoads codec body = some (.obj payload) ∧
    get payload (Text.of "parameters") = some streamed ∧
    validatedCall codec (some (.obj payload)) = some (name, arguments) ∧
    ¬ same streamed (.obj arguments)

/-- A scanner `s` with its fold, and the twin `t` that opens no call before its envelope
    closes, with its own. -/
inductive Related (codec : FloatCodec) :
    ToolStreamScanner → FoldState → ToolStreamScanner → FoldState → Prop where
  | idle {t : ToolStreamScanner} {f g : FoldState} (live : t.invalidated = false) (unstreamed : t.progressive = none)
      (paired : Paired f g) : Related codec t f t g
  | streaming {t : ToolStreamScanner} {f g : FoldState} {p : Progressive} (h : Streaming codec t p f.pendingJson)
      (pending : f.pendingTool = some p.name) (text : f.textParts = [])
      (length : f.blocks.length = g.flushText.blocks.length) : Related codec (t.opened p) f t g

theorem flushed_blocks (h : f.textParts = []) : f.flushText.blocks = f.blocks := by
  simp [flushText_blocks, h, textBlocks]

theorem steps_argumentEvents (f : FoldState) (new : Text) :
    f.steps codec (argumentEvents new) = some { f with pendingJson := f.pendingJson ++ new } := by
  simp only [argumentEvents]
  split
  · next h => simp [h]
  · rfl

/-- From scanners that agree, whole texts and calls add the same blocks to both folds. -/
theorem Whole.related {events : List ToolStreamEvent} (hsame : ∀ v, same v v) (hfg : Paired f g)
    (hwhole : Whole codec events) : ∃ f' g', f.steps codec events = some f' ∧ g.steps codec events = some g' ∧
      Paired f' g' ∧ (f'.Alike same g' ↔ f.Alike same g) := by
  obtain ⟨f', g', new, hf, hg, hfb, hgb, hpair⟩ := hwhole.steps hfg
  refine ⟨f', g', hf, hg, hpair, ?_⟩
  rw [hpair.alike_iff hsame, hfg.alike_iff hsame, hfb, hgb, forall₂_append_same hsame hfg.length.symm]

/-- The end of a chunk, from scanners that agree. -/
theorem Ends.related {step : Step} {events : List ToolStreamEvent} (hsame : ∀ v, same v v)
    (hfg : Paired f g) (hsplit : Splits codec u events t) (hend : Ends codec step events t) :
    ∃ f' g', f.steps codec step.1 = some f' ∧ g.steps codec events = some g' ∧
      Related codec step.2 f' t g' ∧ (f'.Alike same g' ↔ f.Alike same g) := by
  obtain ⟨f', g', hf, hg, hpair, halike⟩ := hsplit.whole.related hsame hfg
  rcases hend with rfl | ⟨hstate, hcall, hcut, rfl⟩
  · exact ⟨f', g', hf, hg, .idle hsplit.live hsplit.unstreamed hpair, halike⟩
  · rcases progressiveEvents_open codec hsplit.live hstate hcall hcut hsplit.unstreamed with hnone | ⟨p, sent, hopen, hstreaming⟩
    · refine ⟨f', g', ?_, hg, ?_, halike⟩
      · simp [hnone, hf]
      · simp only [andThen, hnone]
        exact .idle hsplit.live hsplit.unstreamed hpair
    · refine ⟨{ f'.flushText with pendingTool := some p.name, pendingJson := sent }, g', ?_, hg, ?_, ?_⟩
      · simp only [andThen, hopen, steps_append, hf, bind_some,
          steps_cons, step?_toolStart, steps_argumentEvents, nil_append]
      · simp only [andThen, hopen]
        exact .streaming hstreaming rfl rfl (by simp [flushText_blocks, hpair.text, hpair.length])
      · rw [← halike]
        simp only [Alike]
        rw [flushed_blocks rfl]

variable {body rest sent : Text}

/-- Only a call streamed under `parameters` can differ from what its envelope validates to. -/
theorem Finishes.diverts_iff {w : ToolStreamScanner} {new : Text}
    {payload input arguments : JsonFields} (hsame : ∀ v, same v v)
    (h : Finishes codec w p sent body new payload input arguments)
    (hcut : Text.cut genericClose (t.buffer ++ c) = some (body, rest)) :
    Diverts codec same (t.opened p) c ↔ ¬ same (.obj input) (.obj arguments) := by
  obtain ⟨isArguments, more, hmatch, hpayload⟩ := h.member
  have hcall := h.call
  cases isArguments with
  | true =>
    have harguments : arguments = input := by
      obtain ⟨fields, hfields, -, -, hargs, -⟩ := validatedCall_eq_some.mp hcall
      cases hfields
      have hfound : payloadArguments payload = .obj input := by
        rw [hpayload]
        rfl
      rw [hfound] at hargs
      cases hargs
      rfl
    constructor
    · rintro ⟨-, body', rest', -, -, -, -, hcut', hmatch', -⟩
      cases hcut.symm.trans hcut'
      exact nomatch hmatch.symm.trans hmatch'
    · intro hnot
      exact absurd (harguments ▸ hsame _) hnot
  | false =>
    have hget : get payload (Text.of "parameters") = some (.obj input) := by
      rw [hpayload]
      rfl
    constructor
    · rintro ⟨-, body', rest', payload', streamed, name, arguments', hcut', -, hreads, hget', hcall', hnot⟩
      cases hcut.symm.trans hcut'
      cases h.reads.symm.trans hreads
      cases hget.symm.trans hget'
      cases hcall.symm.trans hcall'
      exact hnot
    · intro hnot
      exact ⟨by simp [opened], body, rest, payload, .obj input, p.name, arguments, hcut, hmatch,
        h.reads, hget, hcall, hnot⟩

/-- Closing the envelope of an open call; `w` goes on behind it. -/
theorem close_related {w : ToolStreamScanner} (hsame : ∀ v, same v v)
    (h : Streaming codec t p f.pendingJson) (hpending : f.pendingTool = some p.name)
    (htext : f.textParts = []) (hlength : f.blocks.length = g.flushText.blocks.length)
    (hcut : Text.cut genericClose (t.buffer ++ c) = some (body, rest))
    (hlive : ((w.opened p).finishProgressive codec p body).2.invalidated = false) (hw : w.progressive = none) :
    ∃ f' g', f.steps codec ((w.opened p).finishProgressive codec p body).1 = some f' ∧
      g.steps codec (w.closeEnvelope codec body).1 = some g' ∧
      ((w.opened p).finishProgressive codec p body).2 = (w.closeEnvelope codec body).2 ∧ Paired f' g' ∧
      (f'.Alike same g' ↔ f.Alike same g ∧ ¬ Diverts codec same (t.opened p) c) := by
  obtain ⟨front, literal, isArguments, object, hbody, hstreams⟩ := h.streams
  have hunclosed := h.unclosed
  rw [hbody] at hunclosed
  have hcut' := hcut
  rw [hbody] at hcut'
  obtain ⟨new, payload, input, arguments, hfinish⟩ :=
    finish_streams hw hstreams hunclosed hcut' hlive
  have hcall : validatedCall codec (strictJsonLoads codec body) = some (p.name, arguments) := by
    rw [hfinish.reads]
    exact hfinish.call
  have hwritten := loads_dumps_obj (validatedCall_writes hcall)
  refine ⟨{ f with
      blocks := f.blocks ++ [.toolUse p.name (.obj input)]
      pendingTool := none
      pendingJson := f.pendingJson ++ new
      committed := f.committed + 1 }, called g p.name (dumps codec (.obj arguments)) (.obj arguments),
    ?_, ?_, ?_, ⟨?_, ?_⟩, ?_⟩
  · rw [hfinish.events, steps_append, steps_argumentEvents, bind_some, steps_cons]
    rw [step?_toolStop (f := { f with pendingJson := f.pendingJson ++ new }) hpending hfinish.ne_nil hfinish.loads]
    rfl
  · rw [hfinish.commits]
    exact steps_call (by simp [dumps]) hwritten g []
  · rw [hfinish.events, hfinish.commits]
  · exact htext.symm
  · simp [called, hlength]
  · rw [hfinish.diverts_iff hsame hcut, not_not]
    simp only [Alike, flushed_blocks htext]
    rw [flushed_blocks (by exact htext), flushed_blocks (by rfl)]
    simp only [called]
    rw [forall₂_append_iff hlength]
    refine and_congr_right fun _ => ?_
    rw [forall₂_cons, and_iff_left List.Forall₂.nil]
    exact ⟨fun h => by cases h; assumption, fun h => .toolUse p.name h⟩

/-- A chunk that closes the envelope of an open call. -/
theorem feed_close (h : Streaming codec t p sent)
    (hcut : Text.cut genericClose (t.buffer ++ c) = some (body, rest)) (final : Bool) :
    (t.opened p).feed codec c final = andThen ((((t.push c).moveTo rest false).opened p).finishProgressive codec p body)
        fun s => s.scanBuffer codec final := by
  have hlive : (t.opened p).invalidated = false := h.live
  have hcall : ((t.opened p).push c).inCall = true := h.inCall
  have hcut' : Text.cut genericClose ((t.opened p).push c).buffer = some (body, rest) := hcut
  rw [feed_generic hlive h.state, scanBuffer_close (s := (t.opened p).push c) hlive hcall hcut']
  rfl

/-- An envelope that ends with the text voids the call it has open. -/
theorem invalidated_of_unclosed (h : Streaming codec t p sent) (hcut : Text.cut genericClose (t.buffer ++ c) = none) :
    ((t.opened p).feed codec c true).2.invalidated = true := by
  have hlive : (t.opened p).invalidated = false := h.live
  have hcall : ((t.opened p).push c).inCall = true := h.inCall
  have hcut' : Text.cut genericClose ((t.opened p).push c).buffer = none := hcut
  have hsome : ((t.opened p).push c).progressive = some p := rfl
  have hstill : ∀ (r : ToolStreamScanner) (body : Text), (r.advance p body).2.progressive.isSome := by
    intro r body
    simp only [advance]
    split <;> rfl
  rw [feed_generic hlive h.state, scanBuffer_awaitClose (s := (t.opened p).push c) hlive hcall hcut']
  simp [awaitClose, progressiveEvents, hsome, hstill, invalidate]

theorem not_diverts_of_none (hp : s.progressive = none) : ¬ Diverts codec same s c :=
  fun h => h.1 hp

theorem not_diverts_of_unclosed (hcut : Text.cut genericClose (s.buffer ++ c) = none) : ¬ Diverts codec same s c := by
  rintro ⟨-, body, rest, -, -, -, -, hcut', -⟩
  exact nomatch hcut.symm.trans hcut'

/-- **A chunk that is not the last** keeps a scanner and its twin related. -/
theorem Related.feed (hsame : ∀ v, same v v) (h : Related codec s f t g)
    (hlive : (s.feed codec c false).2.invalidated = false) : ∃ events t' f' g', Splits codec (t.push c) events t' ∧
      f.steps codec (s.feed codec c false).1 = some f' ∧ g.steps codec events = some g' ∧
      Related codec (s.feed codec c false).2 f' t' g' ∧
      (f'.Alike same g' ↔ f.Alike same g ∧ ¬ Diverts codec same s c) := by
  cases h with
  | idle live unstreamed paired =>
    obtain ⟨events, t', hsplit, hend⟩ := feed_splits live unstreamed hlive
    obtain ⟨f', g', hf, hg, hrelated, halike⟩ := hend.related hsame paired hsplit
    refine ⟨events, t', f', g', hsplit, hf, hg, hrelated, ?_⟩
    rw [halike, and_iff_left (not_diverts_of_none unstreamed)]
  | @streaming t f g p h pending text length =>
    cases hcut : Text.cut genericClose (t.buffer ++ c) with
    | none =>
      obtain ⟨p', new, hfeed, hname, hstreaming⟩ := feed_advance h hcut
      refine ⟨[], t.push c, { f with pendingJson := f.pendingJson ++ new }, g,
        .refl h.live h.unstreamed, ?_, rfl, ?_, ?_⟩
      · rw [hfeed, steps_argumentEvents]
      · rw [hfeed]
        exact .streaming hstreaming (pending.trans (by rw [hname])) text length
      · rw [and_iff_left (not_diverts_of_unclosed (s := t.opened p) hcut)]
        rfl
    | some found =>
      obtain ⟨body, rest⟩ := found
      rw [feed_close h hcut] at hlive ⊢
      have hlive' := live_of_andThen hlive
      obtain ⟨f1, g1, hf1, hg1, hscanner, hpair, halike1⟩ :=
        close_related hsame h pending text length hcut hlive' h.unstreamed
      rw [hscanner] at hlive'
      have hstate : (((t.push c).moveTo rest false).closeEnvelope codec body).2.state = .generic :=
        (closeEnvelope_sameInput _ body).state.trans h.state
      have hfirst := splits_close (s := t.push c) h.live h.unstreamed h.state h.inCall hcut hlive'
      obtain ⟨events, t', hsplit, hend⟩ := scanBuffer_splits hlive' hfirst.unstreamed
        hstate (by rwa [andThen_snd, hscanner] at hlive)
      obtain ⟨f', g', hf, hg, hrelated, halike⟩ := hend.related hsame hpair hsplit
      refine ⟨_, t', f', g', hfirst.trans hsplit, ?_, ?_, ?_, ?_⟩
      · rw [andThen_fst, steps_append, hf1, bind_some, hscanner, hf]
      · rw [steps_append, hg1, bind_some, hg]
      · rw [andThen_snd, hscanner]
        exact hrelated
      · rw [halike, halike1]

/-- **The last chunk** ends both runs with folds that wait with the same text. -/
theorem Related.finish (hsame : ∀ v, same v v) (h : Related codec s f t g)
    (hlive : (s.feed codec c true).2.invalidated = false) (htwin : (t.feed codec c true).2.invalidated = false) :
    ∃ f' g', f.steps codec (s.feed codec c true).1 = some f' ∧
      g.steps codec (t.feed codec c true).1 = some g' ∧ Paired f' g' ∧
      (f'.Alike same g' ↔ f.Alike same g ∧ ¬ Diverts codec same s c) := by
  cases h with
  | idle live unstreamed paired =>
    obtain ⟨f', g', hf, hg, hpair, halike⟩ := (feed_whole unstreamed hlive).related hsame paired
    refine ⟨f', g', hf, hg, hpair, ?_⟩
    rw [halike, and_iff_left (not_diverts_of_none unstreamed)]
  | @streaming t f g p h pending text length =>
    cases hcut : Text.cut genericClose (t.buffer ++ c) with
    | none => exact nomatch (invalidated_of_unclosed h hcut).symm.trans hlive
    | some found =>
      obtain ⟨body, rest⟩ := found
      rw [feed_close h hcut] at hlive ⊢
      have hlive' := live_of_andThen hlive
      obtain ⟨f1, g1, hf1, hg1, hscanner, hpair, halike1⟩ :=
        close_related hsame h pending text length hcut hlive' h.unstreamed
      have hcut' : Text.cut genericClose (t.push c).buffer = some (body, rest) := hcut
      rw [feed_generic h.live h.state, scanBuffer_close (s := t.push c) h.live h.inCall hcut',
        endEnvelope_of_none (s := (t.push c).moveTo rest false) h.unstreamed] at htwin ⊢
      have hnone : (((t.push c).moveTo rest false).closeEnvelope codec body).2.progressive = none :=
        (closeEnvelope_progressive _ body).trans h.unstreamed
      obtain ⟨f', g', hf, hg, hpair', halike⟩ := (scanBuffer_whole hnone htwin).related hsame hpair
      refine ⟨f', g', ?_, ?_, hpair', by rw [halike, halike1]⟩
      · rw [andThen_fst, steps_append, hf1, bind_some, hscanner, hf]
      · rw [andThen_fst, steps_append, hg1, bind_some, hg]

/-! ### Whole runs -/

theorem feedChunks_of_invalidated (hs : s.invalidated = true) (chunks : List Text) :
    s.feedChunks codec chunks = ([], s) := by
  induction chunks with
  | nil => rfl
  | cons chunk rest ih =>
    cases rest with
    | nil => exact feed_of_invalidated hs chunk true
    | cons next rest => simp [feedChunks, feed_of_invalidated hs, andThen, ih]

/-- The chunks of a run, each with the scanner before it. -/
def visits (codec : FloatCodec) (s : ToolStreamScanner) : List Text → List (ToolStreamScanner × Text)
  | [] => []
  | chunk :: rest => (s, chunk) :: visits codec (s.feed codec chunk false).2 rest

theorem Related.live (h : Related codec s f t g) : t.invalidated = false := by
  cases h with
  | idle live => exact live
  | streaming h => exact h.live

/-- **A chunked run and its twin.**  By induction over the chunks: each but the last keeps
    the two related, and the twin has yet to read what follows. -/
theorem Related.run (hsame : ∀ v, same v v) {chunks : List Text} (hne : chunks ≠ [])
    (h : Related codec s f t g) (hlive : (s.feedChunks codec chunks).2.invalidated = false)
    (htwin : (t.feed codec chunks.flatten true).2.invalidated = false) :
    ∃ f' g', f.steps codec (s.feedChunks codec chunks).1 = some f' ∧
      g.steps codec (t.feed codec chunks.flatten true).1 = some g' ∧ Paired f' g' ∧ (f'.Alike same g' ↔
        f.Alike same g ∧ ∀ visit ∈ s.visits codec chunks, ¬ Diverts codec same visit.1 visit.2) := by
  induction chunks generalizing s f t g with
  | nil => exact absurd rfl hne
  | cons chunk rest ih =>
    cases rest with
    | nil =>
      rw [flatten_singleton] at htwin ⊢
      obtain ⟨f', g', hf, hg, hpair, halike⟩ := h.finish hsame hlive htwin
      exact ⟨f', g', hf, hg, hpair, by simpa [visits] using halike⟩
    | cons next rest =>
      have hsplitRun : s.feedChunks codec (chunk :: next :: rest) =
          andThen (s.feed codec chunk false) fun s => s.feedChunks codec (next :: rest) := rfl
      rw [hsplitRun] at hlive ⊢
      have hlive' : (s.feed codec chunk false).2.invalidated = false := by
        by_contra hdead
        rw [andThen_snd, feedChunks_of_invalidated (by simpa using hdead)] at hlive
        exact hdead hlive
      obtain ⟨events, t', f1, g1, hsplit, hf1, hg1, hrelated, halike1⟩ := h.feed hsame hlive'
      rw [flatten_cons, ← feed_push h.live] at htwin ⊢
      rw [hsplit.invalidated] at htwin
      obtain ⟨f', g', hf, hg, hpair, halike⟩ := ih (by simp) hrelated hlive htwin
      refine ⟨f', g', ?_, ?_, hpair, ?_⟩
      · rw [andThen_fst, steps_append, hf1, bind_some, hf]
      · rw [hsplit.resume, hg1, bind_some, hg]
      · rw [halike, halike1, and_assoc]
        simp [visits]

end ToolStreamScanner

/-- The folds of the chunked and of the one-shot run succeed with the same blocks. -/
def ChunkedAsWhole (codec : FloatCodec) (same : Json → Json → Prop) (s : ToolStreamScanner)
    (chunks : List Text) : Prop :=
  ∃ chunked whole, foldToolStream codec (s.feedChunks codec chunks).1 chunks.flatten = .ok chunked ∧
    foldToolStream codec (s.feed codec chunks.flatten true).1 chunks.flatten = .ok whole ∧
    List.Forall₂ (ContentBlock.Alike same) chunked.blocks whole.blocks

/-- **Tool-call streaming and chunking.**  Whatever the scanner, the tools and the choice,
    when neither run is invalidated the folds of the chunked and of the one-shot run give
    the same blocks exactly when no chunk closes an envelope whose streamed `parameters`
    are not the call's arguments. -/
theorem chunked_tool_stream_folds_alike (codec : FloatCodec) (protocol : ToolCallProtocol)
    (tools : List JsonFields) (choice : NormalizedToolChoice) (same : Json → Json → Prop)
    (hsame : ∀ v, same v v) (chunks : List Text) (hne : chunks ≠ [])
    (hchunked : ((toolStreamScannerFor protocol tools choice).feedChunks codec chunks).2.invalidated = false)
    (hwhole : ((toolStreamScannerFor protocol tools choice).feed codec chunks.flatten true).2.invalidated = false) :
    ChunkedAsWhole codec same (toolStreamScannerFor protocol tools choice) chunks ↔
      ∀ visit ∈ (toolStreamScannerFor protocol tools choice).visits codec chunks,
        ¬ Diverts codec same visit.1 visit.2 := by
  have hstart : Related codec (toolStreamScannerFor protocol tools choice) {}
      (toolStreamScannerFor protocol tools choice) {} := .idle rfl rfl ⟨rfl, rfl⟩
  obtain ⟨f, g, hf, hg, hpair, halike⟩ := hstart.run hsame hne hchunked hwhole
  have hfresh : Alike same {} {} := List.Forall₂.nil
  rw [and_iff_right hfresh] at halike
  rw [← halike, ← hpair.finish_alike_iff chunks.flatten]
  simp [ChunkedAsWhole, foldToolStream, run_of_steps hf, run_of_steps hg]

/-- A generic scanner for the one tool `f`. -/
def scannerForF : ToolStreamScanner := toolStreamScannerFor .generic [] ⟨.auto, [Text.of "f"], none⟩

/-- A call whose arguments are streamed in two parts. -/
def splitCall : List Text :=
  [Text.of "<tool_call>\x7b\"name\":\"f\",\"arguments\":\x7b\"a",
    Text.of "\":\"x\"\x7d\x7d</tool_call>"]

theorem chunked_tool_stream_folds_alike_split_call : (scannerForF.feedChunks .decimal splitCall).2.invalidated = false ∧
      (scannerForF.feed .decimal splitCall.flatten true).2.invalidated = false ∧
      (ChunkedAsWhole .decimal Eq scannerForF splitCall ↔ ∀ visit ∈ scannerForF.visits .decimal splitCall,
          ¬ Diverts .decimal Eq visit.1 visit.2) :=
  ⟨by decide +kernel, by decide +kernel,
    chunked_tool_stream_folds_alike .decimal .generic [] ⟨.auto, [Text.of "f"], none⟩ Eq
      (fun _ => rfl) splitCall (by decide) (by decide +kernel) (by decide +kernel)⟩

/-- A call with both spellings of the member, closed by a chunk of its own. -/
def crossedCall : List Text :=
  [Text.of "<tool_call>\x7b\"name\":\"f\",\"parameters\":\x7b\"a\":\"x\"\x7d,\"arguments\":\x7b\"a\":\"y\"\x7d\x7d",
    Text.of "</tool_call>"]

/-- Streamed, the call has the parameters `x`; read at once, the arguments `y`. -/
theorem chunked_crossed_call_differs : (scannerForF.feedChunks .decimal crossedCall).2.invalidated = false ∧
      (scannerForF.feed .decimal crossedCall.flatten true).2.invalidated = false ∧
      ¬ ChunkedAsWhole .decimal Eq scannerForF crossedCall := by
  refine ⟨by decide +kernel, by decide +kernel, ?_⟩
  rintro ⟨chunked, whole, hchunked, hwhole, halike⟩
  have hstreamed : foldToolStream .decimal (scannerForF.feedChunks .decimal crossedCall).1
      crossedCall.flatten = .ok ⟨[.toolUse (Text.of "f") (.obj [(Text.of "a", .str (Text.of "x"))])],
        false, 1⟩ := by decide +kernel
  have hread : foldToolStream .decimal (scannerForF.feed .decimal crossedCall.flatten true).1
      crossedCall.flatten = .ok ⟨[.toolUse (Text.of "f") (.obj [(Text.of "a", .str (Text.of "y"))])],
        false, 1⟩ := by decide +kernel
  cases hstreamed.symm.trans hchunked
  cases hread.symm.trans hwhole
  obtain ⟨hblock, -⟩ := forall₂_cons.mp halike
  cases hblock with
  | toolUse name h => exact absurd h (by decide)

end Kairyu
