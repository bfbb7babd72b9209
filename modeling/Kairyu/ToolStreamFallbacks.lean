/-
  Kairyu/ToolStreamFallbacks.lean
  ===============================
  **The two protocols with a mode of their own.**

  The DSML and Llama scanners emit nothing but whole calls until they either finish
  in their own mode or replay the raw text through the generic one.  What one of their
  rounds decides is decided the same when more text follows (`dsmlRound_again`,
  `dsmlRound_stop`), so they split like a generic scan (`feed_splits`).
-/
import Kairyu.ToolStreamChunks

namespace Kairyu

open List Text Json

/-! ### Decisions on a growing text -/

namespace Text

variable {p t u r : Text}

theorem lstrip_length_le (t : Text) : (lstrip t).length ≤ t.length := length_dropWhile_le ..

theorem after_append_of_some (h : after p t = some r) (u : Text) : after p (t ++ u) = some (r ++ u) := by
  rw [after_eq_some] at h ⊢
  simp [h]

/-- A text that is undecided about `p` neither starts with it nor begins it. -/
theorem after_append_of_none (h : after p t = none) (hp : ¬ t <+: p) (u : Text) : after p (t ++ u) = none := by
  simp only [after] at h ⊢
  split at h
  · cases h
  · next hnot =>
    rw [if_neg]
    intro hpre
    rcases prefix_or_prefix_of_prefix hpre (prefix_append t u) with h' | h'
    · exact hnot h'
    · exact hp h'

theorem after_length (h : after p t = some r) : p.length + r.length = t.length := by
  rw [after_eq_some.mp h, length_append]

theorem not_blank_append (h : blank t = false) (u : Text) : blank (t ++ u) = false := by
  simp [blank_append, h]

end Text

namespace ToolStreamScanner

variable {codec : FloatCodec} {s t : ToolStreamScanner} {u stripped header rest : Text} {step : Step}

theorem matchInvokeOpen_eq_some : matchInvokeOpen stripped = some (header, rest) ↔ ∃ remainder name tail,
    Text.after dsmlInvokeOpen stripped = some remainder ∧ cut [cp '"'] remainder = some (name, tail) ∧
      cp '\n' ∉ name ∧ Text.after [cp '>'] tail = some rest ∧ dsmlInvokeOpen ++ name ++ Text.of "\">" = header := by
  unfold matchInvokeOpen
  split
  · simp [*]
  · next hopen =>
    split
    · simp [*]
    · next name _ hcut => by_cases hname : cp '\n' ∈ name <;> simp [hopen, hcut, hname, and_comm]

theorem matchInvokeOpen_append (h : matchInvokeOpen stripped = some (header, rest)) (u : Text) :
    matchInvokeOpen (stripped ++ u) = some (header, rest ++ u) := by
  obtain ⟨remainder, name, tail, hopen, hcut, hname, hafter, rfl⟩ := matchInvokeOpen_eq_some.mp h
  exact matchInvokeOpen_eq_some.mpr ⟨_, name, _, after_append_of_some hopen u, cut_append hcut u, hname,
    after_append_of_some hafter u, rfl⟩

/-- A header that can no longer grow into one never does. -/
theorem matchInvokeOpen_append_none (h : matchInvokeOpen stripped = none)
    (hgrow : invokeOpenCouldGrow stripped = false) (u : Text) : matchInvokeOpen (stripped ++ u) = none := by
  simp only [matchInvokeOpen, invokeOpenCouldGrow] at h hgrow ⊢
  cases hopen : Text.after dsmlInvokeOpen stripped with
  | none =>
    rw [hopen] at hgrow
    rw [after_append_of_none hopen (by simpa using hgrow)]
  | some remainder =>
    rw [hopen] at h hgrow
    rw [after_append_of_some hopen]
    cases hcut : cut [cp '"'] remainder with
    | none =>
      simp only [hcut] at hgrow
      exact nomatch hgrow
    | some found =>
      obtain ⟨name, tail⟩ := found
      simp only [hcut] at h hgrow
      simp only [cut_append hcut]
      split
      · rfl
      · next hname =>
        rw [if_neg hname, Option.map_eq_none_iff] at h
        have htail : ¬ tail <+: [cp '>'] := by
          intro hpre
          rcases prefix_cons_iff.mp hpre with rfl | ⟨l, rfl, hl⟩
          · simp at hgrow
          · simp [Text.after] at h
        rw [after_append_of_none h htail]
        rfl

theorem matchInvokeOpen_length (h : matchInvokeOpen stripped = some (header, rest)) :
    rest.length < stripped.length := by
  obtain ⟨remainder, name, tail, hopen, hcut, -, hafter, -⟩ := matchInvokeOpen_eq_some.mp h
  have h1 := after_length hopen
  have h2 := cut_length_lt (by simp) hcut
  have h3 := after_length hafter
  omega

/-! ### DSML rounds -/

/-- The modes of the DSML scanner before it fell back. -/
def InDsml (s : ToolStreamScanner) : Prop :=
  s.state = .leading ∨ s.state = .inBlock ∨ s.state = .inInvoke ∨ s.state = .afterBlock

/-- The raw text as the buffer of a generic scan. -/
def replayed (s : ToolStreamScanner) : ToolStreamScanner :=
  { s with buffer := s.rawText, state := .generic, inCall := false }

theorem fallbackToGeneric_eq (s : ToolStreamScanner) (final : Bool) :
    s.fallbackToGeneric codec final = s.replayed.scanBuffer codec final := rfl

theorem structureFailure_of_uncommitted (h : s.committedCalls = 0) (final : Bool) :
    s.structureFailure codec final = s.replayed.scanBuffer codec final := by
  simp [structureFailure, h, fallbackToGeneric_eq]

variable {final : Bool}

theorem committedCalls_of_structureFailure (h : (s.structureFailure codec final).2.invalidated = false) :
    s.committedCalls = 0 := by
  by_contra hne
  simp [structureFailure, hne, invalidate] at h

theorem invokedCall_writes {name : Text} {arguments : JsonFields}
    (h : s.invokedCall codec u = some (name, arguments)) : Writes codec (.obj arguments) := by
  simp only [invokedCall, Option.bind_eq_bind, Option.bind_eq_some_iff] at h
  obtain ⟨⟨name', body⟩, -, h⟩ := h
  split at h
  · exact nomatch h
  · simp only [Option.bind_eq_some_iff] at h
    obtain ⟨-, -, parameters, hparameters, call, hcall, hend⟩ := h
    split at hend
    · cases hend
      obtain ⟨fields, hpayload, -, -, hargs, -⟩ := validatedCall_eq_some.mp hcall
      cases hpayload
      cases hargs
      obtain ⟨hnodup, hwrites⟩ := dsmlParameters_writable hparameters ⟨by simp, by simp⟩
      exact writes_obj hnodup hwrites
    · exact nomatch hend

theorem not_blockClose_of_matchInvokeOpen (h : matchInvokeOpen stripped = some (header, rest)) :
    ¬ stripped <+: dsmlBlockClose := by
  intro hpre
  obtain ⟨remainder, -, -, hopen, -⟩ := matchInvokeOpen_eq_some.mp h
  have hopen : dsmlInvokeOpen <+: stripped := ⟨remainder, (after_eq_some.mp hopen).symm⟩
  exact absurd (hopen.trans hpre) (by decide)

/-- What a round that continues leaves, and that it continues alike on more text. -/
structure Continues (codec : FloatCodec) (s : ToolStreamScanner) (step : Step) : Prop where
  shorter : step.2.buffer.length < s.buffer.length
  inDsml : InDsml step.2
  rawText : step.2.rawText = s.rawText
  progressive : step.2.progressive = s.progressive
  invalidated : step.2.invalidated = s.invalidated
  whole : Whole codec step.1

theorem push_eq (s : ToolStreamScanner) (more : Text) :
    (s.push more).state = s.state ∧ (s.push more).buffer = s.buffer ++ more := ⟨rfl, rfl⟩

theorem dsmlRound_again (h : s.dsmlRound codec final = .again step) : Continues codec s step ∧
      ∀ more, (s.push more).dsmlRound codec true = .again (step.1, step.2.push more) := by
  have hlen := lstrip_length_le s.buffer
  cases hstate : s.state with
  | leading =>
    simp only [dsmlRound, hstate] at h
    split at h
    · cases h
    · next hwait =>
      simp only [not_or] at hwait
      split at h
      · next rest hopen =>
        cases h
        have hlt := after_length hopen
        refine ⟨⟨?_, Or.inr (Or.inl rfl), rfl, rfl, rfl, .nil⟩, fun more => ?_⟩
        · have : 0 < dsmlBlockOpen.length := length_pos_of_ne_nil (by decide)
          simp only
          omega
        · simp only [dsmlRound, push_eq, hstate, lstrip_append_of_ne_nil hwait.1, after_append_of_some hopen]
          simp [hwait.1]
          rfl
      · cases h
  | inBlock =>
    simp only [dsmlRound, hstate] at h
    split at h
    · cases h
    · next hne =>
      split at h
      · cases h
      · split at h
        · next rest hclose =>
          cases h
          have hlt := after_length hclose
          refine ⟨⟨?_, Or.inr (Or.inr (Or.inr rfl)), rfl, rfl, rfl, .nil⟩, fun more => ?_⟩
          · have : 0 < dsmlBlockClose.length := length_pos_of_ne_nil (by decide)
            simp only
            omega
          · simp only [dsmlRound, push_eq, hstate, lstrip_append_of_ne_nil hne, after_append_of_some hclose]
            simp [hne]
            rfl
        · next hclose =>
          split at h
          · next header rest hmatch =>
            cases h
            have hlt := matchInvokeOpen_length hmatch
            refine ⟨⟨?_, Or.inr (Or.inr (Or.inl rfl)), rfl, rfl, rfl, .nil⟩, fun more => ?_⟩
            · simp only
              omega
            · have hnone := after_append_of_none hclose
                (not_blockClose_of_matchInvokeOpen hmatch) more
              simp only [dsmlRound, push_eq, hstate, lstrip_append_of_ne_nil hne, hnone,
                matchInvokeOpen_append hmatch]
              simp [hne]
              rfl
          · split at h <;> cases h
  | inInvoke =>
    simp only [dsmlRound, hstate] at h
    split at h
    · cases h
    · next inner rest hcut =>
      split at h
      · cases h
      · next name arguments hcall =>
        cases h
        refine ⟨⟨cut_length_lt (by decide) hcut, Or.inr (Or.inl rfl), rfl, rfl, rfl,
          commit_whole (invokedCall_writes hcall)⟩, fun more => ?_⟩
        have hcall' : (s.push more).invokedCall codec
            ((s.push more).invokeHeader ++ inner ++ dsmlInvokeClose) = some (name, arguments) := hcall
        simp only [dsmlRound, push_eq, hstate, cut_append hcut, hcall']
        rfl
  | afterBlock | start | hold | generic =>
    simp only [dsmlRound, hstate] at h
    cases h

/-- A round that breaks before the end of the text waits, or gives up for good. -/
theorem dsmlRound_stop (h : s.dsmlRound codec false = .stop step) (hlive : step.2.invalidated = false) :
    step = ([], s) ∨ step = s.replayed.scanBuffer codec false ∧ ∀ more, (s.push more).dsmlRound codec true =
        .stop ((s.push more).replayed.scanBuffer codec true) := by
  have hfail : ∀ x : ToolStreamScanner, step = x.structureFailure codec false →
      x.committedCalls = s.committedCalls → x.replayed = s.replayed →
      step = s.replayed.scanBuffer codec false ∧ s.committedCalls = 0 := by
    rintro x rfl hcalls hreplayed
    have hzero : x.committedCalls = 0 := committedCalls_of_structureFailure hlive
    exact ⟨hreplayed ▸ structureFailure_of_uncommitted hzero false, hcalls ▸ hzero⟩
  cases hstate : s.state with
  | leading =>
    simp only [dsmlRound, hstate] at h
    split at h
    · cases h
      exact Or.inl rfl
    · next hwait =>
      simp only [not_or, not_and] at hwait
      split at h
      · cases h
      · next hopen =>
        cases h
        refine Or.inr ⟨rfl, fun more => ?_⟩
        have hnone := after_append_of_none hopen (fun hpre => hwait.2 hpre trivial) more
        simp only [dsmlRound, push_eq, hstate, lstrip_append_of_ne_nil hwait.1, hnone]
        simp [hwait.1, fallbackToGeneric_eq]
  | inBlock =>
    simp only [dsmlRound, hstate] at h
    split at h
    · cases h
      exact Or.inl rfl
    · next hne =>
      split at h
      · cases h
        exact Or.inl rfl
      · next hwait =>
        simp only [not_and] at hwait
        split at h
        · cases h
        · next hclose =>
          split at h
          · cases h
          · next hmatch =>
            split at h
            · cases h
              exact Or.inl rfl
            · next hgrow =>
              simp only [true_and, Bool.not_eq_true] at hgrow
              injection h with h
              obtain ⟨heq, hzero⟩ := hfail s h.symm rfl rfl
              refine Or.inr ⟨heq, fun more => ?_⟩
              have hnone := after_append_of_none hclose
                (fun hpre => hwait (Or.inl hpre) trivial) more
              simp only [dsmlRound, push_eq, hstate, lstrip_append_of_ne_nil hne, hnone,
                matchInvokeOpen_append_none hmatch hgrow]
              simp only [append_eq_nil_iff, hne, false_and, if_false, reduceCtorEq, and_false]
              refine congrArg _ (structureFailure_of_uncommitted ?_ true)
              exact hzero
  | inInvoke =>
    simp only [dsmlRound, hstate] at h
    split at h
    · cases h
      exact Or.inl rfl
    · next inner rest hcut =>
      split at h
      · next hcall =>
        injection h with h
        obtain ⟨heq, hzero⟩ := hfail _ h.symm rfl rfl
        refine Or.inr ⟨heq, fun more => ?_⟩
        have hcall' : (s.push more).invokedCall codec
            ((s.push more).invokeHeader ++ inner ++ dsmlInvokeClose) = none := hcall
        simp only [dsmlRound, push_eq, hstate, cut_append hcut, hcall']
        refine congrArg _ (structureFailure_of_uncommitted ?_ true)
        exact hzero
      · cases h
  | afterBlock =>
    simp only [dsmlRound, hstate] at h
    injection h with h
    split at h
    · exact Or.inl h.symm
    · next hblank =>
      obtain ⟨heq, hzero⟩ := hfail s h.symm rfl rfl
      refine Or.inr ⟨heq, fun more => ?_⟩
      have hblank' := not_blank_append (by simpa using hblank) more
      simp only [dsmlRound, push_eq, hstate, hblank']
      refine congrArg _ (structureFailure_of_uncommitted ?_ true)
      exact hzero
  | start | hold | generic =>
    simp only [dsmlRound, hstate] at h
    cases h
    exact Or.inl rfl

/-- The loop of the DSML scanner, with a round for every code point and one more. -/
def scanDsmlBuffer (codec : FloatCodec) (s : ToolStreamScanner) (final : Bool) : Step :=
  scanDsml codec final (s.buffer.length + 1) s

theorem scanDsml_fuel {n m : Nat} (hn : s.buffer.length < n) (hm : s.buffer.length < m) :
    scanDsml codec final n s = scanDsml codec final m s := by
  induction n generalizing s m with
  | zero => exact absurd hn (Nat.not_lt_zero _)
  | succ n ih =>
    cases m with
    | zero => exact absurd hm (Nat.not_lt_zero _)
    | succ m =>
      simp only [scanDsml]
      split
      · rfl
      · split
        · rfl
        · next step hround =>
          have hlt := (dsmlRound_again hround).1.shorter
          simp only [andThen, ih (s := step.2) (m := m) (by omega) (by omega)]

section

variable (hs : s.invalidated = false)
include hs

theorem scanDsmlBuffer_stop (h : s.dsmlRound codec final = .stop step) : s.scanDsmlBuffer codec final = step := by
  simp [scanDsmlBuffer, scanDsml, hs, h]

theorem scanDsmlBuffer_again (h : s.dsmlRound codec final = .again step) :
    s.scanDsmlBuffer codec final = andThen step fun t => t.scanDsmlBuffer codec final := by
  have hlt := (dsmlRound_again h).1.shorter
  have hfuel : scanDsml codec final s.buffer.length step.2 = step.2.scanDsmlBuffer codec final :=
    scanDsml_fuel hlt (Nat.lt_succ_self _)
  simp only [scanDsmlBuffer, scanDsml, hs, h]
  simp only [andThen, hfuel]
  rfl

theorem feed_dsml (hstate : InDsml s) (u : Text) (final : Bool) :
    s.feed codec u final = (s.push u).scanDsmlBuffer codec final := by
  rcases hstate with h | h | h | h <;> simp [feed, hs, push, h, scanDsmlBuffer]

/-- Giving up on the mode splits the text: the rest is scanned in the generic one. -/
theorem replayed_splits (hp : s.progressive = none)
    (hmore : ∀ more, s.feed codec more true = (s.push more).replayed.scanBuffer codec true)
    (h : (s.replayed.scanBuffer codec false).2.invalidated = false) :
    ∃ events t, Splits codec s events t ∧ Ends codec (s.replayed.scanBuffer codec false) events t := by
  have hfirst : Splits codec s [] s.replayed := by
    refine .of_round ([], s.replayed) hs hp rfl .nil fun more => ?_
    rw [hmore]
    exact (feed_generic (s := s.replayed) hs rfl more true).symm
  obtain ⟨events, t, hrest, hend⟩ := scanBuffer_splits (s := s.replayed) hs hp rfl h
  exact ⟨events, t, hfirst.trans hrest, hend⟩

theorem scanDsmlBuffer_splits (hp : s.progressive = none)
    (hstate : InDsml s) (h : (s.scanDsmlBuffer codec false).2.invalidated = false) :
    ∃ events t, Splits codec s events t ∧ Ends codec (s.scanDsmlBuffer codec false) events t := by
  induction hlen : s.buffer.length using Nat.strong_induction_on generalizing s with
  | _ n ih =>
    cases hround : s.dsmlRound codec false with
    | stop step =>
      rw [scanDsmlBuffer_stop hs hround] at h ⊢
      rcases dsmlRound_stop hround h with rfl | ⟨rfl, hmore⟩
      · exact ⟨[], s, .refl hs hp, Or.inl rfl⟩
      · refine replayed_splits hs hp (fun more => ?_) h
        rw [feed_dsml hs hstate, scanDsmlBuffer_stop (s := s.push more) hs (hmore more)]
    | again step =>
      obtain ⟨hnext, hmore⟩ := dsmlRound_again hround
      have hlive : step.2.invalidated = false := hnext.invalidated.trans hs
      have hfirst : Splits codec s step.1 step.2 := by
        refine .of_round step hlive (hnext.progressive.trans hp) hnext.rawText hnext.whole fun more => ?_
        rw [feed_dsml hs hstate, scanDsmlBuffer_again (s := s.push more) hs (hmore more)]
        simp only [andThen, feed_dsml hlive hnext.inDsml]
      rw [scanDsmlBuffer_again hs hround] at h ⊢
      obtain ⟨events, t, hrest, hend⟩ := ih _ (hlen ▸ hnext.shorter) hlive
        (hnext.progressive.trans hp) hnext.inDsml h rfl
      exact ⟨step.1 ++ events, t, hfirst.trans hrest, hend.prepend⟩

end

theorem structureFailure_whole (hp : s.progressive = none) (h : (s.structureFailure codec true).2.invalidated = false) :
    Whole codec (s.structureFailure codec true).1 := by
  have hzero := committedCalls_of_structureFailure h
  rw [structureFailure_of_uncommitted hzero] at h ⊢
  exact scanBuffer_whole hp h

/-- The round waits, or gives the mode up. -/
def Breaks (codec : FloatCodec) (s : ToolStreamScanner) (final : Bool) (step : Step) : Prop :=
  step = ([], s) ∨ step = s.replayed.scanBuffer codec final ∨ ∃ x : ToolStreamScanner,
    step = x.structureFailure codec final ∧ x.progressive = s.progressive ∧ x.invalidated = s.invalidated

theorem dsmlRound_stop_cases (h : s.dsmlRound codec final = .stop step) : s.Breaks codec final step := by
  have hfail : s.structureFailure codec final = step → s.Breaks codec final step :=
    fun h => Or.inr (Or.inr ⟨s, h.symm, rfl, rfl⟩)
  have hwait : (if final then s.structureFailure codec final else ([], s)) = step → s.Breaks codec final step := by
    intro h
    split at h
    · exact hfail h
    · exact Or.inl h.symm
  cases hstate : s.state with
  | leading =>
    simp only [dsmlRound, hstate] at h
    split at h
    · cases h
      exact Or.inl rfl
    · split at h
      · exact nomatch h
      · cases h
        exact Or.inr (Or.inl rfl)
  | inBlock =>
    simp only [dsmlRound, hstate] at h
    split at h
    · injection h with h
      exact hwait h
    · split at h
      · cases h
        exact Or.inl rfl
      · split at h
        · exact nomatch h
        · split at h
          · exact nomatch h
          · split at h
            · cases h
              exact Or.inl rfl
            · injection h with h
              exact hfail h
  | inInvoke =>
    simp only [dsmlRound, hstate] at h
    split at h
    · injection h with h
      exact hwait h
    · split at h
      · injection h with h
        exact Or.inr (Or.inr ⟨_, h.symm, rfl, rfl⟩)
      · exact nomatch h
  | afterBlock =>
    simp only [dsmlRound, hstate] at h
    injection h with h
    split at h
    · exact Or.inl h.symm
    · exact hfail h
  | start | hold | generic =>
    simp only [dsmlRound, hstate] at h
    cases h
    exact Or.inl rfl

theorem dsmlRound_stop_whole (hp : s.progressive = none)
    (h : s.dsmlRound codec true = .stop step) (hlive : step.2.invalidated = false) : Whole codec step.1 := by
  rcases dsmlRound_stop_cases h with rfl | rfl | ⟨x, rfl, hprogressive, -⟩
  · exact .nil
  · exact scanBuffer_whole hp hlive
  · exact structureFailure_whole (hprogressive.trans hp) hlive

theorem scanDsmlBuffer_whole (hs : s.invalidated = false) (hp : s.progressive = none)
    (h : (s.scanDsmlBuffer codec true).2.invalidated = false) : Whole codec (s.scanDsmlBuffer codec true).1 := by
  induction hlen : s.buffer.length using Nat.strong_induction_on generalizing s with
  | _ n ih =>
    cases hround : s.dsmlRound codec true with
    | stop step =>
      rw [scanDsmlBuffer_stop hs hround] at h ⊢
      exact dsmlRound_stop_whole hp hround h
    | again step =>
      obtain ⟨hnext, -⟩ := dsmlRound_again hround
      rw [scanDsmlBuffer_again hs hround] at h ⊢
      exact hnext.whole.append (ih _ (hlen ▸ hnext.shorter) (hnext.invalidated.trans hs)
        (hnext.progressive.trans hp) h rfl)

/-! ### Llama -/

theorem strictJsonLoads_angle (cs : Text) : strictJsonLoads codec (cp '<' :: cs) = none := by
  have hword : words.find? (fun entry => decide (entry.1 <+: cp '<' :: cs)) = none := by
    rw [List.find?_eq_none]
    intro entry hentry
    simp only [words, mem_cons, not_mem_nil, or_false] at hentry
    rcases hentry with rfl | rfl | rfl | rfl | rfl | rfl <;>
      simp [Text.of, cp]
  have hvalue : scanWord strictHooks (cp '<' :: cs) = none := by simp [scanWord, hword]
  have hcode : cp '<' = 60 := rfl
  rw [hcode] at hvalue ⊢
  simp [strictJsonLoads, loadsWith, skipWs, isWs, scanOnce, scanValue,
    scanNumber, scanMinus, scanNatural, isDigit, hvalue, cp]

theorem strictJsonLoads_nil : strictJsonLoads codec [] = none := by
  simp [strictJsonLoads, loadsWith, skipWs, scanOnce, scanValue]

/-- No piece of a text that opens with a bracket is JSON. -/
theorem strictJsonLoads_of_angle (h : u <+: cp '<' :: rest) : strictJsonLoads codec u = none := by
  rcases prefix_cons_iff.mp h with rfl | ⟨cs, rfl, -⟩
  · exact strictJsonLoads_nil
  · exact strictJsonLoads_angle cs

theorem llamaCandidate_angle {cs : Text} (h : lstrip u = cp '<' :: cs)
    (htag : ¬ llamaToolPrefix <+: lstrip u) : llamaCandidate u <+: cp '<' :: cs := by
  have hstrip : strip u <+: lstrip u := rdropWhile_prefix _ _
  have hafter : Text.after llamaToolPrefix (strip u) = none := by
    simp only [Text.after]
    rw [if_neg fun hpre => htag (hpre.trans hstrip)]
  rw [h] at hstrip
  simp only [llamaCandidate, hafter]
  split
  · exact ((List.rdropWhile_prefix _ _).trans (List.take_prefix _ _)).trans hstrip
  · exact hstrip

theorem not_candidate_append (hne : u ≠ []) (h : ¬ Candidate u false) (more : Text) : ¬ Candidate (u ++ more) true := by
  simp only [Candidate, not_or, and_true, reduceCtorEq, and_false, not_false_eq_true] at h ⊢
  obtain ⟨hbrace, htag, hbegin⟩ := h
  refine ⟨?_, fun hpre => ?_⟩
  · rwa [List.head?_append_of_ne_nil _ hne]
  · rcases prefix_or_prefix_of_prefix hpre (prefix_append u more) with h' | h'
    · exact htag h'
    · exact hbegin h'

theorem feed_llama (hs : s.invalidated = false) (hstate : s.state = .start ∨ s.state = .hold)
    (u : Text) (final : Bool) : s.feed codec u final = (s.push u).feedLlama codec final := by
  rcases hstate with h | h <;> simp [feed, hs, push, h]

/-- What only began with the tag is no call. -/
theorem finalize_of_not_candidate (hbegin : stripped <+: llamaToolPrefix) (hne : stripped ≠ [])
    (h : lstrip s.buffer = stripped ++ rest) (hnot : ¬ Candidate (stripped ++ rest) true) :
    s.finalize codec = s.replayed.scanBuffer codec true := by
  obtain ⟨c, cs, rfl⟩ := exists_cons_of_ne_nil hne
  obtain ⟨rfl, -⟩ := cons_prefix_cons.mp hbegin
  have htag : ¬ llamaToolPrefix <+: lstrip s.buffer := fun hpre =>
    hnot (Or.inr (Or.inl (h ▸ hpre)))
  have hload : strictJsonLoads codec (llamaCandidate s.buffer) = none :=
    strictJsonLoads_of_angle (llamaCandidate_angle h htag)
  simp only [finalize, hload]
  rfl

theorem feedLlama_splits (hs : s.invalidated = false) (hp : s.progressive = none)
    (hstate : s.state = .start ∨ s.state = .hold) (h : (s.feedLlama codec false).2.invalidated = false) :
    ∃ events t, Splits codec s events t ∧ Ends codec (s.feedLlama codec false) events t := by
  have hfeed : ∀ more, s.feed codec more true = (s.push more).feedLlama codec true :=
    fun more => feed_llama hs hstate more true
  by_cases hstart : s.state = .start ∧ lstrip s.buffer ≠ []
  · obtain ⟨hstart, hne⟩ := hstart
    have hpushed : ∀ more, (s.push more).feedLlama codec true =
        if Candidate (lstrip s.buffer ++ more) true then
          { s.push more with state := .hold }.finalize codec
        else (s.push more).replayed.scanBuffer codec true := fun more => by
      have hstrip : lstrip (s.push more).buffer = lstrip s.buffer ++ more :=
        lstrip_append_of_ne_nil hne more
      have hstart' : (s.push more).state = .start := hstart
      simp only [feedLlama, hstrip, hstart']
      rw [if_pos ⟨trivial, by simp [hne]⟩]
      rfl
    by_cases hcand : Candidate (lstrip s.buffer) false
    · have hstep : s.feedLlama codec false = ([], { s with state := .hold }) := by
        simp [feedLlama, hstart, hne, hcand, holdCall]
      refine ⟨[], { s with state := .hold }, ?_, Or.inl hstep⟩
      have heq : ∀ more, s.feed codec more true =
          ({ s with state := .hold } : ToolStreamScanner).feed codec more true := fun more => by
        have hheld : ({ s with state := .hold } : ToolStreamScanner).feed codec more true =
            ({ s.push more with state := .hold } : ToolStreamScanner).finalize codec := by
          rw [feed_llama (s := { s with state := .hold }) hs (Or.inr rfl)]
          simp [feedLlama, holdCall, push]
        rw [hfeed, hpushed, hheld]
        split
        · rfl
        · next hnot =>
          have hbegin : lstrip s.buffer <+: llamaToolPrefix := by
            rcases hcand with hbrace | htag | hbegin
            · exact absurd (Or.inl (by rwa [List.head?_append_of_ne_nil _ hne])) hnot
            · exact absurd (Or.inr (Or.inl (htag.trans (prefix_append _ _)))) hnot
            · exact hbegin.1
          exact (finalize_of_not_candidate (s := { s.push more with state := .hold }) hbegin hne
            (lstrip_append_of_ne_nil hne more) hnot).symm
      exact .of_round ([], { s with state := .hold }) hs hp rfl .nil heq
    · have hstep : s.feedLlama codec false = s.replayed.scanBuffer codec false := by
        simp [feedLlama, hstart, hne, hcand, fallbackToGeneric_eq]
      rw [hstep] at h ⊢
      refine replayed_splits hs hp (fun more => ?_) h
      rw [hfeed, hpushed, if_neg (not_candidate_append hne hcand more)]
  · have hstep : s.feedLlama codec false = ([], s) := by
      simp only [feedLlama, if_neg hstart]
      rfl
    exact ⟨[], s, .refl hs hp, Or.inl hstep⟩

theorem finalize_whole (hp : s.progressive = none)
    (h : (s.finalize codec).2.invalidated = false) : Whole codec (s.finalize codec).1 := by
  have hreplay : (s.fallbackToGeneric codec true).2.invalidated = false →
      Whole codec (s.fallbackToGeneric codec true).1 := scanBuffer_whole hp
  simp only [finalize] at h ⊢
  split at h
  · next hcall =>
    split at h
    · next hallowed =>
      rw [if_pos hallowed]
      exact commit_whole (validatedCall_writes hcall)
    · next hallowed =>
      rw [if_neg hallowed]
      exact hreplay h
  · exact hreplay h

theorem feedLlama_whole (hp : s.progressive = none) (h : (s.feedLlama codec true).2.invalidated = false) :
    Whole codec (s.feedLlama codec true).1 := by
  simp only [feedLlama] at h ⊢
  split at h
  · next hstart =>
    rw [if_pos hstart]
    split at h
    · next hcand =>
      rw [if_pos hcand]
      exact finalize_whole hp h
    · next hcand =>
      rw [if_neg hcand]
      exact scanBuffer_whole hp h
  · next hstart =>
    rw [if_neg hstart]
    exact finalize_whole hp h

/-! ### Any scanner -/

theorem inDsml_or (s : ToolStreamScanner) : s.state = .generic ∨ InDsml s ∨ s.state = .start ∨ s.state = .hold := by
  cases h : s.state <;> simp [InDsml, h]

/-- **A chunk that may not finish the text** emits whole texts and calls, and may then
    open a call whose envelope has not closed. -/
theorem feed_splits (hs : s.invalidated = false) (hp : s.progressive = none)
    (h : (s.feed codec u false).2.invalidated = false) :
    ∃ events t, Splits codec (s.push u) events t ∧ Ends codec (s.feed codec u false) events t := by
  rcases inDsml_or s with hstate | hstate | hstate
  · rw [feed_generic hs hstate] at h ⊢
    exact scanBuffer_splits hs hp hstate h
  · rw [feed_dsml hs hstate] at h ⊢
    exact scanDsmlBuffer_splits hs hp hstate h
  · rw [feed_llama hs hstate] at h ⊢
    exact feedLlama_splits hs hp hstate h

/-- The last chunk emits whole texts and calls, when no call is open. -/
theorem feed_whole (hp : s.progressive = none)
    (h : (s.feed codec u true).2.invalidated = false) : Whole codec (s.feed codec u true).1 := by
  cases hs : s.invalidated with
  | true =>
    rw [feed_of_invalidated hs]
    exact .nil
  | false =>
    rcases inDsml_or s with hstate | hstate | hstate
    · rw [feed_generic hs hstate] at h ⊢
      exact scanBuffer_whole hp h
    · rw [feed_dsml hs hstate] at h ⊢
      exact scanDsmlBuffer_whole hs hp h
    · rw [feed_llama hs hstate] at h ⊢
      exact feedLlama_whole hp h

theorem push_push (s : ToolStreamScanner) (a b : Text) : (s.push a).push b = s.push (a ++ b) := by
  simp [push]

theorem feed_push (hs : s.invalidated = false) (a b : Text) (final : Bool) :
    (s.push a).feed codec b final = s.feed codec (a ++ b) final := by
  have hs' : (s.push a).invalidated = false := hs
  simp [feed, push_push, hs, hs']

end ToolStreamScanner

end Kairyu
