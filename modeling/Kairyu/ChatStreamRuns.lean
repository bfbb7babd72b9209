/-
  Kairyu/ChatStreamRuns.lean
  ==========================
  **Streamed and whole chat messages compared.**

  A backend sends the texts `texts`, each a prefix of the next, and last the whole
  text, which is finished.  It sends every text whole (`cumulative`) or only what is
  new, with its offset (`native`).

  The stream remembers how much of the text it has dealt with only when a partial
  put something on the wire.  A partial that the reasoning parser holds back
  entirely is read again: a cumulative text is parsed twice from there on, and the
  next native delta no longer fits.  `deliver` is one choice's stream without the
  wire format; its result is worked out for every sequence of texts.
-/
import Kairyu.ReasoningStream

namespace Kairyu

open Text List ReasoningDeltaParser Option

/-! ### One choice without the wire format -/

/-- How a backend carries a text that continues the previous partial's. -/
inductive Delivery where
  | cumulative
  | native
deriving DecidableEq, Repr

open Delivery

/-- The text that follows offset `sent`; the partial before carried `before`. -/
def Delivery.delta (mode : Delivery) (sent : Nat) (before text : Text) : Option Text :=
  match mode with
  | .cumulative => some (text.drop sent)
  | .native =>
    if sent = text.length then some []
    else if sent = before.length then some (text.drop before.length)
    else none

/-- The reasoning and the content sent for the texts `texts` and the finished `last`;
    `none` when a delta does not fit. -/
def deliver (mode : Delivery) (last : Text) :
    ReasoningDeltaParser → Nat → Text → List Text → Option (Text × Text)
  | p, sent, before, [] => (mode.delta sent before last).map fun d => (p.feed d true).1
  | p, sent, before, text :: rest =>
    (mode.delta sent before text).bind fun d =>
      let fed := p.feed d false
      let sent := if fed.1.1 = [] ∧ fed.1.2 = [] then sent else text.length
      (deliver mode last fed.2 sent text rest).map fun more =>
        (fed.1.1 ++ more.1, fed.1.2 ++ more.2)

variable {texts : List Text} {p : ReasoningDeltaParser} {mode : Delivery} {last before w : Text} {sent : Nat} {last before text r c x : Text}

theorem deliver_cons {d : Text} {rest : List Text} {p p' : ReasoningDeltaParser}
    (hdelta : mode.delta sent before text = some d) (hfeed : p.feed d false = ((r, c), p')) :
    deliver mode last p sent before (text :: rest) =
      (deliver mode last p' (if r = [] ∧ c = [] then sent else text.length) text rest).map
        fun more => (r ++ more.1, c ++ more.2) := by
  rw [deliver, hdelta, bind_some]
  simp only [hfeed]

/-- Each text continues the one before it. -/
def Grows (last : Text) : Text → List Text → Prop
  | before, [] => before <+: last
  | before, text :: rest => before <+: text ∧ Grows last text rest

/-- Some partial before the last is held back entirely. -/
def Stalls : Text → List Text → Prop
  | _, [] => False
  | before, text :: rest => Held before text ∨ Stalls text rest

instance decidableStalls : (before : Text) → (texts : List Text) → Decidable (Stalls before texts)
  | _, [] => inferInstanceAs (Decidable False)
  | before, text :: rest =>
    have := decidableStalls text rest
    inferInstanceAs (Decidable (Held before text ∨ Stalls text rest))

theorem Grows.le (h : Grows last before texts) : before <+: last := by
  induction texts generalizing before with
  | nil => exact h
  | cons text rest ih => exact h.1.trans (ih h.2)

theorem drop_prefix_append {y : Text} (h : x <+: y) : x ++ y.drop x.length = y := by
  obtain ⟨d, rfl⟩ := h
  rw [drop_left]

theorem Delivery.delta_of_sent :
    mode.delta before.length before text = some (text.drop before.length) := by
  cases mode with
  | cumulative => rfl
  | native =>
    by_cases hlen : before.length = text.length
    · simp [delta, hlen]
    · simp [delta, hlen]

/-! ### Without a stall -/

/-- An empty chunk changes nothing. -/
theorem After.feed_nil (h : After x p r c) : (p.feed [] false).1 = ([], []) := by
  cases h with
  | undecided hx => simp [ReasoningDeltaParser.feed, hx]
  | @inside r w hfind hlen hkept =>
    simp only [ReasoningDeltaParser.feed, append_nil]
    exact feedReasoning_silent.mpr (.inl hlen)
  | closed => rfl
  | plain => rfl

/-- A partial that is not held back: the offset kept is that of the text fed. -/
theorem After.step (h : After x p r c) (hsent : x = [] ∨ r ≠ [] ∨ c ≠ []) (hle : x <+: text)
    (hheld : ¬ Held x text) : ∃ r1 c1 p1, p.feed (text.drop x.length) false = ((r1, c1), p1) ∧
      After text p1 (r ++ r1) (c ++ c1) ∧ (if r1 = [] ∧ c1 = [] then x.length else text.length) = text.length ∧
      (text = [] ∨ r ++ r1 ≠ [] ∨ c ++ c1 ≠ []) := by
  obtain ⟨r1, c1, p1, hfeed, hafter⟩ := h.feed
  rw [drop_prefix_append hle] at hafter
  refine ⟨r1, c1, p1, hfeed, hafter, ?_⟩
  by_cases hd : text.drop x.length = []
  · have htext : text = x := by
      have := drop_prefix_append hle
      rw [hd, append_nil] at this
      exact this.symm
    have hsilent := h.feed_nil
    rw [← hd, hfeed] at hsilent
    obtain ⟨rfl, rfl⟩ := Prod.mk.inj hsilent
    subst htext
    simpa using hsent
  · have hiff := h.silent_iff hsent hd hfeed
    rw [drop_prefix_append hle] at hiff
    have hloud : ¬ (r1 = [] ∧ c1 = []) := fun hc => hheld (hiff.mp hc)
    rw [if_neg hloud]
    refine ⟨rfl, .inr ?_⟩
    by_cases hr : r1 = []
    · right
      simp only [ne_eq, append_eq_nil_iff, not_and]
      exact fun _ hc => hloud ⟨hr, hc⟩
    · left
      simp [hr]

/-- Fed in chunks none of which is held back, the text is split as a whole. -/
theorem deliver_of_not_stalls (h : After x p r c) (hsent : x = [] ∨ r ≠ [] ∨ c ≠ [])
    (hgrows : Grows last x texts) (hstall : ¬ Stalls x texts) :
    ∃ r' c', deliver mode last p x.length x texts = some (r', c') ∧ (r ++ r', c ++ c') = streamSplit last := by
  induction texts generalizing x r c p with
  | nil =>
    obtain ⟨r', c', p', hfeed, hsplit⟩ := h.feed_last
    refine ⟨r', c', ?_, ?_⟩
    · rw [deliver, delta_of_sent, map_some, hfeed]
    · rwa [drop_prefix_append hgrows] at hsplit
  | cons text rest ih =>
    obtain ⟨hle, hgrows⟩ := hgrows
    obtain ⟨r1, c1, p1, hfeed, hafter, hnext, hsent1⟩ :=
      h.step hsent hle (fun hc => hstall (.inl hc))
    obtain ⟨r', c', hrest, hsplit⟩ := ih hafter hsent1 hgrows (fun hc => hstall (.inr hc))
    refine ⟨r1 ++ r', c1 ++ c', ?_, ?_⟩
    · rw [deliver_cons delta_of_sent hfeed, hnext, hrest, map_some]
    · rw [← append_assoc, ← append_assoc]
      exact hsplit

/-! ### After a stall -/

/-- A native delta no longer fits once a partial was held back. -/
theorem deliver_native_of_lag (hlag : sent < before.length) (hgrows : Grows last before texts) :
    deliver .native last p sent before texts = none := by
  have hdelta (text : Text) (h : before <+: text) : native.delta sent before text = none := by
    have := h.length_le
    rw [delta, if_neg (by omega), if_neg (by omega)]
  cases texts with
  | nil => rw [deliver, hdelta last hgrows, map_none]
  | cons text rest => rw [deliver, hdelta text hgrows.1, bind_none]

theorem drop_split (hle : text <+: last) (hsent : sent ≤ text.length) :
    last.drop sent = text.drop sent ++ last.drop text.length := by
  obtain ⟨d, rfl⟩ := hle
  rw [drop_append_of_le_length hsent, drop_left]

/-- Outside the block, or without a parser, the rest of the text is content. -/
theorem deliver_outside (hmode : mode = .cumulative ∨ sent = before.length) (hsent : sent ≤ before.length)
    (hgrows : Grows last before texts) :
    deliver mode last ⟨w, some false⟩ sent before texts = some ([], last.drop sent) := by
  have hdelta {sent : Nat} {before : Text} (h : mode = .cumulative ∨ sent = before.length) (text : Text) :
      mode.delta sent before text = some (text.drop sent) := by
    rcases h with rfl | rfl
    · rfl
    · exact delta_of_sent
  induction texts generalizing before sent with
  | nil =>
    rw [deliver, hdelta hmode]
    rfl
  | cons text rest ih =>
    obtain ⟨hle, hgrows⟩ := hgrows
    have hsent' : sent ≤ text.length := hsent.trans hle.length_le
    have hnext : (if ([] : Text) = [] ∧ text.drop sent = [] then sent else text.length) = text.length := by
      split
      · next hd => exact hsent'.antisymm (drop_eq_nil_iff.mp hd.2)
      · rfl
    rw [deliver_cons (hdelta hmode text) (feed_outside _ _ _), hnext, ih (.inr rfl) (le_refl _) hgrows,
      drop_split hgrows.le hsent']
    rfl

/-- A chunk inside the block, with what it says about the whole text. -/
theorem feedReasoning_step {w d : Text} (hloud : find thinkClosing (w ++ d) = none → 7 < (w ++ d).length) :
    ∃ r c p, feedReasoning (w ++ d) false = ((r, c), p) ∧
      ((∃ q, p = ⟨q, some false⟩ ∧ ∀ u, beforeClosing (w ++ (d ++ u)) = r) ∨
        ∃ w', p = ⟨w', some true⟩ ∧ w'.length = 7 ∧ find thinkClosing w' = none ∧ r ≠ [] ∧
          ∀ u, beforeClosing (w ++ (d ++ u)) = r ++ beforeClosing (w' ++ u)) := by
  cases hf : find thinkClosing (w ++ d) with
  | some i =>
    refine ⟨_, _, _, by rw [feedReasoning, hf], .inl ⟨_, rfl, fun u => ?_⟩⟩
    have hle := find_add_length_le hf
    rw [← append_assoc, beforeClosing_of_some (find_append_of_some hf u), take_append_of_le_length (by omega)]
  | none =>
    have hlen := hloud hf
    refine ⟨(w ++ d).take ((w ++ d).length - 7), [], ⟨(w ++ d).drop ((w ++ d).length - 7), some true⟩,
      ?_, .inr ⟨_, rfl, ?_, ?_, ?_, fun u => ?_⟩⟩
    · simp only [feedReasoning, hf]
      rw [if_neg (by decide), if_neg (by simpa using hlen)]
      rfl
    · rw [length_drop]; omega
    · rw [find_eq_none] at hf ⊢
      exact fun hc => hf (hc.trans (drop_suffix _ _).isInfix)
    · intro htake
      have := congrArg List.length htake
      simp only [length_take, length_nil] at this
      omega
    · rw [← take_append_drop ((w ++ d).length - 7) (w ++ d)] at hf
      have hmove := find_moved hf (fun _ => by rw [length_drop]; omega) u
      rw [← append_assoc, ← beforeClosing_moved hmove, ← append_assoc, take_append_drop]

theorem deliver_inside_last : ∃ c, deliver .cumulative last ⟨w, some true⟩ sent before [] =
    some (beforeClosing (w ++ last.drop sent), c) := by
  rw [deliver]
  simp only [delta, map_some, feed, feedReasoning]
  cases hf : find thinkClosing (w ++ last.drop sent) with
  | some i => exact ⟨_, by rw [beforeClosing_of_some hf]⟩
  | none => exact ⟨[], by rw [beforeClosing_of_none hf]; rfl⟩

theorem find_closing_short (hw : w.length ≤ 7) : find thinkClosing w = none := by
  cases hf : find thinkClosing w with
  | none => rfl
  | some i =>
    have := find_add_length_le hf
    rw [length_thinkClosing] at this
    omega

/-- With a full window held back, the reasoning is what precedes the marker. -/
theorem deliver_inside (hw : w.length = 7) (hsent : sent ≤ before.length) (hgrows : Grows last before texts) :
    ∃ c, deliver .cumulative last ⟨w, some true⟩ sent before texts = some (beforeClosing (w ++ last.drop sent), c) := by
  induction texts generalizing before sent w with
  | nil => exact deliver_inside_last
  | cons text rest ih =>
    obtain ⟨hle, hgrows⟩ := hgrows
    have hsent' : sent ≤ text.length := hsent.trans hle.length_le
    have hshort := find_closing_short hw.le
    by_cases hd : text.drop sent = []
    · -- Nothing new: the state stays.
      have hfeed : (⟨w, some true⟩ : ReasoningDeltaParser).feed (text.drop sent) false =
          (([], []), ⟨w, some true⟩) := by
        simp [feed, hd, feedReasoning, hshort, hw]
      obtain ⟨c, hc⟩ := ih hw hsent' hgrows
      rw [deliver_cons rfl hfeed, if_pos ⟨rfl, rfl⟩, hc]
      exact ⟨c, rfl⟩
    · have hloud : find thinkClosing (w ++ text.drop sent) = none →
          7 < (w ++ text.drop sent).length := by
        intro _
        have := length_pos_of_ne_nil hd
        rw [length_append]
        omega
      obtain ⟨r, c, p, hfeed, hp⟩ := feedReasoning_step hloud
      rw [← feed_inside] at hfeed
      rw [deliver_cons rfl hfeed, drop_split hgrows.le hsent']
      rcases hp with ⟨q, rfl, hbefore⟩ | ⟨w', rfl, hw', -, hr, hbefore⟩
      · rw [hbefore, deliver_outside (.inl rfl) _ hgrows]
        · exact ⟨_, by rw [map_some, append_nil]⟩
        · split
          · exact hsent'
          · exact le_refl _
      · rw [if_neg (fun hc => hr hc.1)]
        obtain ⟨c', hc'⟩ := ih hw' (le_refl _) hgrows
        rw [hc', hbefore]
        exact ⟨_, rfl⟩

theorem thinkClosing_ne_append {w y : Text} : w ++ (thinkOpening ++ y) ≠ thinkClosing := by
  intro h
  have hlen := congrArg List.length h
  simp only [length_append, length_thinkOpening, length_thinkClosing] at hlen
  -- The character after `w` is `<`, and the one after it is `t`.
  have hchar (n : Nat) (hn : n < 7) : thinkClosing[w.length + n]? = thinkOpening[n]? := by
    rw [← h, List.getElem?_append_right (by omega), Nat.add_sub_cancel_left,
      List.getElem?_append_left (by simpa using hn)]
  have hnone : ∀ k < 2, ∃ n < 7, thinkClosing[k + n]? ≠ thinkOpening[n]? := by decide
  obtain ⟨n, hn, hne⟩ := hnone w.length (by omega)
  exact hne (hchar n hn)

/-- A held-back start of the block is read a second time, inside the block. -/
theorem deliver_reread (hw : w.length ≤ 7) (hopen : thinkOpening <+: before) (hgrows : Grows last before texts) :
    ∃ v c, v.length ≤ 7 ∧ deliver .cumulative last ⟨w, some true⟩ 0 before texts =
      some (beforeClosing (v ++ last), c) := by
  cases texts with
  | nil =>
    obtain ⟨c, hc⟩ : ∃ c, deliver .cumulative last ⟨w, some true⟩ 0 before [] = some (beforeClosing (w ++ last), c) :=
      deliver_inside_last
    exact ⟨w, c, hw, hc⟩
  | cons text rest =>
    obtain ⟨hle, hgrows⟩ := hgrows
    obtain ⟨y, rfl⟩ := hopen.trans hle
    by_cases hshort : (w ++ (thinkOpening ++ y)).length ≤ 7
    · -- The opening alone is held back once more, now as reasoning.
      have hnil : w = [] ∧ y = [] := by
        simp only [length_append, length_thinkOpening] at hshort
        exact ⟨length_eq_zero_iff.mp (by omega), length_eq_zero_iff.mp (by omega)⟩
      obtain ⟨rfl, rfl⟩ := hnil
      have hfeed : (⟨[], some true⟩ : ReasoningDeltaParser).feed (thinkOpening ++ []) false =
          (([], []), ⟨thinkOpening, some true⟩) := by decide
      obtain ⟨c, hc⟩ := deliver_inside (w := thinkOpening) rfl (Nat.zero_le _) hgrows
      rw [deliver_cons rfl hfeed, if_pos ⟨rfl, rfl⟩, hc]
      exact ⟨thinkOpening, c, le_refl _, rfl⟩
    · obtain ⟨r, c, p, hfeed, hp⟩ :=
        feedReasoning_step (w := w) (d := thinkOpening ++ y) (fun _ => by omega)
      have hloud : ¬ (r = [] ∧ c = []) := by
        rintro ⟨rfl, rfl⟩
        rcases feedReasoning_silent.mp (by rw [hfeed]) with h | h
        · exact hshort h
        · exact thinkClosing_ne_append h
      rw [← feed_inside] at hfeed
      obtain ⟨u, hu⟩ := hgrows.le
      rw [deliver_cons rfl hfeed, if_neg hloud]
      refine ⟨w, ?_⟩
      rcases hp with ⟨q, rfl, hbefore⟩ | ⟨w', rfl, hw', -, -, hbefore⟩
      · rw [deliver_outside (.inl rfl) (le_refl _) hgrows, ← hu, hbefore]
        exact ⟨_, hw, by rw [map_some, append_nil]⟩
      · obtain ⟨c', hc'⟩ := deliver_inside hw' (le_refl _) hgrows
        rw [hc', ← hu, hbefore, drop_left]
        exact ⟨_, hw, rfl⟩

/-- Read a second time, the block is longer than it is. -/
theorem length_beforeClosing_reread {v y : Text} (hv : v.length ≤ 7) :
    (beforeClosing y).length + 7 ≤ (beforeClosing (v ++ (thinkOpening ++ y))).length := by
  have happend : beforeClosing (v ++ (thinkOpening ++ y)) = v ++ beforeClosing (thinkOpening ++ y) :=
    beforeClosing_append (find_closing_short hv)
  rw [happend, beforeClosing_opening]
  simp only [length_append, length_thinkOpening]
  omega

/-- The first text that is not empty. -/
def firstText (texts : List Text) : Option Text := texts.find? (· ≠ [])

/-- What reached the wire is neither the whole text nor its split. -/
def Garbled (last reasoning content : Text) : Prop :=
  (reasoning = [] ∧ last.length < content.length) ∨
    (thinkOpening <+: last ∧ reasoning ≠ [] ∧ (reasoning, content) ≠ streamSplit last)

theorem Garbled.of_long (hopen : thinkOpening <+: last)
    (hlong : (beforeClosing (last.drop 7)).length + 7 ≤ r.length) : Garbled last r c := by
  refine .inr ⟨hopen, ?_, ?_⟩
  · rintro rfl
    rw [length_nil] at hlong
    omega
  · rw [streamSplit, if_pos hopen]
    intro heq
    rw [(Prod.mk.inj heq).1] at hlong
    omega

/-- The block is read a second time. -/
theorem garbled_reread (hw : w.length ≤ 7) (hopen : thinkOpening <+: before) (hgrows : Grows last before texts) :
    ∃ r c, deliver .cumulative last ⟨w, some true⟩ 0 before texts = some (r, c) ∧ Garbled last r c := by
  obtain ⟨v, c, hv, hdeliver⟩ := deliver_reread hw hopen hgrows
  obtain ⟨y, rfl⟩ := hopen.trans hgrows.le
  refine ⟨_, c, hdeliver, .of_long (prefix_append _ _) ?_⟩
  exact length_beforeClosing_reread hv

/-- An undecided opening is read a second time. -/
theorem garbled_undecided (hne : before ≠ []) (hpre : before <+: thinkOpening)
    (hgrows : Grows last before texts) : ∃ r c, deliver .cumulative last ⟨before, none⟩ 0 before texts = some (r, c) ∧
      Garbled last r c := by
  have hhead : ∃ b, before = cp '<' :: b := by
    obtain ⟨c, b, rfl⟩ := exists_cons_of_ne_nil hne
    rw [thinkOpening_eq, cons_prefix_cons] at hpre
    exact ⟨b, by rw [hpre.1]⟩
  -- The next text starts with `<` again, so the pending text is no start of the opening.
  have hnext (q : Text) (hq : before <+: q) :
      ¬ before ++ q <+: thinkOpening ∧ (thinkOpening <+: before ++ q → before = thinkOpening) := by
    obtain ⟨b, rfl⟩ := hhead
    obtain ⟨d, rfl⟩ := hq
    have hchar : ∀ n < 7, 0 < n → thinkOpening[n]? ≠ some (cp '<') := by decide
    have hlen := hpre.length_le
    have hget : ((cp '<' :: b) ++ ((cp '<' :: b) ++ d))[(cp '<' :: b).length]? = some (cp '<') := by simp
    constructor
    · rintro ⟨u, hu⟩
      have hlong := congrArg List.length hu
      simp only [length_append, length_thinkOpening] at hlong
      have hpos : 0 < (cp '<' :: b).length := by simp
      have hshort : (cp '<' :: b).length < 7 := by omega
      refine hchar _ hshort hpos ?_
      rw [← hu, List.getElem?_append_left (by simp only [length_append]; omega), hget]
    · rintro ⟨u, hu⟩
      by_contra hne'
      have hshort : (cp '<' :: b).length < 7 := by
        refine lt_of_le_of_ne hlen fun heq => hne' ?_
        exact hpre.eq_of_length heq
      refine hchar _ hshort (by simp) ?_
      have hl : (thinkOpening ++ u)[(cp '<' :: b).length]? = thinkOpening[(cp '<' :: b).length]? :=
        List.getElem?_append_left hshort
      rw [← hl, hu, hget]
  by_cases hfull : before = thinkOpening
  · -- From here on the parser is inside the block.
    subst hfull
    have hsame (d : Text) (final : Bool) (hd : thinkOpening <+: d) :
        (⟨thinkOpening, none⟩ : ReasoningDeltaParser).feed d final =
          (⟨[], some true⟩ : ReasoningDeltaParser).feed d final := by
      simp only [feed, nil_append]
      rw [if_neg (fun hc => (hnext d hd).1 hc.1), if_pos (prefix_append _ _), drop_left]
    obtain ⟨r, c, hdeliver, hgarbled⟩ :=
      garbled_reread (w := []) (Nat.zero_le _) (prefix_refl _) hgrows
    refine ⟨r, c, ?_, hgarbled⟩
    rw [← hdeliver]
    cases texts with
    | nil =>
      have hfeed := hsame (last.drop 0) true hgrows
      simp only [deliver, delta, map_some, hfeed]
    | cons text rest =>
      have hfeed := hsame (text.drop 0) false hgrows.1
      simp only [deliver, delta, bind_some, hfeed]
  · have hfeed (d : Text) (final : Bool) (hd : before <+: d) :
        (⟨before, none⟩ : ReasoningDeltaParser).feed d final =
          (([], before ++ d), ⟨[], some false⟩) := by
      simp only [feed]
      rw [if_neg (fun hc => (hnext d hd).1 hc.1), if_neg (fun hc => hfull ((hnext d hd).2 hc))]
    have hlong : last.length < (before ++ last).length := by
      have := length_pos_of_ne_nil hne
      rw [length_append]
      omega
    refine ⟨[], before ++ last, ?_, .inl ⟨rfl, hlong⟩⟩
    cases texts with
    | nil => simp only [deliver, delta, drop_zero, map_some, hfeed last true hgrows]
    | cons text rest =>
      obtain ⟨hle, hgrows⟩ := hgrows
      rw [deliver_cons rfl (hfeed (text.drop 0) false hle), if_neg (fun hc => hne (append_eq_nil_iff.mp hc.2).1),
        deliver_outside (.inl rfl) (le_refl _) hgrows, map_some, drop_zero, append_assoc,
        drop_prefix_append hgrows.le]
      rfl

/-- The chunk that completes the marker is read a second time, as content. -/
theorem garbled_marker {rest : List Text} (hheld : Held x text) (hx : x ≠ [])
    (hsent : r ≠ [] ∨ c ≠ []) (hafter : After text p r c) (hgrows : Grows last text rest) :
    ∃ r' c', deliver .cumulative last p x.length text rest = some (r', c') ∧ Garbled last (r ++ r') (c ++ c') := by
  obtain ⟨-, hcond⟩ := hheld
  rw [if_neg hx] at hcond
  obtain ⟨rfl, hopen, hfind⟩ := hcond
  have hdrop (y : Text) : (thinkOpening ++ y).drop 7 = y := drop_left' rfl
  generalize htext : x ++ [cp '>'] = text at *
  cases hafter with
  | undecided => simp at hsent
  | inside hnone => rw [hdrop, hnone] at hfind; exact nomatch hfind
  | @closed y i hsome =>
    rw [hdrop, hsome, some_inj] at hfind
    have hlen : x.length + 1 = (thinkOpening ++ y).length := by rw [← htext]; simp
    have hle := find_add_length_le hsome
    simp only [length_append, length_thinkOpening] at hlen hfind hle
    have hnil : y.drop (i + thinkClosing.length) = [] :=
      drop_of_length_le (by rw [length_thinkClosing]; omega)
    rw [hnil] at hsent ⊢
    refine ⟨[], last.drop x.length, deliver_outside (.inl rfl) ?_ hgrows, .inr ⟨?_, ?_, ?_⟩⟩
    · rw [length_append, length_thinkOpening]; omega
    · exact (prefix_append _ _).trans hgrows.le
    · simpa using hsent
    · obtain ⟨e, rfl⟩ := hgrows.le
      rw [append_assoc, streamSplit_opening, afterClosing_of_some (find_append_of_some hsome e)]
      intro heq
      have := congrArg List.length (Prod.mk.inj heq).2
      simp only [length_drop, length_append, length_thinkOpening, length_thinkClosing] at this
      omega
  | plain _ hno => exact absurd hopen hno

/-- A chunk that the parser keeps to itself. -/
theorem After.held (h : After x p r c) (hsent : x = [] ∨ r ≠ [] ∨ c ≠ []) (hle : x <+: text)
    (hheld : Held x text) :
    ∃ p1, p.feed (text.drop x.length) false = (([], []), p1) ∧ After text p1 r c ∧ x.length < text.length := by
  have hjoin := drop_prefix_append hle
  have hd : text.drop x.length ≠ [] := by
    intro hd
    rw [hd, append_nil] at hjoin
    exact hheld.1 hjoin.symm
  obtain ⟨r1, c1, p1, hfeed, hafter⟩ := h.feed
  have hiff := h.silent_iff hsent hd hfeed
  rw [hjoin] at hafter hiff
  obtain ⟨rfl, rfl⟩ := hiff.mpr hheld
  rw [append_nil, append_nil] at hafter
  refine ⟨p1, hfeed, hafter, ?_⟩
  have hlong := length_pos_of_ne_nil hd
  rw [length_drop] at hlong
  omega

/-- A stalled cumulative stream garbles the text, except that a first partial that is
    an empty block makes it send the whole text as content. -/
theorem deliver_of_stalls (h : After x p r c) (hsent : x = [] ∨ r ≠ [] ∨ c ≠ [])
    (hgrows : Grows last x texts) (hstall : Stalls x texts) :
    ∃ r' c', deliver .cumulative last p x.length x texts = some (r', c') ∧ (Garbled last (r ++ r') (c ++ c') ∨
        x = [] ∧ firstText texts = some (thinkOpening ++ thinkClosing) ∧ r' = [] ∧ c' = last) := by
  induction texts generalizing x r c p with
  | nil => exact hstall.elim
  | cons text rest ih =>
    obtain ⟨hle, hgrows⟩ := hgrows
    by_cases hheld : Held x text
    · obtain ⟨p1, hfeed, hafter, -⟩ := h.held hsent hle hheld
      have hdeliver : deliver .cumulative last p x.length x (text :: rest) =
          deliver .cumulative last p1 x.length text rest := by
        rw [deliver_cons rfl hfeed]
        exact map_id'
      rw [hdeliver]
      by_cases hx : x = []
      · subst hx
        obtain ⟨-, hr, hc⟩ := h.of_nil
        have hne : text ≠ [] := hheld.1
        cases hafter with
        | undecided hpre =>
          obtain ⟨r', c', hrest, hgarbled⟩ := garbled_undecided hne hpre hgrows
          exact ⟨r', c', hrest, .inl hgarbled⟩
        | @inside r w _ hlen =>
          subst hr
          obtain ⟨r', c', hrest, hgarbled⟩ := garbled_reread hlen (prefix_append _ _) hgrows
          exact ⟨r', c', hrest, .inl hgarbled⟩
        | @closed y i hsome =>
          -- An empty block.
          have hy := find_eq_some_append hsome
          rw [hr, hc] at hy
          refine ⟨[], last, deliver_outside (.inl rfl) (Nat.zero_le _) hgrows, .inr ⟨rfl, ?_, rfl, rfl⟩⟩
          rw [hy]
          rfl
        | plain => exact absurd hc hne
      · obtain ⟨r', c', hrest, hgarbled⟩ :=
          garbled_marker hheld hx (hsent.resolve_left hx) hafter hgrows
        exact ⟨r', c', hrest, .inl hgarbled⟩
    · obtain ⟨r1, c1, p1, hfeed, hafter, hnext, hsent1⟩ := h.step hsent hle hheld
      obtain ⟨r', c', hrest, hout⟩ := ih hafter hsent1 hgrows (hstall.resolve_left hheld)
      refine ⟨r1 ++ r', c1 ++ c', ?_, ?_⟩
      · rw [deliver_cons rfl hfeed, hnext, hrest, map_some]
      · rcases hout with hgarbled | ⟨rfl, hfirst, rfl, rfl⟩
        · left
          rw [← append_assoc, ← append_assoc]
          exact hgarbled
        · have hx : x = [] := prefix_nil.mp hle
          obtain ⟨-, hr, hc⟩ := hafter.of_nil
          rw [append_eq_nil_iff] at hr hc
          refine .inr ⟨hx, hfirst, ?_, ?_⟩
          · rw [hr.2]; rfl
          · rw [hc.2]; rfl

theorem firstText_cons {first : Text} {rest : List Text} (h : firstText (text :: rest) = some first) :
    text = [] ∧ firstText rest = some first ∨ text = first := by
  by_cases htext : text = []
  · subst htext
    exact .inl ⟨rfl, h⟩
  · exact .inr (by simpa [firstText, List.find?_cons, htext] using h)

theorem deliver_emptyBlock (hgrows : Grows last [] texts)
    (hfirst : firstText texts = some (thinkOpening ++ thinkClosing)) :
    deliver .cumulative last ⟨[], none⟩ 0 [] texts = some ([], last) := by
  induction texts with
  | nil => exact nomatch hfirst
  | cons text rest ih =>
    rcases firstText_cons hfirst with ⟨rfl, hfirst⟩ | rfl
    · have hfeed : (⟨[], none⟩ : ReasoningDeltaParser).feed (([] : Text).drop 0) false =
          (([], []), ⟨[], none⟩) := by decide
      rw [deliver_cons rfl hfeed, if_pos ⟨rfl, rfl⟩, ih hgrows.2 hfirst]
      rfl
    · have hfeed : (⟨[], none⟩ : ReasoningDeltaParser).feed
          ((thinkOpening ++ thinkClosing).drop 0) false = (([], []), ⟨[], some false⟩) := by decide
      rw [deliver_cons rfl hfeed, if_pos ⟨rfl, rfl⟩, deliver_outside (.inl rfl) (Nat.zero_le _) hgrows.2]
      rfl

theorem stalls_of_emptyBlock (hfirst : firstText texts = some (thinkOpening ++ thinkClosing)) : Stalls [] texts := by
  induction texts with
  | nil => exact nomatch hfirst
  | cons text rest ih =>
    rcases firstText_cons hfirst with ⟨rfl, hfirst⟩ | rfl
    · exact .inr (ih hfirst)
    · exact .inl (by decide)

theorem firstText_le (hgrows : Grows last before texts) (hfirst : firstText texts = some text) :
    text <+: last := by
  induction texts generalizing before with
  | nil => exact nomatch hfirst
  | cons q rest ih =>
    rcases firstText_cons hfirst with ⟨rfl, hfirst⟩ | rfl
    · exact ih hgrows.2 hfirst
    · exact hgrows.2.le

/-- A stalled native stream fails. -/
theorem deliver_native_of_stalls (h : After x p r c) (hsent : x = [] ∨ r ≠ [] ∨ c ≠ [])
    (hgrows : Grows last x texts) (hstall : Stalls x texts) : deliver .native last p x.length x texts = none := by
  induction texts generalizing x r c p with
  | nil => exact hstall.elim
  | cons text rest ih =>
    obtain ⟨hle, hgrows⟩ := hgrows
    by_cases hheld : Held x text
    · obtain ⟨p1, hfeed, -, hlag⟩ := h.held hsent hle hheld
      rw [deliver_cons delta_of_sent hfeed, if_pos ⟨rfl, rfl⟩, deliver_native_of_lag hlag hgrows]
      rfl
    · obtain ⟨r1, c1, p1, hfeed, hafter, hnext, hsent1⟩ := h.step hsent hle hheld
      rw [deliver_cons delta_of_sent hfeed, hnext, ih hafter hsent1 hgrows (hstall.resolve_left hheld)]
      rfl

/-! ### The stream of one choice -/

/-- A completion of choice `index` that carries `text` after `before`, with no
    reasoning of the backend's own. -/
structure Carries (mode : Delivery) (index : Nat) (before text : Text) (c : CompletionOutput) :
    Prop where
  index : c.index = index
  reasoningContent : c.reasoningContent = none
  reasoningDelta : c.reasoningDelta = none
  reasoningOffset : c.reasoningOffset = none
  grows : before <+: text
  whole : c.text = text
  delta : match mode with
    | .cumulative => c.textDelta = none ∧ c.textOffset = none
    | .native =>
      c.textDelta = some (text.drop before.length) ∧ c.textOffset = some (before.length : Int)

/-- A backend stream that carries `texts` and ends, finished, in `last`. -/
inductive Delivers (mode : Delivery) (index : Nat) (last : Text) :
    Text → List Text → List GenerationPartial → Prop
  | last {before : Text} {c : CompletionOutput} (h : Carries mode index before last c) :
      Delivers mode index last before [] [⟨[c], true⟩]
  | next {before text : Text} {c : CompletionOutput} {texts : List Text}
      {rest : List GenerationPartial} (h : Carries mode index before text c)
      (hrest : Delivers mode index last text texts rest) :
      Delivers mode index last before (text :: texts) (⟨[c], false⟩ :: rest)

theorem Delivers.grows {index : Nat} {partials : List GenerationPartial}
    (h : Delivers mode index last before texts partials) : Grows last before texts := by
  induction h with
  | last h => exact h.grows
  | next h _ ih => exact ⟨h.grows, ih⟩

theorem Carries.deltaAfter {index : Nat} {c : CompletionOutput}
    (h : Carries mode index before text c) (sent : Nat) : match mode.delta sent before text with
    | none => ∃ e, c.deltaAfter sent = .error e
    | some d => c.deltaAfter sent = .ok (d, text.length) := by
  have hdelta := h.delta
  have hle := h.grows.length_le
  cases mode with
  | cumulative =>
    simp [Delivery.delta, CompletionOutput.deltaAfter, deltaFrom, hdelta.1, hdelta.2, h.whole]
  | native =>
    have hend : ((sent : Int) = (before.length : Int) + (text.drop before.length).length) ↔
        sent = text.length := by
      rw [length_drop]
      omega
    simp only [CompletionOutput.deltaAfter, deltaFrom, hdelta.1, hdelta.2, hend, Delivery.delta]
    by_cases h1 : sent = text.length
    · simp [h1]
    · by_cases h2 : sent = before.length
      · have h4 : before.length + (text.drop before.length).length = text.length := by
          rw [length_drop]
          omega
        simp [← h2, h1] at h4 ⊢
        exact h4
      · have h3 : ¬ (before.length : Int) = sent := by omega
        simp [h1, h2, h3]

theorem Carries.reasoningDeltaAfter {index : Nat} {c : CompletionOutput}
    (h : Carries mode index before text c) : c.reasoningDeltaAfter 0 = .ok ([], 0) := by
  simp [CompletionOutput.reasoningDeltaAfter, deltaFrom, h.reasoningContent, h.reasoningDelta, h.reasoningOffset]

/-- The parser a choice's deltas go through; without an effort they pass unparsed. -/
def splitter (request : ChatRequest) (s : ChatStream) (index : Nat) : ReasoningDeltaParser :=
  if request.reasoningEffort = none then ⟨[], some false⟩
  else (s.reasoningParsers.lookup index).getD {}

/-- The stream's variables for one choice. -/
structure Tracks (request : ChatRequest) (index sent : Nat) (p : ReasoningDeltaParser)
    (s : ChatStream) : Prop where
  sent : (s.sent.lookup index).getD 0 = sent
  reasoning : (s.reasoningSent.lookup index).getD 0 = 0
  parser : splitter request s index = p

/-- Only completions of one choice are read off the wire, and no failure. -/
def Clean (events : List ChatEvent) : Prop := ∀ name, .error name ∉ events

theorem Clean.append {a b : List ChatEvent} (h : Clean a) (h' : Clean b) : Clean (a ++ b) := by
  intro name hmem
  rcases mem_append.mp hmem with hmem | hmem
  · exact h name hmem
  · exact h' name hmem

theorem reasoningOnWire_append (index : Nat) (a b : List ChatEvent) :
    reasoningOnWire index (a ++ b) = reasoningOnWire index a ++ reasoningOnWire index b := by
  simp [reasoningOnWire]

theorem contentOnWire_append (index : Nat) (a b : List ChatEvent) :
    contentOnWire index (a ++ b) = contentOnWire index a ++ contentOnWire index b := by
  simp [contentOnWire]

namespace ChatStream

variable {request : ChatRequest} {p : ReasoningDeltaParser} {s : ChatStream} {index sent : Nat} {c : CompletionOutput}

theorem splitDelta_spec (h : Tracks request index sent p s) (d : Text) (final : Bool) :
    (s.splitDelta request index d [] final).1 = (p.feed d final).1 ∧
      Tracks request index sent (p.feed d final).2 (s.splitDelta request index d [] final).2 := by
  have hp := h.parser
  unfold splitter at hp
  by_cases heffort : request.reasoningEffort = none
  · rw [if_pos heffort] at hp
    subst hp
    rw [splitDelta, if_neg (fun hc => hc.1 heffort)]
    exact ⟨rfl, h⟩
  · rw [if_neg heffort] at hp
    rw [splitDelta, if_pos ⟨heffort, rfl⟩]
    subst hp
    refine ⟨rfl, h.sent, h.reasoning, ?_⟩
    rw [splitter, if_neg heffort]
    simp

theorem takeLogprobs_tracks (h : Tracks request index sent p s) (c : CompletionOutput) :
    Tracks request index sent p (s.takeLogprobs request c).2 := by
  unfold takeLogprobs
  split
  · exact ⟨h.sent, h.reasoning, h.parser⟩
  · exact h

theorem write_spec (s : ChatStream) (index : Nat) (reasoning content : Text) (logprobs : Option (List TokenLogprob)) :
    reasoningOnWire index (s.write index reasoning content logprobs).1 = reasoning ∧
      contentOnWire index (s.write index reasoning content logprobs).1 = content ∧
      Clean (s.write index reasoning content logprobs).1 := by
  unfold write
  by_cases hr : reasoning = [] <;> by_cases hc : content = [] ∧ logprobs = none
  · simp [hr, hc.1, reasoningOnWire, contentOnWire, Clean]
  · simp [hr, hc, reasoningOnWire, contentOnWire, Clean]
  · simp [hr, hc.1, reasoningOnWire, contentOnWire, Clean]
  · simp [hr, hc, reasoningOnWire, contentOnWire, Clean]

/-- One completion that carries a text. -/
theorem onCompletion_spec {mode : Delivery} (h : Tracks request index sent p s)
    (hc : Carries mode index before text c) (final : Bool) : match mode.delta sent before text with
    | none => ∃ e, s.onCompletion request final c = .error e
    | some d => ∃ events s', s.onCompletion request final c = .ok (events, s') ∧
        reasoningOnWire index events = (p.feed d final).1.1 ∧
        contentOnWire index events = (p.feed d final).1.2 ∧ Clean events ∧
        (final = false → Tracks request index
          (if (p.feed d final).1.1 = [] ∧ (p.feed d final).1.2 = [] then sent else text.length)
          (p.feed d final).2 s') := by
  have hidx := hc.index
  subst hidx
  have hdelta := hc.deltaAfter sent
  unfold onCompletion
  rw [h.sent, h.reasoning, hc.reasoningDeltaAfter]
  cases hd : mode.delta sent before text with
  | none =>
    rw [hd] at hdelta
    obtain ⟨e, he⟩ := hdelta
    exact ⟨e, by simp only [he]; rfl⟩
  | some d =>
    rw [hd] at hdelta
    simp only [hdelta, bind, Except.bind]
    have hs1 : Tracks request c.index sent p
        { s with reasoningSent := s.reasoningSent.insert c.index 0 } :=
      ⟨h.sent, by simp, h.parser⟩
    obtain ⟨hout, htrack⟩ := splitDelta_spec hs1 d final
    generalize hsplit : splitDelta _ request c.index d [] final = split at hout htrack ⊢
    obtain ⟨⟨r, t⟩, s2⟩ := split
    rw [← hout]
    by_cases hquiet : t = [] ∧ r = [] ∧ final = false
    · obtain ⟨rfl, rfl, rfl⟩ := hquiet
      refine ⟨[], s2, rfl, rfl, rfl, fun _ => not_mem_nil, fun _ => ?_⟩
      exact htrack
    · rw [if_neg hquiet]
      have hspec := write_spec
        (takeLogprobs { s2 with sent := s2.sent.insert c.index text.length } request c).2 c.index r t
        (takeLogprobs { s2 with sent := s2.sent.insert c.index text.length } request c).1
      refine ⟨_, _, rfl, hspec.1, hspec.2.1, hspec.2.2, fun hfinal => ?_⟩
      rw [if_neg (fun hc => hquiet ⟨hc.2, hc.1, hfinal⟩)]
      have hs3 : Tracks request c.index text.length (p.feed d final).2
          { s2 with sent := s2.sent.insert c.index text.length } :=
        ⟨by simp, htrack.reasoning, htrack.parser⟩
      have hs4 := takeLogprobs_tracks hs3 c
      exact ⟨hs4.sent, hs4.reasoning, hs4.parser⟩

theorem onCompletions_error {final : Bool} {e : ValueError} (h : s.onCompletion request final c = .error e) :
    s.onCompletions request final [c] = ([], .error e) := by
  rw [onCompletions, h]

theorem onCompletions_ok {final : Bool} {s s' : ChatStream} {events : List ChatEvent}
    (h : s.onCompletion request final c = .ok (events, s')) : s.onCompletions request final [c] = (events, .ok s') := by
  simp [onCompletions, h]

/-- The wire carries what `deliver` says; a delta that does not fit ends the stream. -/
theorem streamFrom_spec {mode : Delivery} {texts : List Text} {partials : List GenerationPartial}
    (latest : Option GenerationPartial) (hs : Tracks request index sent p s)
    (h : Delivers mode index last before texts partials) : match deliver mode last p sent before texts with
    | none => ¬ Clean (streamFrom request s latest partials)
    | some (r, c) => Clean (streamFrom request s latest partials) ∧
        reasoningOnWire index (streamFrom request s latest partials) = r ∧
        contentOnWire index (streamFrom request s latest partials) = c := by
  induction h generalizing sent p s latest with
  | @last before c hc =>
    have hspec := onCompletion_spec hs hc true
    rw [deliver]
    cases hd : mode.delta sent before last with
    | none =>
      rw [hd] at hspec
      obtain ⟨e, he⟩ := hspec
      simp only [streamFrom, onCompletions_error he]
      intro hclean
      exact hclean "ValueError" (by simp)
    | some d =>
      rw [hd] at hspec
      obtain ⟨events, s', hok, hr, ht, hclean, -⟩ := hspec
      simp only [streamFrom, onCompletions_ok hok]
      refine ⟨hclean.append (by simp [Clean]), ?_, ?_⟩
      · rw [reasoningOnWire_append, hr]
        simp [reasoningOnWire]
      · rw [contentOnWire_append, ht]
        simp [contentOnWire]
  | @next before text c texts rest hc hrest ih =>
    have hspec := onCompletion_spec hs hc false
    cases hd : mode.delta sent before text with
    | none =>
      rw [hd] at hspec
      obtain ⟨e, he⟩ := hspec
      simp only [deliver, hd, streamFrom, onCompletions_error he]
      intro hclean
      exact hclean "ValueError" (by simp)
    | some d =>
      rw [hd] at hspec
      obtain ⟨events, s', hok, hr, ht, hclean, htrack⟩ := hspec
      generalize hfeed : p.feed d false = fed at hr ht htrack
      obtain ⟨⟨r1, c1⟩, p1⟩ := fed
      have hnext := ih (some ⟨[c], false⟩) (htrack rfl)
      rw [deliver_cons hd hfeed]
      simp only [streamFrom, onCompletions_ok hok]
      cases hdel : deliver mode last p1 _ text texts with
      | none =>
        rw [hdel] at hnext
        intro hall
        exact hnext fun name hmem => hall name (mem_append_right _ hmem)
      | some more =>
        rw [hdel] at hnext
        obtain ⟨hclean', hr', ht'⟩ := hnext
        refine ⟨hclean.append hclean', ?_, ?_⟩
        · rw [reasoningOnWire_append, hr, hr']
        · rw [contentOnWire_append, ht, ht']

end ChatStream

/-! ### The whole message -/

/-- The reasoning and the content of the whole message, an absent reasoning read as
    empty. -/
def wholeSplit (effort : Option String) (text : Text) : Text × Text :=
  if effort ≠ none ∧ effort ≠ some "none" then
    ((splitReasoning text).1.getD [], (splitReasoning text).2)
  else ([], text)

/-- Without tools no call is published. -/
theorem buildChoice_no_tools (parsing : ToolCallParsing) (index : Nat) (text : Text)
    {choice : NormalizedToolChoice} (hchoice : choice.allowedNames = []) (finish : Option String)
    (effort : Option String) : let message := (buildChoice parsing false index text choice finish none effort).message
    message.reasoningContent.getD [] = (wholeSplit effort text).1 ∧
      message.content = some (wholeSplit effort text).2 := by
  have hallow (name : Text) : choice.allows name = false := by
    simp [NormalizedToolChoice.allows, hchoice]
  have hfilter (calls : List ToolCall) : calls.filter (fun call => choice.allows call.name) = [] := by
    simp [hallow]
  unfold buildChoice wholeSplit
  by_cases heffort : effort ≠ none ∧ effort ≠ some "none"
  · rw [if_pos ⟨rfl, heffort.1, heffort.2⟩, if_pos heffort]
    by_cases hmode : choice.mode = .none <;> simp [hmode, hfilter]
  · rw [if_neg (fun hc => heffort hc.2), if_neg heffort]
    by_cases hmode : choice.mode = .none <;> simp [hmode, hfilter]

variable {text : Text}

theorem splitReasoning_opening (h : thinkOpening <+: text) :
    ((splitReasoning text).1.getD [], (splitReasoning text).2) = streamSplit text := by
  obtain ⟨y, rfl⟩ := h
  rw [streamSplit_opening]
  unfold splitReasoning
  simp only [prefix_append, if_true, drop_left]
  cases hf : find thinkClosing y with
  | none => simp [beforeClosing_of_none hf, afterClosing_of_none hf]
  | some i => simp [beforeClosing_of_some hf, afterClosing_of_some hf]

theorem splitReasoning_plain (h : ¬ thinkOpening <+: text) (hclosing : ¬ thinkClosing <:+: text) :
    splitReasoning text = (none, text) := by
  have hf : find thinkClosing text = none := find_eq_none.mpr hclosing
  simp [splitReasoning, h, hf]

/-- A closing marker alone takes text out of the content. -/
theorem splitReasoning_closing (h : ¬ thinkOpening <+: text) (hclosing : thinkClosing <:+: text) :
    (splitReasoning text).2.length < text.length := by
  cases hf : find thinkClosing text with
  | none => exact absurd hclosing (find_eq_none.mp hf)
  | some i =>
    have hle := find_add_length_le hf
    simp only [splitReasoning, h, if_false, hf, length_drop]
    simp only [length_thinkClosing] at hle ⊢
    omega

/-- An opening takes text out of the content. -/
theorem length_streamSplit_lt (h : thinkOpening <+: text) : (streamSplit text).2.length < text.length := by
  obtain ⟨y, rfl⟩ := h
  rw [streamSplit_opening]
  cases hf : find thinkClosing y with
  | none => simp [afterClosing_of_none hf]
  | some i =>
    simp only [afterClosing_of_some hf, length_drop, length_append, length_thinkOpening]
    omega

theorem length_wholeSplit_le (effort : Option String) (text : Text) :
    (wholeSplit effort text).2.length ≤ text.length := by
  unfold wholeSplit
  split
  · by_cases h : thinkOpening <+: text
    · rw [splitReasoning_opening h]
      exact (length_streamSplit_lt h).le
    · by_cases hclosing : thinkClosing <:+: text
      · exact (splitReasoning_closing h hclosing).le
      · simp [splitReasoning_plain h hclosing]
  · exact le_refl _

/-- The two paths split this text alike. -/
def Agrees (effort : Option String) (text : Text) : Prop :=
  if effort = some "none" then ¬ thinkOpening <+: text
  else thinkOpening <+: text ∨ ¬ thinkClosing <:+: text

theorem wholeSplit_eq_streamSplit {effort : Option String} (heffort : effort ≠ none) (text : Text) :
    wholeSplit effort text = streamSplit text ↔ Agrees effort text := by
  unfold wholeSplit Agrees
  by_cases hnone : effort = some "none"
  · rw [if_neg (fun hc => hc.2 hnone), if_pos hnone]
    by_cases h : thinkOpening <+: text
    · simp only [h, not_true_eq_false, iff_false]
      intro heq
      have hlt := length_streamSplit_lt h
      rw [← heq] at hlt
      exact lt_irrefl _ hlt
    · simp [streamSplit, h]
  · rw [if_pos ⟨heffort, hnone⟩, if_neg hnone]
    by_cases h : thinkOpening <+: text
    · simp only [splitReasoning_opening h, h, true_or]
    · simp only [h, false_or]
      by_cases hclosing : thinkClosing <:+: text
      · simp only [hclosing, not_true_eq_false, iff_false, streamSplit, if_neg h]
        intro heq
        have hlen := congrArg (fun s : Text × Text => s.2.length) heq
        have hshort := splitReasoning_closing h hclosing
        simp only at hlen
        omega
      · simp [splitReasoning_plain h hclosing, streamSplit, h, hclosing]

theorem Garbled.ne_wholeSplit (h : Garbled last r c) (effort : Option String) :
    (r, c) ≠ wholeSplit effort last := by
  intro heq
  rcases h with ⟨-, hlong⟩ | ⟨hopen, hne, hsplit⟩
  · have hle := length_wholeSplit_le effort last
    rw [← heq] at hle
    simp only at hle
    omega
  · unfold wholeSplit at heq
    split at heq
    · rw [splitReasoning_opening hopen] at heq
      exact hsplit heq
    · exact hne (Prod.mk.inj heq).1

/-! ### Streamed and whole -/

/-- The stream reports no failure and carries what the whole message holds. -/
def Reconstructs (request : ChatRequest) (parsing : ToolCallParsing)
    (choice : NormalizedToolChoice) (index : Nat) (last : Text) (finish : Option String)
    (partials : List GenerationPartial) : Prop :=
  let message :=
    (buildChoice parsing false index last choice finish none request.reasoningEffort).message
  let events := streamEngine request partials
  Clean events ∧ message.reasoningContent.getD [] = reasoningOnWire index events ∧
    message.content = some (contentOnWire index events)

variable {request : ChatRequest} {choice : NormalizedToolChoice} {mode : Delivery} {index : Nat}
  {last : Text} {texts : List Text} {partials : List GenerationPartial}

theorem tracks_start (request : ChatRequest) (index : Nat) : Tracks request index 0 (splitter request {} index) {} :=
  ⟨rfl, rfl, rfl⟩

theorem reconstructs_iff (hchoice : choice.allowedNames = []) (parsing : ToolCallParsing)
    (finish : Option String) (h : Delivers mode index last [] texts partials) :
    Reconstructs request parsing choice index last finish partials ↔
      deliver mode last (splitter request {} index) 0 [] texts = some (wholeSplit request.reasoningEffort last) := by
  have hspec := ChatStream.streamFrom_spec none (tracks_start request index) h
  obtain ⟨hr, hc⟩ :=
    buildChoice_no_tools parsing index last hchoice finish request.reasoningEffort
  unfold Reconstructs streamEngine
  simp only [hr, hc]
  cases hdel : deliver mode last (splitter request {} index) 0 [] texts with
  | none =>
    rw [hdel] at hspec
    simp only [reduceCtorEq, iff_false]
    exact fun hall => hspec hall.1
  | some out =>
    rw [hdel] at hspec
    obtain ⟨hclean, hr', hc'⟩ := hspec
    simp only [hr', hc', some_inj, Prod.ext_iff]
    constructor
    · rintro ⟨-, h1, h2⟩
      exact ⟨h1.symm, h2.symm⟩
    · rintro ⟨h1, h2⟩
      exact ⟨hclean, h1.symm, h2.symm⟩

/-- **A streamed chat message is the whole message exactly when** no effort was named,
    or no partial is held back entirely and both paths split the text alike, or the
    caller declined reasoning and the first cumulative text is an empty block. -/
theorem streamed_chat_reconstructs_message (hchoice : choice.allowedNames = [])
    (parsing : ToolCallParsing) (finish : Option String) (h : Delivers mode index last [] texts partials) :
    Reconstructs request parsing choice index last finish partials ↔ request.reasoningEffort = none ∨
        (¬ Stalls [] texts ∧ Agrees request.reasoningEffort last) ∨
        (request.reasoningEffort = some "none" ∧ mode = .cumulative ∧
          firstText texts = some (thinkOpening ++ thinkClosing)) := by
  rw [reconstructs_iff hchoice parsing finish h]
  have hgrows := h.grows
  by_cases heffort : request.reasoningEffort = none
  · have hparser : splitter request {} index = ⟨[], some false⟩ := by simp [splitter, heffort]
    have hplain : deliver mode last ⟨[], some false⟩ 0 [] texts = some ([], last) :=
      deliver_outside (.inr rfl) (le_refl _) hgrows
    simp [hparser, hplain, heffort, wholeSplit]
  have hparser : splitter request {} index = ⟨[], none⟩ := by simp [splitter, heffort]
  have hstart : After [] ⟨[], none⟩ [] [] := .undecided nil_prefix
  simp only [hparser, heffort]
  by_cases hstall : Stalls [] texts
  · simp only [hstall, not_true_eq_false, false_and, false_or]
    cases mode with
    | native =>
      have hnone : deliver .native last ⟨[], none⟩ 0 [] texts = none :=
        deliver_native_of_stalls hstart (.inl rfl) hgrows hstall
      simp [hnone]
    | cumulative =>
      by_cases hfirst : firstText texts = some (thinkOpening ++ thinkClosing)
      · rw [deliver_emptyBlock hgrows hfirst, some_inj]
        simp only [hfirst, and_true]
        have hopen : thinkOpening <+: last :=
          (prefix_append _ _).trans (firstText_le hgrows hfirst)
        constructor
        · intro heq
          by_contra hnone
          have hsplit : wholeSplit request.reasoningEffort last = streamSplit last :=
            (wholeSplit_eq_streamSplit heffort last).mpr (by simp [Agrees, hnone, hopen])
          have hlt := length_streamSplit_lt hopen
          rw [← hsplit, ← heq] at hlt
          exact lt_irrefl _ hlt
        · intro hnone
          simp [wholeSplit, hnone]
      · obtain ⟨r, c, hdel, hout⟩ := deliver_of_stalls hstart (.inl rfl) hgrows hstall
        rcases hout with hgarbled | ⟨-, hc, -⟩
        · have hne := hgarbled.ne_wholeSplit request.reasoningEffort
          simp only [length_nil] at hdel
          simpa [hdel, hfirst] using hne
        · exact absurd hc hfirst
  · obtain ⟨r, c, hdel, hsplit⟩ : ∃ r c, deliver mode last ⟨[], none⟩ 0 [] texts = some (r, c) ∧
        (r, c) = streamSplit last :=
      deliver_of_not_stalls hstart (.inl rfl) hgrows hstall
    have hfirst : firstText texts ≠ some (thinkOpening ++ thinkClosing) :=
      fun hc => hstall (stalls_of_emptyBlock hc)
    rw [hdel, hsplit, some_inj, eq_comm, wholeSplit_eq_streamSplit heffort]
    simp [hstall, hfirst]

/-- A block that arrives in a partial of its own length is split off the stream. -/
theorem streamed_chat_reconstructs_long_block :
    Delivers .cumulative 0 (Text.of "<think>reasoned</think>yes") [] [(Text.of "<think>reasoned")]
        [⟨[{ index := 0, text := (Text.of "<think>reasoned") }], false⟩,
          ⟨[{ index := 0, text := (Text.of "<think>reasoned</think>yes") }], true⟩] ∧
      Reconstructs { reasoningEffort := some "high" } ⟨fun _ => [], fun _ => none, fun _ => none⟩ ⟨.auto, [], none⟩ 0
        (Text.of "<think>reasoned</think>yes") (some "stop")
        [⟨[{ index := 0, text := (Text.of "<think>reasoned") }], false⟩,
          ⟨[{ index := 0, text := (Text.of "<think>reasoned</think>yes") }], true⟩] := by
  have hdelivers : Delivers .cumulative 0 (Text.of "<think>reasoned</think>yes") []
      [(Text.of "<think>reasoned")]
      [⟨[{ index := 0, text := (Text.of "<think>reasoned") }], false⟩,
        ⟨[{ index := 0, text := (Text.of "<think>reasoned</think>yes") }], true⟩] :=
    .next ⟨rfl, rfl, rfl, rfl, by decide, rfl, rfl, rfl⟩
      (.last ⟨rfl, rfl, rfl, rfl, by decide, rfl, rfl, rfl⟩)
  refine ⟨hdelivers, (streamed_chat_reconstructs_message rfl _ _ hdelivers).mpr (.inr (.inl ⟨?_, ?_⟩))⟩
  · decide
  · exact .inl (by decide)

/-- The opening alone in a partial is read twice: the client gets the reasoning
    `<think>a` where the message holds `a`. -/
theorem streamed_chat_repeats_opening : Delivers .cumulative 0 (Text.of "<think>a</think>b") [] [(Text.of "<think>")]
        [⟨[{ index := 0, text := (Text.of "<think>") }], false⟩,
          ⟨[{ index := 0, text := (Text.of "<think>a</think>b") }], true⟩] ∧
      ¬ Reconstructs { reasoningEffort := some "high" }
        ⟨fun _ => [], fun _ => none, fun _ => none⟩ ⟨.auto, [], none⟩ 0 (Text.of "<think>a</think>b") (some "stop")
        [⟨[{ index := 0, text := (Text.of "<think>") }], false⟩,
          ⟨[{ index := 0, text := (Text.of "<think>a</think>b") }], true⟩] := by
  constructor
  · exact .next ⟨rfl, rfl, rfl, rfl, by decide, rfl, rfl, rfl⟩
      (.last ⟨rfl, rfl, rfl, rfl, by decide, rfl, rfl, rfl⟩)
  · rintro ⟨-, hreasoning, -⟩
    revert hreasoning
    decide

end Kairyu
