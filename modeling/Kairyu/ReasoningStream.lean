/-
  Kairyu/ReasoningStream.lean
  ===========================
  **What the incremental reasoning parser has emitted.**

  `After x p r c` says that a parser fed with `x`, in any chunks, is in state `p` and
  has emitted the reasoning `r` and the content `c`.  It holds back an undecided
  opening and the last characters of the block, where the closing marker may start.

  `Held x y` says when extending the fed text from `x` to `y` emits nothing.
-/
import Kairyu.ChatStream

namespace Kairyu

open Text List ReasoningDeltaParser

/-! ### The markers -/

@[simp] theorem length_thinkOpening : thinkOpening.length = 7 := rfl

@[simp] theorem length_thinkClosing : thinkClosing.length = 8 := rfl

theorem thinkOpening_eq : thinkOpening = cp '<' :: (Text.of "think>") := rfl

/-- The text before the first closing marker. -/
def beforeClosing (t : Text) : Text :=
  match find thinkClosing t with
  | some i => t.take i
  | none => t

/-- The text after the first closing marker. -/
def afterClosing (t : Text) : Text :=
  match find thinkClosing t with
  | some i => t.drop (i + thinkClosing.length)
  | none => []

variable {t : Text}

theorem beforeClosing_of_some {i : Nat} (h : find thinkClosing t = some i) : beforeClosing t = t.take i := by
  simp [beforeClosing, h]

theorem beforeClosing_of_none (h : find thinkClosing t = none) : beforeClosing t = t := by
  simp [beforeClosing, h]

theorem afterClosing_of_some {i : Nat} (h : find thinkClosing t = some i) :
    afterClosing t = t.drop (i + thinkClosing.length) := by
  simp [afterClosing, h]

theorem afterClosing_of_none (h : find thinkClosing t = none) : afterClosing t = [] := by
  simp [afterClosing, h]

variable {d r : Text}

/-- What is kept back of a text without the marker decides where the marker is. -/
theorem find_moved {w : Text} (hfind : find thinkClosing (r ++ w) = none) (hkept : r ≠ [] → w.length = 7) (d : Text) :
    find thinkClosing (r ++ (w ++ d)) = (find thinkClosing (w ++ d)).map (· + r.length) := by
  by_cases hr : r = []
  · simp [hr]
  · have hk : r.length + thinkClosing.length ≤ (r ++ w).length + 1 := by
      rw [length_append, hkept hr]
      rfl
    have hmove := find_append_of_none hfind hk d
    rwa [drop_left, append_assoc] at hmove

section

variable {x y : Text} (hmove : find thinkClosing (x ++ y) = (find thinkClosing y).map (· + x.length))
include hmove

theorem beforeClosing_moved : beforeClosing (x ++ y) = x ++ beforeClosing y := by
  cases hf : find thinkClosing y with
  | none =>
    rw [hf] at hmove
    rw [beforeClosing_of_none hmove, beforeClosing_of_none hf]
  | some i =>
    rw [hf, Option.map_some] at hmove
    rw [beforeClosing_of_some hmove, beforeClosing_of_some hf, take_append, take_of_length_le (by omega),
      Nat.add_sub_cancel]

theorem afterClosing_moved : afterClosing (x ++ y) = afterClosing y := by
  cases hf : find thinkClosing y with
  | none =>
    rw [hf] at hmove
    rw [afterClosing_of_none hmove, afterClosing_of_none hf]
  | some i =>
    rw [hf] at hmove
    rw [afterClosing_of_some hmove, afterClosing_of_some hf, Nat.add_right_comm, Nat.add_comm, ← drop_drop, drop_left]

end

/-- The marker has no `<` after its first character, so it does not straddle the
    start of a text that begins with one. -/
theorem find_closing_append {v t : Text} (hv : find thinkClosing v = none) :
    find thinkClosing (v ++ cp '<' :: t) = (find thinkClosing (cp '<' :: t)).map (· + v.length) := by
  rw [find_eq_drop (k := v.length) (by simp), drop_left]
  intro j hj hpre
  rw [drop_append_of_le_length (by omega)] at hpre
  by_cases hlen : 8 ≤ (v.drop j).length
  · apply find_eq_none.mp hv
    have : thinkClosing <+: v.drop j :=
      prefix_of_prefix_length_le hpre (prefix_append _ _) (by simpa using hlen)
    exact this.isInfix.trans (drop_suffix j v).isInfix
  · -- The character `<` would stand inside the marker.
    have hpos : 0 < (v.drop j).length := by rw [length_drop]; omega
    have hget : thinkClosing[(v.drop j).length]? = some (cp '<') := by
      obtain ⟨r, hr⟩ := hpre
      have h8 : (v.drop j).length < thinkClosing.length := by simp only [length_thinkClosing]; omega
      have hleft : (thinkClosing ++ r)[(v.drop j).length]? = thinkClosing[(v.drop j).length]? :=
        List.getElem?_append_left h8
      rw [← hleft, hr]
      simp
    have hnone : ∀ n < 8, 0 < n → thinkClosing[n]? ≠ some (cp '<') := by decide
    exact hnone _ (by omega) hpos hget

/-- The marker does not start inside the opening. -/
theorem find_closing_opening (y : Text) :
    find thinkClosing (thinkOpening ++ y) = (find thinkClosing y).map (· + 7) := by
  have hdrop : (thinkOpening ++ y).drop 7 = y := drop_left' rfl
  rw [find_eq_drop (k := 7) (by simp), hdrop]
  intro j hj hpre
  rw [drop_append_of_le_length (by simp only [length_thinkOpening]; omega)] at hpre
  obtain ⟨r, hr⟩ := hpre
  have hchar (n : Nat) (hn : j + n < 7) : thinkClosing[n]? = thinkOpening[j + n]? := by
    have h : (thinkClosing ++ r)[n]? = (thinkOpening.drop j ++ y)[n]? := by rw [hr]
    rwa [List.getElem?_append_left (by simp only [length_thinkClosing]; omega),
      List.getElem?_append_left (by simp only [length_drop, length_thinkOpening]; omega),
      List.getElem?_drop] at h
  have hnone : ∀ j < 7, ∃ n < 2, j + n < 7 ∧ thinkClosing[n]? ≠ thinkOpening[j + n]? := by decide
  obtain ⟨n, -, hn, hne⟩ := hnone j hj
  exact hne (hchar n hn)

theorem beforeClosing_opening (y : Text) : beforeClosing (thinkOpening ++ y) = thinkOpening ++ beforeClosing y :=
  beforeClosing_moved (find_closing_opening y)

theorem beforeClosing_append {v t : Text} (hv : find thinkClosing v = none) :
    beforeClosing (v ++ cp '<' :: t) = v ++ beforeClosing (cp '<' :: t) := beforeClosing_moved (find_closing_append hv)

/-! ### What the parser emits -/

namespace ReasoningDeltaParser

theorem feed_outside (w d : Text) (final : Bool) :
    (⟨w, some false⟩ : ReasoningDeltaParser).feed d final = (([], d), ⟨w, some false⟩) := rfl

theorem feed_inside (w d : Text) (final : Bool) :
    (⟨w, some true⟩ : ReasoningDeltaParser).feed d final = feedReasoning (w ++ d) final := rfl

end ReasoningDeltaParser

/-- A parser fed with `x`: its state, the reasoning and the content emitted. -/
inductive After : Text → ReasoningDeltaParser → Text → Text → Prop
  | undecided {x : Text} (h : x <+: thinkOpening) : After x ⟨x, none⟩ [] []
  | inside {r w : Text} (hfind : find thinkClosing (r ++ w) = none) (hlen : w.length ≤ 7)
      (hkept : r ≠ [] → w.length = 7) : After (thinkOpening ++ (r ++ w)) ⟨w, some true⟩ r []
  | closed {y : Text} {i : Nat} (hfind : find thinkClosing y = some i) :
      After (thinkOpening ++ y) ⟨[], some false⟩ (y.take i) (y.drop (i + thinkClosing.length))
  | plain {x : Text} (h : ¬ x <+: thinkOpening) (h' : ¬ thinkOpening <+: x) :
      After x ⟨[], some false⟩ [] x

/-- The split the parser makes of a whole text: only an opening at the start counts. -/
def streamSplit (t : Text) : Text × Text :=
  if thinkOpening <+: t then (beforeClosing (t.drop 7), afterClosing (t.drop 7)) else ([], t)

theorem streamSplit_opening (y : Text) : streamSplit (thinkOpening ++ y) = (beforeClosing y, afterClosing y) := by
  have hdrop : (thinkOpening ++ y).drop 7 = y := drop_left' rfl
  rw [streamSplit, if_pos (prefix_append _ _), hdrop]

namespace After

/-- Inside the block, a chunk that is not the last. -/
theorem feedReasoning {w : Text} (hfind : find thinkClosing (r ++ w) = none) (hkept : r ≠ [] → w.length = 7) :
    ∃ r' c' p, feedReasoning (w ++ d) false = ((r', c'), p) ∧
      After (thinkOpening ++ (r ++ (w ++ d))) p (r ++ r') c' := by
  have hmove := find_moved hfind hkept d
  cases hf : find thinkClosing (w ++ d) with
  | some i =>
    have hwhole : find thinkClosing (r ++ (w ++ d)) = some (i + r.length) := by rw [hmove, hf]; rfl
    refine ⟨_, _, _, by rw [ReasoningDeltaParser.feedReasoning, hf], ?_⟩
    have hafter := After.closed hwhole
    have htake : (r ++ (w ++ d)).take (i + r.length) = r ++ (w ++ d).take i := by
      rw [take_append, take_of_length_le (by omega), Nat.add_sub_cancel]
    have hdrop : (r ++ (w ++ d)).drop (i + r.length + thinkClosing.length) =
        (w ++ d).drop (i + thinkClosing.length) := by
      rw [show i + r.length + thinkClosing.length = r.length + (i + thinkClosing.length) by omega,
        ← drop_drop, drop_left]
    rwa [htake, hdrop] at hafter
  | none =>
    have hwhole : find thinkClosing (r ++ (w ++ d)) = none := by rw [hmove, hf]; rfl
    by_cases hlen : (w ++ d).length ≤ 7
    · refine ⟨[], [], ⟨w ++ d, some true⟩, ?_, ?_⟩
      · simp only [ReasoningDeltaParser.feedReasoning, hf]
        rw [if_neg (by decide), if_pos (by simpa using hlen)]
      · rw [append_nil]
        refine .inside hwhole hlen fun hr => ?_
        have := hkept hr
        rw [length_append] at hlen ⊢
        omega
    · refine ⟨(w ++ d).take ((w ++ d).length - 7), [], ⟨(w ++ d).drop ((w ++ d).length - 7), some true⟩, ?_, ?_⟩
      · simp only [ReasoningDeltaParser.feedReasoning, hf]
        rw [if_neg (by decide), if_neg (by simpa using hlen)]
        rfl
      · have hsplit : r ++ (w ++ d) = (r ++ (w ++ d).take ((w ++ d).length - 7)) ++
            (w ++ d).drop ((w ++ d).length - 7) := by
          rw [append_assoc, take_append_drop]
        rw [hsplit]
        rw [hsplit] at hwhole
        refine .inside hwhole ?_ fun _ => ?_
        · rw [length_drop]; omega
        · rw [length_drop]; omega

variable {p : ReasoningDeltaParser}

/-- A chunk that is not the last. -/
theorem feed {x c : Text} (h : After x p r c) :
    ∃ r' c' p', p.feed d false = ((r', c'), p') ∧ After (x ++ d) p' (r ++ r') (c ++ c') := by
  cases h with
  | undecided hx =>
    by_cases hpre : x ++ d <+: thinkOpening
    · refine ⟨[], [], ⟨x ++ d, none⟩, ?_, .undecided hpre⟩
      simp [feed, hpre]
    · by_cases hopen : thinkOpening <+: x ++ d
      · obtain ⟨y, hy⟩ := hopen
        have hdrop : (x ++ d).drop thinkOpening.length = y := by rw [← hy, drop_left]
        obtain ⟨r', c', p', hfeed, hafter⟩ :=
          After.feedReasoning (w := []) (by decide) (fun h => absurd rfl h)
        refine ⟨r', c', p', ?_, ?_⟩
        · simp only [feed]
          rw [if_neg (fun hc => hpre hc.1), if_pos ⟨y, hy⟩, hdrop]
          exact hfeed
        · rw [← hy]
          exact hafter
      · refine ⟨[], x ++ d, ⟨[], some false⟩, ?_, .plain hpre hopen⟩
        simp [feed, hpre, hopen]
  | @inside r w hfind hlen hkept =>
    obtain ⟨r', c', p', hfeed, hafter⟩ := After.feedReasoning hfind hkept
    refine ⟨r', c', p', hfeed, ?_⟩
    rw [append_assoc, append_assoc]
    exact hafter
  | @closed y i hfind =>
    refine ⟨[], d, ⟨[], some false⟩, rfl, ?_⟩
    have hle := find_add_length_le hfind
    have hafter := After.closed (find_append_of_some hfind d)
    rw [take_append_of_le_length (by omega), drop_append_of_le_length hle] at hafter
    rw [append_nil]
    exact hafter
  | plain hx hopen =>
    refine ⟨[], d, ⟨[], some false⟩, rfl, .plain (fun hpre => hx ((prefix_append x d).trans hpre)) ?_⟩
    intro hpre
    -- The shorter of two prefixes of one text is a prefix of the longer.
    rcases prefix_or_prefix_of_prefix hpre (prefix_append x d) with h | h
    · exact hopen h
    · exact hx h

/-- The last chunk inside the block. -/
theorem feedReasoning_last {w : Text} (hfind : find thinkClosing (r ++ w) = none) (hkept : r ≠ [] → w.length = 7) :
    ∃ r' c' p, ReasoningDeltaParser.feedReasoning (w ++ d) true = ((r', c'), p) ∧
      (r ++ r', c') = streamSplit (thinkOpening ++ (r ++ (w ++ d))) := by
  have hmove := find_moved hfind hkept d
  rw [streamSplit_opening, beforeClosing_moved hmove, afterClosing_moved hmove]
  cases hf : find thinkClosing (w ++ d) with
  | some i =>
    refine ⟨_, _, _, by rw [ReasoningDeltaParser.feedReasoning, hf], ?_⟩
    rw [beforeClosing_of_some hf, afterClosing_of_some hf]
  | none =>
    refine ⟨w ++ d, [], ⟨[], some true⟩, by simp [ReasoningDeltaParser.feedReasoning, hf], ?_⟩
    rw [beforeClosing_of_none hf, afterClosing_of_none hf]

/-- The last chunk: everything held back is out. -/
theorem feed_last {x c : Text} (h : After x p r c) :
    ∃ r' c' p', p.feed d true = ((r', c'), p') ∧ (r ++ r', c ++ c') = streamSplit (x ++ d) := by
  cases h with
  | undecided hx =>
    by_cases hopen : thinkOpening <+: x ++ d
    · obtain ⟨y, hy⟩ := hopen
      have hdrop : (x ++ d).drop thinkOpening.length = y := by rw [← hy, drop_left]
      obtain ⟨r', c', p', hfeed, hsplit⟩ :=
        feedReasoning_last (w := []) (by decide) (fun h => absurd rfl h)
      refine ⟨r', c', p', ?_, ?_⟩
      · simp only [ReasoningDeltaParser.feed]
        rw [if_neg (fun hc => nomatch hc.2), if_pos ⟨y, hy⟩, hdrop]
        exact hfeed
      · rw [← hy]
        exact hsplit
    · refine ⟨[], x ++ d, ⟨[], some false⟩, ?_, ?_⟩
      · simp [ReasoningDeltaParser.feed, hopen]
      · rw [streamSplit, if_neg hopen]
        rfl
  | @inside r w hfind hlen hkept =>
    obtain ⟨r', c', p', hfeed, hsplit⟩ := feedReasoning_last hfind hkept
    refine ⟨r', c', p', hfeed, ?_⟩
    rw [append_assoc, append_assoc]
    exact hsplit
  | @closed y i hfind =>
    refine ⟨[], d, ⟨[], some false⟩, rfl, ?_⟩
    have hle := find_add_length_le hfind
    have hf := find_append_of_some hfind d
    rw [append_assoc, streamSplit_opening, beforeClosing_of_some hf, afterClosing_of_some hf,
      take_append_of_le_length (by omega), drop_append_of_le_length hle, append_nil]
  | plain hx hopen =>
    refine ⟨[], d, ⟨[], some false⟩, rfl, ?_⟩
    rw [streamSplit, if_neg]
    · rfl
    · intro hpre
      rcases prefix_or_prefix_of_prefix hpre (prefix_append x d) with h | h
      · exact hopen h
      · exact hx h

theorem of_nil {c : Text} (h : After [] p r c) : p = ⟨[], none⟩ ∧ r = [] ∧ c = [] := by
  obtain ⟨x, hx⟩ : ∃ x : Text, x = [] := ⟨_, rfl⟩
  rw [← hx] at h
  cases h with
  | undecided _ => exact ⟨by rw [hx], rfl, rfl⟩
  | inside => simp [thinkOpening_eq] at hx
  | closed => simp [thinkOpening_eq] at hx
  | plain h _ => exact absurd (hx ▸ nil_prefix) h

end After

/-! ### Chunks that emit nothing -/

/-- Extending the fed text from `seen` to `text` emits nothing although the text grows. -/
def Held (seen text : Text) : Prop :=
  text ≠ seen ∧
    if seen = [] then
      text <+: thinkOpening ∨
        thinkOpening <+: text ∧ (text.length ≤ 14 ∨ text = thinkOpening ++ thinkClosing)
    else
      text = seen ++ [cp '>'] ∧ thinkOpening <+: text ∧
        find thinkClosing (text.drop 7) = some (text.length - 15)

instance (seen text : Text) : Decidable (Held seen text) :=
  inferInstanceAs (Decidable (_ ∧ if seen = [] then _ else _))

theorem held_nil : Held [] d ↔ d ≠ [] ∧ (d <+: thinkOpening ∨
      thinkOpening <+: d ∧ (d.length ≤ 14 ∨ d = thinkOpening ++ thinkClosing)) := by
  simp [Held]

theorem held_of_ne_nil {x : Text} (hx : x ≠ []) : Held x (x ++ d) ↔ d = [cp '>'] ∧ thinkOpening <+: x ++ d ∧
      find thinkClosing ((x ++ d).drop 7) = some ((x ++ d).length - 15) := by
  unfold Held
  rw [if_neg hx]
  constructor
  · rintro ⟨-, h, hrest⟩
    exact ⟨append_cancel_left h, hrest⟩
  · rintro ⟨rfl, hrest⟩
    exact ⟨by simp, rfl, hrest⟩

/-- Inside the block a chunk emits nothing when it stays short, or is the marker. -/
theorem feedReasoning_silent {t : Text} : (feedReasoning t false).1 = ([], []) ↔ t.length ≤ 7 ∨ t = thinkClosing := by
  cases hf : find thinkClosing t with
  | some i =>
    have hsplit := find_eq_some_append hf
    have hlen := find_add_length_le hf
    simp only [feedReasoning, hf, Prod.mk.injEq]
    simp only [length_thinkClosing] at hlen
    constructor
    · rintro ⟨htake, hdrop⟩
      right
      rw [htake, hdrop] at hsplit
      simpa using hsplit
    · rintro (hshort | rfl)
      · omega
      · have hi : i = 0 := by simp only [length_thinkClosing] at hlen; omega
        subst hi
        exact ⟨rfl, rfl⟩
  | none =>
    have hne : t ≠ thinkClosing := by
      rintro rfl
      exact find_eq_none.mp hf (infix_refl _)
    by_cases hlen : t.length ≤ 7
    · simp [feedReasoning, hf, hlen]
    · simp only [feedReasoning, hf]
      rw [if_neg (by decide), if_neg (by simpa using hlen)]
      simp only [Prod.mk.injEq, and_true, hlen, hne, or_self, iff_false]
      intro htake
      have := congrArg List.length htake
      simp only [length_take, length_thinkClosing, length_nil] at this
      omega

/-- The first text a parser sees. -/
theorem feed_nil_silent (hd : d ≠ []) :
    ((⟨[], none⟩ : ReasoningDeltaParser).feed d false).1 = ([], []) ↔ Held [] d := by
  rw [held_nil]
  simp only [feed, nil_append]
  by_cases hpre : d <+: thinkOpening
  · simp [hpre, hd]
  · by_cases hopen : thinkOpening <+: d
    · rw [if_neg (fun hc => hpre hc.1), if_pos hopen, feedReasoning_silent]
      obtain ⟨y, rfl⟩ := hopen
      have hlen : (thinkOpening ++ y).length ≤ 14 ↔ y.length ≤ 7 := by
        rw [length_append, length_thinkOpening]
        omega
      simp only [append_cancel_left_eq, hlen, hpre, false_or, prefix_append, true_and]
      exact ⟨fun h => ⟨hd, h⟩, fun h => h.2⟩
    · simp [hpre, hopen, hd]

namespace After

/-- A parser that has emitted something emits nothing on a chunk exactly when the
    chunk completes the marker. -/
theorem silent_iff {x c r' c' : Text} {p p' : ReasoningDeltaParser} (h : After x p r c)
    (hsent : x = [] ∨ r ≠ [] ∨ c ≠ []) (hd : d ≠ []) (hfeed : p.feed d false = ((r', c'), p')) :
    (r' = [] ∧ c' = []) ↔ Held x (x ++ d) := by
  by_cases hx : x = []
  · subst hx
    obtain ⟨rfl, -, -⟩ := h.of_nil
    rw [nil_append, ← feed_nil_silent hd, hfeed, Prod.mk.injEq]
  rw [held_of_ne_nil hx]
  cases h with
  | undecided => simp [hx] at hsent
  | @inside r w hfind hlen hkept =>
    have hr : r ≠ [] := by simpa [thinkOpening_eq] using hsent
    have hw := hkept hr
    have hsilent : (r' = [] ∧ c' = []) ↔ w ++ d = thinkClosing := by
      have h1 := feedReasoning_silent (t := w ++ d)
      have h2 : ReasoningDeltaParser.feedReasoning (w ++ d) false = ((r', c'), p') := hfeed
      rw [h2, Prod.mk.injEq, length_append] at h1
      rw [h1]
      have := length_pos_of_ne_nil hd
      constructor
      · rintro (hs | hs)
        · omega
        · exact hs
      · exact .inr
    have hdrop : ((thinkOpening ++ (r ++ w)) ++ d).drop 7 = r ++ (w ++ d) := by
      rw [append_assoc, append_assoc]
      exact drop_left' rfl
    rw [hsilent, hdrop, find_moved hfind hkept d]
    constructor
    · intro hwd
      have hdlen := congrArg List.length hwd
      rw [length_append, length_thinkClosing] at hdlen
      refine ⟨?_, ?_, ?_⟩
      · have := congrArg (List.drop 7) hwd
        rw [drop_left' hw] at this
        exact this
      · exact ⟨r ++ (w ++ d), by simp⟩
      · rw [hwd, find_at_start (prefix_refl _)]
        simp only [length_append, length_thinkOpening, Option.map_some, Option.some.injEq]
        omega
    · rintro ⟨rfl, -, hf⟩
      rw [Option.map_eq_some_iff] at hf
      obtain ⟨i, hi, hival⟩ := hf
      have hle := find_add_length_le hi
      simp only [length_append, length_thinkOpening, length_singleton] at hival hle
      have hzero : i = 0 := by omega
      subst hzero
      have hsplit := find_eq_some_append hi
      rw [drop_of_length_le (by simp [hw])] at hsplit
      exact hsplit
  | @closed y i hfind =>
    obtain ⟨rfl, rfl⟩ : [] = r' ∧ d = c' := by
      simpa [ReasoningDeltaParser.feed] using congrArg Prod.fst hfeed
    have hle := find_add_length_le hfind
    have hdrop : ((thinkOpening ++ y) ++ d).drop 7 = y ++ d := by
      rw [append_assoc]
      exact drop_left' rfl
    rw [hdrop, find_append_of_some hfind d]
    simp only [hd, and_false, false_iff, not_and, Option.some.injEq]
    rintro rfl -
    simp only [length_append, length_thinkOpening, length_thinkClosing, length_singleton] at hle ⊢
    omega
  | plain hpre hopen =>
    obtain ⟨rfl, rfl⟩ : [] = r' ∧ d = c' := by
      simpa [ReasoningDeltaParser.feed] using congrArg Prod.fst hfeed
    simp only [hd, and_false, false_iff, not_and]
    intro _ hlong
    rcases prefix_or_prefix_of_prefix hlong (prefix_append x d) with h | h
    · exact absurd h hopen
    · exact absurd h hpre

end After

end Kairyu
