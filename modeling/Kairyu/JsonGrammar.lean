/-
  Kairyu/JsonGrammar.lean
  =======================
  **The grammar behind the JSON readers.**

  `Derives x shape` says that the text `x`, and nothing around it, is a value, the
  items of an array up to its bracket, or the members of an object up to its brace.
  The reader accepts exactly the derivable texts: what it reads has a derivation
  (`scanOnce_sound`), and a derivable text is read whole, whatever follows it
  (`Derives.scanOnce`), except that a number must not be followed by what continues
  it.
-/
import Kairyu.Json

namespace Kairyu

open List Option

namespace Json

/-! ### White space and single characters -/

section Characters

variable {P Q : CodePoint → Prop} {c : CodePoint} {t r w x z : Text}

/-- The first character, if any, satisfies `P`. -/
def Heads (P : CodePoint → Prop) (t : Text) : Prop := ∀ c cs, t = c :: cs → P c

theorem heads_nil : Heads P [] := by simp [Heads]

theorem heads_cons : Heads P (c :: t) ↔ P c := by
  constructor
  · intro h
    exact h c t rfl
  · intro h d ds hd
    cases hd
    exact h

theorem Heads.mono (h : Heads P t) (hPQ : ∀ c, P c → Q c) : Heads Q t :=
  fun c cs hc => hPQ c (h c cs hc)

theorem Heads.append (hx : Heads P x) (hz : Heads P z) : Heads P (x ++ z) := by
  cases x with
  | nil => exact hz
  | cons c cs => exact heads_cons.mpr (heads_cons.mp hx)

/-- White space of JSON. -/
def Ws (w : Text) : Prop := ∀ c ∈ w, isWs c = true

theorem ws_nil : Ws [] := by simp [Ws]

theorem expect_eq_some : expect c t = some r ↔ t = c :: r := by
  cases t with
  | nil => simp [expect]
  | cons d ds =>
    simp only [expect]
    split
    · simp_all
    · simp_all

@[simp] theorem expect_cons : expect c (c :: r) = some r := by simp [expect]

theorem expect_cons_of_ne {d : CodePoint} (h : d ≠ c) : expect c (d :: r) = none := by
  simp [expect, h]

/-- White space of JSON is white space. -/
theorem isSpace_of_isWs (h : isWs c = true) : Text.isSpace c = true := by
  simp only [isWs, Bool.or_eq_true, beq_iff_eq] at h
  rcases h with ((rfl | rfl) | rfl) | rfl <;> decide

theorem isWs_eq_false (h : Text.isSpace c = false) : isWs c = false := by
  by_contra hws
  have := isSpace_of_isWs (by simpa using hws)
  simp [h] at this

theorem isSpace_of_isDigit (h : isDigit c = true) : Text.isSpace c = false := by
  simp only [isDigit, decide_eq_true_eq] at h
  simp only [Text.isSpace, Bool.or_eq_false_iff, Bool.and_eq_false_iff, decide_eq_false_iff_not, beq_eq_false_iff_ne]
  omega

/-- What `skipWs` dropped. -/
theorem exists_skipWs (t : Text) : ∃ w, Ws w ∧ t = w ++ skipWs t :=
  ⟨t.takeWhile isWs, fun _ hc => (mem_takeWhile_imp hc), takeWhile_append_dropWhile.symm⟩

/-- A text that starts with no white space. -/
abbrev Solid (t : Text) : Prop := Heads (fun c => isWs c = false) t

theorem skipWs_of_solid (h : Solid t) : skipWs t = t := by
  cases t with
  | nil => rfl
  | cons c cs => simp [skipWs, heads_cons.mp h]

theorem skipWs_append (hw : Ws w) (ht : Solid t) : skipWs (w ++ t) = t := by
  induction w with
  | nil => exact skipWs_of_solid ht
  | cons c cs ih =>
    have hc : isWs c = true := hw c (by simp)
    have hcs : skipWs (cs ++ t) = t := ih fun d hd => hw d (by simp [hd])
    simpa [skipWs, hc] using hcs

end Characters

/-! ### Numbers -/

variable {c : CodePoint}

section Numbers

variable {t r : Text} {l : NumberLiteral}

/-- What may follow a value: nothing, white space, a comma or a closing bracket. -/
abbrev Follows (r : Text) : Prop :=
  Heads (fun c => isWs c = true ∨ c = cp ',' ∨ c = cp ']' ∨ c = cp '}') r

theorem follows_ws_append {w : Text} (hw : Ws w)
    (hc : c = cp ',' ∨ c = cp ']' ∨ c = cp '}') : Follows (w ++ c :: r) := by
  refine Heads.append ?_ (heads_cons.mpr (Or.inr hc))
  intro d ds hd
  exact Or.inl (hw d (by simp [hd]))

/-- The text does not continue a number. -/
abbrev Quiet (r : Text) : Prop :=
  Heads (fun c => isDigit c = false ∧ c ≠ cp '.' ∧ c ≠ cp 'e' ∧ c ≠ cp 'E') r

theorem Follows.quiet (h : Follows r) : Quiet r := by
  refine h.mono ?_
  intro c hc
  simp only [isWs, Bool.or_eq_true, beq_iff_eq] at hc
  rcases hc with (((rfl | rfl) | rfl) | rfl) | rfl | rfl | rfl <;> decide

/-- Digits, and at least one. -/
def Digits (ds : Text) : Prop := ds ≠ [] ∧ ∀ c ∈ ds, isDigit c = true

/-- The literals of the grammar. -/
structure NumberLiteral.Valid (l : NumberLiteral) : Prop where
  minus : l.minus = [] ∨ l.minus = [cp '-']
  natural : l.natural = [cp '0'] ∨ Digits l.natural ∧ Heads (· ≠ cp '0') l.natural
  fraction : l.fraction = [] ∨ ∃ ds, l.fraction = cp '.' :: ds ∧ Digits ds
  exponent : l.exponent = [] ∨ ∃ e s ds, l.exponent = e :: (s ++ ds) ∧ (e = cp 'e' ∨ e = cp 'E') ∧
    (s = [] ∨ s = [cp '-'] ∨ s = [cp '+']) ∧ Digits ds

theorem scanDigits_append (t : Text) : (scanDigits t).1 ++ (scanDigits t).2 = t :=
  takeWhile_append_dropWhile

theorem digit_of_mem_scanDigits (h : c ∈ (scanDigits t).1) : isDigit c = true :=
  mem_takeWhile_imp h

theorem scanDigits_of_all {ds : Text} (hd : ∀ c ∈ ds, isDigit c = true)
    (hr : Heads (isDigit · = false) r) : scanDigits (ds ++ r) = (ds, r) := by
  have hstop : r.takeWhile isDigit = [] ∧ r.dropWhile isDigit = r := by
    cases r with
    | nil => simp
    | cons c cs => simp [heads_cons.mp hr]
  simp [scanDigits, takeWhile_append_of_pos hd, dropWhile_append_of_pos hd, hstop]

theorem scanMinus_spec (t : Text) : (scanMinus t).1 ++ (scanMinus t).2 = t ∧
    ((scanMinus t).1 = [] ∨ (scanMinus t).1 = [cp '-']) := by
  cases t with
  | nil => simp [scanMinus]
  | cons c cs =>
    simp only [scanMinus]
    split <;> simp_all

theorem scanSign_spec (t : Text) : (scanSign t).1 ++ (scanSign t).2 = t ∧
    ((scanSign t).1 = [] ∨ (scanSign t).1 = [cp '-'] ∨ (scanSign t).1 = [cp '+']) := by
  cases t with
  | nil => simp [scanSign]
  | cons c cs =>
    simp only [scanSign]
    split <;> simp_all

theorem scanNatural_spec {ds : Text} (h : scanNatural t = some (ds, r)) : ds ++ r = t ∧
    (ds = [cp '0'] ∨ Digits ds ∧ Heads (· ≠ cp '0') ds) := by
  cases t with
  | nil => simp [scanNatural] at h
  | cons c cs =>
    simp only [scanNatural] at h
    split at h
    · next hc =>
      cases h
      simp [hc]
    · next hc =>
      split at h
      · next hdigit =>
        cases h
        refine ⟨by simp [scanDigits_append], Or.inr ⟨⟨by simp, ?_⟩, heads_cons.mpr hc⟩⟩
        simpa [hdigit] using fun d hd => digit_of_mem_scanDigits hd
      · exact nomatch h

theorem scanFraction_spec (t : Text) : (scanFraction t).1 ++ (scanFraction t).2 = t ∧
    ((scanFraction t).1 = [] ∨ ∃ ds, (scanFraction t).1 = cp '.' :: ds ∧ Digits ds) := by
  cases t with
  | nil => simp [scanFraction]
  | cons c cs =>
    simp only [scanFraction]
    split
    · next h =>
      refine ⟨by simp [scanDigits_append], Or.inr ⟨_, by rw [h.1], h.2, ?_⟩⟩
      exact fun d hd => digit_of_mem_scanDigits hd
    · simp

theorem scanExponent_spec (t : Text) : (scanExponent t).1 ++ (scanExponent t).2 = t ∧
    ((scanExponent t).1 = [] ∨ ∃ e s ds, (scanExponent t).1 = e :: (s ++ ds) ∧
      (e = cp 'e' ∨ e = cp 'E') ∧ (s = [] ∨ s = [cp '-'] ∨ s = [cp '+']) ∧ Digits ds) := by
  cases t with
  | nil => simp [scanExponent]
  | cons c cs =>
    simp only [scanExponent]
    split
    · next h =>
      refine ⟨by simp [scanDigits_append, (scanSign_spec cs).1],
        Or.inr ⟨_, _, _, rfl, h.1, (scanSign_spec cs).2, h.2, ?_⟩⟩
      exact fun d hd => digit_of_mem_scanDigits hd
    · simp

/-- What `scanNumber` reads is a literal of the grammar. -/
theorem scanNumber_spec (h : scanNumber t = some (l, r)) : l.text ++ r = t ∧ l.Valid := by
  simp only [scanNumber] at h
  split at h
  · exact nomatch h
  · rename_i natural rest hnat
    obtain ⟨hsplit, hnatural⟩ := scanNatural_spec hnat
    cases h
    constructor
    · simp only [NumberLiteral.text, append_assoc, (scanExponent_spec _).1,
        (scanFraction_spec _).1, hsplit, (scanMinus_spec _).1]
    · exact ⟨(scanMinus_spec _).2, hnatural, (scanFraction_spec _).2, (scanExponent_spec _).2⟩

namespace NumberLiteral.Valid

variable (h : l.Valid)
include h

theorem scanExponent (hr : Quiet r) : Json.scanExponent (l.exponent ++ r) = (l.exponent, r) := by
  have hdigit : Heads (isDigit · = false) r := hr.mono fun _ hc => hc.1
  rcases h.exponent with he | ⟨e, s, ds, he, hee, hs, hne, hds⟩
  · rw [he]
    cases r with
    | nil => rfl
    | cons c cs =>
      obtain ⟨-, -, hce, hcE⟩ := heads_cons.mp hr
      simp [Json.scanExponent, hce, hcE]
  · have hsign : scanSign (s ++ (ds ++ r)) = (s, ds ++ r) := by
      rcases hs with rfl | rfl | rfl
      · obtain ⟨d, ds', rfl⟩ := exists_cons_of_ne_nil hne
        have hd : isDigit d = true := hds d (by simp)
        have hdne : d ≠ cp '-' ∧ d ≠ cp '+' := by
          constructor <;> rintro rfl <;> simp [isDigit] at hd <;> revert hd <;> decide
        simp [scanSign, hdne]
      · simp [scanSign]
      · simp [scanSign]
    rw [he]
    simp [Json.scanExponent, hsign, scanDigits_of_all hds hdigit, hee, hne]

theorem exponent_heads (hr : Quiet r) : Heads (fun c => isDigit c = false ∧ c ≠ cp '.') (l.exponent ++ r) := by
  refine Heads.append ?_ (hr.mono fun c hc => ⟨hc.1, hc.2.1⟩)
  rcases h.exponent with he | ⟨e, s, ds, he, hee, -⟩
  · rw [he]
    exact heads_nil
  · rw [he]
    refine heads_cons.mpr ?_
    rcases hee with rfl | rfl <;> decide

theorem scanFraction {u : Text} (hu : Heads (fun c => isDigit c = false ∧ c ≠ cp '.') u) :
    Json.scanFraction (l.fraction ++ u) = (l.fraction, u) := by
  rcases h.fraction with hf | ⟨ds, hf, hne, hds⟩
  · rw [hf]
    cases u with
    | nil => rfl
    | cons c cs => simp [Json.scanFraction, (heads_cons.mp hu).2]
  · rw [hf]
    simp [Json.scanFraction, scanDigits_of_all hds (hu.mono fun _ hc => hc.1), hne]

theorem fraction_heads {u : Text} (hu : Heads (isDigit · = false) u) : Heads (isDigit · = false) (l.fraction ++ u) := by
  refine Heads.append ?_ hu
  rcases h.fraction with hf | ⟨ds, hf, -⟩
  · rw [hf]
    exact heads_nil
  · rw [hf]
    exact heads_cons.mpr (by decide)

theorem scanNatural {u : Text} (hu : Heads (isDigit · = false) u) :
    Json.scanNatural (l.natural ++ u) = some (l.natural, u) := by
  rcases h.natural with hn | ⟨⟨hne, hds⟩, hzero⟩
  · rw [hn]
    simp [Json.scanNatural]
  · obtain ⟨d, ds, hn⟩ := exists_cons_of_ne_nil hne
    rw [hn] at hds hzero ⊢
    have hall : ∀ c ∈ ds, isDigit c = true := fun c hc => hds c (by simp [hc])
    simp [Json.scanNatural, heads_cons.mp hzero, hds d (by simp), scanDigits_of_all hall hu]

theorem natural_heads : ∃ c cs, l.natural = c :: cs ∧ isDigit c = true := by
  rcases h.natural with hn | ⟨⟨hne, hds⟩, -⟩
  · exact ⟨_, _, hn, by decide⟩
  · obtain ⟨d, ds, hn⟩ := exists_cons_of_ne_nil hne
    exact ⟨d, ds, hn, hds d (by simp [hn])⟩

/-- A literal is read whole when nothing after it continues it. -/
theorem scanNumber (hr : Quiet r) : Json.scanNumber (l.text ++ r) = some (l, r) := by
  have hexp := h.exponent_heads hr
  have hminus : ∀ u, scanMinus (l.minus ++ (l.natural ++ u)) = (l.minus, l.natural ++ u) := by
    intro u
    obtain ⟨c, cs, hn, hc⟩ := h.natural_heads
    have hne : c ≠ cp '-' := by
      rintro rfl
      exact absurd hc (by decide)
    rcases h.minus with hm | hm <;> simp [scanMinus, hm, hn, hne]
  simp only [Json.scanNumber, NumberLiteral.text, append_assoc, hminus,
    h.scanNatural (h.fraction_heads (hexp.mono fun _ hc => hc.1)), h.scanFraction hexp,
    h.scanExponent hr]

theorem text_heads : ∃ c cs, l.text = c :: cs ∧ (isDigit c = true ∨ c = cp '-') := by
  obtain ⟨c, cs, hn, hc⟩ := h.natural_heads
  rcases h.minus with hm | hm
  · exact ⟨c, cs ++ (l.fraction ++ l.exponent), by simp [NumberLiteral.text, hm, hn], Or.inl hc⟩
  · exact ⟨cp '-', l.natural ++ (l.fraction ++ l.exponent), by simp [NumberLiteral.text, hm],
      Or.inr rfl⟩

end NumberLiteral.Valid

end Numbers

/-! ### Strings and words -/

section Strings

variable {mode : StringMode} {t r z : Text} {units : List StringUnit}

/-- Reading `c` inside a string leads from one mode to another. -/
structure StringStep (mode : StringMode) (c : CodePoint) (next : StringMode) : Prop where
  reads : ∃ add : List StringUnit → List StringUnit, ∀ t, scanString mode (c :: t) =
    (scanString next t).map fun (units, rest) => (add units, rest)
  escape : next = .escape ↔ mode ≠ .escape ∧ c = cp '\\'
  quote : mode ≠ .escape → c ≠ cp '"'

theorem StringStep.rest {next : StringMode} (hstep : StringStep mode c next)
    (h : scanString mode (c :: t) = some (units, r)) : ∃ tail, scanString next t = some (tail, r) := by
  obtain ⟨add, hadd⟩ := hstep.reads
  rw [hadd] at h
  obtain ⟨⟨tail, rest⟩, htail, heq⟩ := map_eq_some_iff.mp h
  cases heq
  exact ⟨tail, htail⟩

/-- A string that is read to its end closes with its first character, or goes on after it. -/
theorem scanString_cons (h : scanString mode (c :: t) = some (units, r)) :
    mode = .plain ∧ c = cp '"' ∨ ∃ next, StringStep mode c next := by
  cases mode with
  | plain =>
    by_cases hq : c = cp '"'
    · exact Or.inl ⟨rfl, hq⟩
    right
    by_cases hb : c = cp '\\'
    · exact ⟨.escape, ⟨id, fun t => by rw [scanString, if_neg hq, if_pos hb]; simp⟩, by simp [hb], fun _ => hq⟩
    · have hctl : ¬ c.val ≤ 0x1f := by
        intro hctl
        simp [scanString, hq, hb, hctl] at h
      exact ⟨.plain, ⟨(⟨c, false⟩ :: ·), fun t => by simp [scanString, hq, hb, hctl]⟩, by simp [hb], fun _ => hq⟩
  | escape =>
    right
    by_cases hu : c = cp 'u'
    · exact ⟨.hex 4 0, ⟨id, fun t => by simp [scanString, hu]⟩, by simp, by simp⟩
    cases hpoint : escapedChar c with
    | none => simp [scanString, hu, hpoint] at h
    | some point =>
      exact ⟨.plain, ⟨(⟨point, false⟩ :: ·), fun t => by simp [scanString, hu, hpoint]⟩, by simp, by simp⟩
  | hex left value =>
    right
    cases hdigit : hexValue c with
    | none => simp [scanString, hdigit] at h
    | some digit =>
      have hne : c ≠ cp '"' ∧ c ≠ cp '\\' := by
        constructor <;> rintro rfl <;> revert hdigit <;> decide +revert
      by_cases hleft : left ≤ 1
      · exact ⟨.plain, ⟨(⟨Fin.ofNat _ (value * 16 + digit), true⟩ :: ·), fun t => by simp [scanString, hdigit, hleft]⟩,
          by simp [hne], fun _ => hne.1⟩
      · exact ⟨.hex (left - 1) (value * 16 + digit), ⟨id, fun t => by simp [scanString, hdigit, hleft]⟩,
          by simp [hne], fun _ => hne.1⟩

/-- The text of a string ends at its closing quote, whatever follows. -/
theorem scanString_spec (h : scanString mode t = some (units, r)) :
    ∃ x, t = x ++ r ∧ ∀ z, scanString mode (x ++ z) = some (units, z) := by
  induction t generalizing mode units with
  | nil => simp [scanString] at h
  | cons c cs ih =>
    rcases scanString_cons h with ⟨rfl, rfl⟩ | ⟨next, hstep⟩
    · obtain ⟨rfl, rfl⟩ : [] = units ∧ cs = r := by simpa [scanString] using h
      exact ⟨[cp '"'], rfl, fun z => by simp [scanString]⟩
    · obtain ⟨add, hadd⟩ := hstep.reads
      rw [hadd] at h
      obtain ⟨⟨tail, rest⟩, htail, heq⟩ := map_eq_some_iff.mp h
      cases heq
      obtain ⟨x, rfl, hx⟩ := ih htail
      exact ⟨c :: x, rfl, fun z => by rw [cons_append, hadd, hx]; rfl⟩

/-- `x` is the text of a string after its opening quote. -/
def StringText (x : Text) (units : List StringUnit) : Prop :=
  ∀ z, scanString .plain (x ++ z) = some (units, z)

/-- No word is the beginning of another one, of a number or of what opens a string,
    an array or an object. -/
theorem scanWord_spec {hooks : Hooks} {value : Json} (h : scanWord hooks t = some (value, r)) :
    ∃ entry ∈ words, t = entry.1 ++ r ∧ hooks.meaning entry.2 = some value := by
  simp only [scanWord, bind_eq_bind, bind_eq_some_iff] at h
  obtain ⟨entry, hfind, meaning, hmeaning, heq⟩ := h
  have hentry := List.find?_some hfind
  obtain ⟨rest, hrest⟩ : entry.1 <+: t := by simpa using hentry
  cases heq
  exact ⟨entry, mem_of_find?_eq_some hfind, by simp [← hrest], hmeaning⟩

theorem scanWord_append {hooks : Hooks} {value : Json} {entry : Text × Except FloatBits Json}
    (hmem : entry ∈ words) (hmeaning : hooks.meaning entry.2 = some value) (z : Text) :
    scanWord hooks (entry.1 ++ z) = some (value, z) := by
  have hfind : words.find? (fun other => decide (other.1 <+: entry.1 ++ z)) = some entry := by
    simp only [words, mem_cons, not_mem_nil, or_false] at hmem
    rcases hmem with rfl | rfl | rfl | rfl | rfl | rfl <;>
      simp [words, Text.of, cp]
  simp [scanWord, hfind, hmeaning]

theorem words_heads : ∀ entry ∈ words, ∃ c cs, entry.1 = c :: cs ∧ Text.isSpace c = false ∧
    c ≠ cp '"' ∧ c ≠ cp '{' ∧ c ≠ cp '[' ∧ ∀ z, scanNumber (entry.1 ++ z) = none := by
  intro entry hmem
  simp only [words, mem_cons, not_mem_nil, or_false] at hmem
  rcases hmem with rfl | rfl | rfl | rfl | rfl | rfl <;>
    refine ⟨_, _, rfl, by decide, by decide, by decide, by decide, fun z => ?_⟩ <;>
    rfl

end Strings

/-! ### Derivations -/

/-- What a text can be: a value, or the rest of an array or of an object with its
    closing bracket. -/
inductive Shape where
  | value (v : Json)
  | items (vs : List Json)
  | members (pairs : JsonFields)

section Derivations

variable (codec : FloatCodec) (hooks : Hooks)

inductive Derives : Text → Shape → Prop where
  | str {x units} (hx : StringText x units) :
      Derives (cp '"' :: x) (.value (.str (joinSurrogates units)))
  | number {l : NumberLiteral} (hl : l.Valid) : Derives l.text (.value (numberValue codec l))
  | word {entry v} (hmem : entry ∈ words) (hv : hooks.meaning entry.2 = some v) :
      Derives entry.1 (.value v)
  | emptyArray {w} (hw : Ws w) : Derives (cp '[' :: (w ++ [cp ']'])) (.value (.arr []))
  | array {w x vs} (hw : Ws w) (hx : Derives x (.items vs)) :
      Derives (cp '[' :: (w ++ x)) (.value (.arr vs))
  | emptyObject {w fields} (hw : Ws w) (hpairs : hooks.pairs [] = some fields) :
      Derives (cp '{' :: (w ++ [cp '}'])) (.value (.obj fields))
  | object {w x pairs fields} (hw : Ws w) (hx : Derives x (.members pairs))
      (hpairs : hooks.pairs pairs = some fields) :
      Derives (cp '{' :: (w ++ x)) (.value (.obj fields))
  | lastItem {x v w} (hx : Derives x (.value v)) (hw : Ws w) :
      Derives (x ++ (w ++ [cp ']'])) (.items [v])
  | item {x v w₁ w₂ y vs} (hx : Derives x (.value v)) (hw₁ : Ws w₁) (hw₂ : Ws w₂)
      (hy : Derives y (.items vs)) : Derives (x ++ (w₁ ++ cp ',' :: (w₂ ++ y))) (.items (v :: vs))
  | lastMember {k units w₁ w₂ x v w₃} (hk : StringText k units) (hw₁ : Ws w₁) (hw₂ : Ws w₂)
      (hx : Derives x (.value v)) (hw₃ : Ws w₃) :
      Derives (cp '"' :: (k ++ (w₁ ++ cp ':' :: (w₂ ++ (x ++ (w₃ ++ [cp '}']))))))
        (.members [(joinSurrogates units, v)])
  | member {k units w₁ w₂ x v w₃ w₄ y pairs} (hk : StringText k units) (hw₁ : Ws w₁) (hw₂ : Ws w₂)
      (hx : Derives x (.value v)) (hw₃ : Ws w₃) (hw₄ : Ws w₄) (hy : Derives y (.members pairs)) :
      Derives (cp '"' :: (k ++ (w₁ ++ cp ':' :: (w₂ ++ (x ++ (w₃ ++ cp ',' :: (w₄ ++ y)))))))
        (.members ((joinSurrogates units, v) :: pairs))

variable {codec hooks}

/-! #### What is read has a derivation -/

section Soundness

variable {p : Text → Option (Json × Text)} {n : Nat} {t r : Text}

theorem scanKey_eq_some {key : Text} (h : scanKey t = some (key, r)) :
    ∃ k units, StringText k units ∧ key = joinSurrogates units ∧ t = cp '"' :: (k ++ r) := by
  simp only [scanKey, bind_eq_bind, bind_eq_some_iff, expect_eq_some] at h
  obtain ⟨t', rfl, ⟨units, r'⟩, hunits, heq⟩ := h
  obtain ⟨k, rfl, hk⟩ := scanString_spec hunits
  cases heq
  exact ⟨k, units, hk, rfl, rfl⟩

/-- White space up to an expected character. -/
theorem expect_skipWs (h : expect c (skipWs t) = some r) : ∃ w, Ws w ∧ t = w ++ c :: r := by
  obtain ⟨w, hw, ht⟩ := exists_skipWs t
  exact ⟨w, hw, by rw [ht, expect_eq_some.mp h]⟩

/-- What a reader of values must do for the readers of arrays and objects. -/
def Sound (codec : FloatCodec) (hooks : Hooks) (p : Text → Option (Json × Text)) : Prop :=
  ∀ t v r, p t = some (v, r) → ∃ x, t = x ++ r ∧ Derives codec hooks x (.value v)

section

variable (hp : Sound codec hooks p)
include hp

theorem scanItems_sound {vs : List Json}
    (h : scanItems p n t = some (vs, r)) : ∃ x, t = x ++ r ∧ Derives codec hooks x (.items vs) := by
  induction n generalizing t vs with
  | zero => exact nomatch h
  | succ n ih =>
    simp only [scanItems, bind_eq_bind, bind_eq_some_iff] at h
    obtain ⟨⟨v, t1⟩, hv, h⟩ := h
    obtain ⟨x, rfl, hx⟩ := hp _ _ _ hv
    split at h
    · next t2 hcomma =>
      obtain ⟨w₁, hw₁, rfl⟩ := expect_skipWs hcomma
      simp only [bind_eq_some_iff] at h
      obtain ⟨⟨rest, t3⟩, hrest, heq⟩ := h
      cases heq
      obtain ⟨y, hy, hder⟩ := ih hrest
      obtain ⟨w₂, hw₂, ht2⟩ := exists_skipWs t2
      exact ⟨_, by rw [ht2, hy]; simp, hx.item hw₁ hw₂ hder⟩
    · simp only [bind_eq_some_iff] at h
      obtain ⟨t2, hclose, heq⟩ := h
      obtain ⟨w, hw, rfl⟩ := expect_skipWs hclose
      cases heq
      exact ⟨_, by simp, hx.lastItem hw⟩

theorem scanMembers_sound {pairs : JsonFields} (h : scanMembers p n t = some (pairs, r)) :
    ∃ x, t = x ++ r ∧ Derives codec hooks x (.members pairs) := by
  induction n generalizing t pairs with
  | zero => exact nomatch h
  | succ n ih =>
    simp only [scanMembers, bind_eq_bind, bind_eq_some_iff] at h
    obtain ⟨⟨key, t1⟩, hkey, t2, hcolon, ⟨v, t3⟩, hv, h⟩ := h
    obtain ⟨k, units, hk, rfl, rfl⟩ := scanKey_eq_some hkey
    obtain ⟨w₁, hw₁, rfl⟩ := expect_skipWs hcolon
    obtain ⟨w₂, hw₂, ht2⟩ := exists_skipWs t2
    obtain ⟨x, hxr, hx⟩ := hp _ _ _ hv
    rw [ht2, hxr]
    split at h
    · next t4 hcomma =>
      obtain ⟨w₃, hw₃, rfl⟩ := expect_skipWs hcomma
      simp only [bind_eq_some_iff] at h
      obtain ⟨⟨rest, t5⟩, hrest, heq⟩ := h
      cases heq
      obtain ⟨y, hy, hder⟩ := ih hrest
      obtain ⟨w₄, hw₄, ht4⟩ := exists_skipWs t4
      exact ⟨_, by rw [ht4, hy]; simp, .member hk hw₁ hw₂ hx hw₃ hw₄ hder⟩
    · simp only [bind_eq_some_iff] at h
      obtain ⟨t4, hclose, heq⟩ := h
      obtain ⟨w₃, hw₃, rfl⟩ := expect_skipWs hclose
      cases heq
      exact ⟨_, by simp, .lastMember hk hw₁ hw₂ hx hw₃⟩

theorem jsonArray_sound {vs : List Json} (h : jsonArray p t = some (vs, r)) :
    ∃ x, t = x ++ r ∧ Derives codec hooks (cp '[' :: x) (.value (.arr vs)) := by
  simp only [jsonArray] at h
  split at h
  · next t' hclose =>
    obtain ⟨w, hw, rfl⟩ := expect_skipWs hclose
    cases h
    exact ⟨_, by simp, .emptyArray hw⟩
  · obtain ⟨w, hw, ht⟩ := exists_skipWs t
    obtain ⟨x, hx, hder⟩ := scanItems_sound hp h
    exact ⟨w ++ x, by rw [ht, hx]; simp, .array hw hder⟩

theorem jsonObject_sound {pairs fields : JsonFields}
    (h : jsonObject p t = some (pairs, r)) (hpairs : hooks.pairs pairs = some fields) :
    ∃ x, t = x ++ r ∧ Derives codec hooks (cp '{' :: x) (.value (.obj fields)) := by
  simp only [jsonObject] at h
  split at h
  · next t' hclose =>
    obtain ⟨w, hw, rfl⟩ := expect_skipWs hclose
    cases h
    exact ⟨_, by simp, .emptyObject hw hpairs⟩
  · obtain ⟨w, hw, ht⟩ := exists_skipWs t
    obtain ⟨x, hx, hder⟩ := scanMembers_sound hp h
    exact ⟨w ++ x, by rw [ht, hx]; simp, .object hw hder hpairs⟩

theorem scanValue_sound : Sound codec hooks (scanValue codec hooks p) := by
  intro t v r h
  cases t with
  | nil => exact nomatch h
  | cons c cs =>
    simp only [scanValue] at h
    split at h
    · next hc =>
      obtain ⟨⟨units, rest⟩, hunits, heq⟩ := map_eq_some_iff.mp h
      obtain ⟨x, rfl, hx⟩ := scanString_spec hunits
      cases heq
      exact ⟨cp '"' :: x, by simp [hc], .str hx⟩
    split at h
    · next hc =>
      simp only [bind_eq_bind, bind_eq_some_iff] at h
      obtain ⟨⟨pairs, rest⟩, hobject, fields, hfields, heq⟩ := h
      obtain ⟨x, rfl, hx⟩ := jsonObject_sound hp hobject hfields
      cases heq
      exact ⟨cp '{' :: x, by simp [hc], hx⟩
    split at h
    · next hc =>
      obtain ⟨⟨items, rest⟩, harray, heq⟩ := map_eq_some_iff.mp h
      obtain ⟨x, rfl, hx⟩ := jsonArray_sound hp harray
      cases heq
      exact ⟨cp '[' :: x, by simp [hc], hx⟩
    split at h
    · next l rest hl =>
      cases h
      obtain ⟨hsplit, hvalid⟩ := scanNumber_spec hl
      exact ⟨l.text, hsplit.symm, .number hvalid⟩
    · obtain ⟨entry, hmem, hsplit, hv⟩ := scanWord_spec h
      exact ⟨entry.1, hsplit, .word hmem hv⟩

end

/-- The reader reads derivable texts only. -/
theorem scanOnce_sound (depth : Nat) : Sound codec hooks (scanOnce codec hooks depth) := by
  induction depth with
  | zero => exact fun _ _ _ h => nomatch h
  | succ depth ih => exact scanValue_sound ih

end Soundness

/-! #### A derivable text is read whole -/

section Completeness

variable {x y w z : Text} {shape : Shape}

/-- How a derivable text starts. -/
theorem Derives.heads (h : Derives codec hooks x shape) :
    ∃ c cs, x = c :: cs ∧ Text.isSpace c = false ∧ c ≠ cp ']' ∧ c ≠ cp '}' := by
  induction h with
  | str | emptyArray | array | emptyObject | object | lastMember | member =>
    exact ⟨_, _, rfl, by decide, by decide, by decide⟩
  | number hl =>
    obtain ⟨c, cs, hc, hdigit⟩ := hl.text_heads
    refine ⟨c, cs, hc, ?_⟩
    rcases hdigit with hdigit | rfl
    · have hne : ∀ d, isDigit d = false → c ≠ d := by
        rintro d hd rfl
        exact absurd hdigit (by simp [hd])
      exact ⟨isSpace_of_isDigit hdigit, hne _ (by decide), hne _ (by decide)⟩
    · decide
  | word hmem hv =>
    obtain ⟨c, cs, hc, hws, -⟩ := words_heads _ hmem
    refine ⟨c, cs, hc, hws, ?_⟩
    simp only [words, mem_cons, not_mem_nil, or_false] at hmem
    rcases hmem with rfl | rfl | rfl | rfl | rfl | rfl <;> cases hc <;> decide
  | lastItem hx hw ih =>
    obtain ⟨c, cs, rfl, hc⟩ := ih
    exact ⟨c, _, rfl, hc⟩
  | item hx hw₁ hw₂ hy ihx =>
    obtain ⟨c, cs, rfl, hc⟩ := ihx
    exact ⟨c, _, rfl, hc⟩

theorem Derives.skipWs (h : Derives codec hooks x shape) (hw : Ws w) (z : Text) : skipWs (w ++ (x ++ z)) = x ++ z := by
  obtain ⟨c, cs, rfl, hc, -⟩ := h.heads
  exact skipWs_append hw (heads_cons.mpr (isWs_eq_false hc))

/-- An expected character behind white space. -/
theorem expect_ws_append (hw : Ws w) (hc : isWs c = false) (z : Text) :
    expect c (Json.skipWs (w ++ c :: z)) = some z := by
  rw [skipWs_append hw (heads_cons.mpr hc), expect_cons]

/-- Another character behind white space. -/
theorem expect_ws_of_ne {d : CodePoint} (hw : Ws w) (hd : isWs d = false) (hne : d ≠ c)
    (z : Text) : expect c (Json.skipWs (w ++ d :: z)) = none := by
  rw [skipWs_append hw (heads_cons.mpr hd), expect_cons_of_ne hne]

variable {units : List StringUnit}

theorem scanKey_append (hx : StringText x units) (z : Text) :
    scanKey (cp '"' :: (x ++ z)) = some (joinSurrogates units, z) := by
  simp [scanKey, hx z]

/-- The text is read as the shape it derives, whatever follows. -/
def ReadAs (codec : FloatCodec) (hooks : Hooks) (x : Text) : Shape → Prop
  | .value v => ∀ m r, x.length ≤ m → Follows r → scanOnce codec hooks m (x ++ r) = some (v, r)
  | .items vs => ∀ m n r, x.length ≤ m → x.length ≤ n →
      scanItems (scanOnce codec hooks m) n (x ++ r) = some (vs, r)
  | .members pairs => ∀ m n r, x.length ≤ m → x.length ≤ n →
      scanMembers (scanOnce codec hooks m) n (x ++ r) = some (pairs, r)

variable {v : Json}

theorem ReadAs.lastItem (hx : ReadAs codec hooks x (.value v)) (hw : Ws w) :
    ReadAs codec hooks (x ++ (w ++ [cp ']'])) (.items [v]) := by
  intro m n r hm hn
  simp only [length_append, length_cons] at hm hn
  obtain ⟨n, rfl⟩ : ∃ k, n = k + 1 := ⟨n - 1, by omega⟩
  have hvalue := hx m (w ++ cp ']' :: r) (by omega) (follows_ws_append hw (by simp))
  have hcomma := expect_ws_of_ne (c := cp ',') (d := cp ']') hw (by decide) (by decide) r
  have hclose := expect_ws_append (c := cp ']') hw (by decide) r
  simp [scanItems, hvalue, hcomma, hclose]

variable {k w₁ w₂ w₃ : Text}

theorem ReadAs.item {vs : List Json} (hx : ReadAs codec hooks x (.value v)) (hw₁ : Ws w₁) (hw₂ : Ws w₂)
    (hder : Derives codec hooks y (.items vs)) (hy : ReadAs codec hooks y (.items vs)) :
    ReadAs codec hooks (x ++ (w₁ ++ cp ',' :: (w₂ ++ y))) (.items (v :: vs)) := by
  intro m n r hm hn
  simp only [length_append, length_cons] at hm hn
  obtain ⟨n, rfl⟩ : ∃ k, n = k + 1 := ⟨n - 1, by omega⟩
  have hvalue := hx m (w₁ ++ cp ',' :: (w₂ ++ (y ++ r))) (by omega) (follows_ws_append hw₁ (by simp))
  have hcomma := expect_ws_append (c := cp ',') hw₁ (by decide)
  have hrest := hy m n r (by omega) (by omega)
  simp [scanItems, hvalue, hcomma, hder.skipWs hw₂, hrest]

theorem ReadAs.lastMember (hk : StringText k units) (hw₁ : Ws w₁) (hw₂ : Ws w₂)
    (hder : Derives codec hooks x (.value v)) (hx : ReadAs codec hooks x (.value v)) (hw₃ : Ws w₃) :
    ReadAs codec hooks (cp '"' :: (k ++ (w₁ ++ cp ':' :: (w₂ ++ (x ++ (w₃ ++ [cp '}']))))))
      (.members [(joinSurrogates units, v)]) := by
  intro m n r hm hn
  simp only [length_append, length_cons] at hm hn
  obtain ⟨n, rfl⟩ : ∃ k, n = k + 1 := ⟨n - 1, by omega⟩
  have hcolon := expect_ws_append (c := cp ':') hw₁ (by decide)
  have hvalue := hx m (w₃ ++ cp '}' :: r) (by omega) (follows_ws_append hw₃ (by simp))
  have hcomma := expect_ws_of_ne (c := cp ',') (d := cp '}') hw₃ (by decide) (by decide) r
  have hclose := expect_ws_append (c := cp '}') hw₃ (by decide) r
  simp [scanMembers, scanKey_append hk, hcolon, hder.skipWs hw₂, hvalue, hcomma, hclose]

theorem ReadAs.member {pairs : JsonFields} {w₄ : Text} (hk : StringText k units) (hw₁ : Ws w₁) (hw₂ : Ws w₂)
    (hder : Derives codec hooks x (.value v)) (hx : ReadAs codec hooks x (.value v)) (hw₃ : Ws w₃)
    (hw₄ : Ws w₄) (hder' : Derives codec hooks y (.members pairs)) (hy : ReadAs codec hooks y (.members pairs)) :
    ReadAs codec hooks (cp '"' :: (k ++ (w₁ ++ cp ':' :: (w₂ ++ (x ++ (w₃ ++ cp ',' :: (w₄ ++ y)))))))
      (.members ((joinSurrogates units, v) :: pairs)) := by
  intro m n r hm hn
  simp only [length_append, length_cons] at hm hn
  obtain ⟨n, rfl⟩ : ∃ k, n = k + 1 := ⟨n - 1, by omega⟩
  have hcolon := expect_ws_append (c := cp ':') hw₁ (by decide)
  have hvalue := hx m (w₃ ++ cp ',' :: (w₄ ++ (y ++ r))) (by omega) (follows_ws_append hw₃ (by simp))
  have hcomma := expect_ws_append (c := cp ',') hw₃ (by decide)
  have hrest := hy m n r (by omega) (by omega)
  simp [scanMembers, scanKey_append hk, hcolon, hder.skipWs hw₂, hvalue, hcomma, hder'.skipWs hw₄, hrest]

theorem jsonArray_append {vs : List Json} (hw : Ws w) (hder : Derives codec hooks x (.items vs))
    (hx : ReadAs codec hooks x (.items vs)) {m : Nat} (hm : x.length ≤ m) (r : Text) :
    jsonArray (scanOnce codec hooks m) (w ++ (x ++ r)) = some (vs, r) := by
  have hclose : expect (cp ']') (x ++ r) = none := by
    obtain ⟨c, cs, rfl, -, hc, -⟩ := hder.heads
    exact expect_cons_of_ne hc
  have hread := hx m (w ++ (x ++ r)).length r hm
    (by simp only [length_append]; omega)
  simp only [jsonArray, hder.skipWs hw, hclose, hread]

theorem jsonObject_append {pairs : JsonFields} (hw : Ws w)
    (hder : Derives codec hooks x (.members pairs)) (hx : ReadAs codec hooks x (.members pairs))
    {m : Nat} (hm : x.length ≤ m) (r : Text) :
    jsonObject (scanOnce codec hooks m) (w ++ (x ++ r)) = some (pairs, r) := by
  have hclose : expect (cp '}') (x ++ r) = none := by
    obtain ⟨c, cs, rfl, -, -, hc⟩ := hder.heads
    exact expect_cons_of_ne hc
  have hread := hx m (w ++ (x ++ r)).length r hm
    (by simp only [length_append]; omega)
  simp only [jsonObject, hder.skipWs hw, hclose, hread]

/-- The reader reads every derivable text. -/
theorem Derives.readAs (h : Derives codec hooks x shape) : ReadAs codec hooks x shape := by
  induction h with
  | str hx =>
    intro m r hm _
    obtain ⟨m, rfl⟩ : ∃ k, m = k + 1 := ⟨m - 1, by simp only [length_cons] at hm; omega⟩
    simp [scanOnce, scanValue, hx r]
  | number hl =>
    intro m r hm hr
    obtain ⟨c, cs, hc, hdigit⟩ := hl.text_heads
    obtain ⟨m, rfl⟩ : ∃ k, m = k + 1 :=
      ⟨m - 1, by simp only [hc, length_cons] at hm; omega⟩
    have hread := hl.scanNumber hr.quiet
    rw [hc, cons_append] at hread ⊢
    have hne : c ≠ cp '"' ∧ c ≠ cp '{' ∧ c ≠ cp '[' := by
      refine ⟨?_, ?_, ?_⟩ <;> rintro rfl <;> revert hdigit <;> decide
    simp [scanOnce, scanValue, hne, hread]
  | word hmem hv =>
    intro m r hm _
    obtain ⟨c, cs, hc, -, hquote, hbrace, hbracket, hnumber⟩ := words_heads _ hmem
    obtain ⟨m, rfl⟩ : ∃ k, m = k + 1 :=
      ⟨m - 1, by simp only [hc, length_cons] at hm; omega⟩
    have hnum := hnumber r
    have hread := scanWord_append hmem hv r
    rw [hc, cons_append] at hnum hread ⊢
    simp [scanOnce, scanValue, hquote, hbrace, hbracket, hnum, hread]
  | emptyArray hw =>
    intro m r hm _
    obtain ⟨m, rfl⟩ : ∃ k, m = k + 1 := ⟨m - 1, by simp only [length_cons] at hm; omega⟩
    have hclose := expect_ws_append (c := cp ']') hw (by decide) r
    simp [scanOnce, scanValue, jsonArray, hclose, show cp '[' ≠ cp '"' by decide,
      show cp '[' ≠ cp '{' by decide]
  | array hw hx ih =>
    intro m r hm _
    simp only [length_cons, length_append] at hm
    obtain ⟨m, rfl⟩ : ∃ k, m = k + 1 := ⟨m - 1, by omega⟩
    have hread := jsonArray_append hw hx ih (show _ ≤ m by omega) r
    simp [scanOnce, scanValue, hread, show cp '[' ≠ cp '"' by decide,
      show cp '[' ≠ cp '{' by decide]
  | emptyObject hw hpairs =>
    intro m r hm _
    obtain ⟨m, rfl⟩ : ∃ k, m = k + 1 := ⟨m - 1, by simp only [length_cons] at hm; omega⟩
    have hclose := expect_ws_append (c := cp '}') hw (by decide) r
    simp [scanOnce, scanValue, jsonObject, hclose, hpairs, show cp '{' ≠ cp '"' by decide]
  | object hw hx hpairs ih =>
    intro m r hm _
    simp only [length_cons, length_append] at hm
    obtain ⟨m, rfl⟩ : ∃ k, m = k + 1 := ⟨m - 1, by omega⟩
    have hread := jsonObject_append hw hx ih (show _ ≤ m by omega) r
    simp [scanOnce, scanValue, hread, hpairs, show cp '{' ≠ cp '"' by decide]
  | lastItem hx hw ih => exact ih.lastItem hw
  | item hx hw₁ hw₂ hy ihx ihy => exact ihx.item hw₁ hw₂ hy ihy
  | lastMember hk hw₁ hw₂ hx hw₃ ih => exact .lastMember hk hw₁ hw₂ hx ih hw₃
  | member hk hw₁ hw₂ hx hw₃ hw₄ hy ihx ihy => exact .member hk hw₁ hw₂ hx ihx hw₃ hw₄ hy ihy

end Completeness

/-! #### Whole texts -/

section Loads

variable {t x : Text} {v : Json}

/-- A loaded text is a derivable one between white space. -/
theorem loadsWith_sound (h : loadsWith codec hooks t = some v) :
    ∃ w y w', t = w ++ (y ++ w') ∧ Ws w ∧ Ws w' ∧ Derives codec hooks y (.value v) := by
  simp only [loadsWith, bind_eq_bind] at h
  split at h
  · exact nomatch h
  rw [bind_eq_some_iff] at h
  obtain ⟨⟨value, rest⟩, hvalue, hend⟩ := h
  obtain ⟨y, hy, hder⟩ := scanOnce_sound _ _ _ _ hvalue
  obtain ⟨w, hw, ht⟩ := exists_skipWs t
  obtain ⟨w', hw', hrest⟩ := exists_skipWs rest
  split at hend
  · next hnil =>
    cases hend
    rw [hnil, append_nil] at hrest
    exact ⟨w, y, w', by rw [← hrest, ← hy, ← ht], hw, hw', hder⟩
  · exact nomatch hend

theorem Derives.loadsWith (h : Derives codec hooks x (.value v))
    (hbom : x.head? ≠ some (cp '\ufeff')) : Json.loadsWith codec hooks x = some v := by
  have hskip : Json.skipWs x = x := by simpa using h.skipWs ws_nil []
  have hread := h.readAs (x.length + 1) [] (by omega) heads_nil
  rw [append_nil] at hread
  simp only [Json.loadsWith, if_neg hbom, hskip, hread, bind_eq_bind, bind_some]
  exact if_pos rfl

/-- Hooks that accept more derive more. -/
theorem Derives.mono {more : Hooks} {shape : Shape} (h : Derives codec hooks x shape)
    (hconstant : ∀ bits v, hooks.constant bits = some v → more.constant bits = some v)
    (hpairs : ∀ pairs fields, hooks.pairs pairs = some fields → more.pairs pairs = some fields) :
    Derives codec more x shape := by
  have hmeaning : ∀ m v, hooks.meaning m = some v → more.meaning m = some v := by
    intro m v hm
    cases m with
    | ok value => exact hm
    | error bits => exact hconstant bits v hm
  induction h with
  | str hx => exact .str hx
  | number hl => exact .number hl
  | word hmem hv => exact .word hmem (hmeaning _ _ hv)
  | emptyArray hw => exact .emptyArray hw
  | array hw _ ih => exact .array hw ih
  | emptyObject hw hp => exact .emptyObject hw (hpairs _ _ hp)
  | object hw _ hp ih => exact .object hw ih (hpairs _ _ hp)
  | lastItem _ hw ih => exact .lastItem ih hw
  | item _ hw₁ hw₂ _ ihx ihy => exact .item ihx hw₁ hw₂ ihy
  | lastMember hk hw₁ hw₂ _ hw₃ ih => exact .lastMember hk hw₁ hw₂ ih hw₃
  | member hk hw₁ hw₂ _ hw₃ hw₄ _ ihx ihy => exact .member hk hw₁ hw₂ ihx hw₃ hw₄ ihy

end Loads

end Derivations

end Json

end Kairyu
