/-
  Kairyu/ToolStreamProgressive.lean
  =================================
  **A call opened before its envelope closed.**

  The scanner streams the arguments object by following its braces, and validates the
  envelope only when it closes.  On a body the strict reader accepts, the braces end
  where the object ends (`run_object`), so the streamed text is the object that stands
  second in the envelope (`canonical_payload`).
-/
import Kairyu.ToolStreamChunks

namespace Kairyu

open Json Option Text List

/-! ### Following the braces -/

namespace ArgumentsScan

variable {a b : ArgumentsScan} {x y : Text}

/-- Text read while the object is open is consumed whole. -/
theorem run_snd_of_incomplete (h : (a.run x).1.complete = false) : (a.run x).2 = x := by
  induction x generalizing a with
  | nil => rfl
  | cons c cs ih =>
    simp only [run] at h ⊢
    split at h
    · next hc => simp [hc] at h
    · next hc =>
      rw [if_neg hc]
      simp [ih h]

theorem run_append_of_incomplete (h : (a.run x).1.complete = false) (y : Text) :
    a.run (x ++ y) = (((a.run x).1.run y).1, x ++ ((a.run x).1.run y).2) := by
  induction x generalizing a with
  | nil => rfl
  | cons c cs ih =>
    simp only [cons_append, run] at h ⊢
    split at h
    · next hc => simp [hc] at h
    · next hc => simp [hc, ih h]

theorem run_append_of_complete (ha : a.complete = false) (h : (a.run x).1.complete = true) (y : Text) :
    a.run (x ++ y) = a.run x := by
  induction x generalizing a with
  | nil => simp [run, ha] at h
  | cons c cs ih =>
    simp only [cons_append, run] at h ⊢
    split
    · rfl
    · next hc =>
      rw [if_neg hc] at h
      rw [ih (by simpa using hc) h]

/-- Two pieces in a row, the first of which leaves the object open. -/
theorem run_trans (hx : a.run x = (b, x)) (hb : b.complete = false) (y : Text) :
    a.run (x ++ y) = ((b.run y).1, x ++ (b.run y).2) := by
  rw [run_append_of_incomplete (by rw [hx]; exact hb), hx]

/-- Inside the object, outside a string. -/
structure Inside (a : ArgumentsScan) : Prop where
  depth : 1 ≤ a.depth
  inString : a.inString = false
  escape : a.escape = false
  complete : a.complete = false

/-- A text that opens and closes its own braces. -/
def Passes (x : Text) : Prop := ∀ a : ArgumentsScan, a.Inside → a.run x = (a, x)

theorem Passes.append (hx : Passes x) (hy : Passes y) : Passes (x ++ y) := by
  intro a ha
  rw [run_trans (hx a ha) ha.complete, hy a ha]

theorem passes_nil : Passes [] := fun _ _ => rfl

/-- Characters that are neither quotes nor braces are passed over. -/
theorem passes_plain (h : ∀ c ∈ x, c ≠ cp '"' ∧ c ≠ cp '{' ∧ c ≠ cp '}') : Passes x := by
  intro a ha
  induction x with
  | nil => rfl
  | cons c cs ih =>
    obtain ⟨hq, ho, hc⟩ := h c (by simp)
    have hstep : a.step c = a := by simp [step, ha.inString, hq, ho, hc]
    simp [run, hstep, ha.complete, ih fun d hd => h d (by simp [hd])]

variable {units : List StringUnit}

/-- A string is followed to its closing quote. -/
theorem run_string {mode : StringMode} (h : scanString mode x = some (units, [])) (hin : a.inString = false)
    (hesc : a.escape = false) (hcomplete : a.complete = false) :
    { a with inString := true, escape := decide (mode = StringMode.escape) }.run x = (a, x) := by
  induction x generalizing mode units with
  | nil => simp [scanString] at h
  | cons c cs ih =>
    rcases scanString_cons h with ⟨rfl, rfl⟩ | ⟨next, hstep⟩
    · obtain rfl : cs = [] := by
        simp only [scanString, if_true, Option.some.injEq, Prod.mk.injEq] at h
        exact h.2
      have hback : cp '"' ≠ cp '\\' := by decide
      obtain ⟨depth, inString, escape, complete⟩ := a
      simp_all [run, step]
    · obtain ⟨tail, htail⟩ := hstep.rest h
      have hrest := ih htail
      have hescape := hstep.escape
      have hquote := hstep.quote
      by_cases hmode : mode = .escape
      · simp_all [run, step]
      · by_cases hback : c = cp '\\' <;> simp_all [run, step]

/-- The opening quote and the string behind it. -/
theorem passes_stringText (h : StringText x units) : Passes (cp '"' :: x) := by
  intro a ha
  have hx : scanString .plain x = some (units, []) := by simpa using h []
  have hrun := run_string hx ha.inString ha.escape ha.complete
  have hstep : a.step (cp '"') =
      { a with inString := true, escape := decide (StringMode.plain = .escape) } := by
    simp [step, ha.inString, ha.escape]
  have hopen : (a.step (cp '"')).complete = false := by
    rw [hstep]
    exact ha.complete
  simp only [run, hopen, Bool.false_eq_true, if_false]
  rw [hstep, hrun]

theorem passes_ws {w : Text} (hw : Ws w) : Passes w := by
  refine passes_plain fun c hc => ?_
  have := hw c hc
  simp only [isWs, Bool.or_eq_true, beq_iff_eq] at this
  rcases this with ((rfl | rfl) | rfl) | rfl <;> decide

theorem passes_digits {ds : Text} (h : ∀ c ∈ ds, isDigit c = true) : Passes ds := by
  refine passes_plain fun c hc => ?_
  have hdigit := h c hc
  refine ⟨?_, ?_, ?_⟩ <;> rintro rfl <;> revert hdigit <;> decide

theorem passes_char {c : CodePoint} (h : c ≠ cp '"' ∧ c ≠ cp '{' ∧ c ≠ cp '}') : Passes [c] :=
  passes_plain (by simpa using h)

theorem passes_number {l : NumberLiteral} (h : l.Valid) : Passes l.text := by
  have hminus : Passes l.minus := by
    rcases h.minus with hm | hm <;> rw [hm]
    · exact passes_nil
    · exact passes_char (by decide)
  have hnatural : Passes l.natural := by
    rcases h.natural with hn | ⟨hn, -⟩
    · rw [hn]
      exact passes_char (by decide)
    · exact passes_digits hn.2
  have hfraction : Passes l.fraction := by
    rcases h.fraction with hf | ⟨ds, hf, hds⟩ <;> rw [hf]
    · exact passes_nil
    · exact (passes_char (by decide)).append (passes_digits hds.2)
  have hexponent : Passes l.exponent := by
    rcases h.exponent with he | ⟨e, s, ds, he, hee, hs, hds⟩ <;> rw [he]
    · exact passes_nil
    · have hfirst : Passes [e] := by
        rcases hee with rfl | rfl <;> exact passes_char (by decide)
      have hsign : Passes s := by
        rcases hs with rfl | rfl | rfl
        · exact passes_nil
        · exact passes_char (by decide)
        · exact passes_char (by decide)
      exact hfirst.append (hsign.append (passes_digits hds.2))
  exact hminus.append (hnatural.append (hfraction.append hexponent))

/-- From inside the object, the text of a shape leads back to where it started; the
    rest of the members leads one brace out. -/
def Follows (x : Text) : Shape → Prop
  | .value _ => Passes x
  | .items _ => Passes x
  | .members _ => ∀ a : ArgumentsScan, a.Inside →
      a.run x = ({ a with depth := a.depth - 1, complete := decide (a.depth - 1 = 0) }, x)

theorem follows_close : Follows [cp '}'] (.members []) := by
  intro a ha
  have hstep : a.step (cp '}') =
      { a with depth := a.depth - 1, complete := decide (a.depth - 1 = 0) } := by
    simp [step, ha.inString, show cp '}' ≠ cp '"' by decide, show cp '}' ≠ cp '{' by decide]
  simp only [run, hstep]
  split <;> rfl

/-- What passes, and then the members or the brace. -/
theorem run_passes_then (hx : Passes x) (ha : a.Inside) (y : Text) : a.run (x ++ y) = ((a.run y).1, x ++ (a.run y).2) :=
  run_trans (hx a ha) ha.complete y

/-- The brace of an object and the members that close it. -/
theorem run_braces {w y : Text} (hw : Ws w) (hin : a.inString = false) (hesc : a.escape = false)
    (hcomplete : a.complete = false) (hdepth : 0 ≤ a.depth) (hy : Follows y (.members [])) :
    a.run (cp '{' :: (w ++ y)) = ({ a with complete := decide (a.depth = 0) }, cp '{' :: (w ++ y)) := by
  have hstep : a.step (cp '{') = { a with depth := a.depth + 1 } := by
    simp [step, hin, show cp '{' ≠ cp '"' by decide]
  have hinside : Inside { a with depth := a.depth + 1 } := ⟨by simp; omega, hin, hesc, hcomplete⟩
  have hrun := run_passes_then (passes_ws hw) hinside y
  have hopen : (a.step (cp '{')).complete = false := by
    rw [hstep]
    exact hcomplete
  rw [hy _ hinside] at hrun
  simp only [run, hopen]
  rw [hstep, hrun]
  simp

theorem follows_of_derives {codec : FloatCodec} {hooks : Hooks} {shape : Shape}
    (h : Derives codec hooks x shape) : Follows x shape := by
  have hobject : ∀ {w y : Text}, Ws w → Follows y (.members []) → Passes (cp '{' :: (w ++ y)) := by
    intro w y hw hy a ha
    have hdepth := ha.depth
    rw [run_braces hw ha.inString ha.escape ha.complete (by omega) hy]
    obtain ⟨depth, inString, escape, complete⟩ := a
    have hne : depth ≠ 0 := by
      simp only at hdepth
      omega
    have := ha.complete
    simp_all
  induction h with
  | str hx => exact passes_stringText hx
  | number hl => exact passes_number hl
  | word hmem _ =>
    simp only [words, mem_cons, not_mem_nil, or_false] at hmem
    rcases hmem with rfl | rfl | rfl | rfl | rfl | rfl <;> 
      exact passes_plain (by simp [Text.of, cp])
  | emptyArray hw =>
    exact (passes_char (by decide)).append ((passes_ws hw).append (passes_char (by decide)))
  | array hw _ ih => exact (passes_char (by decide)).append ((passes_ws hw).append ih)
  | emptyObject hw _ => exact hobject hw follows_close
  | object hw _ _ ih => exact hobject hw ih
  | lastItem _ hw ih => exact ih.append ((passes_ws hw).append (passes_char (by decide)))
  | item _ hw1 hw2 _ ihx ihy =>
    exact ihx.append ((passes_ws hw1).append ((passes_char (by decide)).append ((passes_ws hw2).append ihy)))
  | @lastMember k units w₁ w₂ x v w₃ hk hw1 hw2 _ hw3 ih =>
    intro a ha
    have hfront : Passes (cp '"' :: k ++ (w₁ ++ ([cp ':'] ++ (w₂ ++ (x ++ w₃))))) :=
      (passes_stringText hk).append ((passes_ws hw1).append ((passes_char (by decide)).append
        ((passes_ws hw2).append (ih.append (passes_ws hw3)))))
    have := run_passes_then hfront ha [cp '}']
    rw [follows_close a ha] at this
    simpa using this
  | @member k units w₁ w₂ x v w₃ w₄ y pairs hk hw1 hw2 _ hw3 hw4 _ ihx ihy =>
    intro a ha
    have hfront : Passes (cp '"' :: k ++ (w₁ ++ ([cp ':'] ++ (w₂ ++ (x ++ (w₃ ++ ([cp ','] ++ w₄))))))) :=
      (passes_stringText hk).append ((passes_ws hw1).append ((passes_char (by decide)).append
        ((passes_ws hw2).append (ihx.append ((passes_ws hw3).append
          ((passes_char (by decide)).append (passes_ws hw4)))))))
    have := run_passes_then hfront ha y
    rw [ihy a ha] at this
    simpa using this

/-- The braces of an object are followed to its end, whatever comes behind it. -/
theorem run_object {codec : FloatCodec} {hooks : Hooks} {v : Json}
    (h : Derives codec hooks x (.value v)) (hbrace : x.head? = some (cp '{')) (r : Text) :
    ({} : ArgumentsScan).run (x ++ r) = ({ complete := true }, x) := by
  have hwhole : ∀ {w y : Text}, Ws w → Follows y (.members []) →
      ({} : ArgumentsScan).run (cp '{' :: (w ++ y) ++ r) = ({ complete := true }, cp '{' :: (w ++ y)) := by
    intro w y hw hy
    have hrun := run_braces (a := {}) hw rfl rfl rfl (by decide) hy
    rw [run_append_of_complete rfl (by rw [hrun]; rfl), hrun]
    rfl
  generalize hshape : Shape.value v = shape at h
  cases h with
  | emptyObject hw _ => exact hwhole hw follows_close
  | object hw hx _ => exact hwhole hw fun b hb => follows_of_derives hx b hb
  | number hl =>
    obtain ⟨c, cs, hc, hdigit⟩ := hl.text_heads
    rw [hc] at hbrace
    simp only [List.head?_cons, Option.some.injEq] at hbrace
    subst hbrace
    exact absurd hdigit (by decide)
  | word hmem _ =>
    obtain ⟨c, cs, hc, -, -, hne, -⟩ := words_heads _ hmem
    rw [hc] at hbrace
    exact absurd (by simpa using hbrace) hne
  | str | emptyArray | array =>
    simp only [List.head?_cons] at hbrace
    exact absurd hbrace (by decide)
  | lastItem | item | lastMember | member => exact nomatch hshape

end ArgumentsScan

/-! ### Canonical bodies -/

namespace Text

variable {w t u : Text} {c : CodePoint}

/-- White space of any kind. -/
def Spaces (w : Text) : Prop := ∀ c ∈ w, isSpace c = true

theorem isSpace_quote : isSpace (cp '"') = false := by decide

theorem isSpace_colon : isSpace (cp ':') = false := by decide

theorem isSpace_comma : isSpace (cp ',') = false := by decide

theorem isSpace_brace : isSpace (cp '{') = false := by decide

theorem isSpace_close : isSpace (cp '}') = false := by decide

theorem exists_lstrip (t : Text) : ∃ w, Spaces w ∧ t = w ++ lstrip t :=
  ⟨t.takeWhile isSpace, fun _ hc => mem_takeWhile_imp hc, takeWhile_append_dropWhile.symm⟩

theorem lstrip_append (hw : Spaces w) (hc : isSpace c = false) : lstrip (w ++ c :: u) = c :: u := by
  induction w with
  | nil => simp [lstrip, hc]
  | cons d ds ih =>
    have hd : isSpace d = true := hw d (by simp)
    simpa [lstrip, hd] using ih fun e he => hw e (by simp [he])

/-- White space up to an expected text. -/
theorem after_lstrip {p : Text} (h : after p (lstrip t) = some u) : ∃ w, Spaces w ∧ t = w ++ (p ++ u) := by
  obtain ⟨w, hw, ht⟩ := exists_lstrip t
  exact ⟨w, hw, by rw [ht, after_eq_some.mp h]⟩

end Text

/-- A literal ends at its first quote that is not escaped. -/
theorem quotedLiteral_spec {escape : Bool} {t literal r : Text} (h : quotedLiteral escape t = some (literal, r)) :
    t = literal ++ r ∧ ∀ z, quotedLiteral escape (literal ++ z) = some (literal, z) := by
  induction t generalizing escape literal with
  | nil => exact nomatch h
  | cons c cs ih =>
    simp only [quotedLiteral] at h
    split at h
    · next hesc =>
      split at h
      · exact nomatch h
      · next hc =>
        obtain ⟨⟨tail, rest⟩, htail, heq⟩ := map_eq_some_iff.mp h
        cases heq
        obtain ⟨rfl, hz⟩ := ih htail
        exact ⟨rfl, fun z => by simp [quotedLiteral, hesc, hc, hz]⟩
    · next hesc =>
      split at h
      · next hc =>
        cases h
        exact ⟨rfl, fun z => by simp [quotedLiteral, hesc, hc]⟩
      · next hc =>
        obtain ⟨⟨tail, rest⟩, htail, heq⟩ := map_eq_some_iff.mp h
        cases heq
        obtain ⟨rfl, hz⟩ := ih htail
        exact ⟨rfl, fun z => by simp [quotedLiteral, hesc, hc, hz]⟩

/-- The key under which the object of a canonical body stands. -/
def argumentsKey (isArguments : Bool) : Text :=
  if isArguments then Text.of "arguments" else Text.of "parameters"

/-- A canonical body up to the opening brace of its object. -/
inductive CanonicalFront : Text → Text → Bool → Prop where
  | intro {w₀ w₁ w₂ w₃ w₄ w₅ w₆ w₇ literal : Text} {isArguments : Bool}
      (h₀ : Spaces w₀) (h₁ : Spaces w₁) (h₂ : Spaces w₂) (h₃ : Spaces w₃)
      (h₄ : Spaces w₄) (h₅ : Spaces w₅) (h₆ : Spaces w₆) (h₇ : Spaces w₇)
      (hliteral : ∀ z, quotedLiteral false (literal ++ z) = some (literal, z)) :
      CanonicalFront
        (w₀ ++ cp '{' :: (w₁ ++ cp '"' :: (Text.of "name" ++ cp '"' :: (w₂ ++ cp ':' ::
          (w₃ ++ cp '"' :: (literal ++ (w₄ ++ cp ',' :: (w₅ ++ cp '"' ::
            (argumentsKey isArguments ++ cp '"' :: (w₆ ++ cp ':' :: w₇))))))))))
        literal isArguments

theorem canonicalFront_of_match {t : Text} {m : ProgressiveMatch} (h : matchProgressive t = some m) :
    ∃ front literal, CanonicalFront front literal m.isArguments ∧
      m.nameLiteral = cp '"' :: literal ∧ t = front ++ m.rest ∧ m.rest.head? = some (cp '{') := by
  simp only [matchProgressive, bind_eq_bind, bind_eq_some_iff] at h
  obtain ⟨t1, h₁, t2, h₂, t3, h₃, t4, h₄, ⟨literal, t5⟩, hliteral, t6, h₆, ⟨isArguments, t7⟩, hkey, t8, h8, hend⟩ := h
  obtain ⟨w₀, hw0, rfl⟩ := after_lstrip h₁
  obtain ⟨w₁, hw1, rfl⟩ := after_lstrip h₂
  obtain ⟨w₂, hw2, rfl⟩ := after_lstrip h₃
  obtain ⟨w₃, hw3, rfl⟩ := after_lstrip h₄
  obtain ⟨rfl, hz⟩ := quotedLiteral_spec hliteral
  obtain ⟨w₄, hw4, rfl⟩ := after_lstrip h₆
  obtain ⟨w₅, hw5, ht6⟩ := exists_lstrip t6
  have hkey' : lstrip t6 = cp '"' :: (argumentsKey isArguments ++ cp '"' :: t7) := by
    simp only [argumentsKeyLiteral] at hkey
    split at hkey
    · next t ht =>
      cases hkey
      exact after_eq_some.mp ht
    · obtain ⟨t, ht, heq⟩ := map_eq_some_iff.mp hkey
      cases heq
      exact after_eq_some.mp ht
  obtain ⟨w₆, hw6, rfl⟩ := after_lstrip h8
  obtain ⟨w₇, hw7, ht8⟩ := exists_lstrip t8
  split at hend
  · next hbrace =>
    cases hend
    refine ⟨_, literal, .intro hw0 hw1 hw2 hw3 hw4 hw5 hw6 hw7 hz, rfl, ?_, hbrace⟩
    rw [ht6, hkey']
    nth_rewrite 1 [ht8]
    simp [Text.of]
  · cases hend

theorem matchProgressive_of_canonicalFront {front literal u : Text} {isArguments : Bool}
    (h : CanonicalFront front literal isArguments) (hu : u.head? = some (cp '{')) : matchProgressive (front ++ u) =
      some { nameLiteral := cp '"' :: literal, isArguments, rest := u } := by
  obtain ⟨h₀, h₁, h₂, h₃, h₄, h₅, h₆, h₇, hliteral⟩ := h
  obtain ⟨rest, rfl⟩ := head?_eq_some_iff.mp hu
  have hname : ∀ t, after (Text.of "\"name\"") (cp '"' :: (Text.of "name" ++ cp '"' :: t)) = some t :=
    fun t => after_append
  have hkey : ∀ t, argumentsKeyLiteral (cp '"' :: (argumentsKey isArguments ++ cp '"' :: t)) =
      some (isArguments, t) := by
    intro t
    cases isArguments with
    | true =>
      have h : after (Text.of "\"arguments\"")
          (cp '"' :: (Text.of "arguments" ++ cp '"' :: t)) = some t := after_append
      simp [argumentsKeyLiteral, argumentsKey, h]
    | false =>
      have hnot : after (Text.of "\"arguments\"")
          (cp '"' :: (Text.of "parameters" ++ cp '"' :: t)) = none := by
        simp [Text.after, Text.of, cp]
      have h : after (Text.of "\"parameters\"")
          (cp '"' :: (Text.of "parameters" ++ cp '"' :: t)) = some t := after_append
      simp [argumentsKeyLiteral, argumentsKey, hnot, h]
  have hone : ∀ (c : CodePoint) t, after [c] (c :: t) = some t := fun c t => after_append
  simp only [matchProgressive, append_assoc, cons_append, lstrip_append h₀ isSpace_brace,
    lstrip_append h₁ isSpace_quote, lstrip_append h₂ isSpace_colon, lstrip_append h₃ isSpace_quote,
    lstrip_append h₄ isSpace_comma, lstrip_append h₅ isSpace_quote, lstrip_append h₆ isSpace_colon,
    lstrip_append h₇ isSpace_brace, hone, hname, hliteral, hkey, bind_eq_bind, bind_some]
  rfl

/-! ### The payload of a canonical body -/

section Payload

variable {codec : FloatCodec} {n : Nat} {w t u r : Text} {c e : CodePoint}

/-- Behind white space of any kind, JSON sees the next character or white space that
    is not its own. -/
theorem skipWs_spaces (hw : Spaces w) (hc : isSpace c = false) : skipWs (w ++ c :: u) = c :: u ∨
      ∃ d ds, skipWs (w ++ c :: u) = d :: ds ∧ isSpace d = true ∧ isWs d = false := by
  have hcw : isWs c = false := isWs_eq_false hc
  induction w with
  | nil => exact Or.inl (by simp [skipWs, hcw])
  | cons d ds ih =>
    cases hd : isWs d with
    | true =>
      have := ih fun x hx => hw x (by simp [hx])
      simpa [skipWs, hd] using this
    | false => exact Or.inr ⟨d, ds ++ c :: u, by simp [skipWs, hd], hw d (by simp), hd⟩

theorem expect_spaces (hw : Spaces w) (hc : isSpace c = false) (he : isSpace e = false)
    (h : expect e (skipWs (w ++ c :: u)) = some r) : c = e ∧ r = u := by
  rcases skipWs_spaces hw hc with hs | ⟨d, ds, hs, hd, -⟩
  · rw [hs, expect_eq_some] at h
    cases h
    exact ⟨rfl, rfl⟩
  · rw [hs, expect_eq_some] at h
    cases h
    rw [he] at hd
    exact nomatch hd

variable {hooks : Hooks}

/-- No value starts with white space. -/
theorem scanOnce_space (hd : isSpace c = true) : scanOnce codec hooks n (c :: t) = none := by
  by_contra hne
  obtain ⟨⟨v, r⟩, h⟩ := ne_none_iff_exists'.mp hne
  obtain ⟨x, hx, hder⟩ := scanOnce_sound _ _ _ _ h
  obtain ⟨d, ds, rfl, hspace, -⟩ := hder.heads
  cases hx
  rw [hd] at hspace
  exact nomatch hspace

theorem scanOnce_spaces {v : Json} (hw : Spaces w) (hc : isSpace c = false)
    (h : scanOnce codec hooks n (skipWs (w ++ c :: u)) = some (v, r)) :
    scanOnce codec hooks n (c :: u) = some (v, r) := by
  rcases skipWs_spaces hw hc with hs | ⟨d, ds, hs, hd, -⟩
  · rwa [hs] at h
  · rw [hs, scanOnce_space hd] at h
    exact nomatch h

variable {z key literal : Text}

theorem scanKey_spaces (hw : Spaces w) (h : scanKey (skipWs (w ++ cp '"' :: u)) = some (key, r)) :
    scanKey (cp '"' :: u) = some (key, r) := by
  rcases skipWs_spaces hw (show isSpace (cp '"') = false by decide) with
    hs | ⟨d, ds, hs, hd, -⟩
  · rwa [hs] at h
  · rw [hs] at h
    obtain ⟨k, units, -, -, heq⟩ := scanKey_eq_some h
    cases heq
    exact absurd hd (by decide)

/-- The literal of a name ends where JSON ends the string. -/
theorem scanString_of_quotedLiteral {mode : StringMode} {units : List StringUnit}
    (h : scanString mode t = some (units, r))
    (hq : quotedLiteral (mode = .escape) t = some (literal, z)) : r = z := by
  induction t generalizing mode units literal with
  | nil => simp [scanString] at h
  | cons c cs ih =>
    rcases scanString_cons h with ⟨rfl, rfl⟩ | ⟨next, hstep⟩
    · obtain ⟨-, rfl⟩ : [] = units ∧ cs = r := by simpa [scanString] using h
      simp [quotedLiteral] at hq
      exact hq.2
    · obtain ⟨tail, htail⟩ := hstep.rest h
      have hliteral : ∃ literal, quotedLiteral (next = .escape) cs = some (literal, z) := by
        by_cases hmode : mode = .escape
        · simp only [quotedLiteral, hmode, decide_true, if_true] at hq
          split at hq
          · cases hq
          obtain ⟨⟨literal, rest⟩, hliteral, heq⟩ := map_eq_some_iff.mp hq
          cases heq
          exact ⟨literal, by simpa [hstep.escape, hmode] using hliteral⟩
        · simp only [quotedLiteral, hmode,
            if_neg (hstep.quote hmode)] at hq
          obtain ⟨⟨literal, rest⟩, hliteral, heq⟩ := map_eq_some_iff.mp hq
          cases heq
          exact ⟨literal, by simpa [hstep.escape, hmode] using hliteral⟩
      obtain ⟨literal, hliteral⟩ := hliteral
      exact ih htail hliteral

/-- A key without escapes. -/
theorem scanKey_plain (h : key.flatMap writeChar = key) (z : Text) :
    scanKey (cp '"' :: (key ++ cp '"' :: z)) = some (key, z) := by
  have hkey := scanKey_append (stringText_written key) z
  rw [h, joinSurrogates_written] at hkey
  simpa using hkey

/-- The value of a quoted literal, read in place and read alone. -/
theorem scanOnce_literal {v : Json} (hliteral : quotedLiteral false (literal ++ z) = some (literal, z))
    (h : scanOnce codec hooks n (cp '"' :: (literal ++ z)) = some (v, r)) :
    r = z ∧ ∃ name, v = .str name ∧ strictJsonLoads codec (cp '"' :: literal) = some (.str name) := by
  obtain ⟨n, rfl⟩ : ∃ k, n = k + 1 := by
    cases n with
    | zero => exact nomatch h
    | succ k => exact ⟨k, rfl⟩
  obtain ⟨⟨units, rest⟩, hunits, heq⟩ := map_eq_some_iff.mp h
  cases heq
  obtain rfl := scanString_of_quotedLiteral hunits (by simpa using hliteral)
  obtain ⟨x, hx, hstring⟩ := scanString_spec hunits
  obtain rfl := append_cancel_right hx
  refine ⟨rfl, _, rfl, ?_⟩
  have hder : Derives codec strictHooks (cp '"' :: literal)
      (.value (.str (joinSurrogates units))) := .str hstring
  rw [strictJsonLoads, hder.loadsWith (by simp; decide)]
  rfl

/-- One member of an object, and the rest of it. -/
theorem scanMembers_eq_some {scanOnce : Text → Option (Json × Text)} {pairs : JsonFields}
    (h : scanMembers scanOnce n t = some (pairs, r)) : ∃ key t1 t2 v t3, scanKey t = some (key, t1) ∧
      expect (cp ':') (skipWs t1) = some t2 ∧ scanOnce (skipWs t2) = some (v, t3) ∧
      ((∃ n' t4 more, expect (cp ',') (skipWs t3) = some t4 ∧
          scanMembers scanOnce n' (skipWs t4) = some (more, r) ∧ pairs = (key, v) :: more) ∨
        expect (cp '}') (skipWs t3) = some r ∧ pairs = [(key, v)]) := by
  cases n with
  | zero => exact nomatch h
  | succ n =>
    simp only [scanMembers, bind_eq_bind, bind_eq_some_iff] at h
    obtain ⟨⟨key, t1⟩, hkey, t2, hcolon, ⟨v, t3⟩, hv, h⟩ := h
    refine ⟨key, t1, t2, v, t3, hkey, hcolon, hv, ?_⟩
    split at h
    · next t4 hcomma =>
      obtain ⟨⟨more, t5⟩, hmore, heq⟩ := bind_eq_some_iff.mp h
      cases heq
      exact Or.inl ⟨n, t4, more, hcomma, hmore, rfl⟩
    · obtain ⟨t4, hclose, heq⟩ := bind_eq_some_iff.mp h
      cases heq
      exact Or.inr ⟨hclose, rfl⟩

theorem scanOnce_brace {hooks : Hooks} {v : Json} (h : scanOnce codec hooks n (cp '{' :: t) = some (v, r)) :
    ∃ k pairs fields, n = k + 1 ∧ jsonObject (scanOnce codec hooks k) t = some (pairs, r) ∧
      hooks.pairs pairs = some fields ∧ v = .obj fields := by
  cases n with
  | zero => exact nomatch h
  | succ k =>
    simp only [scanOnce, scanValue, show cp '{' ≠ cp '"' by decide, if_false, if_true,
      bind_eq_bind, bind_eq_some_iff] at h
    obtain ⟨⟨pairs, rest⟩, hobject, fields, hfields, heq⟩ := h
    cases heq
    exact ⟨k, pairs, fields, rfl, hobject, hfields, rfl⟩

theorem flatMap_writeChar_argumentsKey (isArguments : Bool) :
    (argumentsKey isArguments).flatMap writeChar = argumentsKey isArguments := by
  cases isArguments <;> decide

/-- **What a canonical body validates to**: its name is the literal's, and its second
    member is the object that was streamed. -/
theorem canonical_payload {front literal : Text} {isArguments : Bool} {payload : Json}
    (hfront : CanonicalFront front literal isArguments) (hu : u.head? = some (cp '{'))
    (h : loadsWith codec strictHooks (front ++ u) = some payload) :
    ∃ name input more y r, strictJsonLoads codec (cp '"' :: literal) = some (.str name) ∧
      payload = .obj ((Text.of "name", .str name) :: (argumentsKey isArguments, .obj input) :: more) ∧
      u = y ++ r ∧ Derives codec strictHooks y (.value (.obj input)) := by
  obtain ⟨h₀, h₁, h₂, h₃, h₄, h₅, h₆, h₇, hliteral⟩ := hfront
  obtain ⟨rest, rfl⟩ := head?_eq_some_iff.mp hu
  simp only [append_assoc, cons_append, loadsWith] at h
  split at h
  · cases h
  obtain ⟨⟨value, tail⟩, hvalue, hend⟩ := bind_eq_some_iff.mp h
  obtain rfl : value = payload := by
    split at hend
    · simpa using hend
    · cases hend
  obtain ⟨k, pairs, fields, -, hobject, hfields, rfl⟩ :=
    scanOnce_brace (scanOnce_spaces h₀ isSpace_brace hvalue)
  obtain ⟨rfl, -⟩ := strictHooks_strict.pairs _ _ hfields
  simp only [jsonObject] at hobject
  split at hobject
  · next hempty => exact absurd (expect_spaces h₁ isSpace_quote isSpace_close hempty).1 (by decide)
  -- The first member is the name.
  obtain ⟨key, t1, t2, v, t3, hkey, hsep, hv, hnext⟩ := scanMembers_eq_some hobject
  have hkey := scanKey_spaces h₁ hkey
  cases hkey
  obtain ⟨-, rfl⟩ := expect_spaces h₂ isSpace_colon isSpace_colon hsep
  obtain ⟨rfl, name, rfl, hname⟩ := scanOnce_literal (hliteral _) (scanOnce_spaces h₃ isSpace_quote hv)
  rcases hnext with ⟨n, t4, more, hsep, hmore, rfl⟩ | ⟨hlast, -⟩
  swap
  · exact absurd (expect_spaces h₄ isSpace_comma isSpace_close hlast).1 (by decide)
  obtain ⟨-, rfl⟩ := expect_spaces h₄ isSpace_comma isSpace_comma hsep
  -- The second member is the object.
  obtain ⟨key, t1, t2, v, t3, hkey, hsep, hv, hnext⟩ := scanMembers_eq_some hmore
  have hkey := scanKey_spaces h₅ hkey
  rw [scanKey_plain (flatMap_writeChar_argumentsKey isArguments)] at hkey
  cases hkey
  obtain ⟨-, rfl⟩ := expect_spaces h₆ isSpace_colon isSpace_colon hsep
  have hobject := scanOnce_spaces h₇ isSpace_brace hv
  obtain ⟨-, -, input, -, -, -, rfl⟩ := scanOnce_brace hobject
  obtain ⟨y, hy, hder⟩ := scanOnce_sound _ _ _ _ hobject
  rcases hnext with ⟨-, -, others, -, -, rfl⟩ | ⟨-, rfl⟩
  · exact ⟨name, input, others, y, t3, hname, rfl, hy, hder⟩
  · exact ⟨name, input, [], y, t3, hname, rfl, hy, hder⟩

end Payload

end Kairyu
