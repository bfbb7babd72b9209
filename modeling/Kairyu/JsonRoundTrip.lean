/-
  Kairyu/JsonRoundTrip.lean
  =========================
  **What `dumps` writes, `loads` reads back.**

  `Writes v` is the round trip of one value: the text written for `v` derives `v`.
  It holds for the values a duplicate-free reader returns, as long as their floats
  are finite, and for mappings with distinct keys put together from such values.
-/
import Kairyu.JsonGrammar

namespace Kairyu

open List Json NumberLiteral

namespace Json

/-! ### Strings -/

section Strings

variable {c : CodePoint} {t : Text}

/-- The unit a written character is scanned into. -/
def writtenUnit (c : CodePoint) : StringUnit :=
  ⟨c, decide (c.val ≤ 0x1f ∧ c ≠ cp '\n' ∧ c ≠ cp '\r' ∧ c ≠ cp '\t' ∧ c.val ≠ 12 ∧ c.val ≠ 8)⟩

theorem hexValue_hexChar : ∀ n < 16, hexValue (hexChar n) = some n := by decide

/-- A control character goes through its four hexadecimal digits. -/
theorem scanString_control (hc : c.val ≤ 0x1f) (z : Text) :
    scanString .plain (Text.of "\\u00" ++ [hexChar (c.val / 16), hexChar (c.val % 16)] ++ z) =
      (scanString .plain z).map fun (units, rest) => (⟨c, true⟩ :: units, rest) := by
  have hhigh := hexValue_hexChar (c.val / 16) (by omega)
  have hlow := hexValue_hexChar (c.val % 16) (by omega)
  have hzero : hexValue (cp '0') = some 0 := by decide
  have htext : Text.of "\\u00" = [cp '\\', cp 'u', cp '0', cp '0'] := rfl
  simp [htext, scanString, hzero, hhigh, hlow, Nat.div_add_mod', show cp '\\' ≠ cp '"' by decide]

theorem scanString_writeChar (c : CodePoint) (z : Text) : scanString .plain (writeChar c ++ z) =
      (scanString .plain z).map fun (units, rest) => (writtenUnit c :: units, rest) := by
  have hq : ∀ s, Text.of s = s.toList.map cp := fun _ => rfl
  simp only [writeChar]
  split
  · next h => subst h; simp [hq, scanString, escapedChar, writtenUnit, cp]
  split
  · next h => subst h; simp [hq, scanString, escapedChar, writtenUnit, cp]
  split
  · next h => subst h; simp [hq, scanString, escapedChar, writtenUnit, cp]
  split
  · next h => subst h; simp [hq, scanString, escapedChar, writtenUnit, cp]
  split
  · next h => subst h; simp [hq, scanString, escapedChar, writtenUnit, cp]
  split
  · next h =>
    obtain rfl : c = 12 := Fin.ext h
    simp [hq, scanString, escapedChar, writtenUnit, cp]
  split
  · next h =>
    obtain rfl : c = 8 := Fin.ext h
    simp [hq, scanString, escapedChar, writtenUnit, cp]
  split
  · next hquote hback hn hr ht hf hb hctl =>
    rw [scanString_control hctl]
    simp [writtenUnit, hctl, hn, hr, ht, hf, hb]
  · next hquote hback hn hr ht hf hb hctl =>
    simp [scanString, writtenUnit, hquote, hback, hctl]

theorem scanString_written (t z : Text) :
    scanString .plain (t.flatMap writeChar ++ cp '"' :: z) = some (t.map writtenUnit, z) := by
  induction t with
  | nil => simp [scanString]
  | cons c cs ih => simp [scanString_writeChar, ih]

/-- No surrogate is written as an escape. -/
theorem joinSurrogates_written (t : Text) : joinSurrogates (t.map writtenUnit) = t := by
  have hne : ∀ c, (writtenUnit c).escaped = true → isHighSurrogate (writtenUnit c).point = false := by
    intro c hc
    have hctl : c.val ≤ 0x1f := (of_decide_eq_true hc).1
    have hpoint : (writtenUnit c).point = c := rfl
    simp only [isHighSurrogate, hpoint, decide_eq_false_iff_not]
    omega
  induction t with
  | nil => rfl
  | cons c cs ih =>
    cases cs with
    | nil => rfl
    | cons d ds =>
      have hno : ¬ ((writtenUnit c).escaped && (writtenUnit d).escaped &&
          isHighSurrogate (writtenUnit c).point && isLowSurrogate (writtenUnit d).point) = true := by
        intro h
        simp only [Bool.and_eq_true] at h
        exact absurd h.1.2 (by simp [hne c h.1.1.1])
      simp only [map_cons, joinSurrogates, if_neg hno] at ih ⊢
      rw [ih]
      rfl

theorem stringText_written (t : Text) : StringText (t.flatMap writeChar ++ [cp '"']) (t.map writtenUnit) := by
  intro z
  simpa using scanString_written t z

end Strings

/-! ### Numbers -/

section Numbers

theorem naturalValue_digits (ds : List Nat) (h : ∀ d ∈ ds, d < 10) :
    naturalValue ((ds.map fun d => (Fin.ofNat _ (48 + d) : CodePoint)).reverse) = Nat.ofDigits 10 ds := by
  induction ds with
  | nil => rfl
  | cons d ds ih =>
    have hd : d < 10 := h d (by simp)
    have hrest := ih fun e he => h e (by simp [he])
    have hval : ((Fin.ofNat _ (48 + d) : CodePoint)).val = 48 + d := by
      simp only [Fin.ofNat]
      omega
    simp only [naturalValue] at hrest
    simp only [naturalValue, map_cons, reverse_cons, foldl_append, foldl_cons,
      foldl_nil, Nat.ofDigits_cons]
    omega

theorem naturalValue_write (n : Nat) : naturalValue (writeNatural n) = n := by
  rw [writeNatural]
  split
  · next hn => simp [hn, naturalValue, cp]
  · rw [naturalValue_digits _ fun d hd => Nat.digits_lt_base (by omega) hd, Nat.ofDigits_digits]

theorem digit_char {d : Nat} (h : d < 10) : isDigit (Fin.ofNat _ (48 + d)) = true := by
  have hval : ((Fin.ofNat _ (48 + d) : CodePoint)).val = 48 + d := by
    simp only [Fin.ofNat]
    omega
  simp only [isDigit, decide_eq_true_eq]
  omega

theorem writeNatural_valid (n : Nat) :
    writeNatural n = [cp '0'] ∨ Digits (writeNatural n) ∧ Heads (· ≠ cp '0') (writeNatural n) := by
  by_cases hn : n = 0
  · left
    simp [writeNatural, hn]
  right
  have hne : Nat.digits 10 n ≠ [] := Nat.digits_ne_nil_iff_ne_zero.mpr hn
  rw [writeNatural, if_neg hn]
  refine ⟨⟨by simpa using hne, ?_⟩, ?_⟩
  · intro c hc
    obtain ⟨d, hd, rfl⟩ := mem_map.mp (mem_reverse.mp hc)
    exact digit_char (Nat.digits_lt_base (by omega) hd)
  · -- The most significant digit is written first.
    intro c cs hcs
    have hlast : (Nat.digits 10 n).getLast hne ≠ 0 := Nat.getLast_digit_ne_zero 10 hn
    have hlt : (Nat.digits 10 n).getLast hne < 10 :=
      Nat.digits_lt_base (by omega) (getLast_mem hne)
    have hhead : c = Fin.ofNat _ (48 + (Nat.digits 10 n).getLast hne) := by
      have := congrArg List.head? hcs
      rw [List.head?_reverse, List.getLast?_map, List.getLast?_eq_getLast_of_ne_nil hne] at this
      simpa using this.symm
    rw [hhead]
    intro heq
    have := congrArg Fin.val heq
    simp only [Fin.ofNat, cp] at this
    have hz : ('0').toNat = 48 := rfl
    omega

end Numbers

/-! ### Values -/

section Values

variable {codec : FloatCodec} {t : Text} {v : Json}

/-- The text written for `v` reads as `v`. -/
def Writes (codec : FloatCodec) (v : Json) : Prop :=
  Derives codec plainHooks (dumps codec v) (.value v)

theorem writes_word (hmem : (dumps codec v, Except.ok v) ∈ words) : Writes codec v :=
  .word hmem rfl

theorem writes_null : Writes codec .null := writes_word (by simp [words, dumps])

theorem writes_str (t : Text) : Writes codec (.str t) := by
  have h : Derives codec plainHooks (writeString t) (.value (.str _)) :=
    .str (stringText_written t)
  rwa [joinSurrogates_written] at h

theorem writes_int (i : Int) : Writes codec (.int i) := by
  have hvalue := naturalValue_write i.natAbs
  have hvalid : ∀ minus, (minus = [] ∨ minus = [cp '-']) →
      Valid ⟨minus, writeNatural i.natAbs, [], []⟩ :=
    fun minus hminus => ⟨hminus, writeNatural_valid _, Or.inl rfl, Or.inl rfl⟩
  by_cases hi : i < 0
  · have h : Derives codec plainHooks _ _ := .number (hvalid [cp '-'] (by simp))
    have hint : integerValue [cp '-'] (writeNatural i.natAbs) = i := by
      rw [integerValue, if_neg (by simp)]
      omega
    simpa [Writes, dumps, writeInteger, hi, text, numberValue, isFloat, hint] using h
  · have h : Derives codec plainHooks _ _ := .number (hvalid [] (by simp))
    have hint : integerValue [] (writeNatural i.natAbs) = i := by
      rw [integerValue, if_pos rfl]
      omega
    simpa [Writes, dumps, writeInteger, hi, text, numberValue, isFloat, hint] using h

theorem writes_float {b : FloatBits} (hb : b.isFinite = true) : Writes codec (.float b) := by
  obtain ⟨l, hfloat, hl⟩ := codec.write_literal b hb
  obtain ⟨htext, hvalid⟩ := scanNumber_spec hl
  rw [append_nil] at htext
  have h : Derives codec plainHooks _ _ := .number hvalid
  simpa [Writes, dumps, writeFloat, hb, numberValue, hfloat, htext, codec.read_write b hb] using h

variable {fields : JsonFields} {items : List Json}

/-- The items of an array, each of which reads back. -/
theorem derives_items (hne : items ≠ []) (h : ∀ v ∈ items, Writes codec v) :
    Derives codec plainHooks (commas (dumpsItems codec items) ++ [cp ']']) (.items items) := by
  have hspace : Ws [cp ' '] := by simp [Ws, isWs]
  induction items with
  | nil => exact absurd rfl hne
  | cons v vs ih =>
    have hv : Writes codec v := h v (by simp)
    cases vs with
    | nil => exact hv.lastItem ws_nil
    | cons u us =>
      have hrest := ih (by simp) fun x hx => h x (by simp [hx])
      have hitem := hv.item ws_nil hspace hrest
      simpa [dumpsItems, commas, Text.of] using hitem

theorem writes_arr (h : ∀ v ∈ items, Writes codec v) : Writes codec (.arr items) := by
  by_cases hne : items = []
  · subst hne
    exact .emptyArray ws_nil
  · have harray := Derives.array ws_nil (derives_items hne h)
    simpa [Writes, dumps] using harray

theorem derives_members (hne : fields ≠ []) (h : ∀ entry ∈ fields, Writes codec entry.2) :
    Derives codec plainHooks (commas (dumpsFields codec fields) ++ [cp '}']) (.members fields) := by
  have hspace : Ws [cp ' '] := by simp [Ws, isWs]
  induction fields with
  | nil => exact absurd rfl hne
  | cons entry rest ih =>
    obtain ⟨key, v⟩ := entry
    have hv : Writes codec v := h (key, v) (by simp)
    have hkey := stringText_written key
    have hjoin := joinSurrogates_written key
    cases rest with
    | nil =>
      have hlast := Derives.lastMember hkey ws_nil hspace hv ws_nil
      rw [hjoin] at hlast
      simpa [dumpsFields, commas, writeString, Text.of] using hlast
    | cons next others =>
      have hrest := ih (by simp) fun x hx => h x (by simp [hx])
      have hmember := Derives.member hkey ws_nil hspace hv ws_nil hspace hrest
      rw [hjoin] at hmember
      simpa [dumpsFields, commas, writeString, Text.of] using hmember

/-- Distinct keys stay as they are when a mapping is made of them. -/
theorem plainHooks_pairs (h : (fields.map Prod.fst).Nodup) : plainHooks.pairs fields = some fields := by
  have hfold : ∀ (done rest : JsonFields), ((done ++ rest).map Prod.fst).Nodup →
      rest.foldl (fun fields entry => setField fields entry.1 entry.2) done = done ++ rest := by
    intro done rest
    induction rest generalizing done with
    | nil => simp
    | cons entry rest ih =>
      intro hnodup
      have hnew : done.any (·.1 == entry.1) = false := by
        rw [any_eq_false]
        intro other hother heq
        rw [map_append, nodup_append] at hnodup
        exact hnodup.2.2 other.1 (mem_map_of_mem hother) entry.1 (by simp) (by simpa using heq)
      rw [foldl_cons, setField, hnew, ih _ (by simpa using hnodup)]
      simp
  simpa [plainHooks] using hfold [] fields (by simpa using h)

theorem writes_obj (hnodup : (fields.map Prod.fst).Nodup) (h : ∀ entry ∈ fields, Writes codec entry.2) :
    Writes codec (.obj fields) := by
  by_cases hne : fields = []
  · subst hne
    exact .emptyObject ws_nil rfl
  · have hobject := Derives.object ws_nil (derives_members hne h) (plainHooks_pairs hnodup)
    simpa [Writes, dumps] using hobject

/-- Hooks that admit no constant and no key twice. -/
structure Hooks.Strict (hooks : Hooks) : Prop where
  constant : ∀ bits, hooks.constant bits = none
  pairs : ∀ pairs fields, hooks.pairs pairs = some fields →
    fields = pairs ∧ (pairs.map Prod.fst).Nodup

theorem isFiniteItems_iff : isFiniteItems items = true ↔ ∀ v ∈ items, isFinite v = true := by
  induction items with
  | nil => simp [isFiniteItems]
  | cons v vs ih => simp [isFiniteItems, ih]

theorem isFiniteFields_iff : isFiniteFields fields = true ↔ ∀ entry ∈ fields, isFinite entry.2 = true := by
  induction fields with
  | nil => simp [isFiniteFields]
  | cons entry rest ih =>
    simp [isFiniteFields, ih]

/-- Every value inside reads back, once its floats are finite. -/
def Shape.WritesFinite (codec : FloatCodec) : Shape → Prop
  | .value v => isFinite v = true → Writes codec v
  | .items vs => ∀ v ∈ vs, isFinite v = true → Writes codec v
  | .members pairs => ∀ entry ∈ pairs, isFinite entry.2 = true → Writes codec entry.2

theorem Derives.writesFinite {hooks : Hooks} {x : Text} {shape : Shape} (hstrict : hooks.Strict)
    (h : Derives codec hooks x shape) : shape.WritesFinite codec := by
  induction h with
  | str _ => exact fun _ => writes_str _
  | @number l _ =>
    intro hfinite
    simp only [numberValue] at hfinite ⊢
    split
    · next hfloat =>
      rw [if_pos hfloat] at hfinite
      exact writes_float (by simpa [isFinite] using hfinite)
    · exact writes_int _
  | @word entry v hmem hv =>
    intro _
    simp only [words, mem_cons, not_mem_nil, or_false] at hmem
    rcases hmem with rfl | rfl | rfl | rfl | rfl | rfl
    · cases hv
      exact writes_null
    · cases hv
      exact writes_word (by simp [words, dumps])
    · cases hv
      exact writes_word (by simp [words, dumps])
    all_goals
      exact absurd hv (by simp [Hooks.meaning, hstrict.constant])
  | emptyArray _ => exact fun _ => writes_arr (by simp)
  | array _ _ ih =>
    intro hfinite
    rw [isFinite, isFiniteItems_iff] at hfinite
    exact writes_arr fun v hv => ih v hv (hfinite v hv)
  | emptyObject _ hpairs =>
    intro _
    obtain ⟨rfl, -⟩ := hstrict.pairs _ _ hpairs
    exact writes_obj (by simp) (by simp)
  | object _ _ hpairs ih =>
    intro hfinite
    obtain ⟨rfl, hnodup⟩ := hstrict.pairs _ _ hpairs
    rw [isFinite, isFiniteFields_iff] at hfinite
    exact writes_obj hnodup fun entry hentry => ih entry hentry (hfinite entry hentry)
  | lastItem _ _ ih => simpa [Shape.WritesFinite] using ih
  | item _ _ _ _ ihx ihy =>
    intro v hv
    rcases mem_cons.mp hv with rfl | hv
    · exact ihx
    · exact ihy v hv
  | lastMember _ _ _ _ _ ih => simpa [Shape.WritesFinite] using ih
  | member _ _ _ _ _ _ _ ihx ihy =>
    intro entry hentry
    rcases mem_cons.mp hentry with rfl | hentry
    · exact ihx
    · exact ihy entry hentry

theorem numberValue_ne_obj (l : NumberLiteral) (fields : JsonFields) : numberValue codec l ≠ .obj fields := by
  simp only [numberValue]
  split <;> simp

/-- A strict reader's mapping is the list of its members. -/
theorem Derives.members_of_obj {hooks : Hooks} {x : Text} (hstrict : hooks.Strict)
    (h : Derives codec hooks x (.value (.obj fields))) :
    fields = [] ∨ ∃ y, Derives codec hooks y (.members fields) := by
  generalize hshape : Shape.value (.obj fields) = shape at h
  cases h with
  | number hl =>
    injection hshape with hvalue
    exact absurd hvalue.symm (numberValue_ne_obj _ _)
  | @word entry v hmem hv =>
    injection hshape with hvalue
    simp only [words, mem_cons, not_mem_nil, or_false] at hmem
    rcases hmem with rfl | rfl | rfl | rfl | rfl | rfl <;>
      simp [Hooks.meaning, hstrict.constant, ← hvalue] at hv
  | emptyObject _ hpairs =>
    obtain ⟨rfl, -⟩ := hstrict.pairs _ _ hpairs
    cases hshape
    exact Or.inl rfl
  | @object _ y _ _ _ hx hpairs =>
    obtain ⟨rfl, -⟩ := hstrict.pairs _ _ hpairs
    cases hshape
    exact Or.inr ⟨y, hx⟩
  | str | emptyArray | array | lastItem | item | lastMember | member => cases hshape

/-- What was written for a mapping loads as that mapping. -/
theorem loads_dumps_obj (h : Writes codec (.obj fields)) :
    loads codec (dumps codec (.obj fields)) = some (.obj fields) :=
  Derives.loadsWith h (by simp [dumps]; decide)

end Values

/-! ### A codec -/

/-- The literal of a bit pattern, written as a natural number with an empty exponent. -/
def decimalLiteral (b : FloatBits) : NumberLiteral where
  minus := []
  natural := writeNatural b.toNat
  fraction := []
  exponent := [cp 'e', cp '0']

theorem decimalLiteral_valid (b : FloatBits) : (decimalLiteral b).Valid where
  minus := Or.inl rfl
  natural := writeNatural_valid _
  fraction := Or.inl rfl
  exponent := Or.inr ⟨cp 'e', [], [cp '0'], rfl, Or.inl rfl, Or.inl rfl, by simp [Digits, isDigit, cp]⟩

end Json

/-- Codecs exist: one that writes the bit pattern itself. -/
def FloatCodec.decimal : FloatCodec where
  read t := UInt64.ofNat (naturalValue (scanDigits t).1)
  write b := (decimalLiteral b).text
  write_literal b _ := by
    refine ⟨decimalLiteral b, rfl, ?_⟩
    simpa using (decimalLiteral_valid b).scanNumber heads_nil
  read_write b _ := by
    have hdigits : scanDigits (decimalLiteral b).text =
        (writeNatural b.toNat, [cp 'e', cp '0']) := by
      refine scanDigits_of_all ?_ (heads_cons.mpr (by decide))
      rcases writeNatural_valid b.toNat with h | ⟨h, -⟩
      · simp [decimalLiteral, h, isDigit, cp]
      · exact h.2
    simp [hdigits, naturalValue_write]

end Kairyu
