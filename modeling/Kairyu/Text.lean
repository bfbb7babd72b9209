/-
  Kairyu/Text.lean
  ================
  **Texts as lists of code points**, with the operations of `str` that the server's
  stream parsers use: `find`, `startswith`, `strip` and slices.

  `find` returns the first occurrence.  The lemmas say how it behaves on a text
  that grows at its end, which is all a stream parser can observe.
-/
import Mathlib

namespace Kairyu

open List

/-- A code point, a lone surrogate included. -/
abbrev CodePoint := Fin 0x110000

instance neZero_codePoints : NeZero 0x110000 := ⟨by decide⟩

/-- The code point of a character. -/
def cp (c : Char) : CodePoint :=
  ⟨c.toNat, by
    have h := c.valid
    simp only [UInt32.isValidChar, Nat.isValidChar] at h
    simp only [Char.toNat]
    omega⟩

/-- A text as the sequence of its code points. -/
abbrev Text := List CodePoint

instance lawfulBEq_text : LawfulBEq Text := inferInstance

namespace Text

/-- A literal. -/
def of (s : String) : Text := s.toList.map cp

/-! ### Searching -/

/-- `text.find(pattern)`: the position of the first occurrence. -/
def find (pattern : Text) : Text → Option Nat
  | [] => if pattern = [] then some 0 else none
  | c :: cs =>
    if pattern <+: c :: cs then some 0 else (find pattern cs).map (· + 1)

variable {p t u : Text} {i k : Nat}

theorem find_at_start (h : p <+: t) : find p t = some 0 := by
  cases t with
  | nil => rw [find, if_pos (prefix_nil.mp h)]
  | cons c cs => rw [find, if_pos h]

theorem find_cons_of_ne {c : CodePoint} {cs : Text} (h : ¬ p <+: c :: cs) :
    find p (c :: cs) = (find p cs).map (· + 1) := by
  rw [find, if_neg h]

theorem find_eq_none : find p t = none ↔ ¬ p <:+: t := by
  induction t with
  | nil => simp [find]
  | cons c cs ih =>
    by_cases h : p <+: c :: cs
    · simp [find_at_start h, h.isInfix]
    · rw [find_cons_of_ne h, Option.map_eq_none_iff, infix_cons_iff]
      tauto

/-- The text around the first occurrence. -/
theorem find_eq_some_append (h : find p t = some i) : t = t.take i ++ (p ++ t.drop (i + p.length)) := by
  induction t generalizing i with
  | nil =>
    by_cases hp : p = []
    · simp [hp]
    · simp [find, hp] at h
  | cons c cs ih =>
    by_cases hp : p <+: c :: cs
    · rw [find_at_start hp, Option.some_inj] at h
      obtain ⟨r, hr⟩ := hp
      subst h
      simp [← hr]
    · rw [find_cons_of_ne hp, Option.map_eq_some_iff] at h
      obtain ⟨j, hj, rfl⟩ := h
      rw [take_succ_cons, cons_append, show j + 1 + p.length = j + p.length + 1 by omega, drop_succ_cons, ← ih hj]

theorem find_add_length_le (h : find p t = some i) : i + p.length ≤ t.length := by
  have hsplit := congrArg List.length (find_eq_some_append h)
  simp only [length_append, length_take] at hsplit
  by_cases hle : i ≤ t.length
  · omega
  · exfalso
    -- The position is that of a suffix of the text.
    clear hsplit
    induction t generalizing i with
    | nil => by_cases hp : p = [] <;> simp_all [find]
    | cons c cs ih =>
      by_cases hp : p <+: c :: cs
      · rw [find_at_start hp, Option.some_inj] at h
        omega
      · rw [find_cons_of_ne hp, Option.map_eq_some_iff] at h
        obtain ⟨j, hj, rfl⟩ := h
        exact ih hj (by simp only [length_cons] at hle; omega)

/-- An occurrence found stays the first one as the text grows. -/
theorem find_append_of_some (h : find p t = some i) (u : Text) : find p (t ++ u) = some i := by
  induction t generalizing i with
  | nil =>
    by_cases hp : p = []
    · subst hp
      rw [find_at_start nil_prefix] at h ⊢
      exact h
    · simp [find, hp] at h
  | cons c cs ih =>
    by_cases hp : p <+: c :: cs
    · rw [find_at_start hp] at h
      rw [find_at_start (hp.trans (prefix_append _ _)), h]
    · rw [find_cons_of_ne hp, Option.map_eq_some_iff] at h
      obtain ⟨j, hj, rfl⟩ := h
      have hlen := find_add_length_le hj
      have hnot : ¬ p <+: c :: (cs ++ u) := by
        intro hpre
        apply hp
        refine prefix_of_prefix_length_le hpre (prefix_append (c :: cs) u) ?_
        simp only [length_cons]
        omega
      rw [cons_append, find_cons_of_ne hnot, ih hj]
      rfl

/-- Nothing occurs before position `k`: the search may start there. -/
theorem find_eq_drop (hk : k ≤ t.length) (h : ∀ j, j < k → ¬ p <+: t.drop j) :
    find p t = (find p (t.drop k)).map (· + k) := by
  induction k generalizing t with
  | zero => simp
  | succ k ih =>
    cases t with
    | nil => simp at hk
    | cons c cs =>
      rw [find_cons_of_ne (by simpa using h 0 (by omega)),
        ih (by simpa using hk) (fun j hj => by simpa using h (j + 1) (by omega)), Option.map_map]
      rfl

/-- Without an occurrence in `t`, a longer text has one only from the last
    `p.length - 1` characters of `t` on. -/
theorem find_append_of_none (h : find p t = none) (hk : k + p.length ≤ t.length + 1) (u : Text) :
    find p (t ++ u) = (find p (t.drop k ++ u)).map (· + k) := by
  have hp : p ≠ [] := by
    intro hp
    rw [find_at_start (by simp [hp])] at h
    exact nomatch h
  have hpos : 0 < p.length := length_pos_of_ne_nil hp
  have hkt : k ≤ t.length := by omega
  rw [find_eq_drop (k := k) (by rw [length_append]; omega), drop_append_of_le_length hkt]
  intro j hj hpre
  apply find_eq_none.mp h
  rw [drop_append_of_le_length (by omega)] at hpre
  have : p <+: t.drop j :=
    prefix_of_prefix_length_le hpre (prefix_append _ _) (by rw [length_drop]; omega)
  exact this.isInfix.trans (drop_suffix j t).isInfix

/-! ### White space -/

/-- `str.isspace` on one character. -/
def isSpace (c : CodePoint) : Bool :=
  let n := c.val
  (9 ≤ n && n ≤ 13) || (28 ≤ n && n ≤ 32) || n == 0x85 || n == 0xa0 || n == 0x1680 ||
    (0x2000 ≤ n && n ≤ 0x200a) || n == 0x2028 || n == 0x2029 || n == 0x202f || n == 0x205f ||
    n == 0x3000

def lstrip (t : Text) : Text := t.dropWhile isSpace

def rstrip (t : Text) : Text := t.rdropWhile isSpace

def strip (t : Text) : Text := rstrip (lstrip t)

/-- `not text.strip()`. -/
def blank (t : Text) : Bool := t.all isSpace

theorem lstrip_append_of_ne_nil (h : lstrip t ≠ []) (u : Text) : lstrip (t ++ u) = lstrip t ++ u := by
  unfold lstrip at h ⊢
  rw [List.dropWhile_append, if_neg (mt List.isEmpty_iff.mp h)]

theorem strip_prefix_strip (t u : Text) : strip t <+: strip (t ++ u) := by
  by_cases h : lstrip t = []
  · simp [strip, rstrip, h]
  · rw [strip, strip, lstrip_append_of_ne_nil h]
    induction u using List.reverseRecOn with
    | nil => simp
    | append_singleton u c ih =>
      rw [← append_assoc, rstrip, rstrip, rdropWhile_concat]
      split
      · exact ih
      · exact (List.rdropWhile_prefix ..).trans ((prefix_append _ u).trans (prefix_append _ [c]))

end Text

end Kairyu
