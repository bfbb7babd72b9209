/-
  Kairyu/Trimming.lean
  ====================
  **White space next to items.**

  A stream of prose that is interrupted by items is delivered up to white space next to
  an item when each segment between two items lost nothing but white space at an end
  that touches one (`Trimmed`).  A reader that decides later what to do with white space
  it holds back keeps one of two facts: that nothing was dropped so far, or that the
  last segment may be dropped whole (`TrimmedBefore`).
-/
import Kairyu.Text

namespace Kairyu

open List

/-- What a stream of prose consists of. -/
inductive ProseToken where
  | prose (text : Text)
  | item
deriving DecidableEq, Repr

namespace ProseToken

/-- More prose at the end of the last segment. -/
def appendLast : List Text → Text → List Text
  | [], t => [t]
  | [s], t => [s ++ t]
  | s :: s' :: ss, t => s :: appendLast (s' :: ss) t

def addToken (segments : List Text) : ProseToken → List Text
  | .prose t => appendLast segments t
  | .item => segments ++ [[]]

/-- The prose before, between and after the items. -/
def segments (tokens : List ProseToken) : List Text := tokens.foldl addToken [[]]

@[simp] theorem segments_nil : segments [] = [[]] := rfl

@[simp] theorem segments_snoc_prose (tokens : List ProseToken) (t : Text) :
    segments (tokens ++ [.prose t]) = appendLast (segments tokens) t := by
  simp [segments, addToken]

@[simp] theorem segments_snoc_item (tokens : List ProseToken) :
    segments (tokens ++ [.item]) = segments tokens ++ [[]] := by
  simp [segments, addToken]

theorem appendLast_snoc (ss : List Text) (s t : Text) : appendLast (ss ++ [s]) t = ss ++ [s ++ t] := by
  induction ss with
  | nil => rfl
  | cons a as ih =>
    cases as with
    | nil => rfl
    | cons b bs => exact congrArg (a :: ·) ih

theorem flatten_appendLast (ks : List Text) (t : Text) : (appendLast ks t).flatten = ks.flatten ++ t := by
  rcases eq_nil_or_concat ks with rfl | ⟨as, a, rfl⟩
  · simp [appendLast]
  · simp [appendLast_snoc]

end ProseToken

open ProseToken

/-- `kept` is the segment without white space at an end that touches an item. -/
def Trims (left right : Bool) (segment kept : Text) : Prop :=
  ∃ u v, segment = u ++ (kept ++ v) ∧ Text.blank u = true ∧ Text.blank v = true ∧
    (left = false → u = []) ∧ (right = false → v = [])

/-- Segments in order, of which all but the first touch an item on the left and all but
    the last on the right. -/
inductive TrimsAll : Bool → Bool → List Text → List Text → Prop where
  | last {left right : Bool} {s k : Text} (h : Trims left right s k) : TrimsAll left right [s] [k]
  | more {left right : Bool} {s k : Text} {ss ks : List Text} (h : Trims left true s k)
      (hmore : TrimsAll true right ss ks) : TrimsAll left right (s :: ss) (k :: ks)

/-- `kept` is the prose of the tokens up to white space next to items. -/
def Trimmed (tokens : List ProseToken) (kept : Text) : Prop :=
  ∃ pieces, TrimsAll false false (segments tokens) pieces ∧ kept = pieces.flatten

/-- The same, where an item may still follow. -/
def TrimmedOpen (tokens : List ProseToken) (kept : Text) : Prop :=
  ∃ pieces, TrimsAll false true (segments tokens) pieces ∧ kept = pieces.flatten

/-- The same, and the last segment is white space behind an item, all of it dropped. -/
def TrimmedBefore (tokens : List ProseToken) (kept : Text) : Prop :=
  ∃ ss s pieces, segments tokens = ss ++ [s] ∧ Text.blank s = true ∧
    TrimsAll false true ss pieces ∧ kept = pieces.flatten

section Trims

variable {left right : Bool} {s k t : Text} {ss ks : List Text}

theorem Trims.mono (h : Trims left right s k) : Trims left true s k := by
  obtain ⟨u, v, hs, hu, hv, hleft, -⟩ := h
  exact ⟨u, v, hs, hu, hv, hleft, by simp⟩

theorem trims_self (left right : Bool) (s : Text) : Trims left right s s :=
  ⟨[], [], by simp, rfl, rfl, fun _ => rfl, fun _ => rfl⟩

theorem Trims.append (h : Trims left false s k) (t : Text) : Trims left false (s ++ t) (k ++ t) := by
  obtain ⟨u, v, hs, hu, -, hleft, hright⟩ := h
  obtain rfl := hright rfl
  exact ⟨u, [], by simp [hs], hu, rfl, hleft, fun _ => rfl⟩

theorem TrimsAll.mono (h : TrimsAll left right ss ks) : TrimsAll left true ss ks := by
  induction h with
  | last h => exact .last h.mono
  | more h _ ih => exact .more h ih

theorem TrimsAll.appendLast (h : TrimsAll left false ss ks) (t : Text) :
    TrimsAll left false (appendLast ss t) (appendLast ks t) := by
  generalize hright : false = right at h
  induction h with
  | last h =>
    subst hright
    exact .last (h.append t)
  | more h hmore ih =>
    have hnext := ih hright
    cases hmore with
    | last _ => exact .more h hnext
    | more _ _ => exact .more h hnext

/-- A segment behind an item that is white space is dropped whole. -/
theorem TrimsAll.snoc_blank (h : TrimsAll left right ss ks) (hs : Text.blank s = true) (b : Bool) :
    TrimsAll left b (ss ++ [s]) (ks ++ [[]]) := by
  induction h with
  | last h => exact .more h.mono (.last ⟨s, [], by simp, hs, rfl, by simp, fun _ => rfl⟩)
  | more h _ ih => exact .more h ih

theorem trimsAll_blank (hne : ss ≠ []) (h : ∀ s ∈ ss, Text.blank s = true) (left : Bool) :
    TrimsAll left true ss (ss.map fun _ => []) := by
  induction ss generalizing left with
  | nil => exact absurd rfl hne
  | cons s ss ih =>
    have hs : Trims left true s [] := ⟨[], s, by simp, rfl, h s (by simp), fun _ => rfl, by simp⟩
    cases ss with
    | nil => exact .last hs
    | cons s' ss => exact .more hs (ih (by simp) (fun x hx => h x (by simp [hx])) true)

end Trims

section Tokens

variable {tokens : List ProseToken} {kept t : Text}

theorem segments_ne_nil (tokens : List ProseToken) : segments tokens ≠ [] := by
  rcases eq_nil_or_concat tokens with rfl | ⟨ts, token, rfl⟩
  · simp
  · cases token with
    | prose t =>
      rcases eq_nil_or_concat (segments ts) with h | ⟨ss, s, h⟩
      · simp [h, ProseToken.appendLast]
      · simp [h, appendLast_snoc]
    | item => simp

theorem trimmed_nil : Trimmed [] [] := ⟨[[]], .last (trims_self _ _ _), rfl⟩

theorem Trimmed.toOpen (h : Trimmed tokens kept) : TrimmedOpen tokens kept := by
  obtain ⟨pieces, hall, rfl⟩ := h
  exact ⟨pieces, hall.mono, rfl⟩

theorem Trimmed.snoc_prose (h : Trimmed tokens kept) (t : Text) : Trimmed (tokens ++ [.prose t]) (kept ++ t) := by
  obtain ⟨pieces, hall, rfl⟩ := h
  refine ⟨ProseToken.appendLast pieces t, ?_, (flatten_appendLast pieces t).symm⟩
  rw [segments_snoc_prose]
  exact hall.appendLast t

theorem TrimmedOpen.before_item (h : TrimmedOpen tokens kept) : TrimmedBefore (tokens ++ [.item]) kept := by
  obtain ⟨pieces, hall, rfl⟩ := h
  exact ⟨segments tokens, [], pieces, segments_snoc_item tokens, rfl, hall, rfl⟩

theorem TrimmedBefore.trimmed (h : TrimmedBefore tokens kept) : Trimmed tokens kept := by
  obtain ⟨ss, s, pieces, hsegments, hblank, hall, rfl⟩ := h
  refine ⟨pieces ++ [[]], ?_, by simp⟩
  rw [hsegments]
  exact hall.snoc_blank hblank false

theorem TrimmedOpen.snoc_item (h : TrimmedOpen tokens kept) : Trimmed (tokens ++ [.item]) kept :=
  h.before_item.trimmed

theorem TrimmedBefore.snoc_item (h : TrimmedBefore tokens kept) :
    TrimmedBefore (tokens ++ [.item]) kept := h.trimmed.toOpen.before_item

theorem TrimmedBefore.snoc_blank (h : TrimmedBefore tokens kept) (ht : Text.blank t = true) :
    TrimmedBefore (tokens ++ [.prose t]) kept := by
  obtain ⟨ss, s, pieces, hsegments, hblank, hall, rfl⟩ := h
  refine ⟨ss, s ++ t, pieces, ?_, ?_, hall, rfl⟩
  · rw [segments_snoc_prose, hsegments, appendLast_snoc]
  · simp only [Text.blank, all_append, Bool.and_eq_true] at hblank ht ⊢
    exact ⟨hblank, ht⟩

/-- All the prose so far is white space. -/
def BlankProse (tokens : List ProseToken) : Prop := ∀ s ∈ segments tokens, Text.blank s = true

theorem blankProse_nil : BlankProse [] := by simp [BlankProse, Text.blank]

theorem BlankProse.snoc_item (h : BlankProse tokens) : BlankProse (tokens ++ [.item]) := by
  intro s hs
  rw [segments_snoc_item, mem_append] at hs
  rcases hs with hs | hs
  · exact h s hs
  · rw [mem_singleton.mp hs]
    rfl

theorem BlankProse.snoc_blank (h : BlankProse tokens) (ht : Text.blank t = true) :
    BlankProse (tokens ++ [.prose t]) := by
  intro s hs
  rw [segments_snoc_prose] at hs
  rcases eq_nil_or_concat (segments tokens) with hnil | ⟨ss, last, hlast⟩
  · exact absurd hnil (segments_ne_nil tokens)
  · rw [hlast, concat_eq_append, appendLast_snoc, mem_append, mem_singleton] at hs
    rcases hs with hs | rfl
    · exact h s (by simp [hlast, hs])
    · have := h last (by simp [hlast])
      simp only [Text.blank, all_append, Bool.and_eq_true] at this ht ⊢
      exact ⟨this, ht⟩

theorem BlankProse.trimmedOpen (h : BlankProse tokens) : TrimmedOpen tokens [] :=
  ⟨_, trimsAll_blank (segments_ne_nil tokens) h false, by simp⟩

end Tokens

end Kairyu
