/-
  Kairyu/ServerSentEvents.lean
  ============================
  **Server-sent events read from chunks** (`sse.py`).

  `iter_sse_data` cuts lines off a buffer while chunks arrive.  However the bytes are cut into
  chunks, it yields the events of the lines of all of them (`sseEvents`).

  The generator ends with the list of what it yielded: normally (`.ok`), or by the
  `UnicodeDecodeError` of an event that is not UTF-8 (`.error`).
-/
import Mathlib

namespace Kairyu

open List

abbrev Bytes := List UInt8

/-- `_SSE_LINE_END_RE`: LF or CR -/
def isLineEnd (b : UInt8) : Bool := b == 10 || b == 13

/-- The line, the next scan cursor, and what is left in the buffer. -/
def popLine (buffer : Bytes) (eof : Bool) (scanFrom : Nat) : Option Bytes × Nat × Bytes :=
  match (buffer.drop scanFrom).findIdx? isLineEnd with
  | some found =>
    let index := scanFrom + found
    if buffer[index]? = some 10 then (some (buffer.take index), 0, buffer.drop (index + 1))
    else if index + 1 = buffer.length ∧ eof = false then (none, index, buffer)
    else
      let terminatorBytes := if buffer[index + 1]? = some 10 then 2 else 1
      (some (buffer.take index), 0, buffer.drop (index + terminatorBytes))
  | none => if eof = true ∧ buffer ≠ [] then (some buffer, 0, []) else (none, buffer.length, buffer)

def removeBom (line : Bytes) : Bytes := (line.dropPrefix? [0xEF, 0xBB, 0xBF]).getD line

/-- The value of a `data` field; `none` for a comment or another field. -/
def dataField (line : Bytes) : Option Bytes :=
  if line.head? = some 58 then none
  else
    let value := (line.dropWhile (· != 58)).drop 1
    let value := if value.head? = some 32 then value.drop 1 else value
    if line.takeWhile (· != 58) = [100, 97, 116, 97] then some value else none

/-- The data lines of an event, joined and decoded. -/
def decodeData (dataLines : List Bytes) : Option String := String.fromUTF8? ⟨(intercalate [10] dataLines).toArray⟩

/-- What `consume` keeps about the lines it popped. -/
structure SseLines where
  dataLines : List Bytes := []
  firstLine : Bool := true
  yielded : List String := []

/-- The body of the loop of `consume`, after a line was popped. -/
def SseLines.onLine (s : SseLines) (line : Bytes) : Except (List String) SseLines :=
  let line := if s.firstLine then removeBom line else line
  let s := { s with firstLine := false }
  if line = [] then
    if s.dataLines = [] then .ok s
    else
      match decodeData s.dataLines with
      | some data => .ok { s with dataLines := [], yielded := s.yielded ++ [data] }
      | none => .error s.yielded
  else .ok { s with dataLines := s.dataLines ++ (dataField line).toList }

structure SseReader where
  buffer : Bytes := []
  scanFrom : Nat := 0
  lines : SseLines := {}

namespace SseReader

/-- Every line popped shortens the buffer, so the loop ends before the fuel does. -/
def consume (eof : Bool) : Nat → SseReader → Except (List String) SseReader
  | 0, r => .ok r
  | fuel + 1, r =>
    match popLine r.buffer eof r.scanFrom with
    | (none, scanFrom, buffer) => .ok { r with buffer, scanFrom }
    | (some line, scanFrom, buffer) => do
      let lines ← r.lines.onLine line
      consume eof fuel ⟨buffer, scanFrom, lines⟩

def onChunk (r : SseReader) (chunk : Bytes) : Except (List String) SseReader :=
  let r := { r with buffer := r.buffer ++ chunk }
  r.consume false (r.buffer.length + 1)

end SseReader

def iterSseData (chunks : List Bytes) : Except (List String) (List String) := do
  let r ← chunks.foldlM SseReader.onChunk {}
  let r ← r.consume true (r.buffer.length + 1)
  return r.lines.yielded

/-! ### The events of a byte string -/

/-- The lines, ended by LF, CR or CRLF; the last one may have no end. -/
def cutLines : Bytes → List Bytes
  | [] => []
  | 10 :: rest => [] :: cutLines rest
  | 13 :: 10 :: rest => [] :: cutLines rest
  | 13 :: rest => [] :: cutLines rest
  | b :: rest =>
    match cutLines rest with
    | [] => [[b]]
    | line :: lines => (b :: line) :: lines

/-- The data lines of each event that a blank line closes and that has any. -/
def dataOf (lines : List Bytes) : List (List Bytes) :=
  ((lines.splitOn []).dropLast.map (filterMap dataField)).filter (· ≠ [])

def sseEvents (bytes : Bytes) : List (List Bytes) := dataOf ((cutLines bytes).modifyHead removeBom)

/-- The texts of events, up to one that is not UTF-8. -/
def decodeEvents (yielded : List String) (events : List (List Bytes)) : Except (List String) (List String) :=
  events.foldlM (fun yielded event => (decodeData event).elim (.error yielded) fun data => .ok (yielded ++ [data])) yielded

/-! ### Popping a line -/

def Plain (line : Bytes) : Prop := ∀ b ∈ line, isLineEnd b = false

/-- No line ends before the cursor. -/
def Scanned (buffer : Bytes) (k : Nat) : Prop := ∃ pre rest, buffer = pre ++ rest ∧ pre.length = k ∧ Plain pre

theorem scanned_zero (buffer : Bytes) : Scanned buffer 0 := ⟨[], buffer, rfl, rfl, forall_mem_nil _⟩

variable {pre rest : Bytes} {eof : Bool} {k : Nat}

theorem cutLines_append (hpre : Plain pre) (rest : Bytes) : cutLines (pre ++ rest) = match cutLines rest with
      | [] => if pre = [] then [] else [pre]
      | line :: lines => (pre ++ line) :: lines := by
  induction pre with
  | nil =>
    rw [nil_append]
    cases cutLines rest <;> rfl
  | cons b pre ih =>
    obtain ⟨hb, hpre⟩ := forall_mem_cons.mp hpre
    have hcons : cutLines (b :: (pre ++ rest)) = match cutLines (pre ++ rest) with
        | [] => [[b]]
        | line :: lines => (b :: line) :: lines := by
      have h10 : b ≠ 10 := by rintro rfl; cases hb
      have h13 : b ≠ 13 := by rintro rfl; cases hb
      rw [cutLines.eq_def]
      split <;> simp_all
    rw [cons_append, hcons, ih hpre]
    cases cutLines rest with
    | nil => cases pre <;> rfl
    | cons line lines => rfl

theorem cutLines_ended {lines : List Bytes} (hpre : Plain pre) (hrest : cutLines rest = [] :: lines) :
    cutLines (pre ++ rest) = pre :: lines := by
  rw [cutLines_append hpre, hrest]
  exact congrArg (· :: lines) (append_nil pre)

/-- What is left after a CR, whose LF is part of the line end. -/
def skipLf (bytes : Bytes) : Bytes := if bytes.head? = some 10 then bytes.drop 1 else bytes

theorem cutLines_cr (rest : Bytes) : cutLines (13 :: rest) = [] :: cutLines (skipLf rest) := by
  cases rest with
  | nil => rfl
  | cons b rest =>
    by_cases hb : b = 10
    · subst hb
      rfl
    · simp [skipLf, cutLines, hb]

theorem length_skipLf_le (bytes : Bytes) : (skipLf bytes).length ≤ bytes.length := by
  unfold skipLf
  split <;> simp

theorem skipLf_append {bytes more : Bytes} (h : bytes = [] → more = []) : skipLf (bytes ++ more) = skipLf bytes ++ more := by
  cases bytes with
  | nil => rw [h rfl, append_nil, append_nil]
  | cons b bytes =>
    by_cases hb : b = 10 <;> simp [skipLf, hb]

theorem popLine_ended {line after : Bytes} {e : UInt8} (hline : Plain line)
    (he : isLineEnd e = true) (hk : k ≤ line.length) : popLine (line ++ e :: after) eof k =
      if e = 10 then (some line, 0, after)
      else if after = [] ∧ eof = false then (none, line.length, line ++ e :: after)
      else (some line, 0, skipLf after) := by
  have hfound : ((line ++ e :: after).drop k).findIdx? isLineEnd = some (line.length - k) := by
    have hnone : (line.drop k).findIdx? isLineEnd = none :=
      findIdx?_eq_none_iff.mpr fun b hb => hline b (mem_of_mem_drop hb)
    rw [drop_append_of_le_length hk, findIdx?_append, hnone]
    simp [findIdx?_cons, he]
  have hindex : k + (line.length - k) = line.length := by omega
  have hnext : (line ++ e :: after)[line.length + 1]? = after.head? := by
    rw [getElem?_append_right (Nat.le_succ _), Nat.succ_sub (Nat.le_refl _), Nat.sub_self, getElem?_cons_succ,
      head?_eq_getElem?]
  have hlast : line.length + 1 = (line ++ e :: after).length ↔ after = [] := by
    simp [← length_eq_zero_iff]
  have hat : (line ++ e :: after)[line.length]? = some e := by simp
  have hdrop : ∀ n, (line ++ e :: after).drop (line.length + (n + 1)) = after.drop n := by simp [drop_append]
  have hskip : (line ++ e :: after).drop (line.length + if after.head? = some 10 then 2 else 1) = skipLf after := by
    unfold skipLf
    split
    · exact hdrop 1
    · exact hdrop 0
  unfold popLine
  simp only [hfound, hindex, hat, hnext, hlast, take_left, hskip, hdrop 0, drop_zero, Option.some.injEq]

theorem popLine_cases {buffer : Bytes} (h : Scanned buffer k) (eof : Bool) :
    (∃ k', popLine buffer eof k = (none, k', buffer) ∧ Scanned buffer k' ∧ (eof = true → buffer = [])) ∨
    ∃ line rest, popLine buffer eof k = (some line, 0, rest) ∧ rest.length < buffer.length ∧
      ∀ more, (eof = true → more = []) → cutLines (buffer ++ more) = line :: cutLines (rest ++ more) := by
  obtain ⟨pre, rest, rfl, rfl, hpre⟩ := h
  cases hfind : rest.find? isLineEnd with
  | none =>
    have hnone : rest.findIdx? isLineEnd = none := by simpa [findIdx?_eq_none_iff] using hfind
    have hall : Plain (pre ++ rest) := forall_mem_append.mpr ⟨hpre, by simpa using hfind⟩
    unfold popLine
    rw [drop_left, hnone]
    simp only
    split
    · next hend =>
      refine Or.inr ⟨_, [], rfl, length_pos_iff.mpr hend.2, fun more hmore => ?_⟩
      have hlast := cutLines_append hall []
      rw [append_nil] at hlast
      rw [hmore hend.1, append_nil, hlast]
      simp [cutLines, hend.2]
    · next hopen =>
      exact Or.inl ⟨_, rfl, ⟨_, [], (append_nil _).symm, rfl, hall⟩, fun heof => by simpa [heof] using hopen⟩
  | some e =>
    obtain ⟨he, before, after, rfl, hbefore⟩ := find?_eq_some_iff_append.mp hfind
    have hline : Plain (pre ++ before) := forall_mem_append.mpr ⟨hpre, by simpa using hbefore⟩
    have hk : pre.length ≤ (pre ++ before).length := by simp
    rw [← append_assoc, popLine_ended hline he hk]
    rcases (by simpa [isLineEnd] using he : e = 10 ∨ e = 13) with rfl | rfl
    · refine Or.inr ⟨_, after, if_pos rfl, by simp; omega, fun more _ => ?_⟩
      rw [append_assoc]
      exact cutLines_ended hline rfl
    · rw [if_neg (by decide)]
      split
      -- A CR that ends the buffer may be half of a line end.
      · next hlast => exact Or.inl ⟨_, rfl, ⟨_, _, rfl, rfl, hline⟩, by simp [hlast.2]⟩
      · next hmore =>
        refine Or.inr ⟨_, _, rfl, ?_, fun more hend => ?_⟩
        · have hle := length_skipLf_le after
          simp only [length_append, length_cons]
          omega
        · have hskip : skipLf (after ++ more) = skipLf after ++ more := by
            refine skipLf_append fun hnil => hend ?_
            simpa [hnil] using hmore
          rw [append_assoc, cons_append]
          exact cutLines_ended hline ((cutLines_cr _).trans (by rw [hskip]))

/-! ### Reading chunks -/

namespace SseReader

/-- From the lines before, the run takes in the lines of these bytes, all of them at the end of the
    stream, and keeps the rest in the buffer. -/
def Reads (run : SseLines → Except (List String) SseReader) (bytes : Bytes) (eof : Bool) : Prop :=
  ∃ lines rest k, Scanned rest k ∧ (eof = true → rest = []) ∧
    (∀ more, (eof = true → more = []) → cutLines (bytes ++ more) = lines ++ cutLines (rest ++ more)) ∧
    ∀ s, run s = (lines.foldlM SseLines.onLine s).map fun s => ⟨rest, k, s⟩

theorem consume_reads {fuel : Nat} {buffer : Bytes} (hfuel : buffer.length < fuel) (h : Scanned buffer k) (eof : Bool) :
    Reads (fun s => consume eof fuel ⟨buffer, k, s⟩) buffer eof := by
  induction fuel generalizing buffer k with
  | zero => exact absurd hfuel (Nat.not_lt_zero _)
  | succ fuel ih =>
    rcases popLine_cases h eof with ⟨k', hpop, hscanned, hend⟩ | ⟨line, rest, hpop, hshort, hcut⟩
    · refine ⟨[], buffer, k', hscanned, hend, fun _ _ => rfl, fun s => ?_⟩
      simp only [consume, hpop]
      rfl
    · obtain ⟨lines, left, k', hscanned, hend, hlines, hrun⟩ := ih (by omega) (scanned_zero rest)
      refine ⟨line :: lines, left, k', hscanned, hend, fun more hmore => ?_, fun s => ?_⟩
      · rw [hcut more hmore, hlines more hmore, cons_append]
      · simp only [consume, hpop, foldlM_cons]
        cases s.onLine line with
        | error yielded => rfl
        | ok s => exact hrun s

theorem Reads.andThen {run : SseLines → Except (List String) SseReader} {next : SseReader → Except (List String) SseReader}
    {bytes more : Bytes} (h : Reads run bytes false)
    (hnext : ∀ {rest k}, Scanned rest k → Reads (fun s => next ⟨rest, k, s⟩) (rest ++ more) eof) :
    Reads (fun s => run s >>= next) (bytes ++ more) eof := by
  obtain ⟨lines, rest, k, hscanned, -, hlines, hrun⟩ := h
  obtain ⟨lines', left, k', hscanned', hend, hlines', hrun'⟩ := hnext hscanned
  refine ⟨lines ++ lines', left, k', hscanned', hend, fun after hafter => ?_, fun s => ?_⟩
  · have hfirst := hlines (more ++ after) (by simp)
    have hsecond := hlines' after hafter
    simp only [append_assoc] at hsecond ⊢
    rw [hfirst, hsecond]
  · simp only [hrun, foldlM_append]
    cases lines.foldlM SseLines.onLine s with
    | error yielded => rfl
    | ok s => exact hrun' s

theorem onChunk_reads {buffer : Bytes} (h : Scanned buffer k) (chunks : List Bytes) :
    Reads (fun s => chunks.foldlM onChunk ⟨buffer, k, s⟩) (buffer ++ chunks.flatten) false := by
  induction chunks generalizing buffer k with
  | nil => exact ⟨[], buffer, k, h, by simp, by simp, fun s => rfl⟩
  | cons chunk chunks ih =>
    obtain ⟨pre, after, rfl, rfl, hpre⟩ := h
    have hscanned : Scanned (pre ++ after ++ chunk) pre.length := ⟨pre, after ++ chunk, append_assoc .., rfl, hpre⟩
    rw [flatten_cons, ← append_assoc]
    exact (consume_reads (Nat.lt_succ_self _) hscanned false).andThen fun hrest => ih hrest

end SseReader

/-- Only the lines of all the bytes matter. -/
theorem iterSseData_eq_foldlM (chunks : List Bytes) :
    iterSseData chunks = ((cutLines chunks.flatten).foldlM SseLines.onLine {}).map (·.yielded) := by
  have hreads : SseReader.Reads (fun s => chunks.foldlM SseReader.onChunk ⟨[], 0, s⟩ >>= fun r =>
      r.consume true (r.buffer.length + 1)) ([] ++ chunks.flatten ++ []) true := by
    refine (SseReader.onChunk_reads (scanned_zero []) chunks).andThen fun hrest => ?_
    rw [append_nil]
    exact SseReader.consume_reads (Nat.lt_succ_self _) hrest true
  obtain ⟨lines, rest, k, -, hend, hlines, hrun⟩ := hreads
  have hall : cutLines chunks.flatten = lines := by simpa [hend rfl, cutLines] using hlines []
  have hchunks := hrun {}
  beta_reduce at hchunks
  unfold iterSseData
  rw [hall, ← bind_assoc, hchunks]
  cases lines.foldlM SseLines.onLine {} <;> rfl

theorem dataOf_open {before : List Bytes} (hbefore : ∀ line ∈ before, line ≠ []) : dataOf before = [] := by
  have hsplit : before.splitOn [] = [before] := splitOnP_eq_singleton (by simpa using hbefore)
  simp [dataOf, hsplit]

theorem dataOf_closed {before : List Bytes} (hbefore : ∀ line ∈ before, line ≠ []) (lines : List Bytes) :
    dataOf (before ++ [] :: lines) = [before.filterMap dataField].filter (· ≠ []) ++ dataOf lines := by
  have hsplit : (before ++ [] :: lines).splitOn [] = before :: lines.splitOn [] :=
    splitOnP_append_cons_of_forall_mem (by simpa using hbefore) [] rfl lines
  have hsome : lines.splitOn [] ≠ [] := splitOnP_ne_nil _ _
  unfold dataOf
  rw [hsplit, dropLast_cons_of_ne_nil hsome, map_cons, ← singleton_append, filter_append]

/-- The lines since the last blank one are of an event to come. -/
theorem foldlM_onLine (before : List Bytes) (hbefore : ∀ line ∈ before, line ≠ []) (lines : List Bytes)
    (yielded : List String) :
    (lines.foldlM SseLines.onLine ⟨before.filterMap dataField, false, yielded⟩).map (·.yielded) =
      decodeEvents yielded (dataOf (before ++ lines)) := by
  induction lines generalizing before yielded with
  | nil =>
    rw [append_nil, dataOf_open hbefore]
    rfl
  | cons line lines ih =>
    rw [foldlM_cons]
    by_cases hline : line = []
    · subst hline
      rw [dataOf_closed hbefore]
      by_cases hdata : before.filterMap dataField = []
      · rw [hdata]
        exact ih [] (by simp) yielded
      · rw [filter_cons_of_pos (by simpa using hdata), filter_nil, singleton_append, decodeEvents, foldlM_cons]
        simp only [SseLines.onLine, if_neg hdata]
        cases decodeData (before.filterMap dataField) with
        | none => rfl
        | some data => exact ih [] (by simp) (yielded ++ [data])
    · have hmore := ih (before ++ [line]) (forall_mem_append.mpr ⟨hbefore, by simpa using hline⟩) yielded
      have hfield : SseLines.onLine ⟨before.filterMap dataField, false, yielded⟩ line =
          .ok ⟨(before ++ [line]).filterMap dataField, false, yielded⟩ := by
        cases hvalue : dataField line <;> simp [SseLines.onLine, hline, hvalue]
      rw [append_assoc, singleton_append] at hmore
      rw [hfield, ← hmore]
      rfl

/-- **Framing does not depend on the chunks**: what is yielded are the events of all the bytes,
    up to one that is not UTF-8. -/
theorem iterSseData_eq_events (chunks : List Bytes) :
    iterSseData chunks = decodeEvents [] (sseEvents chunks.flatten) := by
  rw [iterSseData_eq_foldlM, sseEvents]
  cases cutLines chunks.flatten with
  | nil => rfl
  | cons line lines =>
    have hfirst : SseLines.onLine {} line = SseLines.onLine ⟨[], false, []⟩ (removeBom line) := rfl
    rw [foldlM_cons, hfirst, ← foldlM_cons]
    exact foldlM_onLine [] (by simp) _ []

/-- An event that is not UTF-8 ends the generator. -/
theorem iterSseData_not_utf8 : sseEvents [100, 97, 116, 97, 58, 0xFF, 10, 10] = [[[0xFF]]] ∧
    iterSseData [[100, 97, 116, 97, 58, 0xFF, 10, 10]] = .error [] := by
  decide

/-! ### What the chat server writes -/

def utf8 (text : String) : Bytes := text.toUTF8.data.toList

/-- The frame of a chunk. -/
def sseFrame (serialized : String) : Bytes := [100, 97, 116, 97, 58, 32] ++ utf8 serialized ++ [10, 10]

/-- A frame is read as its chunk, whatever follows. -/
theorem foldlM_sseFrame {text : String} (htext : Plain (utf8 text)) (rest : Bytes) (firstLine : Bool)
    (yielded : List String) : (cutLines (sseFrame text ++ rest)).foldlM SseLines.onLine ⟨[], firstLine, yielded⟩ =
      (cutLines rest).foldlM SseLines.onLine ⟨[], false, yielded ++ [text]⟩ := by
  have hcut : cutLines (sseFrame text ++ rest) = ([100, 97, 116, 97, 58, 32] ++ utf8 text) :: [] :: cutLines rest := by
    rw [sseFrame, append_assoc]
    exact cutLines_ended (forall_mem_append.mpr ⟨by simp [isLineEnd], htext⟩) rfl
  have hdecode : decodeData [utf8 text] = some text := by
    rw [decodeData, intercalate_singleton]
    exact dif_pos text.isValidUTF8
  have hblank : SseLines.onLine ⟨[utf8 text], false, yielded⟩ [] = .ok ⟨[], false, yielded ++ [text]⟩ := by
    simp [SseLines.onLine, hdecode]
  rw [hcut]
  cases firstLine <;> exact congrArg (· >>= fun s => foldlM _ s _) hblank

/-- **What is written is read**: the chunks of a stream are read back however its bytes are cut. -/
theorem iterSseData_sseFrames (texts : List String) (chunks : List Bytes) (hplain : ∀ text ∈ texts, Plain (utf8 text))
    (hchunks : chunks.flatten = texts.flatMap sseFrame) : iterSseData chunks = .ok texts := by
  rw [iterSseData_eq_foldlM, hchunks]
  have hread : ∀ firstLine yielded, ((cutLines (texts.flatMap sseFrame)).foldlM SseLines.onLine
      ⟨[], firstLine, yielded⟩).map (·.yielded) = .ok (yielded ++ texts) := by
    clear hchunks
    induction texts with
    | nil => exact fun _ yielded => congrArg Except.ok (append_nil yielded).symm
    | cons text texts ih =>
      obtain ⟨htext, htexts⟩ := forall_mem_cons.mp hplain
      intro firstLine yielded
      rw [flatMap_cons, foldlM_sseFrame htext, ih htexts, append_assoc, singleton_append]
  exact hread true []

theorem iterSseData_sseFrames_cut : iterSseData [[100], (sseFrame "b").drop 1] = .ok ["b"] :=
  iterSseData_sseFrames ["b"] _ (by unfold Plain; decide +kernel) rfl

end Kairyu
