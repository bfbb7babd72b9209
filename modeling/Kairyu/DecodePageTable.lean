/-
  Kairyu/DecodePageTable.lean
  ===========================
  **The page tables of decode batches** (`engine/core/step_executor.py`).

  A model runner keeps one buffer of page-table rows and writes, for each batch, only the
  columns of a row that may have changed.  Whatever came before, the view it hands out is the
  table that `build_decode_batch` builds without the cache.

  A tensor is a function of row and column, and new storage holds arbitrary values.  The rows
  of the cache are a function too: their list is as long as the buffer, which holds every
  batch.  A batch is one list of owners and page lists, so the checks that the two are equally
  long are left out, and so are the counters of `stats`.
-/
import Kairyu.Dict
import Mathlib.Data.List.GetD

namespace Kairyu

open Function List

structure DecodeRowOwner where
  requestId : String
  lane : Int
deriving DecidableEq

structure PageTableRow where
  owner : DecodeRowOwner
  pages : List Int
  padPage : Int
deriving DecidableEq

structure CachedPageTableRow where
  signature : PageTableRow
  visibleWidth : Nat

/-- What a decode step asks for. -/
structure DecodeRows where
  rows : List (DecodeRowOwner × List Int)
  maxPages : Nat
  scratchPage : Option Int

def DecodeRows.Valid (d : DecodeRows) : Prop := 1 ≤ d.maxPages ∧ ∀ row ∈ d.rows, row.2 ≠ []

/-- The page lists cut to the width of the table. -/
def DecodeRows.cut (d : DecodeRows) : DecodeRows :=
  { d with rows := d.rows.map fun row => (row.1, row.2.take d.maxPages) }

/-! ### Dirty spans -/

def pageAt (signature : PageTableRow) (column : Nat) : Int := signature.pages.getD column signature.padPage

def CachedPageTableRow.changed (previous : CachedPageTableRow) (current : PageTableRow) (column : Nat) : Bool :=
  decide (previous.visibleWidth ≤ column) || decide (pageAt previous.signature column ≠ pageAt current column)

/-- The first changed column, if any, and the one after the last. -/
def scanColumns (changed : Nat → Bool) : Nat → Option Nat × Nat
  | 0 => (none, 0)
  | column + 1 =>
    let (first, last) := scanColumns changed column
    if changed column then (some (first.getD column), column + 1) else (first, last)

/-- The span when the old pages begin the new ones. -/
def grownSpan (previous : CachedPageTableRow) (current : PageTableRow) (width : Nat) : Option (Nat × Nat) :=
  let old := previous.signature.pages.length
  let new := current.pages.length
  let start := if old < new then old else new
  let (start, stop) := if previous.visibleWidth < width then (min start previous.visibleWidth, width) else (start, new)
  let (start, stop) := if previous.signature.padPage ≠ current.padPage then (min start old, width) else (start, stop)
  if start = stop then none else some (start, stop)

/-- `_dirty_span` -/
def dirtySpan (previous : Option CachedPageTableRow) (current : PageTableRow) (width : Nat) : Option (Nat × Nat) :=
  if width = 0 then none
  else
    match previous with
    | none => some (0, width)
    | some previous =>
      if previous.signature.owner ≠ current.owner then some (0, width)
      else if previous.visibleWidth = width ∧ previous.signature = current then none
      else if previous.signature.pages <+: current.pages then grownSpan previous current width
      else
        let (first, last) := scanColumns (previous.changed current) width
        first.map fun first => (first, last)

def inSpan (column : Nat) (span : Option (Nat × Nat)) : Bool :=
  span.any fun span => decide (span.1 ≤ column ∧ column < span.2)

/-! ### The cache -/

structure DecodePageTableCache where
  allocated : Bool := false
  buffer : Nat → Nat → Int := fun _ _ => 0
  rowCapacity : Nat := 0
  pageCapacity : Nat := 0
  rows : Nat → Option CachedPageTableRow := fun _ => none
  activeRows : Nat := 0

namespace DecodePageTableCache

/-- The loop of `_grow`, which ends before the fuel does. -/
def doubled (required : Nat) : Nat → Nat → Nat
  | 0, capacity => capacity
  | fuel + 1, capacity => if capacity < required then doubled required fuel (capacity * 2) else capacity

def grow (current required : Nat) : Nat :=
  if required ≤ current then current else doubled required required (max current 1)

/-- The greatest visible width of the first rows. -/
def widest (rows : Nat → Option CachedPageTableRow) : Nat → Nat
  | 0 => 0
  | n + 1 => max (widest rows n) ((rows n).elim 0 (·.visibleWidth))

def ensureCapacity (rows pages : Nat) (fresh : Nat → Nat → Int) (c : DecodePageTableCache) : DecodePageTableCache :=
  let nextRows := grow c.rowCapacity rows
  let nextPages := grow c.pageCapacity pages
  if c.allocated = true ∧ nextRows = c.rowCapacity ∧ nextPages = c.pageCapacity then c
  else
    let copiedRows := min c.activeRows nextRows
    let copiedPages := min (min (widest c.rows copiedRows) c.pageCapacity) nextPages
    { c with
      allocated := true
      buffer := fun row column =>
        if row < copiedRows ∧ column < copiedPages then c.buffer row column else fresh row column
      rowCapacity := nextRows
      pageCapacity := nextPages }

/-- The signature of a row; `none` is the `ValueError` for an empty page list. -/
def signature (d : DecodeRows) (row : DecodeRowOwner × List Int) : Option PageTableRow :=
  let owned := row.2.take d.maxPages
  match d.scratchPage with
  | none => owned.getLast?.map fun padPage => ⟨row.1, owned, padPage⟩
  | some padPage => some ⟨row.1, owned, padPage⟩

/-- One turn of the loop of `materialize`. -/
def upload (maxPages row : Nat) (signature : PageTableRow) (c : DecodePageTableCache) : DecodePageTableCache :=
  { c with
    buffer := update c.buffer row fun column =>
      if inSpan column (dirtySpan (c.rows row) signature maxPages) = true then pageAt signature column
      else c.buffer row column
    rows := update c.rows row (some ⟨signature, maxPages⟩) }

def uploads (d : DecodeRows) : Nat → List (DecodeRowOwner × List Int) → DecodePageTableCache →
    Option (List PageTableRow) × DecodePageTableCache
  | _, [], c => (some [], c)
  | i, row :: rows, c =>
    match signature d row with
    | none => (none, c)
    | some signature =>
      let (signatures, c) := uploads d (i + 1) rows (c.upload d.maxPages i signature)
      (signatures.map (signature :: ·), c)

/-- `none`: it raises. -/
def materialize (d : DecodeRows) (fresh : Nat → Nat → Int) (c : DecodePageTableCache) :
    Option (List (List Int) × List PageTableRow) × DecodePageTableCache :=
  let batch := d.rows.length
  match uploads d 0 d.rows (c.ensureCapacity batch d.maxPages fresh) with
  | (none, c) => (none, c)
  | (some signatures, c) =>
    (some ((range batch).map fun row => (range d.maxPages).map (c.buffer row), signatures),
      -- A row outside the view is forgotten.
      { c with
        rows := fun row => if batch ≤ row ∧ row < c.activeRows then none else c.rows row
        activeRows := batch })

def release (requestId : String) (c : DecodePageTableCache) : DecodePageTableCache :=
  { c with rows := fun row => (c.rows row).filter fun cached => cached.signature.owner.requestId ≠ requestId }

def invalidate (c : DecodePageTableCache) : DecodePageTableCache := { c with rows := fun _ => none, activeRows := 0 }

inductive Call where
  | materialize (d : DecodeRows) (fresh : Nat → Nat → Int)
  | release (requestId : String)
  | invalidate

def Call.Valid : Call → Prop
  | .materialize d _ => d.Valid
  | _ => True

def step (c : DecodePageTableCache) : Call → DecodePageTableCache
  | .materialize d fresh => (c.materialize d fresh).2
  | .release requestId => c.release requestId
  | .invalidate => c.invalidate

end DecodePageTableCache

/-- The signature that `build_decode_batch` gives a row. -/
def rowSignature (d : DecodeRows) (row : DecodeRowOwner × List Int) : PageTableRow :=
  ⟨row.1, row.2.take d.maxPages, d.scratchPage.getD (row.2.getLastD 0)⟩

/-- `build_decode_batch` without a cache: its page tables and their signatures -/
def buildDecodeBatch (d : DecodeRows) : Option (List (List Int) × List PageTableRow) :=
  if d.scratchPage = none ∧ ∃ row ∈ d.rows, row.2 = [] then none
  else
    some (d.rows.map fun row => (range d.maxPages).map fun column =>
        -- The row is filled with its padding first.
        if column < row.2.length then (row.2.take d.maxPages).getD column 0
        else d.scratchPage.getD (row.2.getLastD 0),
      d.rows.map (rowSignature d))

/-! ### What a span leaves out is already there -/

/-- The span of a scan has every changed column. -/
theorem scanColumns_covers (changed : Nat → Bool) (width : Nat) :
    (scanColumns changed width).1.getD width ≤ width ∧ ∀ column < width, changed column = true →
      ∃ first, (scanColumns changed width).1 = some first ∧ first ≤ column ∧ column < (scanColumns changed width).2 := by
  induction width with
  | zero => exact ⟨Nat.le_refl 0, fun _ h => absurd h (Nat.not_lt_zero _)⟩
  | succ width ih =>
    rw [scanColumns]
    generalize scanColumns changed width = span at ih ⊢
    obtain ⟨hfirst, hcovers⟩ := ih
    simp only
    split
    · refine ⟨Nat.le_succ_of_le hfirst, fun column hlt hcolumn => ⟨_, rfl, ?_, hlt⟩⟩
      grind
    · obtain ⟨_ | first, last⟩ := span <;> grind

variable {previous : CachedPageTableRow} {current : PageTableRow} {width column : Nat}

theorem grownSpan_clean (hold : previous.signature.pages <+: current.pages) (hcut : current.pages.length ≤ width)
    (hshort : previous.signature.pages.length ≤ previous.visibleWidth) (hlt : column < width)
    (hout : inSpan column (grownSpan previous current width) = false) :
    column < previous.visibleWidth ∧ pageAt previous.signature column = pageAt current column := by
  have hlength := hold.length_le
  -- The column is of an old page, or of the padding that did not change.
  have hcases : column < previous.signature.pages.length ∨ (current.pages.length ≤ column ∧ column < previous.visibleWidth ∧
      previous.signature.padPage = current.padPage) := by
    unfold grownSpan inSpan at hout
    grind
  unfold pageAt
  rcases hcases with hpage | ⟨hpad, hvisible, hsame⟩
  · obtain ⟨more, heq⟩ := hold
    rw [← heq, getD_append _ _ _ _ hpage, getD_eq_getElem _ _ hpage, getD_eq_getElem _ _ hpage]
    exact ⟨by omega, rfl⟩
  · rw [getD_eq_default _ _ (hlength.trans hpad), getD_eq_default _ _ hpad]
    exact ⟨hvisible, hsame⟩

theorem dirtySpan_clean {previous : Option CachedPageTableRow} (hcut : current.pages.length ≤ width) (hlt : column < width)
    (hshort : ∀ p, previous = some p → p.signature.pages.length ≤ p.visibleWidth)
    (hout : inSpan column (dirtySpan previous current width) = false) :
    ∃ p, previous = some p ∧ column < p.visibleWidth ∧ pageAt p.signature column = pageAt current column := by
  have hwhole : inSpan column (some (0, width)) = true := by simpa [inSpan] using hlt
  unfold dirtySpan at hout
  rw [if_neg (by omega)] at hout
  cases previous with
  | none => exact absurd (hwhole.symm.trans hout) Bool.noConfusion
  | some p =>
    refine ⟨p, rfl, ?_⟩
    simp only at hout
    split at hout
    · exact absurd (hwhole.symm.trans hout) Bool.noConfusion
    split at hout
    · next hsame => exact ⟨hsame.1 ▸ hlt, by rw [hsame.2]⟩
    split at hout
    · next hold => exact grownSpan_clean hold hcut (hshort p rfl) hlt hout
    · by_contra hchanged
      have hscan : p.changed current column = true := by
        unfold CachedPageTableRow.changed
        grind
      obtain ⟨first, hfirst, hle, hlast⟩ := (scanColumns_covers (p.changed current) width).2 column hlt hscan
      rw [hfirst] at hout
      simp [inSpan] at hout
      omega

namespace DecodePageTableCache

variable {c : DecodePageTableCache} {bound row maxPages : Nat} {p : CachedPageTableRow}

/-! ### Growing -/

theorem le_doubled (required fuel capacity : Nat) (hpos : 1 ≤ capacity) (hfuel : required ≤ capacity + fuel) :
    required ≤ doubled required fuel capacity ∧ capacity ≤ doubled required fuel capacity := by
  induction fuel generalizing capacity with
  | zero => exact ⟨hfuel, Nat.le_refl _⟩
  | succ fuel ih =>
    unfold doubled
    split
    · have hnext := ih (capacity * 2) (by omega) (by omega)
      omega
    · omega

theorem le_grow (current required : Nat) : required ≤ grow current required ∧ current ≤ grow current required := by
  unfold grow
  split
  · omega
  · have hloop := le_doubled required required (max current 1) (by omega) (by omega)
    omega

theorem le_widest (rows : Nat → Option CachedPageTableRow) {n : Nat} (hrow : row < n) (hp : rows row = some p) :
    p.visibleWidth ≤ widest rows n := by
  induction n with
  | zero => exact absurd hrow (Nat.not_lt_zero _)
  | succ n ih =>
    unfold widest
    rcases Nat.lt_succ_iff_lt_or_eq.mp hrow with hlt | rfl
    · exact (ih hlt).trans (Nat.le_max_left _ _)
    · rw [hp]
      exact Nat.le_max_right _ _

/-! ### The rows of the cache are in its buffer -/

/-- The row is in the buffer as its signature has it. -/
structure Shows (c : DecodePageTableCache) (row : Nat) (p : CachedPageTableRow) : Prop where
  short : p.signature.pages.length ≤ p.visibleWidth
  fits : row < c.rowCapacity ∧ p.visibleWidth ≤ c.pageCapacity
  cells : ∀ column < p.visibleWidth, c.buffer row column = pageAt p.signature column

/-- The rows below the bound, and no others, are cached. -/
def Ready (bound : Nat) (c : DecodePageTableCache) : Prop := ∀ row p, c.rows row = some p → row < bound ∧ c.Shows row p

theorem Ready.ensureCapacity (h : Ready c.activeRows c) (rows pages : Nat) (fresh : Nat → Nat → Int) :
    let c' := c.ensureCapacity rows pages fresh
    Ready c.activeRows c' ∧ c'.activeRows = c.activeRows ∧ rows ≤ c'.rowCapacity ∧ pages ≤ c'.pageCapacity := by
  obtain ⟨hrows, hmore⟩ := le_grow c.rowCapacity rows
  obtain ⟨hpages, hwider⟩ := le_grow c.pageCapacity pages
  unfold DecodePageTableCache.ensureCapacity
  simp only
  split
  · next hsame => exact ⟨h, rfl, hsame.2.1 ▸ hrows, hsame.2.2 ▸ hpages⟩
  refine ⟨fun row p hp => ?_, rfl, hrows, hpages⟩
  obtain ⟨hbound, hshort, ⟨hrow, hfits⟩, hcells⟩ := h row p hp
  have hcopied : row < min c.activeRows (grow c.rowCapacity rows) := by omega
  have hwidest := le_widest c.rows hcopied hp
  refine ⟨hbound, hshort, ⟨by simp only; omega, by simp only; omega⟩, fun column hcolumn => ?_⟩
  simp only
  rw [if_pos ⟨hcopied, by omega⟩]
  exact hcells column hcolumn

/-- A row of the batch is written; the others stay as they are. -/
theorem Ready.upload {signature : PageTableRow} (row : Nat) (h : Ready bound c) (hrow : row < c.rowCapacity)
    (hfits : maxPages ≤ c.pageCapacity) (hcut : signature.pages.length ≤ maxPages) :
    Ready (max bound (row + 1)) (c.upload maxPages row signature) := by
  intro other p hp
  rcases of_update_some hp with ⟨rfl, rfl⟩ | ⟨hother, hp⟩
  · refine ⟨by omega, hcut, ⟨hrow, hfits⟩, fun column hcolumn => ?_⟩
    refine (congrFun (update_self ..) column).trans ?_
    split
    · rfl
    · next hout =>
      obtain ⟨p, hold, hvisible, hsame⟩ := dirtySpan_clean hcut hcolumn (fun p hp => (h other p hp).2.short)
        (Bool.eq_false_iff.mpr hout)
      exact ((h other p hold).2.cells column hvisible).trans hsame
  · obtain ⟨hbound, hshort, hfits, hcells⟩ := h other p hp
    refine ⟨by omega, hshort, hfits, fun column hcolumn => ?_⟩
    exact (congrFun (update_of_ne hother ..) column).trans (hcells column hcolumn)

variable {d : DecodeRows} {f : DecodeRowOwner × List Int → PageTableRow} {rows : List (DecodeRowOwner × List Int)}

theorem Ready.uploads (hrows : ∀ row ∈ rows, signature d row = some (f row) ∧ (f row).pages.length ≤ d.maxPages)
    {i : Nat} (h : Ready bound c) (hroom : i + rows.length ≤ c.rowCapacity) (hfits : d.maxPages ≤ c.pageCapacity) :
    ∃ c', uploads d i rows c = (some (rows.map f), c') ∧ Ready (max bound (i + rows.length)) c' ∧
      c'.activeRows = c.activeRows ∧ (∀ row < i, c'.rows row = c.rows row) ∧
      ∀ k (hk : k < rows.length), c'.rows (i + k) = some ⟨f rows[k], d.maxPages⟩ := by
  induction rows generalizing c bound i with
  | nil =>
    refine ⟨c, rfl, fun row p hp => ?_, rfl, fun _ _ => rfl, fun _ hk => absurd hk (Nat.not_lt_zero _)⟩
    exact ⟨(h row p hp).1.trans_le (Nat.le_max_left _ _), (h row p hp).2⟩
  | cons row rows ih =>
    obtain ⟨⟨hfirst, hcut⟩, hrows⟩ := forall_mem_cons.mp hrows
    rw [length_cons] at hroom
    have hnext := h.upload i (by omega) hfits hcut
    obtain ⟨c', heq, hready, hactive, hkept, hwritten⟩ := ih hrows hnext (i := i + 1) (show _ ≤ c.rowCapacity by omega) hfits
    refine ⟨c', ?_, ?_, hactive, fun other hother => ?_, fun k hk => ?_⟩
    · rw [DecodePageTableCache.uploads, hfirst]
      simp only [heq]
      rfl
    · rwa [length_cons, show max bound (i + (rows.length + 1)) = max (max bound (i + 1)) (i + 1 + rows.length) by omega]
    · rw [hkept other (by omega)]
      exact update_of_ne (by omega) ..
    · cases k with
      | zero =>
        rw [Nat.add_zero, hkept i (Nat.lt_succ_self i)]
        exact update_self ..
      | succ k =>
        rw [show i + (k + 1) = i + 1 + k by omega]
        exact hwritten k (Nat.lt_of_succ_lt_succ hk)

/-- What a row of the batch is cut to. -/
def cutSignature (d : DecodeRows) (row : DecodeRowOwner × List Int) : PageTableRow :=
  rowSignature d (row.1, row.2.take d.maxPages)

theorem signature_of_valid (hd : d.Valid) {row : DecodeRowOwner × List Int} (hrow : row ∈ d.rows) :
    signature d row = some (cutSignature d row) := by
  have hpages := length_pos_iff.mpr (hd.2 row hrow)
  have hmaxPages := hd.1
  unfold signature cutSignature rowSignature
  simp only [take_take, Nat.min_self, getLastD_eq_getLast?]
  cases d.scratchPage with
  | some padPage => rfl
  | none =>
    cases hlast : (row.2.take d.maxPages).getLast? with
    | some padPage => rfl
    | none =>
      have hlength := length_eq_zero_iff.mpr (getLast?_eq_none_iff.mp hlast)
      rw [length_take] at hlength
      omega

/-- The cells that the signatures describe. -/
def described (d : DecodeRows) (signatures : List PageTableRow) : List (List Int) :=
  signatures.map fun signature => (range d.maxPages).map (pageAt signature)

theorem materialize_spec (h : Ready c.activeRows c) (hd : d.Valid) (fresh : Nat → Nat → Int) :
    ∃ c', c.materialize d fresh = (some (described d (d.rows.map (cutSignature d)), d.rows.map (cutSignature d)), c') ∧
      Ready c'.activeRows c' := by
  obtain ⟨hready, hactive, hrows, hpages⟩ := h.ensureCapacity d.rows.length d.maxPages fresh
  obtain ⟨c', heq, hready', hactive', _, hwritten⟩ := hready.uploads (i := 0)
    (fun row hrow => ⟨signature_of_valid hd hrow, length_take_le ..⟩) (by omega) hpages
  have hview : (range d.rows.length).map (fun row => (range d.maxPages).map (c'.buffer row)) =
      described d (d.rows.map (cutSignature d)) := by
    unfold described
    apply ext_getElem
    · simp only [length_map, length_range]
    · intro k hk _
      rw [length_map, length_range] at hk
      simp only [getElem_map, getElem_range]
      have hcells := (hready' _ _ (hwritten k hk)).2.cells
      rw [Nat.zero_add] at hcells
      exact map_congr_left fun column hcolumn => hcells column (mem_range.mp hcolumn)
  unfold materialize
  simp only
  rw [heq]
  refine ⟨_, congrArg (fun view => (some (view, _), _)) hview, fun row p hp => ?_⟩
  simp only [hactive'] at hp
  split at hp
  · cases hp
  · obtain ⟨hbound, hshort, hfits, hcells⟩ := hready' row p hp
    exact ⟨show row < d.rows.length by omega, hshort, hfits, hcells⟩

theorem Ready.step (h : Ready c.activeRows c) {call : Call} (hcall : call.Valid) :
    Ready (c.step call).activeRows (c.step call) := by
  cases call with
  | materialize d fresh =>
    obtain ⟨c', heq, hready⟩ := materialize_spec h hcall fresh
    rw [DecodePageTableCache.step, heq]
    exact hready
  | release requestId =>
    intro row p hp
    obtain ⟨hbound, hshort, hfits, hcells⟩ := h row p (Option.eq_some_of_filter_eq_some hp)
    exact ⟨hbound, hshort, hfits, hcells⟩
  | invalidate => exact fun _ _ hp => absurd hp (Option.some_ne_none _).symm

theorem Ready.run {calls : List Call} (hcalls : ∀ call ∈ calls, call.Valid) (h : Ready c.activeRows c) :
    Ready (calls.foldl DecodePageTableCache.step c).activeRows (calls.foldl DecodePageTableCache.step c) := by
  induction calls generalizing c with
  | nil => exact h
  | cons call calls ih =>
    obtain ⟨hcall, hcalls⟩ := forall_mem_cons.mp hcalls
    exact ih hcalls (h.step hcall)

/-- **A view of the cache is the table that is built without it.**  After any calls, with any
    values in new storage, the cells are those of `build_decode_batch` for the page lists cut
    to the width, and the signatures describe them. -/
theorem materialize_eq_build (calls : List Call) (hcalls : ∀ call ∈ calls, call.Valid) (d : DecodeRows) (hd : d.Valid)
    (fresh : Nat → Nat → Int) :
    ∃ view signatures, ((calls.foldl step {}).materialize d fresh).1 = some (view, signatures) ∧
      buildDecodeBatch d.cut = some (view, signatures) ∧ view = described d signatures := by
  obtain ⟨c', heq, _⟩ := materialize_spec (Ready.run (c := {}) hcalls fun _ _ hp => absurd hp (Option.some_ne_none _).symm) hd fresh
  refine ⟨_, _, congrArg Prod.fst heq, ?_, rfl⟩
  have hfull : ¬ (d.cut.scratchPage = none ∧ ∃ row ∈ d.cut.rows, row.2 = []) := by
    rintro ⟨_, _, hmem, hempty⟩
    obtain ⟨row, hrow, rfl⟩ := mem_map.mp hmem
    rcases take_eq_nil_iff.mp hempty with hzero | hnil
    · exact absurd hd.1 (by omega)
    · exact hd.2 row hrow hnil
  unfold buildDecodeBatch described
  rw [if_neg hfull]
  simp only [DecodeRows.cut, map_map]
  refine congrArg (fun view => some (view, _)) (map_congr_left fun row _ => map_congr_left fun column hcolumn => ?_)
  simp only [pageAt, cutSignature, rowSignature, take_take, Nat.min_self]
  split
  · next hpage => rw [getD_eq_getElem _ _ hpage, getD_eq_getElem _ _ hpage]
  · next hpad => rw [getD_eq_default _ _ (Nat.le_of_not_lt hpad)]

/-- One request gets a second page in a wider table. -/
theorem materialize_eq_build_grown : let before : DecodeRows := ⟨[(⟨"a", 0⟩, [3])], 1, none⟩
    let d : DecodeRows := ⟨[(⟨"a", 0⟩, [3, 4])], 3, none⟩
    ∃ view signatures, (([Call.materialize before fun _ _ => 7].foldl step {}).materialize d fun _ _ => 8).1 =
        some (view, signatures) ∧ buildDecodeBatch d.cut = some (view, signatures) ∧ view = described d signatures :=
  materialize_eq_build _ (by simp [Call.Valid, DecodeRows.Valid]) _ (by simp [DecodeRows.Valid]) _

end DecodePageTableCache

end Kairyu
