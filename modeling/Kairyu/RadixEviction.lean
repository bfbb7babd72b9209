/-
  Kairyu/RadixEviction.lean
  =========================
  **The eviction index tracks the evictable set.**

  Eligibility for eviction changes whenever a refcount, a child edge or an LRU
  stamp changes, and the source re-indexes the node right after each change.
  Between the change and the `refresh` that follows it the index is out of date
  for that one node, so the invariant carries the set `X` of nodes that still
  await a refresh; a public call starts and ends with `X = ∅`.

  The result used elsewhere is the specification of `popOldest`: with an
  up-to-date index it returns an evictable node whenever there is one.
-/
import Kairyu.RadixKVCache
import Mathlib.Data.Set.Insert

namespace Kairyu

open Function EvictionIndex AList List

/-- The index is exact outside `X`: it holds precisely the evictable nodes, and
    the heap has a current entry for each of them. -/
structure EvictionInv (e : EvictionIndex) (evictable : NodeId → Bool) (X : Set NodeId) : Prop where
  mem_index : ∀ i, i ∉ X → (i ∈ e.index ↔ evictable i = true)
  index_version : ∀ i stamp, e.index.lookup i = some stamp → stamp.1 = e.version i
  entry_mem : ∀ i stamp, i ∉ X → e.index.lookup i = some stamp → e.entryFor i stamp ∈ e.heap
  entry_current : ∀ entry ∈ e.heap, entry.node ∉ X →
    e.index.lookup entry.node = some (entry.version, entry.sequence) →
    entry.lastAccess = e.lastAccess entry.node
  heap_version : ∀ entry ∈ e.heap, entry.version ≤ e.version entry.node

namespace EvictionInv

variable {e : EvictionIndex} {evictable evictable' : NodeId → Bool} {X Y : Set NodeId} {i : NodeId}

section

variable (h : EvictionInv e evictable X)
include h

/-- Nodes whose eligibility changed join the exception set. -/
theorem weaken (hXY : X ⊆ Y) (hev : ∀ j, j ∉ Y → evictable' j = evictable j) : EvictionInv e evictable' Y where
  mem_index := fun j hj => by
    rw [hev j hj]
    exact h.mem_index j fun hX => hj (hXY hX)
  index_version := h.index_version
  entry_mem := fun j stamp hj => h.entry_mem j stamp fun hX => hj (hXY hX)
  entry_current := fun entry hentry hj => h.entry_current entry hentry fun hX => hj (hXY hX)
  heap_version := h.heap_version

/-- Stamping a node only concerns that node. -/
theorem stamp (hi : i ∈ X) (clock stampClock : Nat) :
    EvictionInv { e with clock, lastAccess := update e.lastAccess i stampClock } evictable X where
  mem_index := h.mem_index
  index_version := h.index_version
  entry_mem := by
    intro j stamp hj hlook
    have hne : j ≠ i := fun hji => hj (hji ▸ hi)
    have hmem := h.entry_mem j stamp hj hlook
    simpa only [entryFor, update_of_ne hne] using hmem
  entry_current := by
    intro entry hentry hj hlook
    have hne : entry.node ≠ i := fun hji => hj (hji ▸ hi)
    have hcur := h.entry_current entry hentry hj hlook
    simpa only [update_of_ne hne] using hcur
  heap_version := h.heap_version

/-- Compaction rebuilds the heap from the index. -/
theorem maybeCompact : EvictionInv e.maybeCompact evictable X := by
  unfold EvictionIndex.maybeCompact
  split
  · exact h
  · have hmem : ∀ entry : HeapEntry,
        entry ∈ (e.index.entries.map fun s => e.entryFor s.1 s.2).insertionSort HeapEntry.le ↔
          ∃ j stamp, e.index.lookup j = some stamp ∧ e.entryFor j stamp = entry := by
      intro entry
      rw [mem_insertionSort, mem_map]
      constructor
      · rintro ⟨s, hs, rfl⟩
        exact ⟨s.1, s.2, mem_entries_iff.mp hs, rfl⟩
      · rintro ⟨j, stamp, hlook, rfl⟩
        exact ⟨⟨j, stamp⟩, mem_entries_iff.mpr hlook, rfl⟩
    refine ⟨h.mem_index, h.index_version, ?_, ?_, ?_⟩
    · intro j stamp _ hlook
      exact (hmem _).mpr ⟨j, stamp, hlook, rfl⟩
    · intro entry hentry _ _
      obtain ⟨j, stamp, _, rfl⟩ := (hmem entry).mp hentry
      rfl
    · intro entry hentry
      obtain ⟨j, stamp, hlook, rfl⟩ := (hmem entry).mp hentry
      exact (h.index_version j stamp hlook).le

/-- Dropping a node from the index under a new version, whatever it was. -/
theorem drop (hout : evictable i = false ∨ i ∈ Y)
    (hXY : ∀ j ∈ X, j = i ∨ j ∈ Y) :
    EvictionInv { e with
      version := update e.version i (e.version i + 1)
      index := e.index.erase i } evictable Y where
  mem_index := by
    intro j hj
    rw [mem_erase]
    by_cases hji : j = i
    · subst hji
      have hfalse : evictable j = false := hout.resolve_right hj
      simp [hfalse]
    · have hX : j ∉ X := fun hX => (hXY j hX).elim hji hj
      simp only [hji, ne_eq, not_false_eq_true, true_and]
      exact h.mem_index j hX
  index_version := by
    intro j stamp hlook
    rw [lookup_erase_if] at hlook
    split at hlook
    · cases hlook
    · next hji =>
      have hver := h.index_version j stamp hlook
      simpa only [update_of_ne hji] using hver
  entry_mem := by
    intro j stamp hj hlook
    rw [lookup_erase_if] at hlook
    split at hlook
    · cases hlook
    · next hji => exact h.entry_mem j stamp (fun hX => (hXY j hX).elim hji hj) hlook
  entry_current := by
    intro entry hentry hj hlook
    rw [lookup_erase_if] at hlook
    split at hlook
    · cases hlook
    · next hji => exact h.entry_current entry hentry (fun hX => (hXY _ hX).elim hji hj) hlook
  heap_version := by
    intro entry hentry
    have hle := h.heap_version entry hentry
    by_cases hji : entry.node = i
    · subst hji
      simpa only [update_self] using Nat.le_succ_of_le hle
    · simpa only [update_of_ne hji] using hle

theorem invalidate (hout : evictable i = false ∨ i ∈ Y)
    (hXY : ∀ j ∈ X, j = i ∨ j ∈ Y) : EvictionInv (e.invalidate i) evictable Y :=
  (h.drop hout hXY).maybeCompact

/-- **A refresh settles its node.**  It leaves the exception set, and the index
    agrees with the node's present eligibility. -/
theorem refresh (hXY : ∀ j ∈ X, j = i ∨ j ∈ Y) : EvictionInv (e.refresh (evictable i) i) evictable Y := by
  apply maybeCompact
  by_cases hev : evictable i = true
  · have hbase : EvictionInv { e with
        version := update e.version i (e.version i + 1)
        index := e.index.erase i } evictable (insert i Y) :=
      h.drop (Or.inr (Set.mem_insert _ _)) fun j hj =>
        (hXY j hj).imp id (Set.mem_insert_of_mem _)
    simp only [hev, if_true]
    refine ⟨?_, ?_, ?_, ?_, ?_⟩
    · intro j hj
      by_cases hji : j = i
      · simp [hji, hev]
      · rw [← hbase.mem_index j (by simp [hji, hj])]
        simp [hji]
    · intro j stamp hlook
      rcases of_lookup_insert hlook with ⟨hji, rfl⟩ | ⟨_, hlook⟩
      · simp only [hji, update_self]
      · exact hbase.index_version j stamp hlook
    · intro j stamp hj hlook
      rw [mem_orderedInsert]
      rcases of_lookup_insert hlook with ⟨hji, rfl⟩ | ⟨hji, hlook⟩
      · left
        rw [hji]; rfl
      · exact Or.inr (hbase.entry_mem j stamp (by simp [hji, hj]) hlook)
    · intro entry hentry hj hlook
      rw [mem_orderedInsert] at hentry
      rcases hentry with rfl | hentry
      · rfl
      · rw [lookup_insert_if] at hlook
        split at hlook
        · next hji =>
          -- an older entry of `i` cannot carry the new version
          have hle := h.heap_version entry hentry
          rw [Option.some.injEq, Prod.mk.injEq] at hlook
          rw [hji] at hle
          omega
        · next hji => exact hbase.entry_current entry hentry (by simp [hji, hj]) hlook
    · intro entry hentry
      rw [mem_orderedInsert] at hentry
      rcases hentry with rfl | hentry
      · simp [entryFor]
      · exact hbase.heap_version entry hentry
  · have hfalse : evictable i = false := by simpa using hev
    simp only [hfalse]
    exact h.drop (Or.inl hfalse) hXY

/-- Popping an entry that the index does not back changes nothing. -/
theorem skip {entry : HeapEntry} {heap : List HeapEntry} (hheap : e.heap = entry :: heap)
    (hstale : e.index.lookup entry.node ≠ some (entry.version, entry.sequence)) :
    EvictionInv { e with heap } evictable X where
  mem_index := h.mem_index
  index_version := h.index_version
  entry_mem := by
    intro j stamp hj hlook
    have hmem := h.entry_mem j stamp hj hlook
    rw [hheap, mem_cons] at hmem
    rcases hmem with heq | hmem
    · exfalso
      apply hstale
      rw [← heq]
      exact hlook
    · exact hmem
  entry_current := fun entry' hentry => h.entry_current entry'
    (by rw [hheap]; exact mem_cons_of_mem _ hentry)
  heap_version := fun entry' hentry => h.heap_version entry'
    (by rw [hheap]; exact mem_cons_of_mem _ hentry)

end

/-- Taking an entry out of the index leaves only its node unsettled. -/
theorem taken {heap : List HeapEntry} {entry : HeapEntry} (h : EvictionInv e evictable ∅)
    (hheap : e.heap = entry :: heap) :
    EvictionInv { e with heap, index := e.index.erase entry.node } evictable {entry.node} where
  mem_index := by
    intro j hj
    rw [mem_erase, h.mem_index j (Set.notMem_empty j)]
    simp only [Set.mem_singleton_iff] at hj
    simp [hj]
  index_version := by
    intro j stamp hlook
    rw [lookup_erase_if] at hlook
    split at hlook
    · cases hlook
    · exact h.index_version j stamp hlook
  entry_mem := by
    intro j stamp hj hlook
    rw [Set.mem_singleton_iff] at hj
    rw [lookup_erase_if, if_neg hj] at hlook
    have hmem := h.entry_mem j stamp (Set.notMem_empty j) hlook
    rw [hheap, mem_cons] at hmem
    rcases hmem with heq | hmem
    · exact absurd (congrArg HeapEntry.node heq) hj
    · exact hmem
  entry_current := by
    intro entry' hentry hj hlook
    rw [Set.mem_singleton_iff] at hj
    rw [lookup_erase_if, if_neg hj] at hlook
    exact h.entry_current entry' (by rw [hheap]; exact mem_cons_of_mem _ hentry)
      (Set.notMem_empty _) hlook
  heap_version := fun entry' hentry => h.heap_version entry'
    (by rw [hheap]; exact mem_cons_of_mem _ hentry)

/-- With an exact index the pop loop never drops a live entry: it runs out of
    entries only when nothing is evictable. -/
theorem popLoop (fuel : Nat) : ∀ {e : EvictionIndex}, EvictionInv e evictable ∅ → e.heap.length ≤ fuel →
    (∃ e', popLoop evictable fuel e = (none, e') ∧ EvictionInv e' evictable ∅ ∧ ∀ i, evictable i = false) ∨
    (∃ victim e', popLoop evictable fuel e = (some victim, e') ∧
      evictable victim = true ∧ EvictionInv e' evictable {victim}) := by
  have hnone : ∀ {e : EvictionIndex}, EvictionInv e evictable ∅ → e.heap = [] →
      ∀ i, evictable i = false := by
    intro e h hnil i
    by_contra htrue
    rw [Bool.not_eq_false, ← h.mem_index i (Set.notMem_empty i), mem_iff_lookup] at htrue
    obtain ⟨stamp, hlook⟩ := htrue
    have hmem := h.entry_mem i stamp (Set.notMem_empty i) hlook
    rw [hnil] at hmem
    cases hmem
  induction fuel with
  | zero =>
    intro e h hle
    have hnil : e.heap = [] := eq_nil_of_length_eq_zero (Nat.le_zero.mp hle)
    exact Or.inl ⟨e, rfl, h, hnone h hnil⟩
  | succ fuel ih =>
    intro e h hle
    cases hheap : e.heap with
    | nil =>
      refine Or.inl ⟨e, ?_, h, hnone h hheap⟩
      simp only [EvictionIndex.popLoop, hheap]
    | cons entry heap =>
      have hlen : heap.length ≤ fuel := by
        rw [hheap, length_cons] at hle
        omega
      by_cases hstale : e.index.lookup entry.node = some (entry.version, entry.sequence)
      · have hmem : entry ∈ e.heap := by rw [hheap]; exact mem_cons_self
        have hcur := h.entry_current entry hmem (Set.notMem_empty _) hstale
        have hev : evictable entry.node = true :=
          (h.mem_index _ (Set.notMem_empty _)).mp (mem_iff_lookup.mpr ⟨_, hstale⟩)
        refine Or.inr ⟨entry.node, _, ?_, hev, h.taken hheap⟩
        simp only [EvictionIndex.popLoop, hheap, hstale, hcur, hev]
        simp
      · have hstep : EvictionIndex.popLoop evictable (fuel + 1) e =
            EvictionIndex.popLoop evictable fuel { e with heap } := by
          simp only [EvictionIndex.popLoop, hheap, ne_eq, hstale, not_false_eq_true, if_true]
        rw [hstep]
        exact ih (h.skip hheap hstale) hlen

theorem popOldest (h : EvictionInv e evictable ∅) : (∃ e', e.popOldest evictable = (none, e') ∧
      EvictionInv e' evictable ∅ ∧ ∀ i, evictable i = false) ∨ (∃ victim e', e.popOldest evictable = (some victim, e') ∧
      evictable victim = true ∧ EvictionInv e' evictable {victim}) :=
  popLoop _ h le_rfl

end EvictionInv

end Kairyu
