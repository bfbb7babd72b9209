/-
  Kairyu/PagePool.lean
  ====================
  **The fixed-size KV page pool** (`engine/core/pages.py`): allocation and free
  bookkeeping only.  Refcounting and sharing policy live in the radix tree; the
  pool just tracks which physical page ids are free.

  The Python free list is a stack whose top is the end of the list.  Here the top
  is the head, so `list(range(n - 1, -1, -1))` is `List.range n` and `pop()` takes
  the head.  The bookkeeping facts of the class — no id is free twice, an id is
  allocated exactly when it is in range and not free — are fields of the
  structure, so a pool that hands one page out twice cannot be built.
-/
import Mathlib.Data.Finset.Basic
import Mathlib.Data.Finset.Range
import Mathlib.Data.List.Nodup
import Mathlib.Data.List.Perm.Basic
import Mathlib.Data.List.Range

namespace Kairyu

open List

abbrev PageId := Nat

/-- What `PagePool` raises: the `MemoryError` of `allocate` and the two
    `ValueError`s of `free`, with the data their messages carry. -/
inductive PoolError where
  | outOfPages (requested free total : Nat)
  | notAllocated (pages : List PageId)
  | duplicateIds (pages : List PageId)
deriving DecidableEq, Repr

structure PagePool where
  numPages : Nat
  freeList : List PageId
  allocated : Finset PageId
  nodup : freeList.Nodup
  free_lt : ∀ p ∈ freeList, p < numPages
  mem_allocated : ∀ p, p ∈ allocated ↔ p < numPages ∧ p ∉ freeList

namespace PagePool

/-- `PagePool(num_pages)`: every page free, page `0` on top of the stack.  The
    constructor refuses an empty pool. -/
def create (numPages : Nat) : Option PagePool :=
  if numPages < 1 then none
  else some
    { numPages
      freeList := List.range numPages
      allocated := ∅
      nodup := nodup_range
      free_lt := fun _ hp => mem_range.mp hp
      mem_allocated := by simp }

def numFree (pool : PagePool) : Nat := pool.freeList.length

/-- Pop `count` pages off the free stack, in pop order. -/
def allocate (pool : PagePool) (count : Nat) : Except PoolError (List PageId × PagePool) :=
  if count = 0 then .ok ([], pool)
  else if pool.freeList.length < count then
    .error (.outOfPages count pool.freeList.length pool.numPages)
  else
    let pages := pool.freeList.take count
    .ok (pages,
      { numPages := pool.numPages
        freeList := pool.freeList.drop count
        allocated := pool.allocated ∪ pages.toFinset
        nodup := pool.nodup.sublist (drop_sublist _ _)
        free_lt := fun p hp => pool.free_lt p (mem_of_mem_drop hp)
        mem_allocated := by
          intro p
          have hsplit := take_append_drop count pool.freeList
          have hnodup : (pool.freeList.take count ++ pool.freeList.drop count).Nodup := by
            rw [hsplit]; exact pool.nodup
          have hdisj := (nodup_append.mp hnodup).2.2
          have hmem : p ∈ pool.freeList ↔
              p ∈ pool.freeList.take count ∨ p ∈ pool.freeList.drop count := by
            conv_lhs => rw [← hsplit]
            exact mem_append
          simp only [Finset.mem_union, mem_toFinset, pool.mem_allocated, hmem, not_or, pages]
          constructor
          · rintro (⟨hlt, _, hdrop⟩ | htake)
            · exact ⟨hlt, hdrop⟩
            · exact ⟨pool.free_lt p (mem_of_mem_take htake),
                fun hdrop => hdisj p htake p hdrop rfl⟩
          · rintro ⟨hlt, hdrop⟩
            by_cases htake : p ∈ pool.freeList.take count
            · exact Or.inr htake
            · exact Or.inl ⟨hlt, htake, hdrop⟩ })

/-- Push `pages` back.  An id that is not allocated, or one that occurs twice in
    the batch, would put the same physical page on the stack twice, so both are
    refused before anything changes. -/
def free (pool : PagePool) (pages : List PageId) : Except PoolError PagePool :=
  if hbad : pages.filter (fun p => p ∉ pool.allocated) ≠ [] then
    .error (.notAllocated (pages.filter fun p => p ∉ pool.allocated))
  else if hdup : ¬ pages.Nodup then .error (.duplicateIds pages)
  else
    have hall : ∀ p ∈ pages, p < pool.numPages ∧ p ∉ pool.freeList := by
      intro p hp
      by_contra hnot
      rw [← pool.mem_allocated] at hnot
      apply hbad
      exact ne_nil_of_mem (mem_filter.mpr ⟨hp, by simpa using hnot⟩)
    .ok
      { numPages := pool.numPages
        freeList := pages.reverse ++ pool.freeList
        allocated := pool.allocated \ pages.toFinset
        nodup := by
          refine nodup_append.mpr ⟨nodup_reverse.mpr (not_not.mp hdup), pool.nodup, ?_⟩
          intro p hp q hq hpq
          exact (hall p (mem_reverse.mp hp)).2 (hpq ▸ hq)
        free_lt := by
          intro p hp
          rcases mem_append.mp hp with hpages | hfree
          · exact (hall p (mem_reverse.mp hpages)).1
          · exact pool.free_lt p hfree
        mem_allocated := by
          intro p
          simp only [Finset.mem_sdiff, pool.mem_allocated, mem_toFinset, mem_append,
            mem_reverse, not_or]
          tauto }

/-! ### Specifications -/

theorem create_spec {numPages : Nat} {pool : PagePool} (h : create numPages = some pool) :
    pool.freeList = List.range numPages ∧ pool.numPages = numPages := by
  unfold create at h
  split at h
  · cases h
  · cases h
    exact ⟨rfl, rfl⟩

theorem allocate_ok {pool : PagePool} {count : Nat} (h : count ≤ pool.numFree) :
    ∃ pool', pool.allocate count = .ok (pool.freeList.take count, pool') ∧
      pool'.freeList = pool.freeList.drop count ∧ pool'.numPages = pool.numPages := by
  unfold allocate
  by_cases hzero : count = 0
  · subst hzero
    exact ⟨pool, by simp, by simp, rfl⟩
  · have hle : count ≤ pool.freeList.length := h
    rw [if_neg hzero, if_neg (Nat.not_lt.mpr hle)]
    exact ⟨_, rfl, rfl, rfl⟩

theorem free_ok {pool : PagePool} {pages : List PageId} (hnodup : pages.Nodup)
    (halloc : ∀ p ∈ pages, p < pool.numPages ∧ p ∉ pool.freeList) : ∃ pool', pool.free pages = .ok pool' ∧
      pool'.freeList = pages.reverse ++ pool.freeList ∧ pool'.numPages = pool.numPages := by
  have hgood : ¬ pages.filter (fun p => p ∉ pool.allocated) ≠ [] := by
    rw [not_not, filter_eq_nil_iff]
    intro p hp
    simpa using (pool.mem_allocated p).mpr (halloc p hp)
  unfold free
  rw [dif_neg hgood, dif_neg (not_not.mpr hnodup)]
  exact ⟨_, rfl, rfl, rfl⟩

end PagePool

end Kairyu
