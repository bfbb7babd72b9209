/-
  Kairyu/Heapq.lean
  =================
  **Binary heaps kept in a list, and reading one in order without popping it.**

  A list is a heap when no entry exceeds those at its two child positions.
  `Heapq` is what a heap library documents of `heappush`, `heappop` and `heapify`:
  they keep the entries and restore the heap order, and `heappop` takes the root.
  Where else the entries end up is left open.

  The second part is the k-smallest traversal of a heap.  A second heap, the
  frontier, holds the entries that come next, each with its position; taking the
  least one lets its children in.  `Heapq.reads_sorted` says that this reads the
  entries in ascending order.
-/
import Mathlib.Data.List.Sort
import Mathlib.Data.Prod.Lex
import Mathlib.Data.Finset.Max

variable {α : Type*} [LinearOrder α]

/-- Position `j` is one of the two children of position `i`. -/
def HeapChild (i j : Nat) : Prop := j = 2 * i + 1 ∨ j = 2 * i + 2

def IsHeap (heap : List α) : Prop :=
  ∀ i j a b, HeapChild i j → heap[i]? = some a → heap[j]? = some b → a ≤ b

/-- The root is least: every other position has a parent before it. -/
theorem IsHeap.root_le {heap : List α} (h : IsHeap heap) {a b : α} (ha : heap[0]? = some a)
    (hb : b ∈ heap) : a ≤ b := by
  obtain ⟨j, hj⟩ := List.mem_iff_getElem?.mp hb
  clear hb
  induction j using Nat.strongRecOn generalizing b with
  | ind j ih =>
    rcases Nat.eq_zero_or_pos j with rfl | hpos
    · cases ha.symm.trans hj
      exact le_rfl
    · have hlt := (List.getElem?_eq_some_iff.mp hj).1
      have hparent : (j - 1) / 2 < j := by omega
      have hc := List.getElem?_eq_getElem (hparent.trans hlt)
      exact (ih _ hparent hc).trans (h _ j _ b (by unfold HeapChild; omega) hc hj)

theorem isHeap_of_pairwise {heap : List α} (h : heap.Pairwise (· ≤ ·)) : IsHeap heap := by
  intro i j a b hchild ha hb
  obtain ⟨hi, rfl⟩ := List.getElem?_eq_some_iff.mp ha
  obtain ⟨hj, rfl⟩ := List.getElem?_eq_some_iff.mp hb
  exact List.pairwise_iff_getElem.mp h i j hi hj (by unfold HeapChild at hchild; omega)

/-- The contract of a heap library. -/
structure Heapq (α : Type*) [LinearOrder α] where
  heappush : List α → α → List α
  /-- `none` is the `IndexError` on an empty heap. -/
  heappop : List α → Option (α × List α)
  heapify : List α → List α
  heappush_perm : ∀ heap a, (heappush heap a).Perm (a :: heap)
  heappush_isHeap : ∀ heap a, IsHeap heap → IsHeap (heappush heap a)
  heappop_nil : heappop [] = none
  heappop_cons : ∀ a heap, ∃ rest, heappop (a :: heap) = some (a, rest) ∧ rest.Perm heap ∧
    (IsHeap (a :: heap) → IsHeap rest)
  heapify_perm : ∀ heap, (heapify heap).Perm heap
  heapify_isHeap : ∀ heap, IsHeap (heapify heap)

namespace Heapq

open List

/-- The library that keeps its heaps sorted. -/
def sorted : Heapq α where
  heappush heap a := (a :: heap).insertionSort (· ≤ ·)
  heappop
    | [] => none
    | a :: heap => some (a, heap.insertionSort (· ≤ ·))
  heapify heap := heap.insertionSort (· ≤ ·)
  heappush_perm _ _ := perm_insertionSort _ _
  heappush_isHeap _ _ _ := isHeap_of_pairwise (pairwise_insertionSort _ _)
  heappop_nil := rfl
  heappop_cons _ _ := ⟨_, rfl, perm_insertionSort _ _, fun _ =>
    isHeap_of_pairwise (pairwise_insertionSort _ _)⟩
  heapify_perm _ := perm_insertionSort _ _
  heapify_isHeap _ := isHeap_of_pairwise (pairwise_insertionSort _ _)

/-! ### The best-first walk -/

variable (F : Heapq (α ×ₗ Nat)) (heap : List α)

def pushChild (frontier : List (α ×ₗ Nat)) (j : Nat) : List (α ×ₗ Nat) :=
  match heap[j]? with
  | some b => F.heappush frontier (toLex (b, j))
  | none => frontier

/-- One round: the least entry of the frontier leaves it and its children enter. -/
def expand (frontier : List (α ×ₗ Nat)) : Option (α × List (α ×ₗ Nat)) :=
  match F.heappop frontier with
  | some (e, rest) =>
    let left := 2 * (ofLex e).2 + 1
    let right := left + 1
    some ((ofLex e).1, F.pushChild heap (F.pushChild heap rest left) right)
  | none => none

/-- The rounds that start at `frontier` take the entries of a list, in its order,
    and end with it. -/
def Reads : List α → List (α ×ₗ Nat) → Prop
  | [], frontier => F.expand heap frontier = none
  | a :: l, frontier => ∃ next, F.expand heap frontier = some (a, next) ∧ Reads l next

/-- The frontier of the positions `U` still to come: those whose parent has been
    taken. -/
structure Frontier (heap : List α) (frontier : List (α ×ₗ Nat)) (U : Finset Nat) : Prop where
  isHeap : IsHeap frontier
  nodup : frontier.Nodup
  mem_iff : ∀ a j, toLex (a, j) ∈ frontier ↔
    heap[j]? = some a ∧ j ∈ U ∧ ∀ i ∈ U, ¬ HeapChild i j
  closed : ∀ i ∈ U, ∀ j, HeapChild i j → j < heap.length → j ∈ U
  bound : ∀ j ∈ U, j < heap.length

variable {F heap} {frontier : List (α ×ₗ Nat)} {U : Finset Nat}

theorem mem_pushChild {b : α} {j k : Nat} : toLex (b, k) ∈ F.pushChild heap frontier j ↔
    toLex (b, k) ∈ frontier ∨ (k = j ∧ heap[j]? = some b) := by
  unfold pushChild
  cases hj : heap[j]? with
  | none => simp
  | some c =>
    rw [(F.heappush_perm _ _).mem_iff, mem_cons, EmbeddingLike.apply_eq_iff_eq, Prod.mk.injEq,
      Option.some_inj, or_comm, and_comm, eq_comm (a := b)]

theorem pushChild_nodup {j : Nat} (h : frontier.Nodup) (hj : ∀ b, toLex (b, j) ∉ frontier) :
    (F.pushChild heap frontier j).Nodup := by
  unfold pushChild
  cases heap[j]? with
  | none => exact h
  | some c => exact (F.heappush_perm _ _).nodup_iff.mpr (nodup_cons.mpr ⟨hj c, h⟩)

theorem pushChild_isHeap {j : Nat} (h : IsHeap frontier) : IsHeap (F.pushChild heap frontier j) := by
  unfold pushChild
  cases heap[j]? with
  | none => exact h
  | some c => exact F.heappush_isHeap _ _ h

/-- What is still to come is not below the root of the frontier. -/
theorem Frontier.root_le (hheap : IsHeap heap) (h : Frontier heap frontier U) {a b : α} {i j : Nat}
    (hroot : frontier[0]? = some (toLex (a, i))) (hj : j ∈ U) (hb : heap[j]? = some b) : a ≤ b := by
  induction j using Nat.strongRecOn generalizing b with
  | ind j ih =>
    by_cases hparent : ∃ i ∈ U, HeapChild i j
    · obtain ⟨p, hp, hchild⟩ := hparent
      have hc := List.getElem?_eq_getElem (h.bound p hp)
      have hlt : p < j := by unfold HeapChild at hchild; omega
      exact (ih p hlt hp hc).trans (hheap p j _ b hchild hc hb)
    · have hmem : toLex (b, j) ∈ frontier :=
        (h.mem_iff b j).mpr ⟨hb, hj, fun i hi hchild => hparent ⟨i, hi, hchild⟩⟩
      rcases Prod.Lex.toLex_le_toLex.mp (h.isHeap.root_le hroot hmem) with hlt | ⟨heq, _⟩
      · exact hlt.le
      · exact heq.le

/-- **One round** of the walk takes a least entry of those still to come. -/
theorem Frontier.expand (hheap : IsHeap heap) (h : Frontier heap frontier U) (hU : U.Nonempty) :
    ∃ i ∈ U, ∃ a next, heap[i]? = some a ∧ F.expand heap frontier = some (a, next) ∧
      Frontier heap next (U.erase i) ∧ ∀ j ∈ U, ∀ b, heap[j]? = some b → a ≤ b := by
  -- the first position still to come is on the frontier
  have hmin := U.min'_mem hU
  have hfirst : toLex (heap.get ⟨_, h.bound _ hmin⟩, U.min' hU) ∈ frontier := by
    refine (h.mem_iff _ _).mpr ⟨List.getElem?_eq_getElem _, hmin, fun i hi hchild => ?_⟩
    have hle := U.min'_le i hi
    unfold HeapChild at hchild
    omega
  obtain ⟨e, entries, rfl⟩ := exists_cons_of_ne_nil (ne_nil_of_mem hfirst)
  obtain ⟨rest, hpop, hperm, hrest⟩ := F.heappop_cons e entries
  obtain ⟨⟨a, i⟩, rfl⟩ := toLex.surjective e
  obtain ⟨ha, hi, htop⟩ := (h.mem_iff a i).mp mem_cons_self
  have hnodup := nodup_cons.mp h.nodup
  have hmem : ∀ {b j}, toLex (b, j) ∈ rest ↔ toLex (b, j) ∈ toLex (a, i) :: entries ∧ j ≠ i := by
    intro b j
    rw [hperm.mem_iff, mem_cons]
    constructor
    · intro hb
      refine ⟨Or.inr hb, ?_⟩
      rintro rfl
      have hba := ((h.mem_iff b j).mp (mem_cons_of_mem _ hb)).1
      rw [ha, Option.some_inj] at hba
      exact hnodup.1 (hba ▸ hb)
    · rintro ⟨hb | hb, hne⟩
      · exact absurd (congrArg (fun e => (ofLex e).2) hb) hne
      · exact hb
  have hchildren : ∀ {b j}, HeapChild i j → toLex (b, j) ∉ rest := fun hchild hb =>
    ((h.mem_iff _ _).mp (hmem.mp hb).1).2.2 i hi hchild
  -- a child of the taken position is still to come, and has no other parent
  have hinside : ∀ {b j}, HeapChild i j → heap[j]? = some b →
      j ∈ U.erase i ∧ ∀ p ∈ U.erase i, ¬ HeapChild p j := by
    intro b j hchild hb
    have hj := h.closed i hi j hchild (List.getElem?_eq_some_iff.mp hb).1
    refine ⟨Finset.mem_erase.mpr ⟨?_, hj⟩, fun p hp hpj => Finset.ne_of_mem_erase hp ?_⟩
    · unfold HeapChild at hchild
      omega
    · unfold HeapChild at hchild hpj
      omega
  refine ⟨i, hi, a, _, ha, by rw [Heapq.expand, hpop]; rfl, ?_, fun j hj b hb => h.root_le hheap rfl hj hb⟩
  refine ⟨pushChild_isHeap (pushChild_isHeap (hrest h.isHeap)), ?_, ?_, ?_, ?_⟩
  · refine pushChild_nodup (pushChild_nodup (hperm.nodup_iff.mpr hnodup.2) fun b => ?_) fun b => ?_
    · exact hchildren (Or.inl rfl)
    · rw [mem_pushChild]
      rintro (hb | ⟨heq, _⟩)
      · exact hchildren (Or.inr rfl) hb
      · exact absurd heq (Nat.succ_ne_self _)
  · intro b j
    rw [mem_pushChild, mem_pushChild, hmem, h.mem_iff]
    constructor
    · rintro ((⟨⟨hb, hj, hfree⟩, hne⟩ | ⟨rfl, hb⟩) | ⟨rfl, hb⟩)
      · exact ⟨hb, Finset.mem_erase.mpr ⟨hne, hj⟩, fun p hp => hfree p (Finset.mem_of_mem_erase hp)⟩
      · exact ⟨hb, hinside (Or.inl rfl) hb⟩
      · exact ⟨hb, hinside (Or.inr rfl) hb⟩
    · rintro ⟨hb, hj, hfree⟩
      by_cases hchild : HeapChild i j
      · rcases hchild with rfl | rfl
        · exact Or.inl (Or.inr ⟨rfl, hb⟩)
        · exact Or.inr ⟨rfl, hb⟩
      · refine Or.inl (Or.inl ⟨⟨hb, Finset.mem_of_mem_erase hj, fun p hp hpj => ?_⟩, Finset.ne_of_mem_erase hj⟩)
        by_cases hpi : p = i
        · exact hchild (hpi ▸ hpj)
        · exact hfree p (Finset.mem_erase.mpr ⟨hpi, hp⟩) hpj
  · intro p hp j hchild hj
    refine Finset.mem_erase.mpr ⟨?_, h.closed p (Finset.mem_of_mem_erase hp) j hchild hj⟩
    rintro rfl
    exact htop p (Finset.mem_of_mem_erase hp) hchild
  · exact fun j hj => h.bound j (Finset.mem_of_mem_erase hj)

/-- The walk reads what is still to come in ascending order. -/
theorem Frontier.reads (hheap : IsHeap heap) (h : Frontier heap frontier U) : ∃ l,
    F.Reads heap l frontier ∧ l.Pairwise (· ≤ ·) ∧ (↑(l.map some) : Multiset (Option α)) = U.val.map (heap[·]?) := by
  induction hn : U.card generalizing frontier U with
  | zero =>
    obtain rfl := Finset.card_eq_zero.mp hn
    have hnil : frontier = [] := eq_nil_iff_forall_not_mem.mpr fun e he =>
      absurd ((h.mem_iff (ofLex e).1 (ofLex e).2).mp he).2.1 (Finset.notMem_empty _)
    exact ⟨[], by rw [hnil, Reads, Heapq.expand, F.heappop_nil], List.Pairwise.nil, rfl⟩
  | succ n ih =>
    obtain ⟨i, hi, a, next, ha, hexpand, hnext, hle⟩ :=
      h.expand hheap (Finset.card_pos.mp (hn ▸ Nat.succ_pos n))
    obtain ⟨l, hreads, hsorted, hl⟩ := ih hnext (by rw [Finset.card_erase_of_mem hi, hn]; rfl)
    refine ⟨a :: l, ⟨next, hexpand, hreads⟩, pairwise_cons.mpr ⟨fun b hb => ?_, hsorted⟩, ?_⟩
    · have hb' : some b ∈ (U.erase i).val.map (heap[·]?) := by
        rw [← hl]
        exact Multiset.mem_coe.mpr (mem_map_of_mem hb)
      obtain ⟨j, hj, hjb⟩ := Multiset.mem_map.mp hb'
      exact hle j (Finset.mem_of_mem_erase hj) b hjb
    · rw [map_cons, ← Multiset.cons_coe, hl, ← ha, ← Multiset.map_cons, Finset.erase_val, Multiset.cons_erase hi]

/-- **The walk from the root** reads the heap in ascending order. -/
theorem reads_sorted (F : Heapq (α ×ₗ Nat)) {a : α} {entries : List α} (h : IsHeap (a :: entries)) :
    F.Reads (a :: entries) ((a :: entries).insertionSort (· ≤ ·)) [toLex (a, 0)] := by
  have hfrontier : Frontier (a :: entries) [toLex (a, 0)] (Finset.range (a :: entries).length) := by
    refine ⟨?_, nodup_singleton _, ?_, ?_, fun j => Finset.mem_range.mp⟩
    · exact isHeap_of_pairwise (pairwise_singleton _ _)
    · intro b j
      rw [mem_singleton, EmbeddingLike.apply_eq_iff_eq, Prod.mk.injEq]
      constructor
      · rintro ⟨rfl, rfl⟩
        exact ⟨rfl, Finset.mem_range.mpr (Nat.succ_pos _), fun i _ hchild => by
          unfold HeapChild at hchild; omega⟩
      · rintro ⟨hb, hj, hfree⟩
        have hzero : j = 0 := by
          by_contra hpos
          refine hfree ((j - 1) / 2) (Finset.mem_range.mpr ?_) ?_
          · have hlt := Finset.mem_range.mp hj
            omega
          · unfold HeapChild
            omega
        subst hzero
        exact ⟨(Option.some_inj.mp hb).symm, rfl⟩
    · exact fun i _ j _ hj => Finset.mem_range.mpr hj
  obtain ⟨l, hreads, hsorted, hl⟩ := hfrontier.reads h
  have hperm : l.Perm (a :: entries) := by
    have hmap : (l.map some).Perm ((a :: entries).map some) := by
      rw [← Multiset.coe_eq_coe, hl]
      refine congrArg _ (ext_getElem (by simp) fun i hi hi' => ?_)
      rw [getElem_map, getElem_map, getElem_range, List.getElem?_eq_getElem]
    exact (map_perm_map_iff (Option.some_injective α)).mp hmap
  rwa [← (hperm.trans (perm_insertionSort _ _).symm).eq_of_pairwise' hsorted (pairwise_insertionSort _ _)]

end Heapq
