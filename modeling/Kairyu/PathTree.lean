/-
  Kairyu/PathTree.lean
  ====================
  **Block-aligned radix trees, seen through the paths of their nodes.**

  A radix tree whose edge labels are whole blocks of `page` letters, and whose
  siblings differ in their first block, is determined by the word spelled on the
  way from the root to each node.  This file takes such a tree as a relation
  (`edge p k i`: node `i` hangs below `p` with label `k`) together with the word
  `path i` of every node, and proves the two facts that every argument about
  radix trees uses:

    * distinct nodes have distinct paths (`path_injective`);
    * no path ends inside an edge (`prefix_of_edge`): a path that continues
      below `p` with the first block of an edge runs through that whole edge.

  Being an ancestor is then the prefix order on paths (`prefix_edge_iff`), so
  counting what lies below a node needs no walk through the tree.  Nothing here
  fixes what the nodes or the letters are.
-/
import Mathlib.Data.List.Infix

/-- `path` spells the edge labels of a tree on the nodes satisfying `mem`. -/
structure IsPathTree {ι α : Type*} (page : Nat) (mem : ι → Prop) (edge : ι → List α → ι → Prop)
    (root : ι) (path : ι → List α) : Prop where
  page_pos : 0 < page
  root_mem : mem root
  root_path : path root = []
  parent_mem : ∀ {p k i}, edge p k i → mem p
  child_mem : ∀ {p k i}, edge p k i → mem i
  has_parent : ∀ {i}, mem i → i ≠ root → ∃ p k, edge p k i
  edge_path : ∀ {p k i}, edge p k i → path i = path p ++ k
  edge_ne_nil : ∀ {p k i}, edge p k i → k ≠ []
  edge_dvd : ∀ {p k i}, edge p k i → page ∣ k.length
  edge_unique : ∀ {p k i k' j}, edge p k i → edge p k' j → k.take page = k'.take page → i = j

namespace IsPathTree

open List Nat

variable {ι α : Type*} {page : Nat} {mem : ι → Prop} {edge : ι → List α → ι → Prop} {root : ι}
  {path : ι → List α}

variable (T : IsPathTree page mem edge root path)

include T

variable {a h i j p : ι} {k w : List α}

theorem page_le_edge (h : edge p k i) : page ≤ k.length :=
  le_of_dvd (length_pos_iff.mpr (T.edge_ne_nil h)) (T.edge_dvd h)

theorem length_edge (h : edge p k i) : (path i).length = (path p).length + k.length := by
  rw [T.edge_path h, length_append]

theorem length_parent_lt (h : edge p k i) : (path p).length < (path i).length := by
  have hlen := T.length_edge h
  have hpage := T.page_le_edge h
  have hpos := T.page_pos
  omega

/-- **Induction along the edges**: what holds at the root and passes from a parent
    to its child holds at every node. -/
theorem climb {P : ι → Prop} (hroot : P root)
    (hstep : ∀ {p i : ι} {k : List α}, edge p k i → P p → P i) (hi : mem i) : P i := by
  -- every parent has a shorter path
  induction hn : (path i).length using Nat.strongRecOn generalizing i with
  | ind n ih =>
    by_cases hr : i = root
    · rw [hr]
      exact hroot
    · obtain ⟨p, k, hedge⟩ := T.has_parent hi hr
      exact hstep hedge (ih _ (hn ▸ T.length_parent_lt hedge) (T.parent_mem hedge) rfl)

/-- Every path is a whole number of blocks. -/
theorem page_dvd (hi : mem i) : page ∣ (path i).length := by
  refine T.climb (P := fun i => page ∣ (path i).length) ?_ ?_ hi
  · rw [T.root_path]
    exact Nat.dvd_zero page
  · intro p i k hedge hp
    rw [T.length_edge hedge]
    exact Nat.dvd_add hp (T.edge_dvd hedge)

theorem path_eq_nil_iff (hi : mem i) : path i = [] ↔ i = root := by
  constructor
  · intro hnil
    by_contra hroot
    obtain ⟨p, k, hedge⟩ := T.has_parent hi hroot
    have hlt := T.length_parent_lt hedge
    rw [hnil] at hlt
    exact absurd hlt (not_lt_zero _)
  · rintro rfl
    exact T.root_path

/-- The first block below `p` of a child of `p` can be read off its path. -/
theorem take_page_of_prefix {b : List α} (h : edge p k i) (hb : b.length = page) (hpre : path p ++ b <+: path i) :
    k.take page = b := by
  rw [T.edge_path h, prefix_append_right_inj, prefix_iff_eq_take, hb] at hpre
  exact hpre.symm

/-- Two block-aligned prefixes of one word differ by at least a block. -/
theorem add_page_le (hi : mem i) (hj : mem j) (h : (path i).length < (path j).length) :
    (path i).length + page ≤ (path j).length := by
  obtain ⟨a, ha⟩ := T.page_dvd hi
  obtain ⟨b, hb⟩ := T.page_dvd hj
  rw [ha, hb] at h ⊢
  have hlt : a < b := Nat.lt_of_mul_lt_mul_left h
  calc page * a + page = page * (a + 1) := (mul_succ page a).symm
    _ ≤ page * b := mul_le_mul_left page hlt

/-- Both radix facts at once, by induction on a bound for the path lengths: each
    uses the other one for shorter paths. -/
theorem radix_aux : ∀ n : Nat, (∀ {p k i h}, edge p k i → mem h → (path h).length < n →
      path p ++ k.take page <+: path h → path i <+: path h) ∧
    (∀ {i j}, mem i → mem j → (path i).length < n → path i = path j → i = j) := by
  intro n
  induction n with
  | zero => exact ⟨fun _ _ hlt => absurd hlt (not_lt_zero _), fun _ _ hlt => absurd hlt (not_lt_zero _)⟩
  | succ n ih =>
    obtain ⟨ihEdge, ihInj⟩ := ih
    have htake : ∀ {p k i}, edge p k i → (k.take page).length = page := fun h => by
      rw [length_take, min_eq_left (T.page_le_edge h)]
    -- no path ends inside an edge, for paths of length up to `n`
    have hEdge : ∀ {p k i h}, edge p k i → mem h → (path h).length < n + 1 →
        path p ++ k.take page <+: path h → path i <+: path h := by
      intro p k i h hpi hh hlt hpre
      have hlen := hpre.length_le
      rw [length_append, htake hpi] at hlen
      have hpos := T.page_pos
      have hroot : h ≠ root := by
        rintro rfl
        rw [T.root_path, length_nil] at hlen
        omega
      obtain ⟨q, k', hqh⟩ := T.has_parent hh hroot
      have hqlt := T.length_parent_lt hqh
      have hqpre : path q <+: path h := by rw [T.edge_path hqh]; exact prefix_append _ _
      have hppre : path p <+: path h := (prefix_append _ _).trans hpre
      rcases lt_trichotomy (path q).length (path p).length with hcmp | hcmp | hcmp
      · -- `p` would end inside the edge from `q` to `h`
        have hqp : path q ++ k'.take page <+: path p := by
          have hstep : path q ++ k'.take page <+: path h := by
            rw [T.edge_path hqh, prefix_append_right_inj]
            exact take_prefix _ _
          refine prefix_of_prefix_length_le hstep hppre ?_
          rw [length_append, htake hqh]
          exact T.add_page_le (T.parent_mem hqh) (T.parent_mem hpi) hcmp
        have hback := (ihEdge hqh (T.parent_mem hpi) (by omega) hqp).length_le
        omega
      · have hpath : path q = path p :=
          (prefix_of_prefix_length_le hqpre hppre hcmp.le).eq_of_length hcmp
        have hqp : q = p := ihInj (T.parent_mem hqh) (T.parent_mem hpi) (by omega) hpath
        subst hqp
        have hsame := T.take_page_of_prefix hqh (htake hpi) hpre
        have hi : h = i := T.edge_unique hqh hpi hsame
        rw [hi]
      · have hle := T.add_page_le (T.parent_mem hpi) (T.parent_mem hqh) hcmp
        have hpq : path p ++ k.take page <+: path q := by
          refine prefix_of_prefix_length_le hpre hqpre ?_
          rw [length_append, htake hpi]
          exact hle
        exact (ihEdge hpi (T.parent_mem hqh) (by omega) hpq).trans hqpre
    refine ⟨hEdge, ?_⟩
    -- equal paths: compare the two parents
    have hInj : ∀ {i j p q k k'}, edge p k i → edge q k' j → (path i).length < n + 1 →
        path i = path j → (path p).length ≤ (path q).length → i = j := by
      intro i j p q k k' hpi hqj hlt heq hle
      have hqlt := T.length_parent_lt hqj
      have hppre : path p <+: path j := by
        rw [← heq, T.edge_path hpi]; exact prefix_append _ _
      have hqpre : path q <+: path j := by rw [T.edge_path hqj]; exact prefix_append _ _
      have hpre : path p ++ k.take page <+: path j := by
        rw [← heq, T.edge_path hpi, prefix_append_right_inj]
        exact take_prefix _ _
      rcases lt_or_eq_of_le hle with hcmp | hcmp
      · have hpq : path p ++ k.take page <+: path q := by
          refine prefix_of_prefix_length_le hpre hqpre ?_
          rw [length_append, htake hpi]
          exact T.add_page_le (T.parent_mem hpi) (T.parent_mem hqj) hcmp
        have hback := (hEdge hpi (T.parent_mem hqj) (by rw [heq] at hlt; omega) hpq).length_le
        rw [heq] at hback
        omega
      · have hpath : path p = path q :=
          (prefix_of_prefix_length_le hppre hqpre hle).eq_of_length hcmp
        have hplt := T.length_parent_lt hpi
        have hpq : p = q := ihInj (T.parent_mem hpi) (T.parent_mem hqj) (by omega) hpath
        subst hpq
        exact T.edge_unique hpi hqj (T.take_page_of_prefix hqj (htake hpi) hpre).symm
    intro i j hi hj hlt heq
    by_cases hiroot : i = root
    · subst hiroot
      rw [T.root_path] at heq
      exact ((T.path_eq_nil_iff hj).mp heq.symm).symm
    · by_cases hjroot : j = root
      · subst hjroot
        rw [T.root_path] at heq
        exact (T.path_eq_nil_iff hi).mp heq
      · obtain ⟨p, k, hpi⟩ := T.has_parent hi hiroot
        obtain ⟨q, k', hqj⟩ := T.has_parent hj hjroot
        rcases le_total (path p).length (path q).length with hle | hle
        · exact hInj hpi hqj hlt heq hle
        · exact (hInj hqj hpi (by rw [← heq]; exact hlt) heq.symm hle).symm

/-- **No path ends inside an edge.** -/
theorem prefix_of_edge (hedge : edge p k i) (hh : mem h) (hpre : path p ++ k.take page <+: path h) :
    path i <+: path h :=
  (T.radix_aux ((path h).length + 1)).1 hedge hh (lt_succ_self _) hpre

/-- **Distinct nodes have distinct paths.** -/
theorem path_injective (hi : mem i) (hj : mem j) (heq : path i = path j) : i = j :=
  (T.radix_aux ((path i).length + 1)).2 hi hj (lt_succ_self _) heq

/-- The nodes above or at a child are the child and those above or at its parent. -/
theorem prefix_edge_iff (hedge : edge p k i) (ha : mem a) : path a <+: path i ↔ a = i ∨ path a <+: path p := by
  have hpi : path p <+: path i := by rw [T.edge_path hedge]; exact prefix_append _ _
  constructor
  · intro hpre
    rcases lt_or_ge (path p).length (path a).length with hlt | hge
    · left
      have hstep : path p ++ k.take page <+: path a := by
        have hfirst : path p ++ k.take page <+: path i := by
          rw [T.edge_path hedge, prefix_append_right_inj]
          exact take_prefix _ _
        refine prefix_of_prefix_length_le hfirst hpre ?_
        rw [length_append, length_take, min_eq_left (T.page_le_edge hedge)]
        exact T.add_page_le (T.parent_mem hedge) ha hlt
      have hback := T.prefix_of_edge hedge ha hstep
      exact T.path_injective ha (T.child_mem hedge)
        (hpre.eq_of_length (le_antisymm hpre.length_le hback.length_le))
    · exact Or.inr (prefix_of_prefix_length_le hpre hpi hge)
  · rintro (rfl | hpre)
    · exact prefix_rfl
    · exact hpre.trans hpi

theorem prefix_root_iff (ha : mem a) : path a <+: path root ↔ a = root := by
  rw [T.root_path, prefix_nil, T.path_eq_nil_iff ha]

/-- Below a node, towards any of its proper descendants, hangs a child. -/
theorem edge_towards (ha : mem a) (hj : mem j) : path a <+: path j → a ≠ j → ∃ k i, edge a k i ∧ path i <+: path j := by
  refine T.climb (P := fun j => path a <+: path j → a ≠ j →
    ∃ k i, edge a k i ∧ path i <+: path j) ?_ ?_ hj
  · intro hpre hne
    exact absurd ((T.prefix_root_iff ha).mp hpre) hne
  · intro q j k hqj ih hpre hne
    have hqpre : path q <+: path j := by rw [T.edge_path hqj]; exact prefix_append _ _
    have haq : path a <+: path q := ((T.prefix_edge_iff hqj ha).mp hpre).resolve_left hne
    by_cases hq : a = q
    · subst hq
      exact ⟨k, j, hqj, prefix_rfl⟩
    · obtain ⟨k', i, hedge, hi⟩ := ih haq hq
      exact ⟨k', i, hedge, hi.trans hqpre⟩

/-- The edge in which a nonempty prefix of a path ends. -/
theorem exists_cover (hw : w ≠ []) : ∀ (n : Nat) {j : ι}, mem j → (path j).length ≤ n → w <+: path j →
    ∃ p k t, edge p k t ∧ path t <+: path j ∧ (path p).length < w.length ∧ w <+: path t := by
  intro n
  induction n with
  | zero =>
    intro j _ hle hpre
    have hnil : path j = [] := eq_nil_of_length_eq_zero (le_zero.mp hle)
    rw [hnil, prefix_nil] at hpre
    exact absurd hpre hw
  | succ n ih =>
    intro j hj hle hpre
    have hroot : j ≠ root := by
      rintro rfl
      rw [T.root_path, prefix_nil] at hpre
      exact hw hpre
    obtain ⟨q, k, hqj⟩ := T.has_parent hj hroot
    have hqpre : path q <+: path j := by rw [T.edge_path hqj]; exact prefix_append _ _
    rcases lt_or_ge (path q).length w.length with hlt | hge
    · exact ⟨q, k, j, hqj, prefix_rfl, hlt, hpre⟩
    · have hlt := T.length_parent_lt hqj
      obtain ⟨p, k', t, hedge, ht, hp, hwt⟩ := ih (T.parent_mem hqj) (by omega)
        (prefix_of_prefix_length_le hpre hqpre hge)
      exact ⟨p, k', t, hedge, ht.trans hqpre, hp, hwt⟩

/-- A word of whole blocks that ends in an edge reads through the edge's first
    block, so every path that continues the word runs through the edge. -/
theorem prefix_of_cover {t : ι} (hedge : edge p k t)
    (hp : (path p).length < w.length) (hwt : w <+: path t) (hw : page ∣ w.length) (hh : mem h)
    (hpre : w <+: path h) : path t <+: path h := by
  refine T.prefix_of_edge hedge hh (List.IsPrefix.trans ?_ hpre)
  have hstep : path p ++ k.take page <+: path t := by
    rw [T.edge_path hedge, prefix_append_right_inj]
    exact take_prefix _ _
  refine prefix_of_prefix_length_le hstep hwt ?_
  rw [length_append, length_take, min_eq_left (T.page_le_edge hedge)]
  obtain ⟨a, ha⟩ := T.page_dvd (T.parent_mem hedge)
  obtain ⟨b, hb⟩ := hw
  rw [ha, hb] at hp ⊢
  have hlt : a < b := Nat.lt_of_mul_lt_mul_left hp
  calc page * a + page = page * (a + 1) := (mul_succ page a).symm
    _ ≤ page * b := mul_le_mul_left page hlt

/-- **One edge covers a word.**  Whatever paths continue a word of whole blocks,
    they do so through the same node. -/
theorem common_cover (hw : w ≠ []) (hdvd : page ∣ w.length) (hi : mem i)
    (hj : mem j) (hwi : w <+: path i) (hwj : w <+: path j) :
    ∃ t, mem t ∧ w <+: path t ∧ path t <+: path i ∧ path t <+: path j := by
  obtain ⟨p, k, t, hedge, hti, hp, hwt⟩ := T.exists_cover hw _ hi le_rfl hwi
  exact ⟨t, T.child_mem hedge, hwt, hti, T.prefix_of_cover hedge hp hwt hdvd hj hwj⟩

end IsPathTree
