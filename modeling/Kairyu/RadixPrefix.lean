/-
  Kairyu/RadixPrefix.lean
  =======================
  **The prefix map behind the tree, and the two walks that read it.**

  Forgetting how nodes are cut, the computed part of the tree assigns a page to
  every page-aligned token prefix it stores (`Cached`).  The assignment is
  functional and prefix-closed, and a split does not change it.  Both walks, the
  read-only probe and the locking match, stop at the longest prefix of their input
  that the map stores.
-/
import Kairyu.RadixReclaim

namespace Kairyu

open List Nat

open RadixKVCache (commonPages)

/-! ### The map -/

/-- The page that the computed part of the tree assigns to the token prefix
    `pre`: some computed node's path starts with it. -/
def Cached (c : RadixKVCache) (path : NodeId → List TokenId) (pagePath : NodeId → List PageId)
    (pre : List TokenId) (page : PageId) : Prop :=
  ∃ i n m, c.find i = some n ∧ n.computed = true ∧ (pagePath i)[m]? = some page ∧
    pre = (path i).take ((m + 1) * c.pageSize)

namespace TreeInv

variable {pageSize : Nat} {nodes : NodeId → Option Node} {next : NodeId}
  {path : NodeId → List TokenId} {pagePath : NodeId → List PageId} {i j p : NodeId} {n m : Node}

/-- Along a path the pages grow with the tokens. -/
theorem pagePath_prefix (T : TreeInv pageSize nodes next path pagePath) (hi : nodes i = some n)
    (hj : nodes j = some m) : path i <+: path j → pagePath i <+: pagePath j := by
  refine T.climb (P := fun j => path i <+: path j → pagePath i <+: pagePath j) ?_ ?_ hj
  · intro hpre
    rw [(T.isPathTree.prefix_root_iff ⟨n, hi⟩).mp hpre]
  · intro j q m qn hj hroot hq _ ih hpre
    rcases (T.isPathTree.prefix_edge_iff (T.edge_of hj hroot hq) ⟨n, hi⟩).mp hpre with rfl | hup
    · exact prefix_rfl
    · obtain ⟨_, _, _, _, hpages⟩ := T.parent_of hj hroot hq
      rw [hpages]
      exact (ih hup).trans (prefix_append _ _)

/-- Two paths that start with the same whole pages of tokens start with the same
    pages. -/
theorem pagePath_agree (T : TreeInv pageSize nodes next path pagePath) (hi : nodes i = some n)
    (hj : nodes j = some m) {k : Nat} (hki : k < (pagePath i).length)
    (heq : (path i).take ((k + 1) * pageSize) = (path j).take ((k + 1) * pageSize)) :
    (pagePath i)[k]? = (pagePath j)[k]? := by
  have hpos := T.page_pos
  have hword : ((path i).take ((k + 1) * pageSize)).length = (k + 1) * pageSize := by
    rw [length_take, T.length_path hi]
    exact min_eq_left (mul_le_mul_right _ hki)
  have hne : (path i).take ((k + 1) * pageSize) ≠ [] := by
    rw [← length_pos_iff, hword]
    exact Nat.mul_pos (Nat.succ_pos k) hpos
  obtain ⟨t, ⟨tn, ht⟩, hwt, hti, htj⟩ := T.isPathTree.common_cover hne
    (by rw [hword]; exact dvd_mul_left _ _) ⟨n, hi⟩ ⟨m, hj⟩ (List.take_prefix _ _)
    (by rw [heq]; exact take_prefix _ _)
  have hkt : k < (pagePath t).length := by
    have hle := hwt.length_le
    rw [hword, T.length_path ht] at hle
    exact Nat.lt_of_mul_lt_mul_right (Nat.lt_of_lt_of_le (Nat.mul_lt_mul_of_pos_right (Nat.lt_succ_self k) hpos) hle)
  obtain ⟨si, hsi⟩ := T.pagePath_prefix ht hi hti
  obtain ⟨sj, hsj⟩ := T.pagePath_prefix ht hj htj
  rw [← hsi, ← hsj, List.getElem?_append_left hkt, List.getElem?_append_left hkt]

end TreeInv

section Map

variable {c c' : RadixKVCache} {holders : Multiset NodeId} {owned : Multiset PageId}
  {path : NodeId → List TokenId} {pagePath : NodeId → List PageId} {pre : List TokenId}
  {page : PageId}

/-- **The map is a function.** -/
theorem Cached.unique (h : CoreInv c holders owned path pagePath) {page' : PageId}
    (h1 : Cached c path pagePath pre page) (h2 : Cached c path pagePath pre page') : page = page' := by
  obtain ⟨i, n, k, hi, _, hpage, hpre⟩ := h1
  obtain ⟨j, m, l, hj, _, hpage', hpre'⟩ := h2
  have hki : k < (pagePath i).length := (List.getElem?_eq_some_iff.mp hpage).1
  have hlj : l < (pagePath j).length := (List.getElem?_eq_some_iff.mp hpage').1
  have hpos := h.tree.page_pos
  have hlen : (k + 1) * c.pageSize = (l + 1) * c.pageSize := by
    have hk : pre.length = (k + 1) * c.pageSize := by
      rw [hpre, length_take, h.tree.length_path hi]
      exact min_eq_left (mul_le_mul_right _ hki)
    have hl : pre.length = (l + 1) * c.pageSize := by
      rw [hpre', length_take, h.tree.length_path hj]
      exact min_eq_left (mul_le_mul_right _ hlj)
    exact hk.symm.trans hl
  have hkl : k = l := Nat.succ.inj (eq_of_mul_eq_mul_right hpos hlen)
  subst hkl
  have hagree := h.tree.pagePath_agree hi hj hki (hpre.symm.trans hpre')
  rw [hpage, hpage'] at hagree
  exact Option.some.inj hagree

/-- **The map is prefix-closed**: a stored prefix has all its shorter page-aligned
    prefixes stored. -/
theorem Cached.shorter (h : CoreInv c holders owned path pagePath)
    (hc : Cached c path pagePath pre page) {k : Nat} (hk : 0 < k) (hle : k * c.pageSize ≤ pre.length) :
    ∃ page', Cached c path pagePath (pre.take (k * c.pageSize)) page' := by
  obtain ⟨i, n, l, hi, hcomp, hpage, hpre⟩ := hc
  have hl : l < (pagePath i).length := (List.getElem?_eq_some_iff.mp hpage).1
  have hpos := h.tree.page_pos
  have hkl : k ≤ l + 1 := by
    have hbound : pre.length ≤ (l + 1) * c.pageSize := by
      rw [hpre]
      exact length_take_le _ _
    exact Nat.le_of_mul_le_mul_right (hle.trans hbound) hpos
  have hk' : k - 1 < (pagePath i).length := by omega
  refine ⟨(pagePath i)[k - 1], i, n, k - 1, hi, hcomp, List.getElem?_eq_getElem hk', ?_⟩
  rw [hpre, take_take, Nat.sub_add_cancel hk, Nat.min_eq_left (Nat.mul_le_mul_right _ hkl)]

/-- Refcounts do not matter to the map. -/
theorem Cached.congr (hps : c'.pageSize = c.pageSize) (hnodes : SameNodes c c') :
    Cached c' path pagePath pre page ↔ Cached c path pagePath pre page := by
  have haux : ∀ {a b : RadixKVCache}, b.pageSize = a.pageSize → SameNodes a b →
      Cached a path pagePath pre page → Cached b path pagePath pre page := by
    rintro a b hps hnodes ⟨i, n, m, hi, hcomp, hpage, hpre⟩
    obtain ⟨n', hn', heq⟩ := hnodes.find hi
    obtain ⟨_, _, _, _, hcomp'⟩ := Node.unref_eq heq
    exact ⟨i, n', m, hn', hcomp'.trans hcomp, hpage, by rw [hps]; exact hpre⟩
  exact ⟨haux hps.symm hnodes.symm, haux hps hnodes⟩

end Map

/-! ### Comparing pages -/

section Pages

variable {pageSize : Nat}

theorem commonPages_le : ∀ (whole : Nat) (tokens key : List TokenId),
    commonPages pageSize whole tokens key ≤ whole := by
  intro whole
  induction whole with
  | zero => exact fun _ _ => le_rfl
  | succ whole ih =>
    intro tokens key
    unfold commonPages
    split
    · exact succ_le_succ (ih _ _)
    · exact zero_le _

/-- The common pages are common. -/
theorem take_commonPages : ∀ (whole : Nat) (tokens key : List TokenId),
    tokens.take (commonPages pageSize whole tokens key * pageSize) =
      key.take (commonPages pageSize whole tokens key * pageSize) := by
  intro whole
  induction whole with
  | zero =>
    intro tokens key
    simp [commonPages]
  | succ whole ih =>
    intro tokens key
    unfold commonPages
    split
    · next heq =>
      rw [succ_mul, add_comm, take_add, take_add, heq, ih]
    · simp

/-- The next page is not. -/
theorem take_commonPages_ne : ∀ (whole : Nat) (tokens key : List TokenId),
    commonPages pageSize whole tokens key < whole →
    tokens.take ((commonPages pageSize whole tokens key + 1) * pageSize) ≠
      key.take ((commonPages pageSize whole tokens key + 1) * pageSize) := by
  intro whole
  induction whole with
  | zero =>
    intro tokens key hlt
    exact absurd hlt (not_lt_zero _)
  | succ whole ih =>
    intro tokens key hlt
    unfold commonPages at hlt ⊢
    split
    · next heq =>
      rw [if_pos heq] at hlt
      intro hsame
      refine ih (tokens.drop pageSize) (key.drop pageSize) (lt_of_succ_lt_succ hlt) ?_
      rw [succ_mul, add_comm, take_add, take_add, heq] at hsame
      exact append_cancel_left hsame
    · next hne =>
      rw [zero_add, one_mul]
      exact hne

theorem commonPages_pos {whole : Nat} {tokens key : List TokenId} (hwhole : 0 < whole)
    (hfirst : tokens.take pageSize = key.take pageSize) : 0 < commonPages pageSize whole tokens key := by
  cases whole with
  | zero => exact absurd hwhole (lt_irrefl 0)
  | succ whole =>
    unfold commonPages
    rw [if_pos hfirst]
    exact succ_pos _

end Pages

end Kairyu
