/-
  Kairyu/RadixRoom.lean
  =====================
  **What can be evicted, and what is not yet shared.**

  The eviction index offers a victim exactly while some node is unlocked, and KV that is not
  written yet belongs to one live allocation.
-/
import Kairyu.RadixMap
import Mathlib

namespace Kairyu

open RadixKVCache Multiset

variable {numPages pageSize : Nat} {chain : Option (List TokenId → BlockHash)} {s : Ledger} {i : NodeId} {n : Node}

/-- Without a leaf to evict every node is locked: the deepest unlocked node would be such a leaf. -/
theorem CoreInv.locked {c : RadixKVCache} {holders : Multiset NodeId} {owned : Multiset PageId}
    {path : NodeId → List TokenId} {pagePath : NodeId → List PageId} (h : CoreInv c holders owned path pagePath)
    (hnone : ∀ i, c.isEvictable i = false) (hi : c.find i = some n) (hroot : i ≠ rootId) : 0 < n.refCount := by
  by_contra hzero
  let unlocked : Set NodeId := {j | j ≠ rootId ∧ ∃ m, c.find j = some m ∧ m.refCount = 0}
  have hfinite : unlocked.Finite := by
    refine (List.finite_toSet c.nodes.keys).subset ?_
    rintro j ⟨_, m, hm, _⟩
    exact AList.mem_keys.mp (AList.lookup_isSome.mp (Option.isSome_of_eq_some hm))
  obtain ⟨j, ⟨hj, m, hm, hfree⟩, hdeepest⟩ :=
    Set.exists_max_image unlocked (fun j => (path j).length) hfinite ⟨i, hroot, n, hi, by omega⟩
  cases hlinks : m.children.entries with
  | nil => exact absurd (isEvictable_iff.mpr ⟨hj, m, hm, hlinks, hfree⟩) (by simp [hnone])
  | cons link links =>
    have hlink : _ = some link.2 := AList.mem_entries_iff.mp (hlinks ▸ List.mem_cons_self)
    obtain ⟨hk, child, hchild, hparent, _⟩ := h.tree.down j m _ _ hm hlink
    obtain ⟨_, _, _, hpath, _⟩ := h.tree.parent_of hchild hk hparent
    have hbelow : child.refCount = 0 := by
      rw [h.refs j m hm hj, countP_eq_zero] at hfree
      rw [h.refs _ child hchild hk, countP_eq_zero, hpath]
      exact fun x hx hpre => hfree x hx ((List.prefix_append _ _).trans hpre)
    have hdeep := hdeepest link.2 ⟨hk, child, hchild, hbelow⟩
    have hkey := h.tree.page_le_key hchild hk
    have hpos := h.tree.page_pos
    simp only [hpath, List.length_append] at hdeep
    omega

end Kairyu
