/-
  Kairyu/Dict.lean
  ================
  **Finite dictionaries** — a small layer over Mathlib's association lists.

  A `Dict κ α` is an `AList` with a constant value type, so a duplicate key
  cannot be built.  The lookup, insertion and erasure lemmas are Mathlib's; what
  is added here, in the same namespace, is the in-place update `modify` and the additive `total` of a
  dictionary, with the equations that say how `total` moves when one entry is
  inserted, replaced or erased.  Everything is over arbitrary key and value
  types.
-/
import Mathlib.Data.List.AList
import Mathlib.Algebra.BigOperators.Group.List.Basic
import Mathlib.Algebra.Order.Group.Multiset

/-- A finite map from `κ` to `α` with no duplicate key. -/
abbrev Dict (κ : Type*) (α : Type*) : Type _ := AList (fun _ : κ => α)

/-- A point update of a finite map, read backwards. -/
theorem Function.of_update_some {κ α : Type*} [DecidableEq κ] {f : κ → Option α} {k j : κ} {v w : α}
    (h : Function.update f k (some v) j = some w) : j = k ∧ w = v ∨ j ≠ k ∧ f j = some w := by
  rw [Function.update_apply] at h
  split at h
  · next hjk => exact Or.inl ⟨hjk, (Option.some.inj h).symm⟩
  · next hjk => exact Or.inr ⟨hjk, h⟩

namespace AList

open List

variable {κ α : Type*} [DecidableEq κ]

/-! ### Updating one entry in place -/

/-- Apply `f` to the value stored under `k`; nothing happens when `k` is absent. -/
def modify (d : Dict κ α) (k : κ) (f : α → α) : Dict κ α :=
  match d.lookup k with
  | some v => d.insert k (f v)
  | none => d

variable {d : Dict κ α}

theorem modify_of_lookup {k : κ} {v : α} (h : d.lookup k = some v) (f : α → α) : d.modify k f = d.insert k (f v) := by
  simp only [modify, h]

theorem modify_of_lookup_none {k : κ} (h : d.lookup k = none) (f : α → α) : d.modify k f = d := by
  simp only [modify, h]

section

variable (d : Dict κ α)

theorem lookup_insert_if (k j : κ) (v : α) : (d.insert k v).lookup j = if j = k then some v else d.lookup j := by
  by_cases hjk : j = k
  · subst hjk
    rw [if_pos rfl]
    exact AList.lookup_insert d
  · rw [if_neg hjk, AList.lookup_insert_ne hjk]

theorem lookup_erase_if (k j : κ) : (d.erase k).lookup j = if j = k then none else d.lookup j := by
  by_cases hjk : j = k
  · subst hjk
    rw [if_pos rfl, AList.lookup_erase]
  · rw [if_neg hjk, AList.lookup_erase_ne hjk]

/-- An insertion, read as an update of the lookup function. -/
theorem lookup_insert_update (k : κ) (v : α) :
    (fun j => (d.insert k v).lookup j) = Function.update (fun j => d.lookup j) k (some v) := by
  funext j
  rw [lookup_insert_if, Function.update_apply]

theorem lookup_modify (k j : κ) (f : α → α) :
    (d.modify k f).lookup j = if j = k then (d.lookup j).map f else d.lookup j := by
  cases h : d.lookup k with
  | none =>
    rw [modify_of_lookup_none h]
    by_cases hjk : j = k
    · rw [if_pos hjk, hjk, h]; rfl
    · rw [if_neg hjk]
  | some v =>
    rw [modify_of_lookup h, lookup_insert_if]
    by_cases hjk : j = k
    · rw [if_pos hjk, if_pos hjk, hjk, h]; rfl
    · rw [if_neg hjk, if_neg hjk]

theorem lookup_modify_ne {k j : κ} (hjk : j ≠ k) (f : α → α) : (d.modify k f).lookup j = d.lookup j := by
  rw [lookup_modify, if_neg hjk]

end

theorem of_lookup_insert {k j : κ} {v w : α} (h : (d.insert k v).lookup j = some w) :
    j = k ∧ w = v ∨ j ≠ k ∧ d.lookup j = some w :=
  Function.of_update_some ((congrFun (lookup_insert_update d k v) j).symm.trans h)

theorem mem_iff_lookup {k : κ} : k ∈ d ↔ ∃ v, d.lookup k = some v := by
  rw [← AList.lookup_isSome, Option.isSome_iff_exists]

theorem mem_entries_iff {k : κ} {v : α} : (⟨k, v⟩ : (_ : κ) × α) ∈ d.entries ↔ d.lookup k = some v :=
  AList.mem_lookup_iff.symm

theorem lookup_of_eq_empty (h : d.entries = []) (k : κ) : d.lookup k = none := by
  have hd : d = ∅ := AList.ext h
  rw [hd]; exact AList.lookup_empty k

/-! ### Totals -/

section Total

variable {M : Type*} [AddCommMonoid M]

/-- The sum of `f` over the stored values. -/
def total {κ α M : Type*} [AddCommMonoid M] (d : Dict κ α) (f : α → M) : M := (d.entries.map fun e => f e.2).sum

omit [DecidableEq κ] in
variable {d : Dict κ α}

theorem perm_kerase_of_lookup {k : κ} {v : α} (h : d.lookup k = some v) :
    d.entries.Perm (⟨k, v⟩ :: (d.erase k).entries) := by
  have hmem : (⟨k, v⟩ : (_ : κ) × α) ∈ d.entries := mem_entries_iff.mpr h
  have hkeys : k ∈ d.entries.keys := mem_keys_of_mem hmem
  obtain ⟨b, l1, l2, hk, hl, hker⟩ := exists_of_kerase hkeys
  have hb : b = v := by
    have hmem' : (⟨k, b⟩ : (_ : κ) × α) ∈ d.entries := by rw [hl]; simp
    exact d.nodupKeys.eq_of_mk_mem hmem' hmem
  change d.entries.Perm (⟨k, v⟩ :: List.kerase k d.entries)
  rw [hker, hl, hb]
  exact perm_middle

theorem total_eq_of_lookup {k : κ} {v : α} (h : d.lookup k = some v) (f : α → M) :
    d.total f = f v + (d.erase k).total f := by
  have hp := (perm_kerase_of_lookup h).map (fun e => f e.2)
  simpa [total] using hp.sum_eq

theorem total_insert (d : Dict κ α) (k : κ) (v : α) (f : α → M) :
    (d.insert k v).total f = f v + (d.erase k).total f := by
  unfold total
  rw [AList.entries_insert]
  rfl

theorem erase_of_lookup_none {k : κ} (h : d.lookup k = none) : d.erase k = d := by
  apply AList.ext
  exact kerase_of_notMem_keys (AList.lookup_eq_none.mp h)

theorem total_insert_new {k : κ} (h : d.lookup k = none) (v : α) (f : α → M) :
    (d.insert k v).total f = f v + d.total f := by
  rw [total_insert, erase_of_lookup_none h]

/-- Replacing a value by one of the same weight leaves the total unchanged. -/
theorem total_modify {k : κ} (g : α → α) (f : α → M) (hf : ∀ v, d.lookup k = some v → f (g v) = f v) :
    (d.modify k g).total f = d.total f := by
  cases h : d.lookup k with
  | none => rw [modify_of_lookup_none h]
  | some v => rw [modify_of_lookup h, total_insert, total_eq_of_lookup h, hf v h]

end Total

theorem length_erase_of_lookup {d : Dict κ α} {k : κ} {v : α} (h : d.lookup k = some v) :
    (d.erase k).entries.length + 1 = d.entries.length := by
  have hp := (perm_kerase_of_lookup h).length_eq
  simpa using hp.symm

theorem length_modify (d : Dict κ α) (k : κ) (f : α → α) : (d.modify k f).entries.length = d.entries.length := by
  cases h : d.lookup k with
  | none => rw [modify_of_lookup_none h]
  | some v =>
    rw [modify_of_lookup h]
    exact length_erase_of_lookup h

theorem mem_total {β : Type*} {d : Dict κ α} {f : α → Multiset β} {x : β} :
    x ∈ d.total f ↔ ∃ k v, d.lookup k = some v ∧ x ∈ f v := by
  have hlist : ∀ l : List ((_ : κ) × α),
      x ∈ (l.map fun e => f e.2).sum ↔ ∃ e ∈ l, x ∈ f e.2 := by
    intro l
    induction l with
    | nil => simp
    | cons e l ih => simp [ih]
  unfold total
  rw [hlist]
  constructor
  · rintro ⟨e, he, hx⟩
    exact ⟨e.1, e.2, mem_entries_iff.mp he, hx⟩
  · rintro ⟨k, v, hk, hx⟩
    exact ⟨⟨k, v⟩, mem_entries_iff.mpr hk, hx⟩

end AList
