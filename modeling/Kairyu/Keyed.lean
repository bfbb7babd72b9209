/-
  Kairyu/Keyed.lean
  =================
  **Dictionaries of values that know their key** — a small library.

  The dictionary is the list of its values in the order of their keys, so two dictionaries
  with the same values are equal: nothing that is read from them depends on the order in
  which keys were inserted.
-/
import Mathlib

variable {α κ : Type} [LinearOrder κ] {key : α → κ}

/-- A `dict` whose values have their key. -/
structure Keyed (key : α → κ) where
  values : List α
  ordered : values.Pairwise fun a b => key a < key b

namespace Keyed

open List

variable {d d' : Keyed key} {a b : α} {k : κ}

instance : EmptyCollection (Keyed key) := ⟨⟨[], List.Pairwise.nil⟩⟩

/-- `d.get(k)` -/
def find (d : Keyed key) (k : κ) : Option α := d.values.find? fun a => decide (key a = k)

/-- The list with a value put in its place. -/
def put (key : α → κ) (a : α) : List α → List α
  | [] => [a]
  | b :: rest => if key a < key b then a :: b :: rest else if key a = key b then a :: rest else b :: put key a rest

theorem mem_put {list : List α} (hordered : list.Pairwise fun a b => key a < key b) :
    b ∈ put key a list ↔ b = a ∨ b ∈ list ∧ key b ≠ key a := by
  induction list with
  | nil => simp [put]
  | cons c rest ih =>
    obtain ⟨hc, hrest⟩ := pairwise_cons.mp hordered
    rw [put]
    split
    · next hlt =>
      have hne : ∀ x ∈ c :: rest, key x ≠ key a := by
        intro x hx
        rcases mem_cons.mp hx with rfl | hx
        · exact hlt.ne'
        · exact (hlt.trans (hc x hx)).ne'
      rw [mem_cons]
      exact or_congr_right ⟨fun h => ⟨h, hne b h⟩, And.left⟩
    · split
      · next heq =>
        rw [mem_cons, mem_cons]
        refine or_congr_right ⟨fun h => ⟨Or.inr h, heq ▸ (hc b h).ne'⟩, ?_⟩
        rintro ⟨rfl | h, hne⟩
        · exact (hne heq.symm).elim
        · exact h
      · next heq =>
        rw [mem_cons, mem_cons, ih hrest]
        constructor
        · rintro (rfl | rfl | ⟨h, hne⟩)
          · exact Or.inr ⟨Or.inl rfl, fun h => heq h.symm⟩
          · exact Or.inl rfl
          · exact Or.inr ⟨Or.inr h, hne⟩
        · rintro (rfl | ⟨rfl | h, hne⟩)
          · exact Or.inr (Or.inl rfl)
          · exact Or.inl rfl
          · exact Or.inr (Or.inr ⟨h, hne⟩)

theorem ordered_put {list : List α} (hordered : list.Pairwise fun a b => key a < key b) (a : α) :
    (put key a list).Pairwise fun a b => key a < key b := by
  induction list with
  | nil => exact pairwise_singleton _ _
  | cons c rest ih =>
    obtain ⟨hc, hrest⟩ := pairwise_cons.mp hordered
    rw [put]
    split
    · next hlt =>
      refine pairwise_cons.mpr ⟨fun x hx => ?_, hordered⟩
      rcases mem_cons.mp hx with rfl | hx
      · exact hlt
      · exact hlt.trans (hc x hx)
    · next hnot =>
      split
      · next heq => exact pairwise_cons.mpr ⟨fun x hx => heq ▸ hc x hx, hrest⟩
      · next hne =>
        refine pairwise_cons.mpr ⟨fun x hx => ?_, ih hrest⟩
        rcases (mem_put hrest).mp hx with rfl | ⟨hx, _⟩
        · exact lt_of_le_of_ne (not_lt.mp hnot) (Ne.symm hne)
        · exact hc x hx

/-- `d[key(a)] = a` -/
def insert (d : Keyed key) (a : α) : Keyed key := ⟨put key a d.values, ordered_put d.ordered a⟩

/-- `{k: f(v) for k, v in d.items() if …}` with values that keep their key -/
def filterMap (d : Keyed key) (f : α → Option α) (hf : ∀ a b, f a = some b → key b = key a) : Keyed key where
  values := d.values.filterMap f
  ordered := by
    apply d.ordered.filterMap
    intro a a' hlt b hb b' hb'
    rw [hf a b hb, hf a' b' hb']
    exact hlt

/-- `{k: v for k, v in d.items() if p(v)}` -/
def filter (d : Keyed key) (p : α → Bool) : Keyed key := ⟨d.values.filter p, d.ordered.filter p⟩

/-- `{key(v): v for v in list}` -/
def ofList (key : α → κ) (list : List α) : Keyed key := list.foldl insert ∅

/-! ### Reading -/

theorem nodup (d : Keyed key) : (d.values.map key).Nodup :=
  pairwise_map.mpr (d.ordered.imp fun h => h.ne)

theorem eq_of_key (ha : a ∈ d.values) (hb : b ∈ d.values) (h : key a = key b) : a = b :=
  inj_on_of_nodup_map d.nodup ha hb h

theorem find_eq_some : d.find k = some a ↔ a ∈ d.values ∧ key a = k := by
  constructor
  · intro h
    exact ⟨mem_of_find?_eq_some h, of_decide_eq_true (List.find?_some (p := fun a => decide (key a = k)) h)⟩
  · rintro ⟨ha, rfl⟩
    cases hfind : d.find (key a) with
    | none => exact absurd (decide_eq_true rfl) (List.find?_eq_none.mp hfind a ha)
    | some b =>
      have hb := of_decide_eq_true (List.find?_some (p := fun b => decide (key b = key a)) hfind)
      rw [eq_of_key (mem_of_find?_eq_some hfind) ha hb]

theorem find_eq_none : d.find k = none ↔ ∀ a ∈ d.values, key a ≠ k := by
  unfold find
  simp only [List.find?_eq_none, decide_eq_true_eq]

/-- The values determine the dictionary. -/
theorem ext_values (h : ∀ a, a ∈ d.values ↔ a ∈ d'.values) : d = d' := by
  obtain ⟨values, hordered⟩ := d
  obtain ⟨values', hordered'⟩ := d'
  have hnodup : ∀ {list : List α}, list.Pairwise (fun a b => key a < key b) → list.Nodup := fun h =>
    h.imp fun hlt heq => absurd (congrArg key heq) hlt.ne
  have hperm : values.Perm values' := (perm_ext_iff_of_nodup (hnodup hordered) (hnodup hordered')).mpr h
  have heq : values = values' := hperm.eq_of_pairwise (fun a b _ _ hab hba => absurd hba hab.not_gt) hordered hordered'
  subst heq
  rfl

theorem mem_insert : b ∈ (d.insert a).values ↔ b = a ∨ b ∈ d.values ∧ key b ≠ key a := mem_put d.ordered

theorem find_insert (d : Keyed key) (a : α) (k : κ) : (d.insert a).find k = if key a = k then some a else d.find k := by
  split
  · next heq => exact find_eq_some.mpr ⟨mem_insert.mpr (Or.inl rfl), heq⟩
  · next hne =>
    cases hfind : d.find k with
    | some b =>
      obtain ⟨hb, rfl⟩ := find_eq_some.mp hfind
      exact find_eq_some.mpr ⟨mem_insert.mpr (Or.inr ⟨hb, fun h => hne h.symm⟩), rfl⟩
    | none =>
      refine find_eq_none.mpr fun b hb hk => ?_
      rcases mem_insert.mp hb with rfl | ⟨hb, _⟩
      · exact hne hk
      · exact find_eq_none.mp hfind b hb hk

theorem find_filterMap {f : α → Option α} {hf : ∀ a b, f a = some b → key b = key a} (d : Keyed key) (k : κ) :
    (d.filterMap f hf).find k = (d.find k).bind f := by
  cases hfind : d.find k with
  | none =>
    refine find_eq_none.mpr fun b hb hk => ?_
    obtain ⟨a, ha, hab⟩ := mem_filterMap.mp hb
    exact find_eq_none.mp hfind a ha ((hf a b hab).symm.trans hk)
  | some a =>
    obtain ⟨ha, rfl⟩ := find_eq_some.mp hfind
    rw [Option.bind_some]
    cases hfa : f a with
    | some b => exact find_eq_some.mpr ⟨mem_filterMap.mpr ⟨a, ha, hfa⟩, hf a b hfa⟩
    | none =>
      refine find_eq_none.mpr fun b hb hk => ?_
      obtain ⟨a', ha', hab⟩ := mem_filterMap.mp hb
      rw [eq_of_key ha' ha ((hf a' b hab).symm.trans hk), hfa] at hab
      cases hab

/-- A value with a new key makes the dictionary longer by one. -/
theorem length_insert (h : d.find (key a) = none) : (d.insert a).values.length = d.values.length + 1 := by
  have hperm : (d.insert a).values.Perm (a :: d.values) := by
    apply (perm_ext_iff_of_nodup (List.Nodup.of_map _ (d.insert a).nodup) ?_).mpr
    · intro b
      rw [mem_insert, mem_cons]
      exact or_congr_right ⟨And.left, fun hb => ⟨hb, find_eq_none.mp h b hb⟩⟩
    · exact nodup_cons.mpr ⟨fun ha => find_eq_none.mp h a ha rfl, List.Nodup.of_map _ d.nodup⟩
  exact hperm.length_eq

theorem ofList_values (d : Keyed key) : ofList key d.values = d := by
  have hfold : ∀ (list : List α) (seen : Keyed key), (∀ a ∈ seen.values, ∀ b ∈ list, key a ≠ key b) →
      list.Pairwise (fun a b => key a < key b) →
      ∀ b, b ∈ (list.foldl insert seen).values ↔ b ∈ seen.values ∨ b ∈ list := by
    intro list
    induction list with
    | nil => exact fun seen _ _ b => (or_iff_left not_mem_nil).symm
    | cons c rest ih =>
      intro seen hnew hordered b
      obtain ⟨hc, hrest⟩ := pairwise_cons.mp hordered
      rw [foldl_cons, ih (seen.insert c) ?_ hrest, mem_insert, mem_cons]
      · constructor
        · rintro ((rfl | ⟨hb, _⟩) | hb)
          · exact Or.inr (Or.inl rfl)
          · exact Or.inl hb
          · exact Or.inr (Or.inr hb)
        · rintro (hb | rfl | hb)
          · exact Or.inl (Or.inr ⟨hb, hnew b hb c mem_cons_self⟩)
          · exact Or.inl (Or.inl rfl)
          · exact Or.inr hb
      · intro a ha b hb
        rcases mem_insert.mp ha with rfl | ⟨ha, _⟩
        · exact (hc b hb).ne
        · exact hnew a ha b (mem_cons_of_mem _ hb)
  apply ext_values
  intro b
  exact (hfold d.values ∅ (fun _ h => absurd h not_mem_nil) d.ordered b).trans (or_iff_right not_mem_nil)

end Keyed
