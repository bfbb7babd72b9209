/-
  Kairyu/RadixTree.lean
  =====================
  **The shape of the radix tree, and the three edits that change it.**

  The cache's nodes form a tree whose parent and child links agree.  Two ghost
  maps say what it stores: `path i` is the token word from the root to the end of
  node `i`, and `pagePath i` the pages that hold it.  Splitting a node leaves both
  unchanged at every existing node (the lower half keeps its identity and its
  end), so a reference held by an allocation or a pin never changes its meaning.

  Everything is stated over the lookup function of the node dictionary; the three
  edits are the split of a node, a new leaf, and the removal of a leaf.
-/
import Kairyu.RadixKVCache
import Kairyu.PathTree

namespace Kairyu

open Function List AList

/-- The links of the node store form a page-aligned radix tree that spells `path`
    and holds `pagePath`. -/
structure TreeInv (pageSize : Nat) (nodes : NodeId → Option Node) (next : NodeId)
    (path : NodeId → List TokenId) (pagePath : NodeId → List PageId) : Prop where
  page_pos : 0 < pageSize
  root : ∃ r, nodes rootId = some r ∧ r.parent = none ∧ r.key = [] ∧ r.pages = [] ∧
    r.computed = true
  root_path : path rootId = []
  root_pages : pagePath rootId = []
  fresh : ∀ i n, nodes i = some n → i < next
  up : ∀ i n, nodes i = some n → i ≠ rootId → ∃ p pn, n.parent = some p ∧ nodes p = some pn ∧
    pn.children.lookup (n.key.take pageSize) = some i ∧
    path i = path p ++ n.key ∧ pagePath i = pagePath p ++ n.pages
  down : ∀ p pn b i, nodes p = some pn → pn.children.lookup b = some i →
    i ≠ rootId ∧ ∃ n, nodes i = some n ∧ n.parent = some p ∧ n.key.take pageSize = b
  shape : ∀ i n, nodes i = some n → i ≠ rootId →
    n.pages ≠ [] ∧ n.key.length = n.pages.length * pageSize

/-- `m'` is `m` up to its children, refcount and hash columns; marking may happen. -/
structure Node.Alike (m m' : Node) : Prop where
  key : m'.key = m.key
  pages : m'.pages = m.pages
  parent : m'.parent = m.parent
  computed : m.computed = true → m'.computed = true

theorem Node.Alike.refl (m : Node) : m.Alike m := ⟨rfl, rfl, rfl, id⟩

/-- Outside `X` every node keeps its word and, up to links to `X`, its children. -/
structure KeptOutside (X : Set NodeId) (nodes nodes' : NodeId → Option Node) : Prop where
  kept : ∀ j m, nodes j = some m → j ∉ X → ∃ m', nodes' j = some m' ∧ m.Alike m' ∧
    ∀ b k, k ∉ X → (m'.children.lookup b = some k ↔ m.children.lookup b = some k)
  back : ∀ j m', nodes' j = some m' → j ∉ X → ∃ m, nodes j = some m

/-- Outside `X` one node changes, in its links to `X`. -/
theorem KeptOutside.of_one {X : Set NodeId} {nodes nodes' : NodeId → Option Node} {i : NodeId} {n n' : Node}
    (hi : nodes i = some n) (hi' : nodes' i = some n') (hlike : n.Alike n')
    (hlinks : ∀ b k, k ∉ X → (n'.children.lookup b = some k ↔ n.children.lookup b = some k))
    (hother : ∀ j, j ≠ i → j ∉ X → nodes' j = nodes j) : KeptOutside X nodes nodes' where
  kept j m hj hjX := by
    by_cases hji : j = i
    · subst hji
      cases hi.symm.trans hj
      exact ⟨n', hi', hlike, hlinks⟩
    · exact ⟨m, (hother j hji hjX).trans hj, .refl m, fun _ _ _ => Iff.rfl⟩
  back j m' hj hjX := by
    by_cases hji : j = i
    · exact ⟨n, hji ▸ hi⟩
    · exact ⟨m', (hother j hji hjX).symm.trans hj⟩

/-- Node `i` hangs below `p` with label `k`. -/
def TreeEdge (nodes : NodeId → Option Node) (p : NodeId) (k : List TokenId) (i : NodeId) : Prop :=
  ∃ n pn, nodes i = some n ∧ i ≠ rootId ∧ n.parent = some p ∧ n.key = k ∧ nodes p = some pn

namespace TreeInv

variable {pageSize : Nat} {nodes nodes' : NodeId → Option Node} {next next' : NodeId}
  {path path' : NodeId → List TokenId} {pagePath pagePath' : NodeId → List PageId}
  {i p : NodeId} {n pn : Node} (T : TreeInv pageSize nodes next path pagePath)

include T

/-! ### Reading the links -/

section

variable (hi : nodes i = some n) (hroot : i ≠ rootId) (hp : n.parent = some p)
include hi hroot hp

theorem parent_of : ∃ pn, nodes p = some pn ∧
      pn.children.lookup (n.key.take pageSize) = some i ∧
      path i = path p ++ n.key ∧ pagePath i = pagePath p ++ n.pages := by
  obtain ⟨q, qn, hq, hqn, hrest⟩ := T.up i n hi hroot
  rw [hp] at hq
  cases hq
  exact ⟨qn, hqn, hrest⟩

theorem edge_of : TreeEdge nodes p n.key i := by
  obtain ⟨pn, hpn, _⟩ := T.parent_of hi hroot hp
  exact ⟨n, pn, hi, hroot, hp, rfl, hpn⟩

end

theorem page_le_key (hi : nodes i = some n) (hroot : i ≠ rootId) : pageSize ≤ n.key.length := by
  obtain ⟨hpages, hlen⟩ := T.shape i n hi hroot
  rw [hlen]
  exact Nat.le_mul_of_pos_left _ (length_pos_iff.mpr hpages)

/-- The ghost paths make the store a path tree. -/
theorem isPathTree : IsPathTree pageSize (fun i => ∃ n, nodes i = some n) (TreeEdge nodes) rootId path where
  page_pos := T.page_pos
  root_mem := by
    obtain ⟨r, hr, _⟩ := T.root
    exact ⟨r, hr⟩
  root_path := T.root_path
  parent_mem := fun ⟨_, pn, _, _, _, _, hpn⟩ => ⟨pn, hpn⟩
  child_mem := fun ⟨n, _, hi, _⟩ => ⟨n, hi⟩
  has_parent := by
    rintro i ⟨n, hi⟩ hroot
    obtain ⟨p, pn, hp, hpn, _⟩ := T.up i n hi hroot
    exact ⟨p, n.key, n, pn, hi, hroot, hp, rfl, hpn⟩
  edge_path := by
    rintro p k i ⟨n, pn, hi, hroot, hp, rfl, _⟩
    obtain ⟨_, _, _, hpath, _⟩ := T.parent_of hi hroot hp
    exact hpath
  edge_ne_nil := by
    rintro p k i ⟨n, pn, hi, hroot, _, rfl, _⟩
    have hle := T.page_le_key hi hroot
    have hpos := T.page_pos
    exact length_pos_iff.mp (by omega)
  edge_dvd := by
    rintro p k i ⟨n, pn, hi, hroot, _, rfl, _⟩
    rw [(T.shape i n hi hroot).2]
    exact Nat.dvd_mul_left _ _
  edge_unique := by
    rintro p k i k' j ⟨n, pn, hi, hroot, hp, rfl, _⟩ ⟨m, _, hj, hroot', hp', rfl, _⟩ hsame
    obtain ⟨qn, hqn, hlook, _⟩ := T.parent_of hi hroot hp
    obtain ⟨qm, hqm, hlook', _⟩ := T.parent_of hj hroot' hp'
    rw [hqn] at hqm
    cases hqm
    rw [hsame, hlook'] at hlook
    cases hlook
    rfl

section

variable (hi : nodes i = some n) (hroot : i ≠ rootId) (hp : n.parent = some p)
include hi hroot hp

theorem path_lt : (path p).length < (path i).length :=
  T.isPathTree.length_parent_lt (T.edge_of hi hroot hp)

theorem parent_ne : p ≠ i := by
  rintro rfl
  exact absurd (T.path_lt hi hroot hp) (Nat.lt_irrefl _)

end

theorem root_parent (hi : nodes i = some n) (hp : n.parent = some p) : i ≠ rootId := by
  rintro rfl
  obtain ⟨r, hr, hnone, _⟩ := T.root
  rw [hr] at hi
  cases hi
  rw [hnone] at hp
  cases hp

theorem lookup_next : nodes next = none := by
  cases h : nodes next with
  | none => rfl
  | some n => exact absurd (T.fresh next n h) (Nat.lt_irrefl _)

theorem ne_next (hi : nodes i = some n) : i ≠ next := (T.fresh i n hi).ne

theorem root_ne_next : rootId ≠ next := by
  obtain ⟨r, hr, _⟩ := T.root
  exact T.ne_next hr

theorem not_child_next {b : List TokenId} (hpn : nodes p = some pn) : pn.children.lookup b ≠ some next := by
  intro hlook
  obtain ⟨_, n, hn, _⟩ := T.down p pn b next hpn hlook
  exact T.ne_next hn rfl

/-- Induction along the parents. -/
theorem climb {P : NodeId → Prop} (hroot : P rootId)
    (hstep : ∀ {i p n pn}, nodes i = some n → i ≠ rootId → n.parent = some p →
      nodes p = some pn → P p → P i) (hi : nodes i = some n) : P i := by
  refine T.isPathTree.climb hroot ?_ ⟨n, hi⟩
  rintro p i _ ⟨n, pn, hi, hne, hp, _, hpn⟩
  exact hstep hi hne hp hpn

/-- A path has as many pages as whole blocks of tokens. -/
theorem length_path (hi : nodes i = some n) : (path i).length = (pagePath i).length * pageSize := by
  refine T.climb (P := fun i => (path i).length = (pagePath i).length * pageSize) ?_ ?_ hi
  · rw [T.root_path, T.root_pages]
    simp
  · intro i p n pn hi hroot hp _ hparent
    obtain ⟨_, _, _, hpath, hpages⟩ := T.parent_of hi hroot hp
    rw [hpath, hpages, length_append, length_append, hparent, (T.shape i n hi hroot).2, Nat.add_mul]

/-! ### Edits -/

/-- An edit that touches the links of the nodes in `X` only. -/
theorem edit (X : Set NodeId) (hroot : rootId ∉ X) (hle : next ≤ next') (hX : ∀ j ∈ X, j < next')
    (hold : KeptOutside X nodes nodes') (hpaths : ∀ j ∉ X, path' j = path j ∧ pagePath' j = pagePath j)
    (hkept : ∀ q qn b j, nodes q = some qn → q ∈ X → j ∉ X → qn.children.lookup b = some j →
      ∃ qn', nodes' q = some qn' ∧ path' q = path q ∧ pagePath' q = pagePath q ∧ qn'.children.lookup b = some j)
    (hup : ∀ j m', nodes' j = some m' → j ∈ X → (∃ p pn, m'.parent = some p ∧
      nodes' p = some pn ∧ pn.children.lookup (m'.key.take pageSize) = some j ∧
      path' j = path' p ++ m'.key ∧ pagePath' j = pagePath' p ++ m'.pages) ∧
      m'.pages ≠ [] ∧ m'.key.length = m'.pages.length * pageSize)
    (hdown : ∀ q qn' b j, nodes' q = some qn' → qn'.children.lookup b = some j →
      q ∈ X ∨ j ∈ X → j ≠ rootId ∧ ∃ m', nodes' j = some m' ∧ m'.parent = some q ∧ m'.key.take pageSize = b) :
    TreeInv pageSize nodes' next' path' pagePath' := by
  obtain ⟨r, hr, hparent, hkey, hpages, hcomp⟩ := T.root
  obtain ⟨r', hr', hlike, _⟩ := hold.kept _ _ hr hroot
  obtain ⟨hrpath, hrpages⟩ := hpaths _ hroot
  refine ⟨T.page_pos, ?_, hrpath.trans T.root_path, hrpages.trans T.root_pages, ?_, ?_, ?_, ?_⟩
  · exact ⟨r', hr', hlike.parent.trans hparent, hlike.key.trans hkey, hlike.pages.trans hpages, hlike.computed hcomp⟩
  · intro j m' hj
    by_cases hjX : j ∈ X
    · exact hX j hjX
    · obtain ⟨m, hm⟩ := hold.back j m' hj hjX
      exact (T.fresh j m hm).trans_le hle
  · intro j m' hj hjroot
    by_cases hjX : j ∈ X
    · exact (hup j m' hj hjX).1
    obtain ⟨m, hm⟩ := hold.back j m' hj hjX
    obtain ⟨m0, hm0, hlike, _⟩ := hold.kept j m hm hjX
    obtain ⟨hpath, hpg⟩ := hpaths j hjX
    cases hj.symm.trans hm0
    obtain ⟨q, qn, hq, hqn, hlook, hqpath, hqpg⟩ := T.up j m hm hjroot
    have hparent' : ∃ qn', nodes' q = some qn' ∧ path' q = path q ∧ pagePath' q = pagePath q ∧
        qn'.children.lookup (m.key.take pageSize) = some j := by
      by_cases hqX : q ∈ X
      · exact hkept q qn _ j hqn hqX hjX hlook
      · obtain ⟨qn', hqn', _, hch⟩ := hold.kept q qn hqn hqX
        exact ⟨qn', hqn', (hpaths q hqX).1, (hpaths q hqX).2, (hch _ _ hjX).mpr hlook⟩
    obtain ⟨qn', hqn', hp, hpp, hlook'⟩ := hparent'
    refine ⟨q, qn', hlike.parent.trans hq, hqn', ?_, ?_, ?_⟩
    · rw [hlike.key]
      exact hlook'
    · rw [hpath, hp, hlike.key]
      exact hqpath
    · rw [hpg, hpp, hlike.pages]
      exact hqpg
  · intro q qn' b j hq hlook
    by_cases hX' : q ∈ X ∨ j ∈ X
    · exact hdown q qn' b j hq hlook hX'
    obtain ⟨hqX, hjX⟩ := not_or.mp hX'
    obtain ⟨qn, hqn⟩ := hold.back q qn' hq hqX
    obtain ⟨qn0, hqn0, _, hch⟩ := hold.kept q qn hqn hqX
    cases hq.symm.trans hqn0
    obtain ⟨hjroot, m, hm, hpar, hblock⟩ := T.down q qn b j hqn ((hch b j hjX).mp hlook)
    obtain ⟨m', hm', hlike, _⟩ := hold.kept j m hm hjX
    exact ⟨hjroot, m', hm', hlike.parent.trans hpar, by rw [hlike.key]; exact hblock⟩
  · intro j m' hj hjroot
    by_cases hjX : j ∈ X
    · exact (hup j m' hj hjX).2
    obtain ⟨m, hm⟩ := hold.back j m' hj hjX
    obtain ⟨m0, hm0, hlike, _⟩ := hold.kept j m hm hjX
    cases hj.symm.trans hm0
    rw [hlike.key, hlike.pages]
    exact T.shape j m hm hjroot

/-- One node changes outside its links: refcounts, hash columns and the `computed`
    flag are not part of the shape. -/
theorem update_meta {n' : Node} (hi : nodes i = some n) (hlike : n.Alike n') (hchildren : n'.children = n.children) :
    TreeInv pageSize (update nodes i (some n')) next path pagePath := by
  refine T.edit ∅ (Set.notMem_empty _) le_rfl (fun _ h => h.elim) ?_ (fun _ _ => ⟨rfl, rfl⟩)
    (fun _ _ _ _ _ h => h.elim) (fun _ _ _ h => h.elim) (fun _ _ _ _ _ _ h => (h.elim id id).elim)
  exact .of_one hi (update_self ..) hlike (fun _ _ _ => by rw [hchildren]) fun _ hji _ => update_of_ne hji ..

/-- Hang a fresh leaf below `p`. -/
theorem insert_leaf {child : Node} (hpn : nodes p = some pn)
    (hfree : pn.children.lookup (child.key.take pageSize) = none)
    (hparent : child.parent = some p) (hchildren : child.children = ∅)
    (hpages : child.pages ≠ []) (hkey : child.key.length = child.pages.length * pageSize)
    (hnodes : nodes' = update (update nodes p
      (some { pn with children := pn.children.insert (child.key.take pageSize) next })) next (some child)) :
    TreeInv pageSize nodes' (next + 1) (update path next (path p ++ child.key))
      (update pagePath next (pagePath p ++ child.pages)) := by
  have hpnext : p ≠ next := T.ne_next hpn
  have hatp : nodes' p = some { pn with
      children := pn.children.insert (child.key.take pageSize) next } := by
    rw [hnodes, update_of_ne hpnext, update_self]
  have hatnext : nodes' next = some child := by rw [hnodes, update_self]
  have hother : ∀ j, j ≠ p → j ≠ next → nodes' j = nodes j := by
    intro j hjp hjn
    rw [hnodes, update_of_ne hjn, update_of_ne hjp]
  refine T.edit {next} T.root_ne_next (Nat.le_succ _) (fun _ h => h ▸ Nat.lt_succ_self _)
    ?_ (fun _ hjn => ⟨update_of_ne hjn .., update_of_ne hjn ..⟩) ?_ ?_ ?_
  · refine .of_one hpn hatp ⟨rfl, rfl, rfl, id⟩ (fun b k hk => ?_) hother
    rw [lookup_insert_if]
    split
    · next hb =>
      rw [hb, hfree]
      simp [Ne.symm hk]
    · exact Iff.rfl
  · rintro q qn b j hq rfl
    exact absurd rfl (T.ne_next hq)
  · rintro j m' hj rfl
    cases hatnext.symm.trans hj
    refine ⟨⟨p, _, hparent, hatp, lookup_insert pn.children, ?_, ?_⟩, hpages, hkey⟩ <;>
      rw [update_self, update_of_ne hpnext]
  · intro q qn' b j hq hlook hX
    by_cases hqn : q = next
    · subst hqn
      cases hatnext.symm.trans hq
      rw [hchildren] at hlook
      cases hlook
    · obtain rfl : j = next := hX.resolve_left hqn
      refine ⟨T.root_ne_next.symm, child, hatnext, ?_⟩
      by_cases hqp : q = p
      · subst hqp
        cases hatp.symm.trans hq
        rw [lookup_insert_if] at hlook
        split at hlook
        · next hb => exact ⟨hparent, hb.symm⟩
        · exact (T.not_child_next hpn hlook).elim
      · rw [hother q hqp hqn] at hq
        exact (T.not_child_next hq hlook).elim

/-- Unlink a childless node from its parent. -/
theorem remove_leaf (hi : nodes i = some n) (hleaf : n.children.entries = [])
    (hp : n.parent = some p) (hpn : nodes p = some pn) (hnodes : nodes' = update (update nodes p
      (some { pn with children := pn.children.erase (n.key.take pageSize) })) i none) :
    TreeInv pageSize nodes' next path pagePath := by
  have hiroot : i ≠ rootId := T.root_parent hi hp
  have hpi : p ≠ i := T.parent_ne hi hiroot hp
  obtain ⟨pn0, hpn0, hedge, _⟩ := T.parent_of hi hiroot hp
  cases hpn.symm.trans hpn0
  have hatp : nodes' p = some { pn with
      children := pn.children.erase (n.key.take pageSize) } := by
    rw [hnodes, update_of_ne hpi, update_self]
  have hati : nodes' i = none := by rw [hnodes, update_self]
  have hother : ∀ j, j ≠ p → j ≠ i → nodes' j = nodes j := by
    intro j hjp hji
    rw [hnodes, update_of_ne hji, update_of_ne hjp]
  refine T.edit {i} hiroot.symm le_rfl (fun _ h => h ▸ T.fresh i n hi) ?_ (fun _ _ => ⟨rfl, rfl⟩) ?_ ?_ ?_
  · refine .of_one hpn hatp ⟨rfl, rfl, rfl, id⟩ (fun b k hk => ?_) hother
    rw [lookup_erase_if]
    split
    · next hb =>
      rw [hb, hedge]
      simp [Ne.symm hk]
    · exact Iff.rfl
  · rintro q qn b j hq rfl _ hlook
    cases hi.symm.trans hq
    rw [lookup_of_eq_empty hleaf] at hlook
    cases hlook
  · rintro j m' hj rfl
    rw [hati] at hj
    cases hj
  · intro q qn' b j hq hlook hX
    have hqi : q ≠ i := by
      rintro rfl
      rw [hati] at hq
      cases hq
    obtain rfl : j = i := hX.resolve_left hqi
    exfalso
    by_cases hqp : q = p
    · subst hqp
      cases hatp.symm.trans hq
      rw [lookup_erase_if] at hlook
      split at hlook
      · cases hlook
      · next hb =>
        obtain ⟨_, m, hm, _, hblock⟩ := T.down q pn b j hpn hlook
        cases hi.symm.trans hm
        exact hb hblock.symm
    · rw [hother q hqp hqi] at hq
      obtain ⟨_, m, hm, hpar, _⟩ := T.down q qn' b j hq hlook
      cases hi.symm.trans hm
      rw [hp] at hpar
      exact hqp (Option.some.inj hpar).symm

/-- The first `keep` pages of node `i` move to a fresh node above it; `i` keeps
    the rest, its children and its identity. -/
theorem split_node {upper lower : Node} {keep : Nat} (hi : nodes i = some n)
    (hp : n.parent = some p) (hpn : nodes p = some pn) (hkeep : 0 < keep) (hlt : keep < n.pages.length)
    (hukey : upper.key = n.key.take (keep * pageSize)) (hupages : upper.pages = n.pages.take keep)
    (huparent : upper.parent = some p) (huchildren : upper.children =
      (∅ : Dict (List TokenId) NodeId).insert (lower.key.take pageSize) i)
    (hlkey : lower.key = n.key.drop (keep * pageSize)) (hlpages : lower.pages = n.pages.drop keep)
    (hlparent : lower.parent = some next) (hlchildren : lower.children = n.children)
    (hnodes : nodes' = update (update (update nodes p
      (some { pn with children := pn.children.insert (upper.key.take pageSize) next }))
      next (some upper)) i (some lower)) : TreeInv pageSize nodes' (next + 1) (update path next (path p ++ upper.key))
      (update pagePath next (pagePath p ++ upper.pages)) := by
  have hiroot : i ≠ rootId := T.root_parent hi hp
  have hpi : p ≠ i := T.parent_ne hi hiroot hp
  have hpnext : p ≠ next := T.ne_next hpn
  have hinext : i ≠ next := T.ne_next hi
  obtain ⟨_, hlen⟩ := T.shape i n hi hiroot
  have hfirst : upper.key.take pageSize = n.key.take pageSize := by
    rw [hukey, take_take, Nat.min_eq_left (Nat.le_mul_of_pos_left _ hkeep)]
  obtain ⟨pn0, hpn0, hedge, hipath, hipages⟩ := T.parent_of hi hiroot hp
  cases hpn.symm.trans hpn0
  -- the edited store, read at each kind of node
  have hati : nodes' i = some lower := by rw [hnodes, update_self]
  have hatnext : nodes' next = some upper := by
    rw [hnodes, update_of_ne hinext.symm, update_self]
  have hatp : nodes' p = some { pn with
      children := pn.children.insert (upper.key.take pageSize) next } := by
    rw [hnodes, update_of_ne hpi, update_of_ne hpnext, update_self]
  have hother : ∀ j, j ≠ p → j ≠ next → j ≠ i → nodes' j = nodes j := by
    intro j hjp hjn hji
    rw [hnodes, update_of_ne hji, update_of_ne hjn, update_of_ne hjp]
  have hold : KeptOutside {next, i} nodes nodes' := by
    refine .of_one hpn hatp ⟨rfl, rfl, rfl, id⟩ (fun b k hk => ?_)
      fun j hjp hjX => hother j hjp (not_or.mp hjX).1 (not_or.mp hjX).2
    obtain ⟨hkn, hki⟩ := not_or.mp hk
    rw [lookup_insert_if]
    split
    · next hb =>
      rw [hb, hfirst, hedge]
      simp [Ne.symm hkn, Ne.symm hki]
    · exact Iff.rfl
  refine T.edit {next, i} (not_or.mpr ⟨T.root_ne_next, hiroot.symm⟩) (Nat.le_succ _) ?_ hold
    (fun j hjX => ⟨update_of_ne (not_or.mp hjX).1 .., update_of_ne (not_or.mp hjX).1 ..⟩) ?_ ?_ ?_
  · rintro j (rfl | rfl)
    · exact Nat.lt_succ_self _
    · exact Nat.lt_succ_of_lt (T.fresh _ _ hi)
  · rintro q qn b j hq (rfl | rfl) _ hlook
    · exact absurd rfl (T.ne_next hq)
    · cases hi.symm.trans hq
      rw [update_of_ne hinext, update_of_ne hinext]
      exact ⟨lower, hati, rfl, rfl, by rw [hlchildren]; exact hlook⟩
  · rintro j m' hj (rfl | rfl)
    · cases hatnext.symm.trans hj
      refine ⟨⟨p, _, huparent, hatp, lookup_insert pn.children, ?_, ?_⟩, ?_⟩
      · rw [update_self, update_of_ne hpnext]
      · rw [update_self, update_of_ne hpnext]
      · rw [hukey, hupages, length_take, length_take, hlen,
          Nat.min_eq_left (Nat.mul_le_mul_right _ hlt.le), Nat.min_eq_left hlt.le]
        refine ⟨?_, rfl⟩
        rw [← length_pos_iff, length_take]
        omega
    · cases hati.symm.trans hj
      refine ⟨⟨next, upper, hlparent, hatnext, ?_, ?_, ?_⟩, ?_⟩
      · rw [huchildren]
        exact lookup_insert _
      · rw [update_of_ne hinext, update_self, hipath, hukey, hlkey, append_assoc, take_append_drop]
      · rw [update_of_ne hinext, update_self, hipages, hupages, hlpages, append_assoc, take_append_drop]
      · rw [hlkey, hlpages, length_drop, length_drop, hlen, Nat.sub_mul]
        refine ⟨?_, rfl⟩
        rw [← length_pos_iff, length_drop]
        omega
  · intro q qn' b j hq hlook hX
    by_cases hqi : q = i
    · -- a child of the lower half was a child of `i`
      subst hqi
      cases hati.symm.trans hq
      rw [hlchildren] at hlook
      obtain ⟨hroot, m, hm, hpar, hblock⟩ := T.down q n b j hi hlook
      have hjX : j ∉ ({next, q} : Set NodeId) :=
        not_or.mpr ⟨T.ne_next hm, fun h => T.parent_ne hm hroot hpar h.symm⟩
      obtain ⟨m', hm', hlike, _⟩ := hold.kept j m hm hjX
      exact ⟨hroot, m', hm', hlike.parent.trans hpar, by rw [hlike.key]; exact hblock⟩
    by_cases hqn : q = next
    · subst hqn
      cases hatnext.symm.trans hq
      rw [huchildren, lookup_insert_if] at hlook
      split at hlook
      · next hb =>
        cases hlook
        exact ⟨hiroot, lower, hati, hlparent, hb.symm⟩
      · rw [lookup_empty] at hlook
        cases hlook
    by_cases hqp : q = p
    · subst hqp
      cases hatp.symm.trans hq
      rcases of_lookup_insert hlook with ⟨hb, rfl⟩ | ⟨hb, hlook⟩
      · exact ⟨T.root_ne_next.symm, upper, hatnext, huparent, hb.symm⟩
      · obtain ⟨_, m, hm, _, hblock⟩ := T.down q pn b j hpn hlook
        rcases hX.resolve_left (not_or.mpr ⟨hqn, hqi⟩) with rfl | rfl
        · exact absurd rfl (T.ne_next hm)
        · cases hi.symm.trans hm
          exact absurd (hblock.symm.trans hfirst.symm) hb
    · rw [hother q hqp hqn hqi] at hq
      obtain ⟨_, m, hm, hpar, _⟩ := T.down q qn' b j hq hlook
      rcases hX.resolve_left (not_or.mpr ⟨hqn, hqi⟩) with rfl | rfl
      · exact absurd rfl (T.ne_next hm)
      · cases hi.symm.trans hm
        rw [hp] at hpar
        exact absurd (Option.some.inj hpar).symm hqp

end TreeInv

end Kairyu
