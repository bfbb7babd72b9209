/-
  Kairyu/KvTierSpecs.lean
  =======================
  **What each operation of the KV tier does to custody.**

  Every operation keeps `Custody`, whether it returns or raises.  A begin call adds the
  holds and the claim of its transfer (`Begun`); the end of a transfer takes them away; a
  finalization that raises leaves its transfer `Unfinished`, which its handler settles.
-/
import Kairyu.KvCustody

namespace Kairyu

open Effect

namespace KvTier

open Effect List

variable {base t₀ : KvTier} {holds : List Hold} {claims : List Claim}

/-! ### Requests are checked before anything changes -/

/-- A refusal that leaves both sides of the request to its owner. -/
def Harmless (e : TierFailure) : Prop := e.sourceReusable = true ∧ e.destinationReusable = true

theorem refused_harmless (kind : TierErrorClass) (message : String) : Harmless (TierError.refused kind message) :=
  ⟨rfl, rfl⟩

/-- The keys of a request: some, distinct, and digests. -/
def ValidKeys (keys : List TierKey) : Prop := keys ≠ [] ∧ keys.Nodup ∧ ∀ key ∈ keys, fullSha256 key = true

/-- The device pages of a request: one for each key, distinct, and pages of the pool. -/
def ValidPages (t : KvTier) (pages : List Nat) (count : Nat) : Prop :=
  pages.length = count ∧ pages.Nodup ∧ ∀ page ∈ pages, page < t.numPages

theorem checkKeys_spec (t : KvTier) (keys : List TierKey) :
    Checks t (checkKeys keys) (fun _ => ValidKeys keys) (fun e => Harmless e ∧ ¬ ValidKeys keys) := by
  apply checks_ite
  · exact fun hempty => checks_raise ⟨refused_harmless _ _, fun hvalid => hvalid.1 hempty⟩
  intro hsome
  apply checks_ite
  · exact fun hdup => checks_raise ⟨refused_harmless _ _, fun hvalid => hdup hvalid.2.1⟩
  intro hnodup
  split
  · next key hkey =>
    have hbad := List.find?_some hkey
    apply checks_raise
    refine ⟨refused_harmless _ _, fun hvalid => ?_⟩
    simp [hvalid.2.2 key (mem_of_find?_eq_some hkey)] at hbad
  · next hgood =>
    apply checks_pure
    refine ⟨hsome, not_not.mp hnodup, fun key hkey => ?_⟩
    simpa using List.find?_eq_none.mp hgood key hkey

variable {keys : List TierKey} {t : KvTier} {e : EntryId} {pages : List Nat}

/-- Digests can only be refused as duplicates. -/
theorem checkKeys_digests (t : KvTier) (hsome : keys ≠ []) (hdigests : ∀ key ∈ keys, fullSha256 key = true) :
    Checks t (checkKeys keys) (fun _ => ValidKeys keys) (fun e => e = duplicateKeys) := by
  unfold checkKeys
  rw [if_neg hsome]
  apply checks_ite
  · exact fun _ => checks_raise rfl
  intro hnodup
  have hgood : keys.find? (fun key => !fullSha256 key) = none := by
    rw [List.find?_eq_none]
    intro key hkey
    simp [hdigests key hkey]
  rw [hgood]
  exact checks_pure ⟨hsome, not_not.mp hnodup, hdigests⟩

theorem checkPageIds_spec (t : KvTier) (pages : List Nat) (count : Nat) :
    Checks t (checkPageIds pages count) (fun _ => t.ValidPages pages count)
      (fun e => Harmless e ∧ ¬ t.ValidPages pages count) := by
  apply checks_get_bind
  apply checks_ite
  · exact fun hlength => checks_raise ⟨refused_harmless _ _, fun hvalid => hlength hvalid.1⟩
  intro hlength
  apply checks_ite
  · exact fun hdup => checks_raise ⟨refused_harmless _ _, fun hvalid => hdup hvalid.2.1⟩
  intro hnodup
  split
  · next page hpage =>
    have hbad := List.find?_some hpage
    apply checks_raise
    refine ⟨refused_harmless _ _, fun hvalid => ?_⟩
    have hbound := hvalid.2.2 page (mem_of_find?_eq_some hpage)
    simp only [decide_eq_true_eq] at hbad
    omega
  · next hgood =>
    apply checks_pure
    refine ⟨not_not.mp hlength, not_not.mp hnodup, fun page hpage => ?_⟩
    simpa using List.find?_eq_none.mp hgood page hpage

/-- Some copy of the key has not been settled. -/
def KeyRetained (t : KvTier) (key : TierKey) : Prop := key ∈ t.inFlight ∨ key ∈ t.quarantinedKeys

theorem checkOffload_spec (t : KvTier) (key : TierKey) : Checks t (checkOffload key) (fun _ => ¬ t.KeyRetained key)
      (fun e => (e.sourceReusable = false ∧ t.KeyRetained key) ∨
        (e.sourceReusable = true ∧ ∃ old, t.published.lookup key = some old ∧ (t.heap old).state ≠ .resident)) := by
  apply checks_get_bind
  apply checks_ite
  · exact fun hretained => checks_raise (Or.inl ⟨rfl, hretained⟩)
  intro hfree
  split
  · next old hpub =>
    apply checks_ite
    · exact fun hstate => checks_raise (Or.inr ⟨rfl, old, hpub, hstate⟩)
    · exact fun _ => checks_pure hfree
  · exact checks_pure hfree

/-- Nobody has the pages. -/
def Unclaimed (t : KvTier) (pages : List Nat) : Prop :=
  ∀ page ∈ pages, t.pageOwners.lookup page = none ∧ page ∉ t.quarantinedPages

theorem validateDevicePagesAvailable_spec (t : KvTier) (pages : List Nat) (direction : TransferDirection) :
    Checks t (validateDevicePagesAvailable pages direction) (fun _ => t.Unclaimed pages)
      (fun _ => ¬ t.Unclaimed pages) := by
  have hiff : (pages.filter fun page => (t.pageOwners.lookup page).isSome ∨ page ∈ t.quarantinedPages) = [] ↔
      t.Unclaimed pages := by
    unfold Unclaimed
    simp
  apply checks_get_bind
  apply checks_ite
  · exact fun hnone => checks_pure (hiff.mp hnone)
  · exact fun hsome => checks_raise fun hfree => hsome (hiff.mpr hfree)

theorem validateFingerprint_spec (t : KvTier) (expected : Option String) :
    Checks t (validateFingerprint expected) (fun _ => True) Harmless := by
  apply checks_get_bind
  split
  · exact checks_pure trivial
  · apply checks_ite
    · exact fun _ => checks_raise (refused_harmless _ _)
    · exact fun _ => checks_pure trivial

/-! ### Evicting and reserving -/

/-- What an eviction leaves alone: the wanted keys, the quarantine and the device pages. -/
structure Spares (t₀ : KvTier) (keys : List TierKey) (t : KvTier) : Prop where
  published : ∀ key ∈ keys, t.published.lookup key = t₀.published.lookup key
  quarantinedKeys : t.quarantinedKeys = t₀.quarantinedKeys
  pageOwners : t.pageOwners = t₀.pageOwners
  quarantinedPages : t.quarantinedPages = t₀.quarantinedPages

/-- Published entries that no transfer holds and no wanted key shows. -/
structure Droppable (holds : List Hold) (keys : List TierKey) (t : KvTier) (victims : List EntryId) : Prop where
  nodup : victims.Nodup
  published : ∀ e ∈ victims, t.published.lookup (t.heap e).key = some e
  unheld : ∀ e ∈ victims, ∀ h ∈ holds, h.key ≠ (t.heap e).key
  unwanted : ∀ e ∈ victims, (t.heap e).key ∉ keys

theorem release_of_current (hcurrent : t.current e) : release e t = (.ok (), t.vacate e) := by
  show (if t.current e then modify (·.vacate e) else _ : Op Unit) t = _
  rw [if_pos hcurrent]
  rfl

theorem drop_of_current (hcurrent : t.current e) : drop e t = (.ok (), (t.unpublish (t.heap e).key).vacate e) :=
  release_of_current hcurrent

theorem Droppable.after {victims : List EntryId} (hd : Droppable holds keys t (e :: victims)) :
    Droppable holds keys ((t.unpublish (t.heap e).key).vacate e) victims := by
  constructor
  · exact (nodup_cons.mp hd.nodup).2
  · intro e' he'
    have hne : (t.heap e').key ≠ (t.heap e).key := by
      intro hkey
      have hfirst := hd.published e mem_cons_self
      have hsecond := hd.published e' (mem_cons_of_mem _ he')
      rw [hkey, hfirst] at hsecond
      exact (nodup_cons.mp hd.nodup).1 (Option.some.inj hsecond ▸ he')
    exact (AList.lookup_erase_ne hne).trans (hd.published e' (mem_cons_of_mem _ he'))
  · exact fun e' he' => hd.unheld e' (mem_cons_of_mem _ he')
  · exact fun e' he' => hd.unwanted e' (mem_cons_of_mem _ he')

/-- Dropping a list of entries frees as many slots. -/
theorem drops_spec (base t₀ : KvTier) (holds : List Hold) (claims : List Claim) (keys : List TierKey)
    (victims : List EntryId) (count : Nat) :
    Triple (fun t => Custody base t [] holds claims ∧ Droppable holds keys t victims ∧ Spares t₀ keys t ∧
        t.freeSlots.length + victims.length = count) (each drop victims)
      (fun _ t => Custody base t [] holds claims ∧ Spares t₀ keys t ∧ t.freeSlots.length = count) (fun _ _ => False) := by
  have hloop := triple_each (f := drop) (E := fun _ _ => False)
    (I := fun victims t => Custody base t [] holds claims ∧ Droppable holds keys t victims ∧ Spares t₀ keys t ∧
      t.freeSlots.length + victims.length = count) ?_ victims
  · refine triple_mono hloop ?_ (fun _ _ h => h)
    rintro _ t ⟨hc, _, hs, hlength⟩
    exact ⟨hc, hs, hlength⟩
  · intro e rest
    apply triple_of_eq
    · rintro t ⟨hc, hd, _⟩
      exact drop_of_current (hc.published _ _ (hd.published e mem_cons_self)).2.1
    · rintro t ⟨hc, hd, hs, hlength⟩
      refine ⟨hc.drop (hd.published e mem_cons_self) (hd.unheld e mem_cons_self), hd.after, ?_, ?_⟩
      · refine { hs with published := ?_ }
        intro key hkey
        have hne : key ≠ (t.heap e).key := by
          rintro rfl
          exact hd.unwanted e mem_cons_self hkey
        exact (AList.lookup_erase_ne hne).trans (hs.published key hkey)
      · simp only [unpublish, vacate, length_append, length_cons, length_nil] at *
        omega

theorem mem_victims (he : e ∈ t.victims keys) :
    ∃ key, t.published.lookup key = some e ∧ key ∉ keys ∧ key ∉ t.inFlight := by
  unfold victims at he
  rw [mem_insertionSort] at he
  obtain ⟨item, hitem, rfl⟩ := mem_map.mp he
  obtain ⟨hmem, hsafe⟩ := mem_filter.mp hitem
  simp only [decide_eq_true_eq] at hsafe
  exact ⟨item.1, AList.mem_lookup_iff.mpr hmem, hsafe.1, hsafe.2.1⟩

theorem victims_nodup (hc : Custody base t₀ [] holds claims) (keys : List TierKey) : (t₀.victims keys).Nodup := by
  unfold victims
  rw [(perm_insertionSort _ _).nodup_iff]
  apply List.Nodup.map_on
  · intro a ha b hb hsame
    have ha' := hc.published a.1 a.2 (AList.mem_lookup_iff.mpr (mem_of_mem_filter ha))
    have hb' := hc.published b.1 b.2 (AList.mem_lookup_iff.mpr (mem_of_mem_filter hb))
    have hkey : a.1 = b.1 := by
      rw [← ha'.1, ← hb'.1, hsame]
    exact Sigma.ext hkey (heq_of_eq hsame)
  · exact (t₀.published.nodupKeys.nodup).filter _

/-- Safe victims can be dropped. -/
theorem victims_droppable (hc : Custody base t₀ [] holds claims) (hphase : ∀ h ∈ holds, h.phase ≠ .reserved)
    (keys : List TierKey) : Droppable holds keys t₀ (t₀.victims keys) := by
  constructor
  · exact victims_nodup hc keys
  · intro e he
    obtain ⟨key, hpub, _⟩ := mem_victims he
    rw [(hc.published key e hpub).1]
    exact hpub
  · intro e he h hh heq
    obtain ⟨key, hpub, _, hflight⟩ := mem_victims he
    rw [(hc.published key e hpub).1] at heq
    exact hflight (heq ▸ (hc.granted h hh).inFlight (hphase h hh))
  · intro e he
    obtain ⟨key, hpub, hwanted, _⟩ := mem_victims he
    rwa [(hc.published key e hpub).1]

theorem Droppable.sublist {es es' : List EntryId} (hd : Droppable holds keys t es) (hsub : es'.Sublist es) :
    Droppable holds keys t es' := by
  constructor
  · exact hd.nodup.sublist hsub
  · exact fun e he => hd.published e (hsub.subset he)
  · exact fun e he => hd.unheld e (hsub.subset he)
  · exact fun e he => hd.unwanted e (hsub.subset he)

/-- An eviction makes room, or raises and changes nothing. -/
theorem evictLruFor_spec (hc : Custody base t₀ [] holds claims) (hphase : ∀ h ∈ holds, h.phase ≠ .reserved)
    (count : Nat) (keys : List TierKey) : Triple (· = t₀) (evictLruFor count keys)
      (fun _ t => Custody base t [] holds claims ∧ Spares t₀ keys t ∧ count ≤ t.freeSlots.length)
      (fun e t => t = t₀ ∧ Harmless e) := by
  have hself : Spares t₀ keys t₀ := ⟨fun _ _ => rfl, rfl, rfl, rfl⟩
  apply triple_get_bind
  rintro t rfl
  apply triple_ite
  · intro hroom
    apply triple_pure
    rintro t rfl
    exact ⟨hc, hself, Nat.le_of_sub_eq_zero hroom⟩
  intro _
  apply triple_ite
  · exact fun _ => triple_raise fun _ h => ⟨h, refused_harmless _ _⟩
  intro henough
  have hdrops := drops_spec base t holds claims keys ((t.victims keys).take (count - t.freeSlots.length))
    (t.freeSlots.length + (count - t.freeSlots.length))
  refine triple_weaken hdrops ?_ ?_ (fun _ _ h => h.elim)
  · rintro t rfl
    refine ⟨hc, (victims_droppable hc hphase keys).sublist (take_sublist _ _), hself, ?_⟩
    rw [length_take]
    omega
  · rintro _ t' ⟨hc', hs, hlength⟩
    exact ⟨hc', hs, by omega⟩

/-- The holds of a list of pages. -/
def heldAs (phase : PageState) (items : List (TierKey × EntryId × Option EntryId)) : List Hold :=
  items.map fun item => ⟨item.2.1, item.1, item.2.2, phase⟩

theorem foldl_place_rest (t : KvTier) (items : List (TierKey × Nat)) :
    let t' := items.foldl (fun t item => t.place item.1 item.2) t
    t'.published = t.published ∧ t'.quarantinedKeys = t.quarantinedKeys ∧ t'.pageOwners = t.pageOwners ∧
      t'.quarantinedPages = t.quarantinedPages ∧ t'.nextOwner = t.nextOwner := by
  induction items generalizing t with
  | nil => exact ⟨rfl, rfl, rfl, rfl, rfl⟩
  | cons item items ih => exact ih (t.place item.1 item.2)

/-- New entries in all the spare slots. -/
theorem Custody.places {slots : List Nat} (hlength : keys.length = slots.length)
    (hc : Custody base t slots holds claims) (hnodup : keys.Nodup) (hnew : ∀ key ∈ keys, ∀ h ∈ holds, h.key ≠ key)
    (hquar : ∀ key ∈ keys, key ∉ t.quarantinedKeys) :
    Custody base ((keys.zip slots).foldl (fun t item => t.place item.1 item.2) t) []
      (heldAs .reserved (keys.zip ((List.range' t.nextEntry keys.length).zip (keys.map (t.published.lookup ·)))) ++ holds)
      claims := by
  induction keys generalizing t slots holds with
  | nil =>
    obtain rfl : slots = [] := length_eq_zero_iff.mp hlength.symm
    exact hc
  | cons key keys ih =>
    obtain ⟨slot, slots, rfl⟩ : ∃ slot rest, slots = slot :: rest := exists_cons_of_length_eq_add_one hlength.symm
    obtain ⟨hkey, hnodup⟩ := nodup_cons.mp hnodup
    have hfirst := hc.place (hnew key mem_cons_self) (hquar key mem_cons_self)
    have hrest := ih (Nat.succ.inj hlength) hfirst hnodup ?_ ?_
    · apply hrest.perm
      exact perm_middle
    · intro key' hkey' h hh
      rcases mem_cons.mp hh with rfl | hh
      · rintro rfl
        exact hkey hkey'
      · exact hnew key' (mem_cons_of_mem _ hkey') h hh
    · exact fun key' hkey' => hquar key' (mem_cons_of_mem _ hkey')

/-- Copies of all the reserved pages start. -/
theorem Custody.launches {items : List (TierKey × EntryId × Option EntryId)}
    (hc : Custody base t [] (heldAs .reserved items ++ holds) claims) :
    Custody base (items.foldl (fun t item => t.launch item.1 item.2.1 item.2.2) t) []
      (heldAs .offloading items ++ holds) claims := by
  induction items generalizing t holds with
  | nil => exact hc
  | cons item items ih =>
    obtain ⟨key, e, old⟩ := item
    have hfirst : Custody base (t.launch key e old) [] _ claims := Custody.launch hc
    have hrest := ih (hfirst.perm perm_middle.symm)
    exact hrest.perm perm_middle

/-- The pages are as they were. -/
def SamePages (t₀ t : KvTier) : Prop :=
  t.pageOwners = t₀.pageOwners ∧ t.quarantinedPages = t₀.quarantinedPages

theorem Unclaimed.of_same {t t₀ : KvTier} (hu : t₀.Unclaimed pages) (hsame : SamePages t₀ t) : t.Unclaimed pages := by
  unfold Unclaimed
  rw [hsame.1, hsame.2]
  exact hu

/-- A reservation holds one slot for each key, or changes nothing. -/
theorem reserve_spec (hc : Custody base t₀ [] holds claims) (hphase : ∀ h ∈ holds, h.phase ≠ .reserved)
    (hnodup : keys.Nodup) (hfree : ∀ key ∈ keys, ¬ t₀.KeyRetained key) : Triple (· = t₀) (reserve keys)
      (fun entries t => entries.length = keys.length ∧ SamePages t₀ t ∧
        Custody base t [] (heldAs .reserved (keys.zip (entries.zip (keys.map (t₀.published.lookup ·)))) ++ holds) claims)
      (fun e t => t = t₀ ∧ Harmless e) := by
  apply triple_bind (evictLruFor_spec hc hphase keys.length keys)
  intro _
  apply triple_get_bind
  rintro t ⟨hc', hs, hroom⟩
  apply triple_ite
  · intro hshort
    exact absurd hroom (Nat.not_le_of_lt hshort)
  intro _
  -- The popped slots, in ascending order, are spare until they are filled.
  have hslots := perm_insertionSort (· ≤ ·) (t.freeSlots.drop (t.freeSlots.length - keys.length))
  have hlength : keys.length = ((t.freeSlots.drop (t.freeSlots.length - keys.length)).insertionSort (· ≤ ·)).length := by
    rw [hslots.length_eq, length_drop]
    omega
  have hnew : ∀ key ∈ keys, ∀ h ∈ holds, h.key ≠ key := by
    rintro key hkey h hh rfl
    exact hfree h.key hkey (Or.inl ((hc.granted h hh).inFlight (hphase h hh)))
  have hquar : ∀ key ∈ keys, key ∉ t.quarantinedKeys := by
    intro key hkey
    rw [hs.quarantinedKeys]
    exact fun hmem => hfree key hkey (Or.inr hmem)
  have hplaced := (hc'.pop hslots).places hlength hnodup hnew hquar
  have hrest := foldl_place_rest { t with freeSlots := t.freeSlots.take (t.freeSlots.length - keys.length) }
    (keys.zip ((t.freeSlots.drop (t.freeSlots.length - keys.length)).insertionSort (· ≤ ·)))
  have hshown : keys.map (t.published.lookup ·) = keys.map (t₀.published.lookup ·) :=
    map_congr_left hs.published
  apply triple_modify_bind
  apply triple_bind (Q := fun _ t' => SamePages t₀ t' ∧ Custody base t' [] (heldAs .reserved
    (keys.zip ((List.range' t.nextEntry keys.length).zip (keys.map (t₀.published.lookup ·)))) ++ holds) claims)
  · apply triple_each_modify
    rintro _ rfl
    refine ⟨⟨hrest.2.2.1.trans hs.pageOwners, hrest.2.2.2.1.trans hs.quarantinedPages⟩, ?_⟩
    rw [← hshown]
    exact hplaced
  · intro _
    apply triple_pure
    intro t' h
    exact ⟨length_range', h⟩

/-- While pages are claimed: those left are unclaimed, the others are the owner's. -/
def Claiming (base : KvTier) (holds : List Hold) (claims : List Claim) (owner : Nat) (pages rest : List Nat)
    (t : KvTier) : Prop :=
  ∃ done, pages = done ++ rest ∧ t.Unclaimed rest ∧ Custody base t [] holds (⟨owner, done⟩ :: claims)

theorem claimPage_spec {owner : Nat} (hnodup : pages.Nodup) (page : Nat) (rest : List Nat) :
    Triple (Claiming base holds claims owner pages (page :: rest)) (claimPage owner page)
      (fun _ => Claiming base holds claims owner pages rest) (fun _ _ => False) := by
  apply triple_get_bind
  rintro t ⟨done, rfl, hfree, hc⟩
  obtain ⟨hunowned, husable⟩ := hfree page mem_cons_self
  apply triple_ite
  · intro htaken
    simp [hunowned, husable] at htaken
  intro _
  apply triple_modify
  rintro _ rfl
  refine ⟨done ++ [page], by simp, ?_, hc.claimPage hunowned husable⟩
  intro page' hpage'
  obtain ⟨hunowned', husable'⟩ := hfree page' (mem_cons_of_mem _ hpage')
  have hne : page' ≠ page := by
    rintro rfl
    exact (nodup_cons.mp (nodup_append.mp hnodup).2.1).1 hpage'
  exact ⟨(AList.lookup_insert_ne hne).trans hunowned', husable'⟩

/-- Pages that were found unclaimed are claimed. -/
theorem reserveDevicePages_spec {held : List Hold} (hc : Custody base t₀ [] held claims) (hfree : t₀.Unclaimed pages)
    (hnodup : pages.Nodup) :
    Triple (· = t₀) (reserveDevicePages pages) (fun owner t => Custody base t [] held (⟨owner, pages⟩ :: claims))
      (fun _ _ => False) := by
  apply triple_get_bind
  rintro t rfl
  apply triple_modify_bind
  have hloop := triple_each (I := Claiming base held claims t.nextOwner pages) (claimPage_spec hnodup) pages
  refine triple_bind (triple_weaken hloop ?_ ?_ fun _ _ h => h) ?_ (Q := fun _ t' =>
    Custody base t' [] held (⟨t.nextOwner, pages⟩ :: claims))
  · rintro _ rfl
    exact ⟨[], rfl, hfree, hc.newOwner⟩
  · rintro _ t' ⟨done, hdone, _, hc'⟩
    rwa [hdone, append_nil]
  · exact fun _ => triple_pure fun _ h => h

end KvTier

/-! ### What an active transfer holds -/

namespace TierTransfer

/-- The state of a page during a transfer. -/
def phase (x : TierTransfer) : PageState :=
  match x.direction with
  | .offload => .offloading
  | .restore => .restoring

def items (x : TierTransfer) : List (TierKey × EntryId × Option EntryId) := x.keys.zip (x.entries.zip x.previous)

def holds (x : TierTransfer) : List Hold := if x.terminal = .active then KvTier.heldAs x.phase x.items else []

def claims (x : TierTransfer) : List Claim := if x.terminal = .active then [⟨x.owner, x.pageIds⟩] else []

theorem holds_active {x : TierTransfer} (h : x.terminal = .active) :
    x.holds = KvTier.heldAs x.phase (x.keys.zip (x.entries.zip x.previous)) := if_pos h

theorem claims_active {x : TierTransfer} (h : x.terminal = .active) : x.claims = [⟨x.owner, x.pageIds⟩] := if_pos h

/-- Begun, and nothing has happened to it yet. -/
structure Fresh (x : TierTransfer) (direction : TransferDirection) : Prop where
  terminal : x.terminal = .active
  failure : x.failure = none
  direction : x.direction = direction

/-- One entry and one replaced entry for each key; a restore replaces nothing. -/
structure Shaped (x : TierTransfer) : Prop where
  entries : x.entries.length = x.keys.length
  previous : x.previous.length = x.keys.length
  restores : x.direction = .restore → ∀ old ∈ x.previous, old = none

end TierTransfer

namespace KvTier

open Effect List

variable {base t₀ : KvTier} {holds : List Hold} {claims : List Claim}

/-! ### Beginning a transfer -/

/-- What a begin call leaves: with its transfer, the holds and the claim of the transfer. -/
def Begun (base : KvTier) (direction : TransferDirection) (holds : List Hold) (claims : List Claim) (x : TierTransfer)
    (t : KvTier) : Prop :=
  x.Fresh direction ∧ x.Shaped ∧ Custody base t [] (x.holds ++ holds) (x.claims ++ claims)

variable {entries : List EntryId} {keys : List TierKey} {x : TierTransfer} {t : KvTier}
  {previous : List (Option EntryId)} {spare : List Nat} {phase : PageState}

/-- A list of held entries goes into quarantine. -/
theorem Custody.quarantines {items : List (TierKey × EntryId × Option EntryId)}
    (hc : Custody base t [] (heldAs phase items ++ holds) claims) (retainKeys : Bool) :
    Custody base (t.quarantine (items.map (·.2.1)) retainKeys) [] holds claims := by
  induction items generalizing t with
  | nil => exact hc
  | cons item items ih => exact ih (hc.quarantine_head retainKeys)

theorem foldl_launch_pages (t : KvTier) (items : List (TierKey × EntryId × Option EntryId)) :
    SamePages t (items.foldl (fun t item => t.launch item.1 item.2.1 item.2.2) t) := by
  induction items generalizing t with
  | nil => exact ⟨rfl, rfl⟩
  | cons item items ih => exact ih (t.launch item.1 item.2.1 item.2.2)

section

variable (hentries : entries.length = keys.length) (hprevious : previous.length = keys.length)
include hentries hprevious

theorem map_entries :
    (keys.zip (entries.zip previous)).map (·.2.1) = entries := by
  rw [show (fun item : TierKey × EntryId × Option EntryId => item.2.1) = Prod.fst ∘ Prod.snd from rfl,
    ← map_map, map_snd_zip (by simp [hentries]), map_fst_zip (by omega)]

/-- A copy whose submission failed leaves its entries and pages in quarantine. -/
theorem Custody.unsubmitted {owner : Nat} {pages : List Nat} {retainKeys : Bool}
    (hc : Custody base t [] (heldAs phase (keys.zip (entries.zip previous)) ++ holds) (⟨owner, pages⟩ :: claims)) :
    Custody base ((t.quarantine entries retainKeys).quarantineDevicePages pages owner) [] holds claims := by
  have hquar := hc.quarantines retainKeys
  rw [map_entries hentries hprevious] at hquar
  exact hquar.quarantinePages

end

/-- The number of the next transfer is no part of custody. -/
theorem Custody.numbered (hc : Custody base t spare holds claims) (n : Nat) :
    Custody base { t with sequence := n } spare holds claims :=
  { hc with granted := fun h hh => { hc.granted h hh with } }

/-- Claiming the device pages and submitting the copy: the common end of the begin calls. -/
theorem submit_spec {direction : TransferDirection} {pages : List Nat} {retainKeys submits : Bool}
    {failure : TierFailure} {token : KvTier → Nat → TierTransfer} (hentries : entries.length = keys.length)
    (hprevious : previous.length = keys.length) (hnodup : pages.Nodup) (hfree : t₀.Unclaimed pages)
    (hc : Custody base t₀ [] (heldAs phase (keys.zip (entries.zip previous)) ++ holds) claims)
    (htoken : ∀ t owner, (token t owner).Fresh direction ∧ (token t owner).Shaped ∧ (token t owner).holds = heldAs phase (keys.zip (entries.zip previous)) ∧ (token t owner).claims = [⟨owner, pages⟩]) :
    Triple (· = t₀)
      (do
        let owner ← reserveDevicePages pages
        if submits then
          let t ← get
          modify fun t => { t with sequence := t.sequence + 1 }
          return token t owner
        else
          modify fun t => (t.quarantine entries retainKeys).quarantineDevicePages pages owner
          raise failure)
      (fun x t => Begun base direction holds claims x t)
      (fun e t => submits = false ∧ e = failure ∧ Custody base t [] holds claims) := by
  have hreserve := reserveDevicePages_spec hc hfree hnodup
  apply triple_bind (triple_error hreserve fun _ _ h => h.elim)
  intro owner
  apply triple_of_forall
  intro t hc'
  apply triple_ite
  · intro _
    apply triple_get_bind
    rintro t rfl
    apply triple_modify_return
    obtain ⟨hactive, hshaped, hholds, hclaims⟩ := htoken t owner
    refine ⟨hactive, hshaped, ?_⟩
    rw [hholds, hclaims]
    exact hc'.numbered _
  · intro hnot
    apply triple_modify_raise
    exact ⟨Bool.eq_false_iff.mpr hnot, rfl, hc'.unsubmitted hentries hprevious⟩

/-- A well-formed request for a key with a copy, or a device page with a transfer, that has
    not been settled. -/
structure Retained (t : KvTier) (keys : List TierKey) (pages : List Nat) : Prop where
  validKeys : ValidKeys keys
  validPages : t.ValidPages pages keys.length
  unsettled : (∃ key ∈ keys, t.KeyRetained key) ∨ ¬ t.Unclaimed pages

theorem beginOffload_spec (hc : Custody base t₀ [] holds claims) (hphase : ∀ h ∈ holds, h.phase ≠ .reserved)
    (keys : List TierKey) (pages : List Nat) (submits : Bool) :
    Triple (· = t₀) (beginOffload keys pages submits) (fun x t => Begun base .offload holds claims x t)
      (fun e t => (t = t₀ ∧ (e.sourceReusable = false → t₀.Retained keys pages)) ∨
        (submits = false ∧ e = offloadAmbiguous ∧ Custody base t [] holds claims)) := by
  have hrefused : ∀ e, Harmless e → e.sourceReusable = false → t₀.Retained keys pages := by
    intro e he hfalse
    exact Bool.noConfusion (he.1.symm.trans hfalse)
  apply triple_check_bind (checkKeys_spec t₀ keys) fun e he => Or.inl ⟨rfl, hrefused e he.1⟩
  intro _ hvalid
  apply triple_check_bind (checkPageIds_spec t₀ pages keys.length) fun e he => Or.inl ⟨rfl, hrefused e he.1⟩
  intro _ hvalidPages
  have hcheck : Checks t₀ (each checkOffload keys) (fun _ => ∀ key ∈ keys, ¬ t₀.KeyRetained key)
      (fun e => e.sourceReusable = false → t₀.Retained keys pages) := by
    apply checks_each
    intro key hkey
    refine (checkOffload_spec t₀ key).weaken (fun _ h => h) ?_
    rintro e (⟨_, hretained⟩ | ⟨htrue, _⟩) hfalse
    · exact ⟨hvalid, hvalidPages, Or.inl ⟨key, hkey, hretained⟩⟩
    · exact Bool.noConfusion (htrue.symm.trans hfalse)
  apply triple_check_bind hcheck fun e he => Or.inl ⟨rfl, he⟩
  intro _ hfree
  apply triple_check_bind (validateDevicePagesAvailable_spec t₀ pages .offload)
    fun e he => Or.inl ⟨rfl, fun _ => ⟨hvalid, hvalidPages, Or.inr he⟩⟩
  intro _ hunclaimed
  apply triple_get_bind
  rintro t rfl
  have hreserve := reserve_spec hc hphase hvalid.2.1 hfree
  apply triple_bind (triple_error hreserve fun e t' h => Or.inl ⟨h.1, hrefused e h.2⟩)
  intro entries
  -- The reserved pages are launched, then the device pages are claimed.
  apply triple_bind (Q := fun _ t2 => entries.length = keys.length ∧ SamePages t t2 ∧ Custody base t2 []
    (heldAs .offloading (keys.zip (entries.zip (keys.map (t.published.lookup ·)))) ++ holds) claims)
  · apply triple_each_modify
    rintro t1 ⟨hlength, hpages1, hc1⟩
    have hpages2 := foldl_launch_pages t1 (keys.zip (entries.zip (keys.map (t.published.lookup ·))))
    exact ⟨hlength, ⟨hpages2.1.trans hpages1.1, hpages2.2.trans hpages1.2⟩, hc1.launches⟩
  intro _
  apply triple_of_forall
  rintro t2 ⟨hlength, hpages2, hc2⟩
  have hprevious : (keys.map (t.published.lookup ·)).length = keys.length := length_map _
  refine triple_error (submit_spec hlength hprevious hvalidPages.2.1 (hunclaimed.of_same hpages2) hc2 ?_)
    fun _ _ => Or.inr
  intro t' owner
  exact ⟨⟨rfl, rfl, rfl⟩, ⟨hlength, hprevious, TransferDirection.noConfusion⟩, rfl, rfl⟩

/-! ### Restoring -/

theorem residentEntry_spec (t : KvTier) (key : TierKey) :
    Checks t (residentEntry key) (fun e => t.published.lookup key = some e ∧ key ∉ t.inFlight)
      (fun e => e.destinationReusable = true) := by
  apply checks_get_bind
  split
  · exact checks_raise rfl
  · next e hpub =>
    apply checks_ite
    · exact fun _ => checks_raise rfl
    intro _
    apply checks_ite
    · exact fun _ => checks_raise rfl
    intro hflight
    apply checks_ite
    · exact fun _ => checks_raise rfl
    · exact fun _ => checks_pure ⟨hpub, hflight⟩

/-- The entries of a list of keys that can be restored. -/
def Residents (t : KvTier) (keys : List TierKey) (entries : List EntryId) : Prop :=
  List.Forall₂ (fun key e => t.published.lookup key = some e ∧ key ∉ t.inFlight) keys entries

theorem residentEntries_spec (t : KvTier) (keys : List TierKey) :
    Checks t (residentEntries keys) (fun entries => t.Residents keys entries) (fun e => e.destinationReusable = true) := by
  induction keys with
  | nil => exact checks_pure List.Forall₂.nil
  | cons key keys ih =>
    apply checks_bind (residentEntry_spec t key)
    intro e he
    apply checks_bind ih
    intro entries hentries
    exact checks_pure (List.Forall₂.cons he hentries)

theorem hostChecksums_spec (t : KvTier) (actual : Option (Nat → Checksum)) (entries : List EntryId) :
    Checks t (hostChecksums actual entries) (fun checksums => checksums.length = entries.length)
      (fun _ => actual = none) := by
  apply checks_get_bind
  split
  · exact checks_raise rfl
  · exact checks_pure (length_map _)

/-- Entries that no transfer holds go into quarantine. -/
theorem Custody.quarantines_unheld {retainKeys : Bool} (hc : Custody base t [] holds claims)
    (hnew : ∀ e ∈ entries, ∀ h ∈ holds, h.key ≠ (t.heap e).key) :
    Custody base (t.quarantine entries retainKeys) [] holds claims := by
  induction entries generalizing t with
  | nil => exact hc
  | cons e entries ih =>
    have hheap : (t.quarantineEntry retainKeys e).heap = t.heap := by
      unfold KvTier.quarantineEntry
      split <;> rfl
    apply ih (hc.quarantine_unheld retainKeys (hnew e mem_cons_self))
    rw [hheap]
    exact fun e' he' => hnew e' (mem_cons_of_mem _ he')

/-- Copies of all the resident pages start. -/
theorem Custody.marks (hnodup : keys.Nodup)
    (hshown : List.Forall₂ (fun key e => t.published.lookup key = some e) keys entries)
    (hnew : ∀ key ∈ keys, ∀ h ∈ holds, h.key ≠ key) (hc : Custody base t [] holds claims) :
    Custody base (entries.foldl KvTier.markRestoring t) []
        (heldAs .restoring (keys.zip (entries.zip (entries.map fun _ => none))) ++ holds) claims ∧
      SamePages t (entries.foldl KvTier.markRestoring t) := by
  induction entries generalizing t holds keys with
  | nil =>
    obtain rfl : keys = [] := forall₂_nil_right_iff.mp hshown
    exact ⟨hc, rfl, rfl⟩
  | cons e entries ih =>
    obtain ⟨key, keys, he, hrest, rfl⟩ := forall₂_cons_right_iff.mp hshown
    obtain ⟨hkey, hnodup⟩ := nodup_cons.mp hnodup
    have hfirst := hc.markRestoring he (hnew key mem_cons_self)
    have hnew' : ∀ key' ∈ keys, ∀ h ∈ (⟨e, key, none, .restoring⟩ : Hold) :: holds, h.key ≠ key' := by
      intro key' hkey' h hh
      rcases mem_cons.mp hh with rfl | hh
      · rintro rfl
        exact hkey hkey'
      · exact hnew key' (mem_cons_of_mem _ hkey') h hh
    obtain ⟨hc', hpages⟩ := ih (t := t.markRestoring e) hnodup hrest hnew' hfirst
    exact ⟨hc'.perm perm_middle, hpages⟩

theorem Residents.unheld (hr : t.Residents keys entries) (hc : Custody base t [] holds claims)
    (hphase : ∀ h ∈ holds, h.phase ≠ .reserved) : ∀ key ∈ keys, ∀ h ∈ holds, h.key ≠ key := by
  rintro key hkey h hh rfl
  obtain ⟨i, hi, hget⟩ := getElem_of_mem hkey
  have hflight := (forall₂_iff_get.mp hr).2 i hi ((List.Forall₂.length_eq hr) ▸ hi)
  simp only [get_eq_getElem, hget] at hflight
  exact hflight.2 ((hc.granted h hh).inFlight (hphase h hh))

theorem Residents.keyed (hr : t.Residents keys entries) (hc : Custody base t [] holds claims) :
    ∀ e ∈ entries, (t.heap e).key ∈ keys := by
  induction hr with
  | nil => exact fun _ he => absurd he not_mem_nil
  | cons he _ ih =>
    intro e' he'
    rcases mem_cons.mp he' with rfl | he'
    · rw [(hc.published _ _ he.1).1]
      exact mem_cons_self
    · exact mem_cons_of_mem _ (ih e' he')

theorem beginRestore_spec (hc : Custody base t₀ [] holds claims) (hphase : ∀ h ∈ holds, h.phase ≠ .reserved)
    (keys : List TierKey) (pages : List Nat) (expected : Option String) (actual : Option (Nat → Checksum))
    (submits : Bool) :
    Triple (· = t₀) (beginRestore keys pages expected actual submits) (fun x t => Begun base .restore holds claims x t)
      (fun e t => Custody base t [] holds claims ∧
        (e.destinationReusable = false → ¬ t₀.Unclaimed pages ∨ actual = none ∨ submits = false)) := by
  have hrefused : ∀ e : TierFailure, e.destinationReusable = true → Custody base t₀ [] holds claims ∧
      (e.destinationReusable = false → ¬ t₀.Unclaimed pages ∨ actual = none ∨ submits = false) := by
    intro e he
    exact ⟨hc, fun hfalse => Bool.noConfusion (he.symm.trans hfalse)⟩
  apply triple_check_bind (checkKeys_spec t₀ keys) fun e he => hrefused e he.1.2
  rintro _ ⟨-, hkeys, -⟩
  apply triple_check_bind (checkPageIds_spec t₀ pages keys.length) fun e he => hrefused e he.1.2
  rintro _ ⟨-, hpages, -⟩
  apply triple_check_bind (validateFingerprint_spec t₀ expected) fun e he => hrefused e he.2
  intro _ _
  apply triple_check_bind (validateDevicePagesAvailable_spec t₀ pages .restore)
    fun _ hclaimed => ⟨hc, fun _ => Or.inl hclaimed⟩
  intro _ hunclaimed
  apply triple_check_bind (residentEntries_spec t₀ keys) hrefused
  intro entries hresident
  apply triple_check_bind (hostChecksums_spec t₀ actual entries) fun _ hnone => ⟨hc, fun _ => Or.inr (Or.inl hnone)⟩
  intro checksums hchecksums
  have hnew := hresident.unheld hc hphase
  have hkeyed := hresident.keyed hc
  apply triple_get_bind
  rintro t rfl
  apply triple_ite
  · intro _
    apply triple_modify_raise
    refine ⟨hc.quarantines_unheld ?_, Bool.noConfusion⟩
    intro e he
    obtain ⟨item, hitem, rfl⟩ := mem_map.mp he
    have hmem := (of_mem_zip (mem_of_mem_filter hitem)).1
    exact hnew _ (hkeyed _ hmem)
  intro _
  have hshown := hresident.imp fun _ _ h => h.1
  apply triple_bind (Q := fun _ t' => t' = entries.foldl markRestoring t)
  · apply triple_each_modify
    rintro _ rfl
    rfl
  intro _
  apply triple_of_forall
  rintro _ rfl
  obtain ⟨hc', hpages'⟩ := hc.marks hkeys hshown hnew
  have hlength := hresident.length_eq.symm
  have hprevious : (entries.map fun _ => (none : Option EntryId)).length = keys.length := by
    rw [length_map, hlength]
  refine triple_error (submit_spec hlength hprevious hpages (hunclaimed.of_same hpages') hc' ?_)
    fun _ _ h => ⟨h.2.2, fun _ => Or.inr (Or.inr h.1)⟩
  intro t' owner
  refine ⟨⟨rfl, rfl, rfl⟩, ⟨hlength, hprevious, ?_⟩, rfl, rfl⟩
  intro _ old hold
  obtain ⟨_, _, rfl⟩ := mem_map.mp hold
  rfl

/-! ### The end of a transfer -/

theorem setLastTouch_same (hc : Custody base t spare holds claims) (o : EntryId) (n : Nat) :
    Custody base (t.setEntry o fun entry => { entry with lastTouch := n }) spare holds claims := by
  refine hc.reheap ?_ fun _ => rfl
  intro e
  by_cases he : e = o <;> simp [he]

theorem commitOffload_spec (e : EntryId) (key : TierKey) (old : Option EntryId) (checksum : Checksum) :
    Triple (fun t => Custody base t [] (⟨e, key, old, .offloading⟩ :: holds) claims) (commitOffload e old checksum)
      (fun _ t => Custody base t [] holds claims) (fun _ _ => False) := by
  apply triple_of_forall
  intro t1 hc1
  apply triple_modify_bind
  apply triple_of_forall
  rintro t rfl
  have hc := hc1.stamp (e := e) checksum
  apply triple_bind
  swap
  · exact fun _ => triple_modify fun _ h => h
  cases old with
  | none =>
    apply triple_modify
    rintro _ rfl
    exact hc.commit_first
  | some o =>
    apply triple_get_bind
    rintro t rfl
    apply triple_ite
    · intro _
      apply triple_modify_bind
      have hc' := setLastTouch_same hc o (t1.stamp e checksum).clock
      apply triple_of_eq (f := fun t => t.vacate e)
      · rintro _ rfl
        exact release_of_current hc'.head_granted.current
      · rintro _ rfl
        exact hc'.commit_same
    · intro _
      apply triple_modify_bind
      have hshown : (t1.stamp e checksum).published.lookup key = some o := hc.head_granted.published
      have hne : o ≠ e := by
        rintro rfl
        exact PageState.noConfusion ((hc.head_granted.previous o rfl).symm.trans hc.head_granted.state)
      have ho : ((t1.stamp e checksum).publish e).current o := by
        have hslot : ((t1.stamp e checksum).publish e).slotOf o = (t1.stamp e checksum).slotOf o :=
          congrArg SlotEntry.slot (Function.update_of_ne hne _ _)
        rw [current, hslot]
        exact (hc.published _ _ hshown).2.1
      apply triple_of_eq (f := fun t => t.vacate o)
      · rintro _ rfl
        exact release_of_current ho
      · rintro _ rfl
        exact hc.commit_replaced

theorem commitRestore_spec (e : EntryId) (key : TierKey) :
    Triple (fun t => Custody base t [] (⟨e, key, none, .restoring⟩ :: holds) claims) (commitRestore e)
      (fun _ t => Custody base t [] holds claims) (fun _ _ => False) := by
  apply triple_of_forall
  intro t hc
  have hkey : (t.heap e).key = key := hc.head_granted.key
  have hshown : t.published.lookup (t.heap e).key = some e := hkey.symm ▸ hc.head_granted.published
  apply triple_modify_bind
  rw [if_pos hshown, hkey]
  apply triple_modify_bind
  apply triple_of_eq (f := fun t => t.vacate e)
  · rintro _ rfl
    exact release_of_current hc.head_granted.current
  · rintro _ rfl
    exact hc.commit_restore

section

variable (hentries : entries.length = keys.length) (hprevious : previous.length = keys.length)
include hentries hprevious

/-- All the pages of an offload are committed. -/
theorem commitOffloads_spec {checksums : List Checksum} (hchecksums : checksums.length = entries.length) :
    Triple (fun t => Custody base t [] (heldAs .offloading (keys.zip (entries.zip previous)) ++ holds) claims)
      (each (fun item => commitOffload item.1 item.2.1 item.2.2) (entries.zip (previous.zip checksums)))
      (fun _ t => Custody base t [] holds claims) (fun _ _ => False) := by
  induction keys generalizing entries previous checksums with
  | nil =>
    obtain rfl : entries = [] := length_eq_zero_iff.mp hentries
    exact triple_pure fun _ h => h
  | cons key keys ih =>
    obtain ⟨e, entries, rfl⟩ := exists_cons_of_length_eq_add_one hentries
    obtain ⟨old, previous, rfl⟩ := exists_cons_of_length_eq_add_one hprevious
    obtain ⟨checksum, checksums, rfl⟩ := exists_cons_of_length_eq_add_one hchecksums
    apply triple_bind (commitOffload_spec e key old checksum)
    exact fun _ => ih (Nat.succ.inj hentries) (Nat.succ.inj hprevious) (Nat.succ.inj hchecksums)

/-- All the pages of a restore are committed. -/
theorem commitRestores_spec
    (hnone : ∀ old ∈ previous, old = none) :
    Triple (fun t => Custody base t [] (heldAs .restoring (keys.zip (entries.zip previous)) ++ holds) claims)
      (each commitRestore entries) (fun _ t => Custody base t [] holds claims) (fun _ _ => False) := by
  induction keys generalizing entries previous with
  | nil =>
    obtain rfl : entries = [] := length_eq_zero_iff.mp hentries
    exact triple_pure fun _ h => h
  | cons key keys ih =>
    obtain ⟨e, entries, rfl⟩ := exists_cons_of_length_eq_add_one hentries
    obtain ⟨old, previous, rfl⟩ := exists_cons_of_length_eq_add_one hprevious
    obtain rfl : old = none := hnone old mem_cons_self
    apply triple_bind (commitRestore_spec e key)
    exact fun _ => ih (Nat.succ.inj hentries) (Nat.succ.inj hprevious) fun o ho => hnone o (mem_cons_of_mem _ ho)

end

theorem mem_holds_active (hactive : x.terminal = .active) {item : TierKey × EntryId × Option EntryId}
    (hitem : item ∈ x.keys.zip (x.entries.zip x.previous)) : ⟨item.2.1, item.1, item.2.2, x.phase⟩ ∈ x.holds := by
  rw [x.holds_active hactive]
  exact mem_map.mpr ⟨item, hitem, rfl⟩

/-- The holds of an active transfer, page by page. -/
theorem exists_hold (hactive : x.terminal = .active) (hshaped : x.Shaped) {e : EntryId} (he : e ∈ x.entries) :
    ∃ h ∈ x.holds, h.entry = e ∧ h.key ∈ x.keys ∧ h.phase = x.phase := by
  rw [← map_entries hshaped.entries hshaped.previous] at he
  obtain ⟨item, hitem, rfl⟩ := mem_map.mp he
  exact ⟨_, mem_holds_active hactive hitem, rfl, (of_mem_zip hitem).1, rfl⟩

theorem exists_hold_of_key (hactive : x.terminal = .active) (hshaped : x.Shaped) {key : TierKey} (hkey : key ∈ x.keys) :
    ∃ h ∈ x.holds, h.key = key ∧ h.phase = x.phase := by
  have hmap : (x.keys.zip (x.entries.zip x.previous)).map Prod.fst = x.keys := by
    apply map_fst_zip
    simp [hshaped.entries, hshaped.previous]
  rw [← hmap] at hkey
  obtain ⟨item, hitem, rfl⟩ := mem_map.mp hkey
  exact ⟨_, mem_holds_active hactive hitem, rfl, rfl⟩

/-- A commit gives up the holds of its transfer, or raises before it changes anything. -/
theorem commit_spec (hactive : x.terminal = .active) (hshaped : x.Shaped)
    (hc : Custody base t₀ [] (x.holds ++ holds) claims) (actual : Option (Nat → Checksum)) :
    Triple (· = t₀) (commit x actual) (fun _ t => Custody base t [] holds claims) (fun _ t => t = t₀) := by
  have hstates : ∀ e ∈ x.entries, (t₀.heap e).state = x.phase := by
    intro e he
    obtain ⟨h, hh, rfl, _, hphase⟩ := exists_hold hactive hshaped he
    exact (hc.granted h (mem_append_left _ hh)).state.trans hphase
  unfold commit
  rw [x.holds_active hactive] at hc
  unfold TierTransfer.phase at hc hstates
  split
  · next hdirection =>
    rw [hdirection] at hc
    apply triple_check_bind (hostChecksums_spec t₀ actual x.entries) (E := fun _ t => t = t₀) fun _ _ => rfl
    intro checksums hchecksums
    exact triple_error (triple_at (commitOffloads_spec hshaped.entries hshaped.previous hchecksums) hc)
      fun _ _ h => h.elim
  · next hdirection =>
    rw [hdirection] at hc hstates
    refine triple_check_bind (checks_each fun e he => checks_guard (hstates e he)) (fun _ h => h.elim) ?_
    intro _ _
    have hnone := hshaped.restores hdirection
    exact triple_error (triple_at (commitRestores_spec hshaped.entries hshaped.previous hnone) hc) fun _ _ h => h.elim

/-! ### Custody over several steps -/

/-- Custody can be counted from where it holds. -/
theorem Custody.restart (hc : Custody base t spare holds claims) : Custody t t spare holds claims :=
  { hc with
    capacity := rfl
    pages := { hc.pages with kept := Finset.Subset.refl _ }
    slotsKept := Finset.Subset.refl _
    keysKept := Finset.Subset.refl _
    entriesKept := ⟨le_rfl, fun _ _ => rfl⟩ }

theorem Custody.trans {t t' : KvTier} {spare spare' : List Nat} {holds' : List Hold} {claims' : List Claim}
    (hc : Custody base t spare holds claims) (hc' : Custody t t' spare' holds' claims') :
    Custody base t' spare' holds' claims' :=
  { hc' with
    capacity := hc'.capacity.trans hc.capacity
    pages := { hc'.pages with kept := hc.pages.kept.trans hc'.pages.kept }
    slotsKept := hc.slotsKept.trans hc'.slotsKept
    keysKept := hc.keysKept.trans hc'.keysKept
    entriesKept := by
      refine ⟨hc.entriesKept.1.trans hc'.entriesKept.1, ?_⟩
      intro e he
      rw [hc'.entriesKept.2 e (he.trans_le hc.entriesKept.1), hc.entriesKept.2 e he] }

/-! ### Finalizing, failing and cancelling -/

/-- What a finalization that raises leaves: the transfer still has its holds, or all its
    pages are committed; its device pages are still claimed. -/
def Unfinished (base : KvTier) (holds : List Hold) (claims : List Claim) (x : TierTransfer) (t : KvTier) : Prop :=
  Custody base t [] (x.holds ++ holds) (x.claims ++ claims) ∨
    (Custody base t [] holds (x.claims ++ claims) ∧ ∀ e ∈ x.entries, ∀ h ∈ holds, h.key ≠ (t.heap e).key)

theorem recordCompleted_spec (t : KvTier) (records : Bool) :
    Checks t (recordCompleted records) (fun _ => True) (fun _ => records = false) := by
  apply checks_ite
  · exact fun _ => checks_pure trivial
  · exact fun hnot => checks_raise (Bool.eq_false_iff.mpr hnot)

section

variable (hactive : x.terminal = .active) (hshaped : x.Shaped)
include hactive hshaped

/-- The entries of a transfer keep their keys, which no other transfer has. -/
theorem entries_apart {holds' : List Hold} {claims' : List Claim}
    (hc : Custody base t₀ [] (x.holds ++ holds) claims) (hc' : Custody t₀ t [] holds' claims') :
    ∀ e ∈ x.entries, ∀ h ∈ holds, h.key ≠ (t.heap e).key := by
  intro e he h hh
  obtain ⟨own, hown, rfl, _, _⟩ := exists_hold hactive hshaped he
  have hg := hc.granted own (mem_append_left _ hown)
  have hbound : own.entry < t₀.nextEntry := (hc.placed _ _ hg.current).2.2
  rw [hc'.entriesKept.2 own.entry hbound, hg.key]
  have hkeys := hc.keys
  rw [map_append, nodup_append] at hkeys
  exact (hkeys.2.2 own.key (mem_map_of_mem hown) h.key (mem_map_of_mem hh)).symm

theorem finalizeTransfer_spec
    (hc : Custody base t₀ [] (x.holds ++ holds) (x.claims ++ claims)) (actual : Option (Nat → Checksum))
    (records : Bool) : Triple (· = t₀) (finalizeTransfer x actual records) (fun _ t => Custody base t [] holds claims)
      (fun _ t => Unfinished base holds claims x t) := by
  have hcurrent : ∀ e ∈ x.entries, t₀.current e := by
    intro e he
    obtain ⟨h, hh, rfl, _⟩ := exists_hold hactive hshaped he
    exact (hc.granted h (mem_append_left _ hh)).current
  refine triple_check_bind (checks_each fun e he => checks_guard (hcurrent e he)) (fun _ h => h.elim) ?_
  intro _ _
  have hcommit := commit_spec hactive hshaped hc.restart actual
  apply triple_bind (triple_error hcommit fun _ t h => h ▸ Or.inl hc)
  intro _
  apply triple_of_forall
  intro t hc'
  have hleft : Unfinished base holds claims x t := Or.inr ⟨hc.trans hc', entries_apart hactive hshaped hc hc'⟩
  apply triple_check_bind (recordCompleted_spec t records) fun _ _ => hleft
  intro _ _
  apply triple_modify
  rintro _ rfl
  rw [x.claims_active hactive] at hc'
  exact (hc.trans hc').releasePages

/-- Whatever a failed finalization left, its entries go into quarantine and its pages are free. -/
theorem Unfinished.settled (hu : Unfinished base holds claims x t) :
    Custody base ((t.quarantine x.entries false).releaseDevicePages x.pageIds x.owner) [] holds claims := by
  have hquar : Custody base (t.quarantine x.entries false) [] holds (x.claims ++ claims) := by
    rcases hu with hc | ⟨hc, hapart⟩
    · rw [x.holds_active hactive] at hc
      have hquar := hc.quarantines false
      rwa [map_entries hshaped.entries hshaped.previous] at hquar
    · exact hc.quarantines_unheld hapart
  rw [x.claims_active hactive] at hquar
  exact hquar.releasePages

theorem failFinalization_spec :
    Triple (Unfinished base holds claims x) (failFinalization x) (fun _ t => Custody base t [] holds claims)
      (fun _ _ => False) := by
  apply triple_of_forall
  intro t hu
  apply triple_modify_return
  exact hu.settled hactive hshaped

/-- A transfer whose completion is unknown leaves its entries and pages in quarantine. -/
theorem Custody.retain (hc : Custody base t [] (x.holds ++ holds) (x.claims ++ claims)) :
    Custody base (KvTier.retain x t) [] holds claims := by
  rw [x.claims_active hactive, x.holds_active hactive] at hc
  exact hc.unsubmitted hshaped.entries hshaped.previous

theorem failTransfer_spec : Triple (fun t => Custody base t [] (x.holds ++ holds) (x.claims ++ claims)) (failTransfer x)
      (fun _ t => Custody base t [] holds claims) (fun _ _ => False) := by
  apply triple_of_forall
  intro t hc
  apply triple_modify_return
  exact hc.retain hactive hshaped

theorem cancelTransfer_spec (cancels : Bool) :
    Triple (fun t => Custody base t [] (x.holds ++ holds) (x.claims ++ claims)) (cancelTransfer x cancels)
      (fun _ t => Custody base t [] holds claims) (fun _ _ => False) := by
  apply triple_of_forall
  intro t hc
  apply triple_modify_return
  exact hc.retain hactive hshaped

end

/-! ### Lookups and discards -/

theorem Custody.touches (hc : Custody base t spare holds claims) (es : List EntryId) :
    Custody base (es.foldl touch t) spare holds claims := by
  induction es generalizing t with
  | nil => exact hc
  | cons e es ih =>
    apply ih
    refine hc.reheap ?_ fun _ => rfl
    intro e'
    by_cases he : e' = e <;> simp [he]

theorem availablePrefix_spec (hc : Custody base t₀ [] holds claims) (keys : List TierKey) (minPages : Nat) :
    Triple (· = t₀) (availablePrefix keys minPages) (fun _ t => Custody base t [] holds claims)
      (fun _ t => Custody base t [] holds claims) := by
  apply triple_ite
  · exact fun _ => triple_raise fun _ h => h ▸ hc
  intro _
  apply triple_check_bind (checkKeys_spec t₀ keys) fun _ _ => hc
  intro _ _
  apply triple_get_bind
  rintro t rfl
  apply triple_ite
  · intro _
    apply triple_modify_return
    exact hc.touches _
  · exact fun _ => triple_pure fun _ h => h ▸ hc

theorem checkDiscard_spec (t : KvTier) (key : TierKey) :
    Checks t (checkDiscard key) (fun _ => key ∉ t.inFlight) (fun _ => True) := by
  apply checks_get_bind
  apply checks_ite
  · exact fun _ => checks_raise trivial
  intro hfree
  split
  · exact checks_pure hfree
  · apply checks_ite
    · exact fun _ => checks_raise trivial
    · exact fun _ => checks_pure hfree

section

variable (hc : Custody base t₀ [] holds claims) (hphase : ∀ h ∈ holds, h.phase ≠ .reserved)
include hc hphase

/-- The published entries of keys without a transfer can be dropped. -/
theorem published_droppable
    (hnodup : keys.Nodup) (hfree : ∀ key ∈ keys, key ∉ t₀.inFlight) :
    Droppable holds [] t₀ (keys.filterMap fun key => t₀.published.lookup key) := by
  have hshown : ∀ e ∈ keys.filterMap fun key => t₀.published.lookup key,
      (t₀.heap e).key ∈ keys ∧ t₀.published.lookup (t₀.heap e).key = some e := by
    intro e he
    obtain ⟨key, hkey, hpub⟩ := mem_filterMap.mp he
    rw [(hc.published key e hpub).1]
    exact ⟨hkey, hpub⟩
  constructor
  · apply hnodup.filterMap
    intro a b e ha hb
    rw [← (hc.published a e ha).1, ← (hc.published b e hb).1]
  · exact fun e he => (hshown e he).2
  · intro e he h hh heq
    exact hfree _ (hshown e he).1 (heq ▸ (hc.granted h hh).inFlight (hphase h hh))
  · exact fun _ _ => not_mem_nil

theorem discard_spec
    (keys : List TierKey) : Triple (· = t₀) (discard keys) (fun _ t => Custody base t [] holds claims)
      (fun _ t => Custody base t [] holds claims) := by
  apply triple_check_bind (checkKeys_spec t₀ keys) fun _ _ => hc
  rintro _ ⟨-, hkeys, -⟩
  apply triple_check_bind (checks_each fun key _ => checkDiscard_spec t₀ key) fun _ _ => hc
  intro _ hfree
  apply triple_get_bind
  rintro t rfl
  have hdrops := drops_spec base t holds claims [] (keys.filterMap fun key => t.published.lookup key)
    (t.freeSlots.length + (keys.filterMap fun key => t.published.lookup key).length)
  apply triple_bind
  · have hfirst := published_droppable hc hphase hkeys hfree
    exact triple_mono (triple_at hdrops ⟨hc, hfirst, ⟨fun _ _ => rfl, rfl, rfl, rfl⟩, rfl⟩) (fun _ _ h => h.1)
      (fun _ _ h => h.elim)
  · exact fun _ => triple_pure fun _ h => h

end

end KvTier

end Kairyu
