/-
  Kairyu/WaitingQueueRuns.lean
  ============================
  **The indexed waiting queue refines a sorted list.**

  Every live entry is in the heap, once: sequence numbers are never used twice, so
  what a removed request left behind differs from the entry of its next stay.  The
  sorted live entries are the abstract list (`WaitingQueue.list`), and each call is
  compared with the call on it.
-/
import Kairyu.WaitingQueue

namespace Kairyu

open List WaitingQueue WaitingEntry List.Nodup

namespace WaitingQueue

/-- What holds between calls. -/
structure Indexed (q : WaitingQueue) : Prop where
  isHeap : IsHeap q.heap
  nodup : (q.heap.map sequence).Nodup
  sequences : q.nextFrontSequence < q.nextBackSequence
  range : ∀ e ∈ q.heap, q.nextFrontSequence < e.sequence ∧ e.sequence < q.nextBackSequence
  live : ∀ e, q.isLive e → e ∈ q.heap

/-- The live entries in the order of `__iter__`. -/
def sortedLive (q : WaitingQueue) : List WaitingEntry := q.liveEntries.insertionSort (· ≤ ·)

/-- The list the queue stands for. -/
def list (q : WaitingQueue) : WaitingList where
  priorityAgeNs := q.priorityAgeNs
  items :=
    if q.priorityEnabled then q.sortedLive.map fun e => (e.key, e.requestId)
    else q.fifo.map fun requestId => (0, requestId)

variable {q : WaitingQueue} {H : Heapq WaitingEntry} {F : Heapq (WaitingEntry ×ₗ Nat)}
  {e : WaitingEntry} {requestId : RequestId}

/-! ### The live entries -/

theorem mem_liveEntries : e ∈ q.liveEntries ↔ q.isLive e := by
  unfold liveEntries isLive
  rw [mem_map, ← AList.mem_entries_iff]
  constructor
  · rintro ⟨⟨id, key, sequence⟩, he, rfl⟩
    exact he
  · exact fun he => ⟨_, he, rfl⟩

theorem mem_sortedLive : e ∈ q.sortedLive ↔ q.isLive e := by
  rw [sortedLive, mem_insertionSort, mem_liveEntries]

section

variable (q : WaitingQueue)

theorem sortedLive_pairwise : q.sortedLive.Pairwise (· ≤ ·) :=
  pairwise_insertionSort _ _

theorem liveEntries_ids : q.liveEntries.map WaitingEntry.requestId = q.priorityEntries.keys := by
  unfold liveEntries
  rw [map_map]
  rfl

theorem sortedLive_ids_perm : (q.sortedLive.map WaitingEntry.requestId).Perm q.priorityEntries.keys := by
  rw [← liveEntries_ids]
  exact (perm_insertionSort _ _).map _

theorem sortedLive_ids_nodup : (q.sortedLive.map WaitingEntry.requestId).Nodup :=
  q.sortedLive_ids_perm.nodup_iff.mpr q.priorityEntries.keys_nodup

end

variable {l : List WaitingEntry}

/-- An ascending list of the live entries, each once, is the sorted list. -/
theorem eq_sortedLive (hsorted : l.Pairwise (· ≤ ·)) (hnodup : l.Nodup)
    (hmem : ∀ e, e ∈ l ↔ q.isLive e) : l = q.sortedLive :=
  ((perm_ext_iff_of_nodup hnodup (of_map _ q.sortedLive_ids_nodup)).mpr fun e =>
    (hmem e).trans mem_sortedLive.symm).eq_of_pairwise' hsorted q.sortedLive_pairwise

theorem ids_list (q : WaitingQueue) : q.list.ids = q.iter := by
  unfold WaitingList.ids list iter
  split
  · rw [map_map]
    rfl
  · rw [map_map]
    exact map_id _

theorem mem_iter (hmode : q.priorityEnabled = true) : requestId ∈ q.iter ↔ requestId ∈ q.priorityEntries := by
  rw [iter, if_pos hmode]
  exact (q.sortedLive_ids_perm.mem_iff).trans AList.mem_keys

theorem length_list (q : WaitingQueue) : q.list.items.length = q.length := by
  unfold list length
  split
  · rw [length_map, sortedLive, length_insertionSort, liveEntries, length_map]
  · exact length_map _

variable {q' : WaitingQueue}

theorem isLive_erase (hq : q'.priorityEntries = q.priorityEntries.erase requestId) :
    q'.isLive e ↔ q.isLive e ∧ e.requestId ≠ requestId := by
  unfold isLive
  rw [hq, AList.lookup_erase_if]
  split
  · simp [*]
  · simp [*]

/-- Erasing a request takes its entry out of the sorted list. -/
theorem sortedLive_erase (hq : q'.priorityEntries = q.priorityEntries.erase requestId) :
    q'.sortedLive = q.sortedLive.filter fun e => e.requestId ≠ requestId := by
  refine (eq_sortedLive (q.sortedLive_pairwise.filter _)
    ((of_map _ q.sortedLive_ids_nodup).filter _) fun e => ?_).symm
  rw [mem_filter, mem_sortedLive, isLive_erase hq, decide_eq_true_iff]

/-! ### The heap -/

/-- The root leaves the heap, and is not or no longer live. -/
theorem Indexed.pop {tail : List WaitingEntry} (h : q.Indexed)
    (hheap : q.heap = e :: tail) (hperm : q'.heap.Perm tail) (hrest : IsHeap q'.heap)
    (hfront : q'.nextFrontSequence = q.nextFrontSequence) (hback : q'.nextBackSequence = q.nextBackSequence)
    (hlive : ∀ e', q'.isLive e' → q.isLive e' ∧ e' ≠ e) : q'.Indexed := by
  obtain ⟨_, hnodup, hsequences, hrange, hmem⟩ := h
  rw [hheap] at hnodup hrange hmem
  refine ⟨hrest, (hperm.map _).nodup_iff.mpr (nodup_cons.mp hnodup).2, ?_, ?_, ?_⟩
  · rw [hfront, hback]
    exact hsequences
  · intro e' he'
    rw [hfront, hback]
    exact hrange e' (mem_cons_of_mem _ (hperm.mem_iff.mp he'))
  · intro e' he'
    obtain ⟨hlive', hne⟩ := hlive e' he'
    exact hperm.mem_iff.mpr ((mem_cons.mp (hmem e' hlive')).resolve_left hne)

theorem dropStaleLoop_spec (fuel : Nat) {heap : List WaitingEntry} (hfuel : heap.length ≤ fuel)
    (h : Indexed { q with heap }) : Indexed { q with heap := q.dropStaleLoop H fuel heap } ∧
      ∀ e rest, q.dropStaleLoop H fuel heap = e :: rest → q.isLive e := by
  induction fuel generalizing heap with
  | zero =>
    obtain rfl := eq_nil_of_length_eq_zero (Nat.le_zero.mp hfuel)
    exact ⟨h, by simp [dropStaleLoop]⟩
  | succ fuel ih =>
    cases heap with
    | nil => exact ⟨h, by simp [dropStaleLoop]⟩
    | cons e tail =>
      rw [dropStaleLoop]
      by_cases hlive : q.isLive e
      · rw [if_pos hlive]
        refine ⟨h, fun e' rest heq => ?_⟩
        cases heq
        exact hlive
      · obtain ⟨rest, hpop, hperm, hrest⟩ := H.heappop_cons e tail
        simp only [if_neg hlive, hpop]
        refine ih (by rw [hperm.length_eq]; exact Nat.le_of_succ_le_succ hfuel) ?_
        refine h.pop rfl hperm (hrest h.isHeap) rfl rfl fun e' he' => ⟨he', ?_⟩
        rintro rfl
        exact hlive he'

/-- **`_drop_stale_head`** changes nothing but the heap, whose root is live after it. -/
theorem Indexed.dropStaleHead (h : q.Indexed) : (q.dropStaleHead H).Indexed ∧
    ∀ e rest, (q.dropStaleHead H).heap = e :: rest → q.isLive e :=
  dropStaleLoop_spec q.heap.length le_rfl h

theorem Indexed.sortedLive_nil (h : q.Indexed) (hheap : q.heap = []) : q.sortedLive = [] := by
  refine eq_nil_iff_forall_not_mem.mpr fun e he => ?_
  have hmem := h.live e (mem_sortedLive.mp he)
  rw [hheap] at hmem
  cases hmem

/-- A live root heads the sorted list. -/
theorem Indexed.sortedLive_cons (h : q.Indexed) {rest : List WaitingEntry} (hheap : q.heap = e :: rest)
    (he : q.isLive e) : q.sortedLive = e :: q.sortedLive.filter fun e' => e'.requestId ≠ e.requestId := by
  have hmem := mem_sortedLive.mpr he
  have hids := q.sortedLive_ids_nodup
  have hsorted := q.sortedLive_pairwise
  have hleast : ∀ x ∈ q.sortedLive, e ≤ x := fun x hx =>
    h.isHeap.root_le (by rw [hheap]; rfl) (h.live x (mem_sortedLive.mp hx))
  cases hl : q.sortedLive with
  | nil =>
    rw [hl] at hmem
    cases hmem
  | cons x t =>
    rw [hl] at hmem hids hsorted hleast
    have hx : x = e := by
      refine le_antisymm ?_ (hleast x mem_cons_self)
      rcases mem_cons.mp hmem with heq | ht
      · exact heq.ge
      · exact (pairwise_cons.mp hsorted).1 e ht
    subst hx
    rw [filter_cons_of_neg (by simp), filter_eq_self.mpr]
    intro y hy
    rw [decide_eq_true_iff]
    exact fun heq => (nodup_cons.mp hids).1 (heq ▸ mem_map_of_mem hy)

/-- **`_maybe_compact`** rebuilds the heap from the live entries. -/
theorem Indexed.maybeCompact (h : q.Indexed) : (q.maybeCompact H).Indexed := by
  unfold WaitingQueue.maybeCompact
  split
  · exact h
  · have hperm := H.heapify_perm q.liveEntries
    have hsub : ∀ e ∈ H.heapify q.liveEntries, e ∈ q.heap := fun e he =>
      h.live e (mem_liveEntries.mp (hperm.mem_iff.mp he))
    refine ⟨H.heapify_isHeap _, ?_, h.sequences, fun e he => h.range e (hsub e he),
      fun e he => hperm.mem_iff.mpr (mem_liveEntries.mpr he)⟩
    refine map_on (fun e he e' he' heq =>
      inj_on_of_nodup_map h.nodup (hsub e he) (hsub e' he') heq) (hperm.nodup_iff.mpr ?_)
    refine of_map WaitingEntry.requestId ?_
    rw [liveEntries_ids]
    exact q.priorityEntries.keys_nodup

/-! ### One call -/

/-- The call is answered as the sorted list answers it, and leaves the list that
    call leaves. -/
def Agrees (q : WaitingQueue) (call : WaitingCall) (result : WaitingReply × WaitingQueue) : Prop :=
  (result.1, result.2.list) = q.list.call call ∧ result.2.Indexed

/-- An entry with a fresh sequence number is placed by its key alone. -/
theorem orderedInsert_map {r : Int × RequestId → Int × RequestId → Prop}
    [DecidableRel r] (hr : ∀ e' ∈ l, e ≤ e' ↔ r (e.key, e.requestId) (e'.key, e'.requestId)) :
    (l.orderedInsert (· ≤ ·) e).map (fun e => (e.key, e.requestId)) =
      (l.map fun e => (e.key, e.requestId)).orderedInsert r (e.key, e.requestId) := by
  induction l with
  | nil => rfl
  | cons e' l ih =>
    have hhead := hr e' mem_cons_self
    rw [map_cons]
    by_cases hle : e ≤ e'
    · rw [orderedInsert_cons_of_le _ _ hle, orderedInsert_cons_of_le _ _ (hhead.mp hle)]
      rfl
    · rw [orderedInsert_of_not_le _ _ hle, orderedInsert_of_not_le _ _ fun hrel => hle (hhead.mpr hrel), map_cons,
        ih fun x hx => hr x (mem_cons_of_mem _ hx)]

theorem orderedInsert_fifo (fifo : List RequestId) :
    (fifo.map fun id => ((0 : Int), id)).orderedInsert (fun a b => a.1 < b.1) (0, requestId) =
      (fifo ++ [requestId]).map fun id => (0, id) := by
  induction fifo with
  | nil => rfl
  | cons id fifo ih =>
    rw [map_cons, orderedInsert_cons, ih]
    rfl

/-- **A FIFO** is the list of its requests, all with the same key. -/
theorem Indexed.agrees_fifo (h : q.Indexed) (hmode : q.priorityAgeNs = none) (call : WaitingCall) :
    Agrees q call (q.call H F call) := by
  obtain ⟨age, fifo, heap, entries, back, front⟩ := q
  obtain rfl : age = none := hmode
  have hkept : ∀ fifo, Indexed ⟨none, fifo, heap, entries, back, front⟩ :=
    fun _ => ⟨h.isHeap, h.nodup, h.sequences, h.range, h.live⟩
  have hids : (list ⟨none, fifo, heap, entries, back, front⟩).ids = fifo := ids_list _
  cases call with
  | append requestId priority arrival front =>
    simp only [Agrees, call, append, WaitingList.call, hids, priorityEnabled]
    by_cases hmem : requestId ∈ fifo
    · simp [hmem, WaitingReply.ofExcept, h]
    · cases front with
      | true =>
        refine ⟨?_, by simpa [hmem] using hkept _⟩
        cases fifo <;> simp [hmem, WaitingReply.ofExcept, list, WaitingList.insert, priorityEnabled]
      | false =>
        refine ⟨?_, by simpa [hmem] using hkept _⟩
        simp [hmem, WaitingReply.ofExcept, list, WaitingList.insert, priorityEnabled, orderedInsert_fifo]
  | popleft => cases fifo <;> exact ⟨rfl, hkept _⟩
  | peek => cases fifo <;> exact ⟨rfl, hkept _⟩
  | iterate => exact ⟨by rw [WaitingList.call, hids]; rfl, h⟩
  | length => exact ⟨by rw [WaitingList.call, length_list]; rfl, h⟩
  | contains requestId => exact ⟨by rw [WaitingList.call, hids]; rfl, h⟩
  | peekPrefix limit =>
    simp only [Agrees, call, peekPrefix, WaitingList.call, hids, priorityEnabled]
    by_cases hlimit : limit ≤ 0
    · simp [hlimit, h]
    · simp [hlimit, h]
  | remove requestId =>
    simp only [Agrees, call, remove, WaitingList.call, hids, priorityEnabled]
    by_cases hmem : requestId ∈ fifo
    · refine ⟨?_, by simpa [hmem] using hkept _⟩
      simp [hmem, WaitingReply.ofExcept, list, priorityEnabled, filter_map, Function.comp_def]
    · simp [hmem, WaitingReply.ofExcept, h]

theorem list_of_priority (hmode : q.priorityEnabled = true) :
    q.list = ⟨q.priorityAgeNs, q.sortedLive.map fun e => (e.key, e.requestId)⟩ := by
  rw [list, if_pos hmode]

theorem mem_ids_list (hmode : q.priorityEnabled = true) : requestId ∈ q.list.ids ↔ requestId ∈ q.priorityEntries := by
  rw [ids_list, mem_iter hmode]

/-- The heap takes in the entry of a request that is not waiting.  Its sequence
    number is beyond those in use, on the side it is inserted at. -/
theorem Indexed.push {front : Bool} (h : q.Indexed) (hmode : q.priorityEnabled = true)
    (hnew : e.requestId ∉ q.priorityEntries) (hage : q'.priorityAgeNs = q.priorityAgeNs)
    (hheap : q'.heap = H.heappush q.heap e)
    (hentries : q'.priorityEntries = q.priorityEntries.insert e.requestId (e.key, e.sequence))
    (hseq : e.sequence = if front then q.nextFrontSequence else q.nextBackSequence)
    (hfront : q'.nextFrontSequence = if front then q.nextFrontSequence - 1 else q.nextFrontSequence)
    (hback : q'.nextBackSequence = if front then q.nextBackSequence else q.nextBackSequence + 1) :
    q'.list = q.list.insert e.key e.requestId front ∧ q'.Indexed := by
  have hperm := H.heappush_perm q.heap e
  rw [← hheap] at hperm
  have hsequences := h.sequences
  have hbeyond : ∀ e' ∈ q.heap, if front then e.sequence < e'.sequence else e'.sequence < e.sequence := by
    intro e' he'
    rw [hseq]
    cases front with
    | true => exact (h.range e' he').1
    | false => exact (h.range e' he').2
  refine ⟨?_, hheap ▸ H.heappush_isHeap _ _ h.isHeap, ?_, ?_, ?_, ?_⟩
  · have hmode' : q'.priorityEnabled = true := by rw [priorityEnabled, hage]; exact hmode
    have hsorted : q'.sortedLive = q.sortedLive.orderedInsert (· ≤ ·) e := by
      unfold sortedLive liveEntries
      rw [hentries, AList.entries_insert_of_notMem hnew, map_cons, insertionSort_cons]
    rw [list_of_priority hmode', list_of_priority hmode, hsorted, hage, WaitingList.insert]
    cases front with
    | true =>
      rw [if_pos rfl, orderedInsert_map (r := fun a b => a.1 ≤ b.1)]
      intro e' he'
      have hlt := hbeyond e' (h.live e' (mem_sortedLive.mp he'))
      rw [le_iff]
      grind
    | false =>
      rw [if_neg Bool.false_ne_true, orderedInsert_map (r := fun a b => a.1 < b.1)]
      intro e' he'
      have hlt := hbeyond e' (h.live e' (mem_sortedLive.mp he'))
      rw [le_iff]
      grind
  · refine (hperm.map _).nodup_iff.mpr (nodup_cons.mpr ⟨fun hmem => ?_, h.nodup⟩)
    grind
  · grind
  · intro e' he'
    rcases mem_cons.mp (hperm.mem_iff.mp he') with rfl | he'
    · grind
    · have hold := h.range e' he'
      grind
  · intro e' he'
    unfold isLive at he'
    rw [hentries, AList.lookup_insert_if] at he'
    refine hperm.mem_iff.mpr (mem_cons.mpr ?_)
    split at he'
    · left
      cases e
      cases e'
      simp_all
    · exact Or.inr (h.live e' he')

/-- The loop of `peek_prefix` collects the live entries the walk reads. -/
theorem peekLoop_eq {fuel : Nat} {frontier : List (WaitingEntry ×ₗ Nat)}
    (limit : Nat) (found : List RequestId) (hreads : F.Reads q.heap l frontier) (hfuel : l.length ≤ fuel)
    (hfound : found.length ≤ limit) : q.peekLoop F limit (fuel + 1) frontier found =
      some ((found ++ (l.filter (q.isLive ·)).map WaitingEntry.requestId).take limit) := by
  induction l generalizing fuel frontier found with
  | nil =>
    have hdone : F.expand q.heap frontier = none := hreads
    rw [peekLoop, hdone]
    simp [take_of_length_le hfound]
  | cons e l ih =>
    obtain ⟨next, hexpand, hnext⟩ := hreads
    rw [peekLoop, hexpand]
    by_cases hlimit : limit ≤ found.length
    · rw [if_pos hlimit, take_append_of_le_length hlimit, take_of_length_le hfound]
    · obtain ⟨fuel, rfl⟩ := Nat.exists_eq_add_one_of_ne_zero (Nat.ne_zero_of_lt hfuel)
      simp only [if_neg hlimit]
      rw [ih _ hnext (Nat.le_of_succ_le_succ hfuel)]
      · by_cases hlive : q.isLive e <;> simp [hlive]
      · split
        · rw [length_append]
          exact Nat.not_le.mp hlimit
        · exact hfound

/-- The walk over the heap meets the live entries in the order of `__iter__`. -/
theorem Indexed.filter_live (h : q.Indexed) : (q.heap.insertionSort (· ≤ ·)).filter (q.isLive ·) = q.sortedLive := by
  refine eq_sortedLive ((pairwise_insertionSort _ _).filter _) (filter _ ?_) fun e => ?_
  · exact (perm_insertionSort _ _).nodup_iff.mpr (of_map _ h.nodup)
  · rw [mem_filter, mem_insertionSort, decide_eq_true_iff]
    exact and_iff_right_of_imp (h.live e)

/-- The list of a queue that lost a request. -/
theorem list_erase (hmode : q.priorityEnabled = true) (hage : q'.priorityAgeNs = q.priorityAgeNs)
    (hq : q'.priorityEntries = q.priorityEntries.erase requestId) : q'.list = ⟨q.priorityAgeNs,
      (q.sortedLive.filter fun e => e.requestId ≠ requestId).map fun e => (e.key, e.requestId)⟩ := by
  have hmode' : q'.priorityEnabled = true := by rw [priorityEnabled, hage]; exact hmode
  rw [list_of_priority hmode', sortedLive_erase hq, hage]

section

variable (h : q.Indexed) (hmode : q.priorityEnabled = true)
include h hmode

theorem Indexed.append (priority : Int) (arrival : Option Int) (front : Bool) :
    Agrees q (.append requestId priority arrival front) (q.call H F (.append requestId priority arrival front)) := by
  have hage : q.list.priorityAgeNs ≠ none := Option.isSome_iff_ne_none.mp hmode
  simp only [Agrees, WaitingQueue.call, WaitingQueue.append, WaitingList.call, hmode, mem_ids_list, if_neg hage]
  by_cases hmem : requestId ∈ q.priorityEntries
  · simp [hmem, WaitingReply.ofExcept, h]
  simp only [if_neg hmem]
  have hkey : q.list.priorityAgeNs = q.priorityAgeNs := rfl
  -- the sequence number is taken before the key is computed
  cases front with
  | true =>
    simp only [if_true, hkey]
    cases priorityKey q.priorityAgeNs priority arrival with
    | none =>
      have hbelow := Int.sub_one_lt_of_le (le_refl q.nextFrontSequence)
      exact ⟨rfl, h.isHeap, h.nodup, hbelow.trans h.sequences,
        fun e he => ⟨hbelow.trans (h.range e he).1, (h.range e he).2⟩, h.live⟩
    | some key =>
      refine And.imp_left (congrArg (Prod.mk WaitingReply.done)) ?_
      refine h.push (H := H) (e := ⟨key, q.nextFrontSequence, requestId⟩) hmode hmem ?_ ?_ ?_ ?_ ?_ ?_ <;> rfl
  | false =>
    simp only [Bool.false_eq_true, if_false, hkey]
    cases priorityKey q.priorityAgeNs priority arrival with
    | none =>
      have habove := Int.lt_succ q.nextBackSequence
      exact ⟨rfl, h.isHeap, h.nodup, h.sequences.trans habove,
        fun e he => ⟨(h.range e he).1, (h.range e he).2.trans habove⟩, h.live⟩
    | some key =>
      refine And.imp_left (congrArg (Prod.mk WaitingReply.done)) ?_
      refine h.push (H := H) (e := ⟨key, q.nextBackSequence, requestId⟩) hmode hmem ?_ ?_ ?_ ?_ ?_ ?_ <;> rfl

theorem Indexed.peekPrefix (limit : Int) : Agrees q (.peekPrefix limit) (q.call H F (.peekPrefix limit)) := by
  obtain ⟨hdropped, hroot⟩ := h.dropStaleHead
  have hiter : q.iter = q.sortedLive.map WaitingEntry.requestId := if_pos hmode
  simp only [Agrees, WaitingQueue.call, WaitingQueue.peekPrefix, WaitingList.call, hmode, ids_list]
  by_cases hlimit : limit ≤ 0
  · simp [hlimit, h]
  simp only [if_neg hlimit]
  cases hheap : (q.dropStaleHead H).heap with
  | nil =>
    have hnil : q.sortedLive = [] := hdropped.sortedLive_nil hheap
    refine ⟨?_, hdropped⟩
    rw [hiter, hnil, map_nil, take_nil]
    rfl
  | cons e rest =>
    have hreads := F.reads_sorted (hheap ▸ hdropped.isHeap)
    rw [← hheap] at hreads
    have hlive : ((q.dropStaleHead H).heap.insertionSort (· ≤ ·)).filter ((q.dropStaleHead H).isLive ·) =
        q.sortedLive := hdropped.filter_live
    have hloop := peekLoop_eq limit.toNat [] hreads (length_insertionSort _ _).le (Nat.zero_le _)
    rw [hlive, hheap] at hloop
    refine ⟨?_, hdropped⟩
    simp only [Prod.map]
    rw [hloop, hiter]
    rfl

theorem Indexed.popleft : Agrees q .popleft (q.call H F .popleft) := by
  obtain ⟨hdropped, hroot⟩ := h.dropStaleHead
  have hitems : q.list.items = q.sortedLive.map _ := congrArg WaitingList.items (list_of_priority hmode)
  simp only [Agrees, WaitingQueue.call, WaitingQueue.popleft, WaitingList.call, hmode]
  cases hheap : (q.dropStaleHead H).heap with
  | nil =>
    have hnil : q.sortedLive = [] := hdropped.sortedLive_nil hheap
    rw [H.heappop_nil, hitems, hnil]
    exact ⟨rfl, hdropped⟩
  | cons e rest =>
    have hlive : (q.dropStaleHead H).isLive e := hroot e rest hheap
    have hcons : q.sortedLive = e :: q.sortedLive.filter _ := hdropped.sortedLive_cons hheap hlive
    obtain ⟨heap, hpop, hperm, hheap'⟩ := H.heappop_cons e rest
    simp only [hpop, if_pos hlive]
    refine ⟨?_, hdropped.pop hheap hperm (hheap' (hheap ▸ hdropped.isHeap)) rfl rfl fun e' he' => ?_⟩
    · rw [hitems, hcons]
      refine congrArg _ ?_
      exact list_erase hmode rfl rfl
    · obtain ⟨he, hne⟩ := (isLive_erase rfl).mp he'
      exact ⟨he, fun heq => hne (congrArg _ heq)⟩

theorem Indexed.peek : Agrees q .peek (q.call H F .peek) := by
  obtain ⟨hdropped, hroot⟩ := h.dropStaleHead
  have hitems : q.list.items = q.sortedLive.map _ := congrArg WaitingList.items (list_of_priority hmode)
  simp only [Agrees, WaitingQueue.call, WaitingQueue.peek, WaitingList.call, hmode]
  cases hheap : (q.dropStaleHead H).heap with
  | nil =>
    have hnil : q.sortedLive = [] := hdropped.sortedLive_nil hheap
    rw [hitems, hnil]
    exact ⟨rfl, hdropped⟩
  | cons e rest =>
    have hcons : q.sortedLive = e :: _ := hdropped.sortedLive_cons hheap (hroot e rest hheap)
    rw [hitems, hcons]
    exact ⟨rfl, hdropped⟩

theorem Indexed.remove : Agrees q (.remove requestId) (q.call H F (.remove requestId)) := by
  simp only [Agrees, WaitingQueue.call, WaitingQueue.remove, WaitingList.call, hmode, mem_ids_list]
  by_cases hmem : requestId ∈ q.priorityEntries
  · rw [if_pos hmem, if_pos hmem]
    have herased : Indexed { q with priorityEntries := q.priorityEntries.erase requestId } :=
      ⟨h.isHeap, h.nodup, h.sequences, h.range, fun e he => h.live e ((isLive_erase rfl).mp he).1⟩
    have hlist : ∀ q' : WaitingQueue, (q'.maybeCompact H).list = q'.list := by
      intro q'
      unfold WaitingQueue.maybeCompact
      split <;> rfl
    refine ⟨congrArg _ ((hlist _).trans ?_), herased.maybeCompact⟩
    rw [list_of_priority hmode, filter_map]
    exact list_erase hmode rfl rfl
  · rw [if_neg hmem, if_neg hmem]
    exact ⟨rfl, h⟩

end

/-- **One call** is answered as the sorted list answers it. -/
theorem Indexed.call (h : q.Indexed) (call : WaitingCall) : Agrees q call (q.call H F call) := by
  cases hmode : q.priorityEnabled with
  | false =>
    exact h.agrees_fifo (Option.not_isSome_iff_eq_none.mp (Bool.eq_false_iff.mp hmode)) call
  | true =>
    cases call with
    | append requestId priority arrival front => exact h.append hmode priority arrival front
    | popleft => exact h.popleft hmode
    | peek => exact h.peek hmode
    | peekPrefix limit => exact h.peekPrefix hmode limit
    | remove requestId => exact h.remove hmode
    | iterate => exact ⟨by rw [WaitingList.call, ids_list]; rfl, h⟩
    | length => exact ⟨by rw [WaitingList.call, length_list]; rfl, h⟩
    | contains requestId => exact ⟨by rw [WaitingList.call, ids_list]; rfl, h⟩

/-! ### Whole runs -/

theorem list_sorted (q : WaitingQueue) : q.list.items.Pairwise fun a b => a.1 ≤ b.1 := by
  unfold list
  split
  · refine q.sortedLive_pairwise.map _ fun e e' hle => ?_
    rcases le_iff.mp hle with hlt | ⟨heq, _⟩
    · exact hlt.le
    · exact heq.le
  · exact pairwise_map.mpr (pairwise_of_forall fun _ _ => le_rfl)

theorem Indexed.run (h : q.Indexed) (calls : List WaitingCall) :
    waitingReplies (WaitingQueue.call H F) q calls = waitingReplies WaitingList.call q.list calls ∧
      ∃ q', calls.foldl (fun l call => (l.call call).2) q.list = list q' := by
  induction calls generalizing q with
  | nil => exact ⟨rfl, q, rfl⟩
  | cons call calls ih =>
    obtain ⟨hagrees, hnext⟩ := h.call call
    rw [waitingReplies, waitingReplies, foldl_cons, ← hagrees, (ih hnext).1]
    exact ⟨rfl, (ih hnext).2⟩

end WaitingQueue

/-- **The waiting queue refines a sorted list**: whatever is called, in whatever
    order, it answers as the list does, and that list stays sorted by key. -/
theorem waiting_queue_refines_sorted_list (H : Heapq WaitingEntry) (F : Heapq (WaitingEntry ×ₗ Nat))
    (priorityAgeNs : Option Nat) (calls : List WaitingCall) :
    waitingReplies (WaitingQueue.call H F) { priorityAgeNs } calls =
        waitingReplies WaitingList.call { priorityAgeNs } calls ∧
      (calls.foldl (fun l call => (WaitingList.call l call).2) { priorityAgeNs }).items.Pairwise
        fun a b => a.1 ≤ b.1 := by
  have hcreate : WaitingQueue.Indexed { priorityAgeNs } :=
    ⟨isHeap_of_pairwise List.Pairwise.nil, nodup_nil, by simp, by simp, fun e he => by cases he⟩
  have hlist : WaitingQueue.list { priorityAgeNs } = { priorityAgeNs } := by
    cases priorityAgeNs <;> rfl
  obtain ⟨hreplies, q', hq'⟩ := hcreate.run calls
  rw [hlist] at hreplies hq'
  exact ⟨hreplies, hq' ▸ q'.list_sorted⟩

-- a removed request that comes back does not meet the entry it left behind
example : waitingReplies (call Heapq.sorted Heapq.sorted) { priorityAgeNs := some 0 }
    [.append "a" 1 none false, .append "b" 2 none false, .remove "a", .append "a" 3 none false,
      .append "c" 3 none true, .peekPrefix 2, .popleft, .iterate] =
    [.done, .done, .done, .done, .done, .requests ["b", "c"], .request "b", .requests ["c", "a"]] := by
  decide +kernel

end Kairyu
