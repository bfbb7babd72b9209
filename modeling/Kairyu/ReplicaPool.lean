/-
  Kairyu/ReplicaPool.lean
  =======================
  **Outstanding counts of the replica pool** (`orchestration/replica.py`).

  `generate` and `stream` count a call in their own body and give it back in its `finally`.
  `embed` counts the call at once and gives it back in the body of the coroutine it
  returns, which a task cancelled before its first step never runs.  So an entry counts its
  unfinished calls and those that were lost in this way (`Counted`).

  A call appears with its dispatch: one that is refused or cancelled while it is prepared
  has counted nothing.  It may be placed on any current replica; health, drains, leases,
  prefixes and load only narrow the choice, and change no count.
-/
import Kairyu.Dict
import Mathlib.Tactic.Common

namespace Kairyu

open List

/-- An entry object; a replica that is added again gets a new one. -/
abbrev ReplicaRef := Nat

/-- `_ReplicaEntry` -/
structure ReplicaEntry where
  outstanding : Int := 0
  removed : Bool := false

/-- How far a dispatched call has come. -/
inductive PoolCall where
  /-- The coroutine `embed` returned, before its first step. -/
  | created (e : ReplicaRef)
  /-- Inside the `try` whose `finally` gives the call back. -/
  | running (e : ReplicaRef)
  | ended
  /-- An `embed` whose coroutine was cancelled before its first step. -/
  | dropped (e : ReplicaRef)
deriving DecidableEq

/-- The call is neither finished, failed nor cancelled. -/
def PoolCall.unfinished (e : ReplicaRef) : PoolCall → Bool
  | .created e' | .running e' => e' = e
  | _ => false

structure ReplicaPool where
  heap : ReplicaRef → ReplicaEntry := fun _ => {}
  nextEntry : ReplicaRef := 0
  entries : Dict String ReplicaRef := ∅
  calls : List PoolCall := []

namespace ReplicaPool

/-! ### Membership -/

/-- `_entry` -/
def entry (p : ReplicaPool) (replicaId : String) : Except String ReplicaRef :=
  match p.entries.lookup replicaId with
  | some e => .ok e
  | none => .error s!"unknown replica '{replicaId}'"

def addReplica (p : ReplicaPool) (replicaId : String) : Except String ReplicaPool :=
  if (p.entries.lookup replicaId).isSome then .error s!"replica '{replicaId}' already in the pool"
  else .ok { p with
    heap := Function.update p.heap p.nextEntry {}
    nextEntry := p.nextEntry + 1
    entries := p.entries.insert replicaId p.nextEntry }

def removeReplica (p : ReplicaPool) (replicaId : String) (force : Bool) : Except String ReplicaPool := do
  let e ← p.entry replicaId
  let outstanding := (p.heap e).outstanding
  if outstanding > 0 ∧ force = false then
    .error s!"replica '{replicaId}' has {outstanding} in-flight requests; drain first (or force=True)"
  else
    return { p with
      heap := Function.update p.heap e { p.heap e with removed := true }
      entries := p.entries.erase replicaId }

/-! ### Calls -/

/-- `entry.outstanding += n` -/
def count (p : ReplicaPool) (e : ReplicaRef) (n : Int) : ReplicaPool :=
  { p with heap := Function.update p.heap e { p.heap e with outstanding := (p.heap e).outstanding + n } }

/-- `_finish`: a late completion on a removed entry is a no-op. -/
def finish (p : ReplicaPool) (e : ReplicaRef) : ReplicaPool := if (p.heap e).removed then p else p.count e (-1)

def newCall (p : ReplicaPool) (call : PoolCall) : ReplicaPool := { p with calls := p.calls ++ [call] }

def setCall (p : ReplicaPool) (c : Nat) (call : PoolCall) : ReplicaPool := { p with calls := p.calls.set c call }

/-- `generate` or `stream`, placed on this replica. -/
def dispatch (p : ReplicaPool) (replicaId : String) : ReplicaPool :=
  match p.entries.lookup replicaId with
  | some e => (p.count e 1).newCall (.running e)
  | none => p

/-- `embed`, up to the coroutine it returns; the backend's own `embed` may raise before. -/
def embed (p : ReplicaPool) (replicaId : String) (returns : Bool) : ReplicaPool :=
  match p.entries.lookup replicaId with
  | some e => if returns then (p.count e 1).newCall (.created e) else (p.count e 1).finish e
  | none => p

/-- The first step of `_complete_embedding`. -/
def start (p : ReplicaPool) (c : Nat) : ReplicaPool :=
  match p.calls[c]? with
  | some (.created e) => p.setCall c (.running e)
  | _ => p

/-- The body of a call returns, raises or is closed. -/
def settle (p : ReplicaPool) (c : Nat) : ReplicaPool :=
  match p.calls[c]? with
  | some (.running e) => (p.finish e).setCall c .ended
  | _ => p

/-- The task of a call is cancelled: its body is left, if it has been entered. -/
def cancel (p : ReplicaPool) (c : Nat) : ReplicaPool :=
  match p.calls[c]? with
  | some (.created e) => p.setCall c (.dropped e)
  | _ => p.settle c

/-! ### Runs -/

inductive Event where
  | addReplica (replicaId : String)
  | removeReplica (replicaId : String) (force : Bool)
  | dispatch (replicaId : String)
  | embed (replicaId : String) (returns : Bool)
  | start (c : Nat)
  | settle (c : Nat)
  | cancel (c : Nat)

/-- One event; a membership call that raises changes nothing. -/
def step (p : ReplicaPool) : Event → ReplicaPool
  | .addReplica replicaId => (p.addReplica replicaId).toOption.getD p
  | .removeReplica replicaId force => (p.removeReplica replicaId force).toOption.getD p
  | .dispatch replicaId => p.dispatch replicaId
  | .embed replicaId returns => p.embed replicaId returns
  | .start c => p.start c
  | .settle c => p.settle c
  | .cancel c => p.cancel c

def run (p : ReplicaPool) (events : List Event) : ReplicaPool := events.foldl step p

/-! ### What an entry counts -/

def unfinished (p : ReplicaPool) (e : ReplicaRef) : Nat := p.calls.countP (·.unfinished e)

/-- The call was counted on this entry and has not been given back. -/
def charged (e : ReplicaRef) (call : PoolCall) : Bool := call.unfinished e || call = .dropped e

/-- Every entry of the pool counts the calls charged to it. -/
structure Counted (p : ReplicaPool) : Prop where
  current : ∀ id e, p.entries.lookup id = some e → e < p.nextEntry ∧ (p.heap e).removed = false
  distinct : ∀ id id' e, p.entries.lookup id = some e → p.entries.lookup id' = some e → id = id'
  counts : ∀ e < p.nextEntry, (p.heap e).removed = false → (p.heap e).outstanding = p.calls.countP (charged e)
  known : ∀ call ∈ p.calls, ∀ e, charged e call = true → e < p.nextEntry

variable {p q : ReplicaPool} {replicaId : String} {e : ReplicaRef}

theorem Counted.addReplica (h : Counted p) (replicaId : String) :
    Counted ((p.addReplica replicaId).toOption.getD p) := by
  unfold ReplicaPool.addReplica
  split
  · exact h
  · have hlookup := AList.lookup_insert_if p.entries replicaId
    obtain ⟨hcurrent, hdistinct, hcounts, hknown⟩ := h
    have hnone : p.calls.countP (charged p.nextEntry) = 0 := by
      rw [countP_eq_zero]
      intro call hmem hcall
      exact lt_irrefl _ (hknown call hmem _ hcall)
    constructor <;> simp only [Except.toOption, Option.getD_some]
    · grind
    · grind
    · grind
    · grind

theorem Counted.removeReplica (h : Counted p) (replicaId : String) (force : Bool) :
    Counted ((p.removeReplica replicaId force).toOption.getD p) := by
  unfold ReplicaPool.removeReplica ReplicaPool.entry
  split
  · next e hid =>
    simp only [bind, Except.bind]
    split
    · exact h
    · have hlookup := AList.lookup_erase_if p.entries replicaId
      obtain ⟨hcurrent, hdistinct, hcounts, hknown⟩ := h
      constructor <;> simp only [pure, Except.pure, Except.toOption, Option.getD_some]
      · grind
      · grind
      · grind
      · exact hknown
  · exact h

theorem removed_count (p : ReplicaPool) (e : ReplicaRef) (n : Int) (e' : ReplicaRef) :
    ((p.count e n).heap e').removed = (p.heap e').removed := by
  by_cases he : e' = e <;> simp [count, he]

theorem outstanding_count (p : ReplicaPool) (e : ReplicaRef) (n : Int) (e' : ReplicaRef) :
    ((p.count e n).heap e').outstanding = (p.heap e').outstanding + if e = e' then n else 0 := by
  by_cases he : e = e'
  · simp [count, he]
  · simp [count, he, Ne.symm he]

section

variable (h : Counted p)
include h

/-- Calls change, and the entries that are still there count the difference. -/
theorem Counted.recall (hsame : q.entries = p.entries ∧ q.nextEntry = p.nextEntry)
    (hremoved : ∀ e, (q.heap e).removed = (p.heap e).removed) (hcounts : ∀ e, (p.heap e).removed = false →
      (q.heap e).outstanding + p.calls.countP (charged e) = (p.heap e).outstanding + q.calls.countP (charged e))
    (hknown : ∀ call ∈ q.calls, ∀ e, charged e call = true → e < p.nextEntry) : Counted q := by
  obtain ⟨hentries, hnext⟩ := hsame
  constructor
  · rw [hentries, hnext]
    exact fun id e hid => ⟨(h.current id e hid).1, (hremoved e).trans (h.current id e hid).2⟩
  · rw [hentries]
    exact h.distinct
  · rw [hnext]
    intro e he hlive
    have hlive' := (hremoved e).symm.trans hlive
    have hbefore := h.counts e he hlive'
    have hafter := hcounts e hlive'
    omega
  · rw [hnext]
    exact hknown

/-- A new call is counted on its entry. -/
theorem Counted.launch (hid : p.entries.lookup replicaId = some e) {call : PoolCall}
    (hcall : ∀ e', charged e' call = decide (e = e')) : Counted ((p.count e 1).newCall call) := by
  refine h.recall ⟨rfl, rfl⟩ (p.removed_count e 1) (fun e' _ => ?_) fun call' hmem e' he' => ?_
  · have hcount := p.outstanding_count e 1 e'
    simp only [newCall, hcount, countP_append, countP_singleton, hcall, decide_eq_true_eq]
    simp only [count]
    split <;> omega
  · rcases mem_append.mp hmem with hmem | hmem
    · exact h.known call' hmem e' he'
    · rw [mem_singleton.mp hmem, hcall, decide_eq_true_iff] at he'
      exact he' ▸ (h.current replicaId e hid).1

/-- A call moves on, and the entry it was charged to counts the difference. -/
theorem Counted.move (hsame : q.entries = p.entries ∧ q.nextEntry = p.nextEntry) {c : Nat}
    {call call' : PoolCall} (hc : p.calls[c]? = some call) (hset : q.calls = p.calls.set c call')
    (hremoved : ∀ e, (q.heap e).removed = (p.heap e).removed)
    (hcounts : ∀ e, (p.heap e).removed = false → (q.heap e).outstanding + (if charged e call then 1 else 0) =
      (p.heap e).outstanding + if charged e call' then 1 else 0)
    (hcharged : ∀ e, charged e call' = true → charged e call = true) : Counted q := by
  obtain ⟨hlt, rfl⟩ := List.getElem?_eq_some_iff.mp hc
  refine h.recall hsame hremoved (fun e hlive => ?_) fun call hmem e he => ?_
  · have hcount := countP_set (p := charged e) (a := call') hlt
    grind
  · rw [hset] at hmem
    rcases mem_or_eq_of_mem_set hmem with hmem | rfl
    · exact h.known call hmem e he
    · exact h.known _ (getElem_mem hlt) e (hcharged e he)

theorem Counted.embed (replicaId : String) (returns : Bool) : Counted (p.embed replicaId returns) := by
  unfold ReplicaPool.embed
  split
  · next e hid =>
    split
    · exact h.launch hid fun e' => by simp [charged, PoolCall.unfinished]
    · rw [finish, removed_count, if_neg (by simp [(h.current replicaId e hid).2])]
      refine h.recall ⟨rfl, rfl⟩ (fun e' => ?_) (fun e' _ => ?_) h.known
      · rw [removed_count, removed_count]
      · rw [outstanding_count, outstanding_count]
        simp only [count]
        split <;> omega
  · exact h

theorem Counted.settle (c : Nat) : Counted (p.settle c) := by
  unfold ReplicaPool.settle
  split
  · next e hc =>
    unfold finish
    split
    · next hremoved =>
      refine h.move ⟨rfl, rfl⟩ hc rfl (fun _ => rfl) (fun e' hlive => ?_) (by simp [charged, PoolCall.unfinished])
      have hne : e ≠ e' := by
        rintro rfl
        simp [hlive] at hremoved
      simp [charged, PoolCall.unfinished, hne, setCall]
    · refine h.move ⟨rfl, rfl⟩ hc rfl (p.removed_count e _) (fun e' _ => ?_) (by simp [charged, PoolCall.unfinished])
      have hcount := p.outstanding_count e (-1) e'
      by_cases he : e = e' <;> simp [charged, PoolCall.unfinished, he, setCall] at hcount ⊢ <;> omega
  · exact h

theorem Counted.step (event : Event) : Counted (p.step event) := by
  cases event with
  | addReplica replicaId => exact h.addReplica replicaId
  | removeReplica replicaId force => exact h.removeReplica replicaId force
  | dispatch replicaId =>
    unfold ReplicaPool.step ReplicaPool.dispatch
    simp only
    split
    · next e hid => exact h.launch hid fun e' => by simp [charged, PoolCall.unfinished]
    · exact h
  | embed replicaId returns => exact h.embed replicaId returns
  | start c =>
    unfold ReplicaPool.step ReplicaPool.start
    simp only
    split
    · next e hc =>
      exact h.move ⟨rfl, rfl⟩ hc rfl (fun _ => rfl) (by simp [charged, PoolCall.unfinished, setCall])
        (by simp [charged, PoolCall.unfinished])
    · exact h
  | settle c => exact h.settle c
  | cancel c =>
    unfold ReplicaPool.step ReplicaPool.cancel
    simp only
    split
    · next e hc =>
      exact h.move ⟨rfl, rfl⟩ hc rfl (fun _ => rfl) (by simp [charged, PoolCall.unfinished, setCall])
        (by simp [charged, PoolCall.unfinished])
    · exact h.settle c

/-- **Every run keeps the counts.** -/
theorem Counted.run (events : List Event) : Counted (p.run events) := by
  induction events generalizing p with
  | nil => exact h
  | cons event events ih => exact ih (h.step event)

end

theorem countP_charged (calls : List PoolCall) (e : ReplicaRef) :
    calls.countP (charged e) = calls.countP (·.unfinished e) + calls.count (.dropped e) := by
  induction calls with
  | nil => rfl
  | cons call calls ih =>
    rw [countP_cons, countP_cons, count_cons, ih]
    cases call <;> simp [charged, PoolCall.unfinished] <;> omega

/-- The counts are the numbers of unfinished calls, and an entry without one is idle and
    can be removed without force. -/
structure Exact (p : ReplicaPool) : Prop where
  outstanding : ∀ id e, p.entries.lookup id = some e → (p.heap e).outstanding = p.unfinished e
  removable : ∀ id e, p.entries.lookup id = some e → p.unfinished e = 0 →
    (p.heap e).outstanding = 0 ∧ ∃ p', p.removeReplica id false = .ok p'

/-- **Outstanding counts are exact up to lost embeddings.**  In every run they are never
    negative, and they are exact if and only if no current entry has an `embed` call that
    was cancelled before its first step. -/
theorem outstanding_exact_iff (events : List Event) :
    (∀ id e, (run {} events).entries.lookup id = some e → 0 ≤ ((run {} events).heap e).outstanding) ∧
    ((run {} events).Exact ↔
      ∀ id e, (run {} events).entries.lookup id = some e → .dropped e ∉ (run {} events).calls) := by
  have h : Counted (run {} events) := Counted.run (by constructor <;> simp) events
  generalize run {} events = p at h
  have hcount : ∀ id e, p.entries.lookup id = some e →
      (p.heap e).outstanding = p.unfinished e + p.calls.count (.dropped e) := by
    intro id e hid
    obtain ⟨hbound, hlive⟩ := h.current id e hid
    rw [h.counts e hbound hlive, countP_charged]
    exact Int.natCast_add _ _
  refine ⟨fun id e hid => ?_, fun hexact id e hid => ?_, fun hnone => ?_⟩
  · rw [hcount id e hid]
    omega
  · have hsame := hexact.outstanding id e hid
    rw [hcount id e hid] at hsame
    rw [← count_eq_zero]
    omega
  · have hexact : ∀ id e, p.entries.lookup id = some e → (p.heap e).outstanding = p.unfinished e := by
      intro id e hid
      rw [hcount id e hid, count_eq_zero.mpr (hnone id e hid), Int.natCast_zero, Int.add_zero]
    refine ⟨hexact, fun id e hid hidle => ?_⟩
    have hzero : (p.heap e).outstanding = 0 := by rw [hexact id e hid, hidle, Int.natCast_zero]
    refine ⟨hzero, ?_⟩
    simp [removeReplica, entry, hid, hzero, bind, Except.bind, pure, Except.pure]

/-- One embedding that is cancelled before its first step: the replica is idle, keeps its
    count and cannot be removed. -/
theorem cancelled_embedding_is_counted : let p := run {} [.addReplica "0", .embed "0" true, .cancel 0]
    p.entries.lookup "0" = some 0 ∧ p.unfinished 0 = 0 ∧ (p.heap 0).outstanding = 1 ∧
      p.removeReplica "0" false =
        .error "replica '0' has 1 in-flight requests; drain first (or force=True)" := by
  refine ⟨rfl, rfl, rfl, rfl⟩

end ReplicaPool

end Kairyu
