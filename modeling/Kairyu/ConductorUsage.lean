/-
  Kairyu/ConductorUsage.lean
  ==========================
  **Token usage of an orchestration run** (`orchestration/conductor.py`,
  `orchestration/checklist.py`, `entrypoints/server/metering.py`).

  The usage a streamed call has reported joins the totals of the run when the call ends;
  until then the observer is given the totals and the pending usage of the *one* call that
  observes.  So an observation leaves out what every other call holds (`omitted`).  The
  replies of a decision read are observed when the read ends, and a cancelled call keeps
  what it has reported out of the totals for good.

  A call that reports no usage needs no event.  The judge's constant usage, which the
  orchestrator adds to every observation, is left out.
-/
import Mathlib

namespace Kairyu

open List

/-- Prompt, completion and cached tokens. -/
abbrev GenerationUsage := Nat × Nat × Nat

def GenerationUsage.tokens (usage : GenerationUsage) : Nat × Nat := (usage.1, usage.2.1)

/-- A call of a worker, with the usage the worker has reported. -/
inductive RoleCall where
  /-- `_stream_head_unit` or `_stream_unit`. -/
  | streaming (latestUsage : Option GenerationUsage)
  /-- `_decide`, with the sums over the replies that are in. -/
  | reading (promptTokens completionTokens : Nat)
  | ended (usage : GenerationUsage)
  /-- Cancelled, or left by an error that does not carry the usage. -/
  | cancelled (usage : GenerationUsage)

namespace RoleCall

def isOpen : RoleCall → Bool
  | streaming _ | reading _ _ => true
  | _ => false

def reported : RoleCall → GenerationUsage
  | streaming latest => latest.getD 0
  | reading prompt completion => (prompt, completion, 0)
  | ended usage | cancelled usage => usage

/-- What the call has reported and the totals do not have. -/
def unadded : RoleCall → GenerationUsage
  | ended _ => 0
  | call => call.reported

/-- The end of the call is observed. -/
def billed : RoleCall → Bool
  | streaming latest => latest.isSome
  | reading prompt completion => (prompt, completion) ≠ (0, 0)
  | _ => false

theorem unadded_of_isOpen {call : RoleCall} (h : call.isOpen = true) : call.unadded = call.reported := by
  cases call <;> simp [isOpen] at h <;> rfl

theorem reported_of_not_billed {call : RoleCall} (h : call.isOpen = true) (hbilled : call.billed = false) :
    call.reported = 0 := by
  cases call <;> simp_all [isOpen, billed, reported]

end RoleCall

/-- The part of `_RunState` that counts usage, the worker calls and what the observer was given. -/
structure UsageRun where
  usage : GenerationUsage := 0
  calls : List RoleCall := []
  observed : List GenerationUsage := []

inductive UsageEvent where
  /-- `_generate` returns its result. -/
  | generated (usage : Option GenerationUsage)
  | stream
  /-- A partial result of a streamed call. -/
  | received (c : Nat) (usage : Option GenerationUsage)
  | decide
  | reply (c : Nat) (inputTokens outputTokens : Option Nat)
  /-- The call returns, or fails with an error that its unit turns into usage. -/
  | close (c : Nat)
  | cancel (c : Nat)

namespace UsageRun

/-- `_observe_usage` -/
def observeUsage (run : UsageRun) (pending : Option GenerationUsage) : UsageRun :=
  { run with observed := run.observed ++ [run.usage + pending.getD 0] }

def addUsage (run : UsageRun) (usage : GenerationUsage) : UsageRun :=
  observeUsage { run with usage := run.usage + usage } none

def newCall (run : UsageRun) (call : RoleCall) : UsageRun := { run with calls := run.calls ++ [call] }

def setCall (run : UsageRun) (c : Nat) (call : RoleCall) : UsageRun := { run with calls := run.calls.set c call }

def step (run : UsageRun) : UsageEvent → UsageRun
  | .generated none => run
  | .generated (some usage) => (run.newCall (.ended usage)).addUsage usage
  | .stream => run.newCall (.streaming none)
  | .received _ none => run
  | .received c (some usage) => (run.setCall c (.streaming usage)).observeUsage usage
  | .decide => run.newCall (.reading 0 0)
  | .reply c input output =>
    match run.calls[c]? with
    | some (.reading prompt completion) =>
      run.setCall c (.reading (prompt + input.getD 0) (completion + output.getD 0))
    | _ => run
  | .close c =>
    match run.calls[c]? with
    | some call =>
      let closed := run.setCall c (.ended call.reported)
      if call.billed then closed.addUsage call.reported else closed
    | none => run
  | .cancel c =>
    match run.calls[c]? with
    | some call => run.setCall c (.cancelled call.reported)
    | none => run

/-- The event can happen, and the usage of a streamed call does not decrease. -/
def Admits (run : UsageRun) : UsageEvent → Prop
  | .received c usage => ∃ latest, run.calls[c]? = some (.streaming latest) ∧ ∀ u ∈ usage, latest.getD 0 ≤ u
  | .reply c _ _ => ∃ prompt completion, run.calls[c]? = some (.reading prompt completion)
  | .close c | .cancel c => ∃ call, run.calls[c]? = some call ∧ call.isOpen = true
  | _ => True

/-- The condition holds at every event. -/
def Along (condition : UsageRun → UsageEvent → Prop) : UsageRun → List UsageEvent → Prop
  | _, [] => True
  | run, event :: events => condition run event ∧ Along condition (run.step event) events

def after (run : UsageRun) (events : List UsageEvent) : UsageRun := events.foldl step run

/-- The usage of the result, which comes when no call is open. -/
def result (run : UsageRun) : Option GenerationUsage :=
  if run.calls.all (!·.isOpen) then some run.usage else none

/-- The sum of what every call has reported so far. -/
def reported (run : UsageRun) : GenerationUsage := (run.calls.map RoleCall.reported).sum

def unadded (run : UsageRun) : GenerationUsage := (run.calls.map RoleCall.unadded).sum

/-- What the calls other than `c` have reported and the totals do not have. -/
def others (run : UsageRun) (c : Nat) : GenerationUsage := ((run.calls.eraseIdx c).map RoleCall.unadded).sum

/-- What an observation leaves out; an event without one leaves out what it reports. -/
def omitted (run : UsageRun) : UsageEvent → GenerationUsage
  | .generated (some _) => run.unadded
  | .received c (some _) => run.others c
  | .reply _ input output => (input.getD 0, output.getD 0, 0)
  | .close c => if run.calls[c]?.any RoleCall.billed then run.others c else 0
  | _ => 0

end UsageRun

/-! ### The owner of the stream's usage -/

structure StreamUsageOwner where
  usage : Option GenerationUsage := none

namespace StreamUsageOwner

def observe (owner : StreamUsageOwner) (usage : Option GenerationUsage) : StreamUsageOwner :=
  { owner with usage := usage.or owner.usage }

/-- `finalize` after a disconnect, with the counts `resolve_usage_counts` derives when no
    usage was observed; for a multimodal prompt there are none. -/
def finalize (owner : StreamUsageOwner) (derived : Option (Nat × Nat)) : Option (Nat × Nat) :=
  (owner.usage.map GenerationUsage.tokens).or derived

end StreamUsageOwner

namespace UsageRun

def owner (run : UsageRun) : StreamUsageOwner := run.observed.foldl (fun owner usage => owner.observe usage) {}

/-- Whatever counts would be derived, the owner records every token reported so far. -/
def Recorded (run : UsageRun) : Prop :=
  ∀ derived, run.reported.tokens ≤ (run.owner.finalize derived).getD 0

/-- What the observer is given at the event, if anything, is the sum of what every call has
    reported, and the owner records that much from then on. -/
def Exact (run : UsageRun) (event : UsageEvent) : Prop :=
  ((run.step event).observed = run.observed ∨
    (run.step event).observed = run.observed ++ [(run.step event).reported]) ∧ (run.step event).Recorded

/-! ### What one event can do -/

variable {run : UsageRun} {event : UsageEvent} {events : List UsageEvent}
  (f : RoleCall → GenerationUsage) {calls : List RoleCall} {c : Nat} {call : RoleCall}

theorem sum_eq (hc : calls[c]? = some call) : (calls.map f).sum = f call + ((calls.eraseIdx c).map f).sum := by
  obtain ⟨hlt, rfl⟩ := List.getElem?_eq_some_iff.mp hc
  exact ((getElem_cons_eraseIdx_perm hlt).map f).sum_eq.symm

theorem sum_set (hc : calls[c]? = some call) (call' : RoleCall) :
    ((calls.set c call').map f).sum = f call' + ((calls.eraseIdx c).map f).sum := by
  obtain ⟨hlt, rfl⟩ := List.getElem?_eq_some_iff.mp hc
  have hset : (calls.set c call')[c]? = some call' := by simp [hlt]
  rw [sum_eq f hset, eraseIdx_set_eq]

/-- What every call has reported is in the totals or still to be added. -/
def Accounted (run : UsageRun) : Prop := run.reported = run.usage + run.unadded

/-- An open call moves on; the totals and the other calls have the rest. -/
theorem Accounted.setCall (h : run.Accounted) (hc : run.calls[c]? = some call) (hopen : call.isOpen = true)
    (call' : RoleCall) : run.reported = call.reported + (run.usage + run.others c) ∧
      (run.setCall c call').reported = call'.reported + (run.usage + run.others c) ∧
      ∀ usage, usage + call'.unadded = run.usage + call'.reported → Accounted { run.setCall c call' with usage } := by
  have hrest : ((run.calls.eraseIdx c).map RoleCall.reported).sum = run.usage + run.others c := by
    rw [Accounted, reported, unadded, sum_eq _ hc, sum_eq _ hc, RoleCall.unadded_of_isOpen hopen, add_left_comm] at h
    exact add_left_cancel h
  have hreported : (run.setCall c call').reported = call'.reported + (run.usage + run.others c) := by
    rw [← hrest]
    exact sum_set _ hc call'
  refine ⟨?_, hreported, fun usage husage => ?_⟩
  · rw [← hrest]
    exact sum_eq _ hc
  · have hunadded : (run.setCall c call').unadded = call'.unadded + run.others c := sum_set _ hc call'
    calc (run.setCall c call').reported = run.usage + call'.reported + run.others c := by
          rw [hreported, add_left_comm, add_assoc]
      _ = usage + (run.setCall c call').unadded := by rw [← husage, hunadded, add_assoc]

theorem step_cases (h : run.Accounted) (hevent : run.Admits event) :
    (run.step event).Accounted ∧ run.reported ≤ (run.step event).reported ∧
      ((run.step event).observed = run.observed ∧ (run.step event).reported = run.reported + run.omitted event ∧
          (run.omitted event).2.2 = 0 ∨ ∃ usage, (run.step event).observed = run.observed ++ [usage] ∧
          (run.step event).reported = usage + run.omitted event) := by
  have hnew : ∀ call, (run.newCall call).reported = run.reported + call.reported ∧
      (run.newCall call).unadded = run.unadded + call.unadded := by
    simp [newCall, reported, unadded]
  cases event with
  | generated usage =>
    cases usage with
    | none => exact ⟨h, le_rfl, .inl ⟨rfl, rfl, rfl⟩⟩
    | some usage =>
      obtain ⟨hreported, hunadded⟩ := hnew (.ended usage)
      have hsum : (run.newCall (.ended usage)).reported = run.usage + usage + run.unadded := by
        rw [hreported, h, add_right_comm]
        rfl
      refine ⟨?_, ?_, .inr ⟨_, rfl, ?_⟩⟩
      · exact hsum.trans (congrArg _ hunadded.symm)
      · exact le_self_add.trans hreported.ge
      · exact hsum
  | stream =>
    obtain ⟨hreported, hunadded⟩ := hnew (.streaming none)
    exact ⟨hreported.trans (h.trans (congrArg _ hunadded.symm)), hreported.ge, .inl ⟨rfl, hreported, rfl⟩⟩
  | decide =>
    obtain ⟨hreported, hunadded⟩ := hnew (.reading 0 0)
    exact ⟨hreported.trans (h.trans (congrArg _ hunadded.symm)), hreported.ge, .inl ⟨rfl, hreported, rfl⟩⟩
  | received c usage =>
    obtain ⟨latest, hc, hgrows⟩ := hevent
    cases usage with
    | none => exact ⟨h, le_rfl, .inl ⟨rfl, rfl, rfl⟩⟩
    | some usage =>
      obtain ⟨hbefore, hreported, hacc⟩ := h.setCall hc rfl (.streaming (some usage))
      refine ⟨hacc _ rfl, ?_, .inr ⟨_, rfl, ?_⟩⟩
      · exact hbefore.le.trans ((add_le_add_left (hgrows usage rfl) _).trans hreported.ge)
      · exact hreported.trans ((add_left_comm ..).trans (add_assoc ..).symm)
  | reply c input output =>
    obtain ⟨prompt, completion, hc⟩ := hevent
    obtain ⟨hbefore, hreported, hacc⟩ :=
      h.setCall hc rfl (.reading (prompt + input.getD 0) (completion + output.getD 0))
    have hgrown : _ = run.reported + (input.getD 0, output.getD 0, 0) :=
      hreported.trans (by rw [hbefore, add_right_comm]; rfl)
    simp only [step, hc]
    exact ⟨hacc _ rfl, le_self_add.trans hgrown.ge, .inl ⟨rfl, hgrown, rfl⟩⟩
  | close c =>
    obtain ⟨call, hc, hopen⟩ := hevent
    obtain ⟨hbefore, hreported, hacc⟩ := h.setCall hc hopen (.ended call.reported)
    have hsame := hreported.trans hbefore.symm
    simp only [step, omitted, hc, Option.any_some]
    split
    · refine ⟨hacc _ rfl, hsame.ge, .inr ⟨_, rfl, ?_⟩⟩
      exact hreported.trans ((add_left_comm ..).trans (add_assoc ..).symm)
    · next hbilled =>
      have hzero := RoleCall.reported_of_not_billed hopen (Bool.eq_false_of_not_eq_true hbilled)
      exact ⟨hacc _ (congrArg _ hzero.symm), hsame.ge, .inl ⟨rfl, hsame, rfl⟩⟩
  | cancel c =>
    obtain ⟨call, hc, hopen⟩ := hevent
    obtain ⟨hbefore, hreported, hacc⟩ := h.setCall hc hopen (.cancelled call.reported)
    have hsame := hreported.trans hbefore.symm
    simp only [step, hc]
    exact ⟨hacc _ rfl, hsame.ge, .inl ⟨rfl, hsame, rfl⟩⟩

/-! ### Runs -/

theorem owner_usage (run : UsageRun) : run.owner.usage = run.observed.getLast? := by
  rw [owner]
  rcases eq_nil_or_concat run.observed with hnil | ⟨earlier, usage, hconcat⟩
  · rw [hnil]
    rfl
  · simp [hconcat, StreamUsageOwner.observe]

theorem recorded_iff : run.Recorded ↔ run.reported.tokens ≤ (run.observed.getLast?.getD 0).tokens := by
  unfold Recorded StreamUsageOwner.finalize
  rw [owner_usage]
  cases run.observed.getLast? with
  | none => exact ⟨fun h => h none, fun h _ => h.trans ⟨Nat.zero_le _, Nat.zero_le _⟩⟩
  | some usage => exact ⟨fun h => h none, fun h _ => h⟩

/-- The observer knows everything that was reported. -/
structure Told (run : UsageRun) : Prop where
  accounted : run.Accounted
  last : run.observed.getLast?.getD 0 = run.reported
  sorted : run.observed.Pairwise (· ≤ ·)
  bound : ∀ usage ∈ run.observed, usage ≤ run.reported

theorem Told.step (h : run.Told) (hevent : run.Admits event) :
    (run.Exact event ↔ run.omitted event = 0) ∧ (run.omitted event = 0 → (run.step event).Told) := by
  obtain ⟨hacc, hle, ⟨hobserved, hreported, hcached⟩ | ⟨usage, hobserved, hreported⟩⟩ := step_cases h.accounted hevent
  · have htold : (run.step event).Recorded ↔ (run.reported + run.omitted event).tokens ≤ run.reported.tokens := by
      rw [recorded_iff, hobserved, h.last, hreported]
    have hzero : (run.step event).Recorded ↔ run.omitted event = 0 := by
      rw [htold]
      simp [GenerationUsage.tokens, Prod.ext_iff, hcached]
    refine ⟨⟨fun hexact => hzero.mp hexact.2, fun hnone => ⟨.inl hobserved, hzero.mpr hnone⟩⟩, fun hnone => ?_⟩
    rw [hnone, add_zero] at hreported
    constructor
    · exact hacc
    · rw [hobserved, hreported, h.last]
    · rw [hobserved]
      exact h.sorted
    · rw [hobserved, hreported]
      exact h.bound
  · have hlast : (run.step event).observed.getLast?.getD 0 = usage := by simp [hobserved]
    constructor
    · rw [Exact, recorded_iff, hobserved, hreported]
      simp +contextual
    · intro hnone
      rw [hnone, add_zero] at hreported
      refine ⟨hacc, hlast.trans hreported.symm, ?_, ?_⟩
      · rw [hobserved, pairwise_append]
        refine ⟨h.sorted, pairwise_singleton .., fun earlier hmem last hlast => ?_⟩
        rw [mem_singleton.mp hlast, ← hreported]
        exact (h.bound earlier hmem).trans hle
      · rw [hobserved]
        intro earlier hmem
        rcases mem_append.mp hmem with hmem | hmem
        · exact (h.bound earlier hmem).trans hle
        · rw [mem_singleton.mp hmem, hreported]

theorem Told.along (h : run.Told) (hrun : Along Admits run events) :
    (Along Exact run events ↔ Along (fun run event => run.omitted event = 0) run events) ∧
      (Along (fun run event => run.omitted event = 0) run events → (run.after events).Told) := by
  induction events generalizing run with
  | nil => exact ⟨Iff.rfl, fun _ => h⟩
  | cons event events ih =>
    obtain ⟨hiff, hnext⟩ := h.step hrun.1
    refine ⟨⟨fun hexact => ?_, fun hnone => ?_⟩, fun hnone => (ih (hnext hnone.1) hrun.2).2 hnone.2⟩
    · have hzero := hiff.mp hexact.1
      exact ⟨hzero, (ih (hnext hzero) hrun.2).1.mp hexact.2⟩
    · exact ⟨hiff.mpr hnone.1, (ih (hnext hnone.1) hrun.2).1.mpr hnone.2⟩

theorem told_start : Told {} := ⟨rfl, rfl, .nil, by simp⟩

/-- **The observed usage never shrinks** and is the sum of what the calls have reported, up to
    the result and to any disconnect, iff nothing that was reported is ever left out. -/
theorem observed_usage_exact_iff (hrun : Along Admits {} events) :
    ((after {} events).observed.Pairwise (· ≤ ·) ∧ Along Exact {} events ∧
      ∀ usage, (after {} events).result = some usage → ∀ last ∈ (after {} events).observed.getLast?, last = usage) ↔
    Along (fun run event => run.omitted event = 0) {} events ∧
      ((after {} events).result.isSome → (after {} events).unadded = 0) := by
  obtain ⟨hiff, htold⟩ := told_start.along hrun
  have htotals : ∀ usage, (after {} events).result = some usage → usage = (after {} events).usage :=
    fun _ h => (Option.some.inj (Option.ite_none_right_eq_some.mp h).2).symm
  constructor
  · rintro ⟨-, hexact, hresult⟩
    have hnone := hiff.mp hexact
    refine ⟨hnone, fun hsome => ?_⟩
    obtain ⟨usage, husage⟩ := Option.isSome_iff_exists.mp hsome
    have hlast := (htold hnone).last.trans (htold hnone).accounted
    cases hget : (after {} events).observed.getLast? with
    | none =>
      rw [hget] at hlast
      exact (add_eq_zero.mp hlast.symm).2
    | some last =>
      rw [hget, hresult usage husage last hget, htotals usage husage] at hlast
      exact left_eq_add.mp hlast
  · rintro ⟨hnone, hresult⟩
    refine ⟨(htold hnone).sorted, hiff.mpr hnone, fun usage husage last hlast => ?_⟩
    have hsum := (htold hnone).last.trans (htold hnone).accounted
    rw [hlast, hresult (husage ▸ rfl)] at hsum
    exact hsum.trans (htotals usage husage).symm

/-- A streamed head that ends before the next call is observed in full. -/
theorem observed_usage_exact_serial :
    let events := [.stream, .received 0 (some (10, 5, 0)), .close 0, .generated (some (1, 1, 0))]
    Along Admits {} events ∧ Along Exact {} events := by
  have hrun : Along Admits {} [.stream, .received 0 (some (10, 5, 0)), .close 0, .generated (some (1, 1, 0))] :=
    ⟨trivial, ⟨none, rfl, by decide⟩, ⟨_, rfl, rfl⟩, trivial, trivial⟩
  exact ⟨hrun, ((observed_usage_exact_iff hrun).mpr ⟨⟨rfl, rfl, rfl, rfl, trivial⟩, fun _ => rfl⟩).2.1⟩

/-- A role call that is observed while the head is streaming takes the head's usage back,
    and an owner finalized there loses it. -/
theorem observed_usage_shrinks :
    let events := [.stream, .received 0 (some (10, 5, 0)), .generated (some (1, 1, 0)), .close 0]
    Along Admits {} events ∧ (after {} events).observed = [(10, 5, 0), (1, 1, 0), (11, 6, 0)] ∧
      (after {} events).result = some (11, 6, 0) ∧ (after {} (events.take 3)).reported = (11, 6, 0) ∧
      (after {} (events.take 3)).owner.finalize none = some (1, 1) := by
  refine ⟨⟨trivial, ⟨none, rfl, by decide⟩, trivial, ⟨_, rfl, rfl⟩, trivial⟩, rfl, rfl, rfl, rfl⟩

end UsageRun

end Kairyu
