/-
  Kairyu/SloAdmission.lean
  ========================
  **SLO admission and its feedback.**

  `AdmissionController.begin` admits a request when the predicted time to first token,
  the moving average for each interactive request in flight, is within the objective.
  Only the first tokens of admitted requests feed the average.  An average above the
  objective is therefore final as soon as no admitted request still owes its first token:
  `admission_reopens_iff` says exactly when a state can ever admit again.
-/
import Mathlib.Algebra.Order.Field.Rat
import Mathlib.Tactic.Linarith
import Mathlib.Tactic.Positivity
import Mathlib.Tactic.GCongr

namespace Kairyu

open List

/-! ### The controller -/

inductive AdmissionAction where
  /-- `"admit"` -/
  | admitted
  | shed
  | defer
deriving DecidableEq, Repr

/-- The two reasons a decision gives, with the numbers they are formatted from. -/
inductive AdmissionReason where
  | overSlo (predicted slo : ℚ)
  | overDefer (pressure threshold : ℚ)
deriving DecidableEq

structure AdmissionDecision where
  action : AdmissionAction
  predictedTtft : ℚ
  reason : Option AdmissionReason := none
deriving DecidableEq

/-- What the controller and its leases raise. -/
inductive AdmissionError where
  | valueError (message : String)
  | runtimeError (message : String)
  | assertionError (message : String)
deriving DecidableEq, Repr

/-- `_EMA_ALPHA` -/
def emaAlpha : ℚ := 1 / 5

/-- The least time to first token that is ever recorded. -/
def leastTtft : ℚ := 1 / 1000000

structure AdmissionController where
  slo : ℚ
  deferThreshold : ℚ
  slo_pos : 0 < slo
  slo_lt : slo < deferThreshold
  inFlight : Nat := 0
  interactiveInFlight : Nat := 0
  deferredInFlight : Nat := 0
  /-- An optimistic prior, updated by the first tokens observed. -/
  ttftPerUnitEma : ℚ := 1 / 100

open AdmissionController

structure AdmissionLease where
  decision : AdmissionDecision
  startedAt : Option ℚ
  concurrencyAtStart : Option Nat
  firstTokenObserved : Bool := false
  completed : Bool
deriving DecidableEq

namespace AdmissionController

/-- `AdmissionController(ttft_slo_s, defer_threshold_s)` -/
def new (slo : ℚ) (deferThreshold : Option ℚ) : Except AdmissionError AdmissionController :=
  let threshold := deferThreshold.getD (slo * 2)
  if hslo : 0 < slo then
    if hlt : slo < threshold then
      .ok { slo, deferThreshold := threshold, slo_pos := hslo, slo_lt := hlt }
    else .error (.valueError "defer_threshold_s must be finite and > ttft_slo_s")
  else .error (.valueError "ttft_slo_s must be finite and > 0")

/-- `_predicted_ttft_unlocked` -/
def predictedTtft (c : AdmissionController) (elapsed : ℚ) : ℚ :=
  elapsed + (c.interactiveInFlight + 1) * c.ttftPerUnitEma

/-- `_defer_pressure_unlocked` -/
def deferPressure (c : AdmissionController) (elapsed : ℚ) : ℚ :=
  elapsed + (c.inFlight + 1) * c.ttftPerUnitEma

/-- `_decide_unlocked` -/
def decide (c : AdmissionController) (elapsed : ℚ) : AdmissionDecision :=
  let predicted := c.predictedTtft elapsed
  if predicted ≤ c.slo then { action := .admitted, predictedTtft := predicted }
  else
    let pressure := c.deferPressure elapsed
    if pressure ≤ c.deferThreshold then
      { action := .defer, predictedTtft := predicted, reason := some (.overSlo predicted c.slo) }
    else
      { action := .shed, predictedTtft := predicted
        reason := some (.overDefer pressure c.deferThreshold) }

/-- `begin`, at this reading of the clock. -/
def start (c : AdmissionController) (elapsed now : ℚ) :
    Except AdmissionError (AdmissionLease × AdmissionController) :=
  if elapsed < 0 then .error (.valueError "elapsed_s must be finite and >= 0")
  else
    let decision := c.decide elapsed
    match decision.action with
    | .shed =>
      .ok ({ decision, startedAt := none, concurrencyAtStart := none, completed := true }, c)
    | .admitted =>
      let c := { c with
        inFlight := c.inFlight + 1, interactiveInFlight := c.interactiveInFlight + 1 }
      .ok ({ decision, startedAt := some now, concurrencyAtStart := some c.interactiveInFlight
             completed := false }, c)
    | .defer =>
      let c := { c with inFlight := c.inFlight + 1, deferredInFlight := c.deferredInFlight + 1 }
      .ok ({ decision, startedAt := some now, concurrencyAtStart := some c.inFlight
             completed := false }, c)

/-- The moving average after one time to first token for each unit. -/
def average (ema perUnit : ℚ) : ℚ := (1 - emaAlpha) * ema + emaAlpha * perUnit

/-- `_finished_first_token`, at this reading of the clock. -/
def finishedFirstToken (c : AdmissionController) (now startedAt : ℚ) (concurrencyAtStart : Nat)
    (observe : Bool) : Except AdmissionError AdmissionController :=
  if concurrencyAtStart < 1 then .error (.valueError "concurrency_at_start must be >= 1")
  else if observe then
    let perUnit := max (now - startedAt) leastTtft / concurrencyAtStart
    .ok { c with ttftPerUnitEma := average c.ttftPerUnitEma perUnit }
  else .ok c

/-- `_completed` -/
def release (c : AdmissionController) (action : AdmissionAction) :
    Except AdmissionError AdmissionController :=
  if c.inFlight < 1 then .error (.runtimeError "cannot complete with no in-flight request")
  else
    match action with
    | .admitted =>
      if c.interactiveInFlight < 1 then
        .error (.runtimeError "cannot complete with no interactive in-flight request")
      else
        .ok { c with interactiveInFlight := c.interactiveInFlight - 1, inFlight := c.inFlight - 1 }
    | .defer =>
      if c.deferredInFlight < 1 then
        .error (.runtimeError "cannot complete with no deferred in-flight request")
      else .ok { c with deferredInFlight := c.deferredInFlight - 1, inFlight := c.inFlight - 1 }
    | .shed => .error (.valueError "cannot complete admission action 'shed'")

end AdmissionController

namespace AdmissionLease

/-- `finished_first_token` -/
def finishedFirstToken (lease : AdmissionLease) (c : AdmissionController) (now : ℚ) :
    Except AdmissionError (AdmissionLease × AdmissionController) :=
  if lease.completed then .error (.runtimeError "cannot observe first token after completion")
  else if lease.firstTokenObserved then .error (.runtimeError "first token already observed")
  else
    match lease.startedAt, lease.concurrencyAtStart with
    | some startedAt, some concurrency =>
      match c.finishedFirstToken now startedAt concurrency (lease.decision.action == .admitted) with
      | .error error => .error error
      | .ok c => .ok ({ lease with firstTokenObserved := true }, c)
    | _, _ => .error (.assertionError "active admission lease has no start state")

/-- `completed` -/
def complete (lease : AdmissionLease) (c : AdmissionController) :
    Except AdmissionError (AdmissionLease × AdmissionController) :=
  if lease.completed then .error (.runtimeError "admission lease already completed")
  else
    match c.release lease.decision.action with
    | .error error => .error error
    | .ok c => .ok ({ lease with completed := true }, c)

end AdmissionLease

/-! ### Runs -/

/-- A controller and the leases it gave out, in order. -/
structure SloGateway where
  controller : AdmissionController
  leases : List AdmissionLease := []

/-- A call, with the reading of the clock it makes; leases are named by their position. -/
inductive SloCall where
  | start (elapsed now : ℚ)
  | finishedFirstToken (lease : Nat) (now : ℚ)
  | completed (lease : Nat)

namespace SloGateway

/-- A call of a lease; one that raises changes nothing. -/
def onLease (g : SloGateway) (i : Nat)
    (f : AdmissionLease → Except AdmissionError (AdmissionLease × AdmissionController)) : SloGateway :=
  match g.leases[i]? with
  | none => g
  | some lease =>
    match f lease with
    | .error _ => g
    | .ok (lease, controller) => ⟨controller, g.leases.set i lease⟩

def step (g : SloGateway) : SloCall → SloGateway
  | .start elapsed now =>
    match g.controller.start elapsed now with
    | .error _ => g
    | .ok (lease, controller) => ⟨controller, g.leases ++ [lease]⟩
  | .finishedFirstToken i now => g.onLease i (·.finishedFirstToken g.controller now)
  | .completed i => g.onLease i (·.complete g.controller)

/-- The call is a `begin` that admits. -/
def Admits (g : SloGateway) : SloCall → Prop
  | .start elapsed now => ∃ lease c, g.controller.start elapsed now = .ok (lease, c) ∧
      lease.decision.action = .admitted
  | _ => False

/-- What is reached from a new controller through `begin` and the leases. -/
inductive Reachable (c : AdmissionController) : SloGateway → Prop where
  | new : Reachable c ⟨c, []⟩
  | step {g : SloGateway} (h : Reachable c g) (call : SloCall) : Reachable c (g.step call)

/-- A call of a continuation: a `begin(0)`, a first token or a completion. -/
def SloCall.Continues : SloCall → Prop
  | .start elapsed _ => elapsed = 0
  | _ => True

/-- Some continuation ends with a `begin(0)` that admits. -/
def Reopens (g : SloGateway) : Prop :=
  ∃ calls last, (∀ call ∈ calls ++ [last], SloCall.Continues call) ∧
    Admits (calls.foldl step g) last

end SloGateway

/-! ### What a call does -/

namespace AdmissionController

variable {c c' : AdmissionController} {lease : AdmissionLease} {elapsed now : ℚ}

theorem start_admitted (h : c.start elapsed now = .ok (lease, c')) (hadmitted : lease.decision.action = .admitted) :
    0 ≤ elapsed ∧ c.predictedTtft elapsed ≤ c.slo := by
  simp only [start] at h
  split at h
  · exact nomatch h
  · next helapsed =>
    refine ⟨not_lt.mp helapsed, ?_⟩
    by_contra hover
    simp only [decide] at h
    split_ifs at h <;> obtain ⟨rfl, -⟩ := Prod.mk.inj (Except.ok.inj h) <;> exact nomatch hadmitted

/-- A lease that is not admitted leaves the average, and the lease owes nothing. -/
theorem start_ok (h : c.start elapsed now = .ok (lease, c')) :
    c'.slo = c.slo ∧ c'.ttftPerUnitEma = c.ttftPerUnitEma ∧ lease.firstTokenObserved = false ∧
      ((lease.decision.action = .shed ∧ lease.completed = true ∧ c' = c) ∨
        (lease.decision.action = .admitted ∧ lease.completed = false ∧ lease.startedAt = some now ∧
          lease.concurrencyAtStart = some (c.interactiveInFlight + 1) ∧
          c' = { c with inFlight := c.inFlight + 1, interactiveInFlight := c.interactiveInFlight + 1 }) ∨
        (lease.decision.action = .defer ∧ lease.completed = false ∧ lease.startedAt = some now ∧
          lease.concurrencyAtStart = some (c.inFlight + 1) ∧
          c' = { c with inFlight := c.inFlight + 1, deferredInFlight := c.deferredInFlight + 1 })) := by
  simp only [start] at h
  split at h
  · exact nomatch h
  · split at h <;> next haction =>
      obtain ⟨rfl, rfl⟩ := Prod.mk.inj (Except.ok.inj h)
      simp [haction]

theorem release_ok {action : AdmissionAction} (h : c.release action = .ok c') :
    c'.slo = c.slo ∧ c'.ttftPerUnitEma = c.ttftPerUnitEma ∧ 1 ≤ c.inFlight ∧
      ((action = .admitted ∧ 1 ≤ c.interactiveInFlight ∧
          c' = { c with interactiveInFlight := c.interactiveInFlight - 1, inFlight := c.inFlight - 1 }) ∨
        (action = .defer ∧ 1 ≤ c.deferredInFlight ∧
          c' = { c with deferredInFlight := c.deferredInFlight - 1, inFlight := c.inFlight - 1 })) := by
  simp only [release] at h
  split at h
  · exact nomatch h
  · next hflight =>
    split at h
    · split at h
      · exact nomatch h
      · next hinteractive =>
        cases h
        exact ⟨rfl, rfl, not_lt.mp hflight, .inl ⟨rfl, not_lt.mp hinteractive, rfl⟩⟩
    · split at h
      · exact nomatch h
      · next hdeferred =>
        cases h
        exact ⟨rfl, rfl, not_lt.mp hflight, .inr ⟨rfl, not_lt.mp hdeferred, rfl⟩⟩
    · exact nomatch h

theorem average_mono {e e' p p' : ℚ} (he : e ≤ e') (hp : p ≤ p') : average e p ≤ average e' p' := by
  have hα : 0 ≤ emaAlpha ∧ 0 ≤ 1 - emaAlpha := by norm_num [emaAlpha]
  exact add_le_add (mul_le_mul_of_nonneg_left he hα.2) (mul_le_mul_of_nonneg_left hp hα.1)

theorem average_nonneg {e p : ℚ} (he : 0 ≤ e) (hp : 0 ≤ p) : 0 ≤ average e p := by
  have hzero : average 0 0 = 0 := by norm_num [average]
  exact hzero ▸ average_mono he hp

end AdmissionController

namespace AdmissionLease

variable {c c' : AdmissionController} {lease lease' : AdmissionLease} {now : ℚ}

theorem finishedFirstToken_ok (h : lease.finishedFirstToken c now = .ok (lease', c')) :
    lease.completed = false ∧ lease.firstTokenObserved = false ∧
      lease' = { lease with firstTokenObserved := true } ∧
      ∃ startedAt k, lease.startedAt = some startedAt ∧ lease.concurrencyAtStart = some k ∧ 1 ≤ k ∧
        c' = if lease.decision.action = .admitted then
            { c with
              ttftPerUnitEma := average c.ttftPerUnitEma
                (max (now - startedAt) leastTtft / k) }
          else c := by
  simp only [finishedFirstToken] at h
  split at h
  · exact nomatch h
  · next hcompleted =>
    split at h
    · exact nomatch h
    · next hobserved =>
      refine ⟨by simpa using hcompleted, by simpa using hobserved, ?_⟩
      split at h
      · next startedAt k hstarted hk =>
        simp only [AdmissionController.finishedFirstToken] at h
        split_ifs at h with hk' hadmitted <;> simp only [Except.ok.injEq] at h <;>
          obtain ⟨rfl, rfl⟩ := h
        · exact ⟨rfl, startedAt, k, hstarted, hk, not_lt.mp hk', by simp_all⟩
        · exact ⟨rfl, startedAt, k, hstarted, hk, not_lt.mp hk', by simp_all⟩
      · exact nomatch h

theorem complete_ok (h : lease.complete c = .ok (lease', c')) :
    lease.completed = false ∧ lease' = { lease with completed := true } ∧
      c.release lease.decision.action = .ok c' := by
  simp only [complete] at h
  split at h
  · exact nomatch h
  · next hcompleted =>
    cases hrelease : c.release lease.decision.action with
    | error error => simp [hrelease] at h
    | ok c1 =>
      simp only [hrelease] at h
      obtain ⟨rfl, rfl⟩ := h
      exact ⟨by simpa using hcompleted, rfl, rfl⟩

end AdmissionLease

/-! ### States that can admit again -/

namespace SloGateway

open AdmissionController

variable {c : AdmissionController} {g : SloGateway} {call : SloCall} {i : Nat}

/-- The lease was admitted, is active and has not reported its first token. -/
def Owes (g : SloGateway) (i : Nat) : Prop :=
  ∃ lease, g.leases[i]? = some lease ∧ lease.completed = false ∧
    lease.firstTokenObserved = false ∧ lease.decision.action = .admitted

def concurrency (g : SloGateway) (i : Nat) : Nat := (g.leases[i]?.bind (·.concurrencyAtStart)).getD 1

/-- The average after first tokens of these leases with the least delay there is. -/
def bestEma (g : SloGateway) (owing : List Nat) : ℚ :=
  owing.foldl (fun ema i => average ema (leastTtft / g.concurrency i)) g.controller.ttftPerUnitEma

/-- The first tokens that admitted leases still owe can bring the average down to the
    objective. -/
def Recoverable (g : SloGateway) : Prop :=
  ∃ owing : List Nat, owing.Nodup ∧ (∀ i ∈ owing, g.Owes i) ∧ g.bestEma owing ≤ g.controller.slo

theorem foldl_average_mono (f : Nat → ℚ) (owing : List Nat) {e e' : ℚ} (h : e ≤ e') :
    owing.foldl (fun ema i => average ema (f i)) e ≤ owing.foldl (fun ema i => average ema (f i)) e' := by
  induction owing generalizing e e' with
  | nil => exact h
  | cons i rest ih => exact ih (average_mono h le_rfl)

theorem bestEma_mono {g' : SloGateway} {owing : List Nat}
    (hema : g.controller.ttftPerUnitEma ≤ g'.controller.ttftPerUnitEma)
    (hsame : ∀ i ∈ owing, g'.concurrency i = g.concurrency i) : g.bestEma owing ≤ g'.bestEma owing := by
  have heq : g'.bestEma owing =
      owing.foldl (fun ema i => average ema (leastTtft / g.concurrency i)) g'.controller.ttftPerUnitEma := by
    refine foldl_ext _ _ _ fun ema i hi => ?_
    rw [hsame i hi]
  rw [heq]
  exact foldl_average_mono _ owing hema

/-- A state with no lower average and no more leases that owe is no better. -/
theorem Recoverable.of_le {g' : SloGateway} (h : g'.Recoverable) (hslo : g'.controller.slo = g.controller.slo)
    (hema : g.controller.ttftPerUnitEma ≤ g'.controller.ttftPerUnitEma)
    (howes : ∀ i, g'.Owes i → g.Owes i ∧ g'.concurrency i = g.concurrency i) : g.Recoverable := by
  obtain ⟨owing, hnodup, hall, hbest⟩ := h
  refine ⟨owing, hnodup, fun i hi => (howes i (hall i hi)).1, ?_⟩
  exact (bestEma_mono hema fun i hi => (howes i (hall i hi)).2).trans (hslo ▸ hbest)

theorem onLease_cases (g : SloGateway) (i : Nat)
    (f : AdmissionLease → Except AdmissionError (AdmissionLease × AdmissionController)) :
    g.onLease i f = g ∨ ∃ lease lease' c', g.leases[i]? = some lease ∧ f lease = .ok (lease', c') ∧
      g.onLease i f = ⟨c', g.leases.set i lease'⟩ := by
  simp only [onLease]
  cases hlease : g.leases[i]? with
  | none => exact .inl rfl
  | some lease =>
    cases hf : f lease with
    | error error => exact .inl (by simp [hf])
    | ok result => exact .inr ⟨lease, result.1, result.2, rfl, hf, by simp [hf]⟩

variable {lease lease' : AdmissionLease} {leases : List AdmissionLease}

/-- What changes of a lease that is written back. -/
theorem getElem?_set_of_some (h : leases[i]? = some lease) (j : Nat) :
    (leases.set i lease')[j]? = if i = j then some lease' else leases[j]? := by
  grind

variable {c' : AdmissionController}

theorem owes_of_set {j : Nat} (h : g.leases[i]? = some lease)
    (howes : (⟨c', g.leases.set i lease'⟩ : SloGateway).Owes j)
    (hlease : ¬ (lease'.completed = false ∧ lease'.firstTokenObserved = false)) : i ≠ j ∧ g.Owes j := by
  obtain ⟨lease1, hlease1, hactive, hobserved, hadmitted⟩ := howes
  rw [getElem?_set_of_some h] at hlease1
  split at hlease1
  · cases hlease1
    exact absurd ⟨hactive, hobserved⟩ hlease
  · next hne => exact ⟨hne, lease1, hlease1, hactive, hobserved, hadmitted⟩

theorem concurrency_set (h : g.leases[i]? = some lease)
    (hconcurrency : lease'.concurrencyAtStart = lease.concurrencyAtStart) (j : Nat) :
    (⟨c', g.leases.set i lease'⟩ : SloGateway).concurrency j = g.concurrency j := by
  simp only [concurrency, getElem?_set_of_some h]
  split
  · next heq =>
    subst heq
    simp [h, hconcurrency]
  · rfl

variable {now elapsed : ℚ}

/-- A `begin` that does not admit gives out no lease that owes. -/
theorem recoverable_of_start (hadmits : ¬ g.Admits (.start elapsed now))
    (h : (g.step (.start elapsed now)).Recoverable) : g.Recoverable := by
  simp only [step] at h
  cases hstart : g.controller.start elapsed now with
  | error error => simpa [hstart] using h
  | ok result =>
    obtain ⟨lease, c'⟩ := result
    obtain ⟨hslo, hema, -⟩ := start_ok hstart
    rw [hstart] at h
    refine h.of_le hslo hema.ge ?_
    rintro i ⟨lease1, hlease1, hactive, hobserved, hadmitted⟩
    have hlt : i < g.leases.length := by
      by_contra hge
      have : lease1 = lease := by grind
      exact hadmits ⟨lease, c', hstart, this ▸ hadmitted⟩
    have hsame : (g.leases ++ [lease])[i]? = g.leases[i]? := List.getElem?_append_left hlt
    exact ⟨⟨lease1, hsame ▸ hlease1, hactive, hobserved, hadmitted⟩, by simp only [concurrency, hsame]⟩

theorem recoverable_of_firstToken (h : (g.step (.finishedFirstToken i now)).Recoverable) : g.Recoverable := by
  simp only [step] at h
  rcases onLease_cases g i (·.finishedFirstToken g.controller now) with heq | ⟨lease, lease', c', hlease, hok, heq⟩
  · rwa [heq] at h
  · obtain ⟨hactive, hobserved, rfl, startedAt, k, hstarted, hk, hpos, rfl⟩ :=
      AdmissionLease.finishedFirstToken_ok hok
    by_cases hadmitted : lease.decision.action = .admitted
    · rw [heq, if_pos hadmitted] at h
      -- The lease owed its first token: it is the first of those that bring the average down.
      obtain ⟨owing, hnodup, hall, hbest⟩ := h
      have howes : ∀ j ∈ owing, i ≠ j ∧ g.Owes j := fun j hj =>
        owes_of_set hlease (hall j hj) (by simp)
      refine ⟨i :: owing, nodup_cons.mpr ⟨fun hi => (howes i hi).1 rfl, hnodup⟩, ?_, ?_⟩
      · intro j hj
        rcases mem_cons.mp hj with rfl | hj
        · exact ⟨lease, hlease, hactive, hobserved, hadmitted⟩
        · exact (howes j hj).2
      · have hconcurrency : g.concurrency i = k := by simp [concurrency, hlease, hk]
        have hstep : average g.controller.ttftPerUnitEma (leastTtft / g.concurrency i) ≤
            average g.controller.ttftPerUnitEma (max (now - startedAt) leastTtft / k) := by
          rw [hconcurrency]
          exact average_mono le_rfl (by gcongr; exact le_max_right _ _)
        have hrest : g.bestEma (i :: owing) ≤ _ := foldl_average_mono _ owing hstep
        refine hrest.trans (le_of_eq_of_le ?_ hbest)
        refine foldl_ext _ _ _ fun ema j _ => ?_
        exact congrArg (fun n : Nat => average ema (leastTtft / n)) (concurrency_set hlease (by rfl) j).symm
    · rw [heq, if_neg hadmitted] at h
      exact h.of_le rfl le_rfl fun j hj => ⟨(owes_of_set hlease hj (by simp)).2, concurrency_set hlease (by rfl) j⟩

theorem recoverable_of_completed (h : (g.step (.completed i)).Recoverable) : g.Recoverable := by
  simp only [step] at h
  rcases onLease_cases g i (·.complete g.controller) with heq | ⟨lease, lease', c', hlease, hok, heq⟩
  · rwa [heq] at h
  · obtain ⟨-, rfl, hrelease⟩ := AdmissionLease.complete_ok hok
    obtain ⟨hslo, hema, -⟩ := release_ok hrelease
    rw [heq] at h
    exact h.of_le hslo hema.ge fun j hj => ⟨(owes_of_set hlease hj (by simp)).2, concurrency_set hlease (by rfl) j⟩

/-- **One call** that does not admit makes no state recoverable that was not. -/
theorem recoverable_of_step (hadmits : ¬ g.Admits call) (h : (g.step call).Recoverable) : g.Recoverable := by
  cases call with
  | start elapsed now => exact recoverable_of_start hadmits h
  | finishedFirstToken i now => exact recoverable_of_firstToken h
  | completed i => exact recoverable_of_completed h

section

variable (hema : 0 ≤ g.controller.ttftPerUnitEma)
include hema

/-- A state that admits has its average within the objective. -/
theorem recoverable_of_admits (h : g.Admits call) : g.Recoverable := by
  cases call with
  | start elapsed now =>
    obtain ⟨lease, c', hstart, hadmitted⟩ := h
    obtain ⟨helapsed, hpredicted⟩ := start_admitted hstart hadmitted
    refine ⟨[], nodup_nil, by simp, ?_⟩
    have hmany : g.controller.ttftPerUnitEma ≤
        (g.controller.interactiveInFlight + 1) * g.controller.ttftPerUnitEma :=
      le_mul_of_one_le_left hema (by simp)
    simp only [predictedTtft] at hpredicted
    simp only [bestEma, foldl_nil]
    linarith
  | finishedFirstToken => exact h.elim
  | completed => exact h.elim

theorem step_ema_nonneg (call : SloCall) : 0 ≤ (g.step call).controller.ttftPerUnitEma := by
  cases call with
  | start elapsed now =>
    simp only [step]
    split
    · exact hema
    · next hstart =>
      obtain ⟨-, hsame, -⟩ := start_ok hstart
      exact hsame ▸ hema
  | finishedFirstToken i now =>
    simp only [step]
    rcases onLease_cases g i (·.finishedFirstToken g.controller now) with heq | ⟨lease, lease', c', -, hok, heq⟩
    · rwa [heq]
    · obtain ⟨-, -, -, startedAt, k, -, -, -, rfl⟩ := AdmissionLease.finishedFirstToken_ok hok
      rw [heq]
      have hobserved : 0 ≤ max (now - startedAt) leastTtft :=
        le_max_of_le_right (by norm_num [leastTtft])
      split
      · exact average_nonneg hema (by positivity)
      · exact hema
  | completed i =>
    simp only [step]
    rcases onLease_cases g i (·.complete g.controller) with heq | ⟨lease, lease', c', -, hok, heq⟩
    · rwa [heq]
    · obtain ⟨-, -, hrelease⟩ := AdmissionLease.complete_ok hok
      obtain ⟨-, hsame, -⟩ := release_ok hrelease
      rw [heq]
      exact hsame ▸ hema

theorem recoverable_of_reopens (h : g.Reopens) : g.Recoverable := by
  obtain ⟨calls, last, -, hadmits⟩ := h
  induction calls generalizing g with
  | nil => exact recoverable_of_admits hema hadmits
  | cons call rest ih =>
    by_cases hnow : g.Admits call
    · exact recoverable_of_admits hema hnow
    · exact recoverable_of_step hnow (ih (step_ema_nonneg hema call) hadmits)

end

/-! ### Reaching an admission -/

/-- The lease is active and was decided like this. -/
def isActive (action : AdmissionAction) (lease : AdmissionLease) : Bool :=
  !lease.completed && lease.decision.action == action

/-- The counters are those of the active leases, and each of them has its start state. -/
structure Counted (g : SloGateway) : Prop where
  interactive : g.controller.interactiveInFlight = g.leases.countP (isActive .admitted)
  deferred : g.controller.deferredInFlight = g.leases.countP (isActive .defer)
  total : g.controller.inFlight = g.controller.interactiveInFlight + g.controller.deferredInFlight
  started : ∀ lease ∈ g.leases, lease.completed = false → lease.decision.action ≠ .shed ∧
    ∃ startedAt k, lease.startedAt = some startedAt ∧ lease.concurrencyAtStart = some k ∧ 1 ≤ k

theorem countP_set_eq {p : AdmissionLease → Bool} {lease : AdmissionLease}
    (h : leases[i]? = some lease) (lease' : AdmissionLease) :
    (leases.set i lease').countP p + (if p lease then 1 else 0) = leases.countP p + if p lease' then 1 else 0 := by
  obtain ⟨hlt, rfl⟩ := List.getElem?_eq_some_iff.mp h
  have hpos : p leases[i] = true → 0 < leases.countP p := fun hp =>
    countP_pos_iff.mpr ⟨leases[i], getElem_mem hlt, hp⟩
  rw [countP_set hlt]
  split_ifs with hp hp' hp' <;> simp_all

section

variable (h : g.Counted)
include h

theorem counted_start : (g.step (.start elapsed now)).Counted := by
  simp only [step]
  split
  · exact h
  · next lease c' hstart =>
    obtain ⟨-, -, -, hcases⟩ := start_ok hstart
    rcases hcases with ⟨haction, hcompleted, rfl⟩ | ⟨haction, hcompleted, hstarted, hk, rfl⟩ |
      ⟨haction, hcompleted, hstarted, hk, rfl⟩
    · refine ⟨?_, ?_, h.total, ?_⟩
      · simp [isActive, haction, h.interactive]
      · simp [isActive, haction, h.deferred]
      · intro lease1 hmem hactive
        rcases mem_append.mp hmem with hmem | hmem
        · exact h.started lease1 hmem hactive
        · rw [mem_singleton.mp hmem, hcompleted] at hactive
          exact nomatch hactive
    all_goals
      have htotal := h.total
      refine ⟨?_, ?_, by simp only; omega, ?_⟩
      · simp [isActive, haction, hcompleted, h.interactive]
      · simp [isActive, haction, hcompleted, h.deferred]
      · intro lease1 hmem hactive
        rcases mem_append.mp hmem with hmem | hmem
        · exact h.started lease1 hmem hactive
        · rw [mem_singleton.mp hmem]
          exact ⟨by simp [haction], now, _, hstarted, hk, by omega⟩

theorem counted_firstToken : (g.step (.finishedFirstToken i now)).Counted := by
  simp only [step]
  rcases onLease_cases g i (·.finishedFirstToken g.controller now) with heq | ⟨lease, lease', c', hlease, hok, heq⟩
  · rwa [heq]
  · obtain ⟨hactive, hobserved, rfl, startedAt, k, hstarted, hk, hpos, hc'⟩ :=
      AdmissionLease.finishedFirstToken_ok hok
    have hcounters : c'.interactiveInFlight = g.controller.interactiveInFlight ∧
        c'.deferredInFlight = g.controller.deferredInFlight ∧ c'.inFlight = g.controller.inFlight := by
      rw [hc']
      split <;> simp
    obtain ⟨hinteractive, hdeferred, htotal⟩ := hcounters
    have hcount : ∀ action, (g.leases.set i { lease with firstTokenObserved := true }).countP
        (isActive action) = g.leases.countP (isActive action) := by
      intro action
      have hset := countP_set_eq (p := isActive action) hlease { lease with firstTokenObserved := true }
      have hsame : isActive action { lease with firstTokenObserved := true } = isActive action lease := rfl
      rw [hsame] at hset
      omega
    rw [heq]
    refine ⟨?_, ?_, ?_, ?_⟩
    · rw [hinteractive, hcount, h.interactive]
    · rw [hdeferred, hcount, h.deferred]
    · rw [htotal, hinteractive, hdeferred, h.total]
    · intro lease1 hmem hactive1
      rcases mem_or_eq_of_mem_set hmem with hmem | rfl
      · exact h.started lease1 hmem hactive1
      · exact h.started lease (mem_of_getElem? hlease) hactive

/-- An active lease completes, and nothing else changes. -/
theorem step_completed {lease : AdmissionLease} (hlease : g.leases[i]? = some lease)
    (hactive : lease.completed = false) :
    ∃ c', g.step (.completed i) = ⟨c', g.leases.set i { lease with completed := true }⟩ ∧
      g.controller.release lease.decision.action = .ok c' := by
  have hmem := mem_of_getElem? hlease
  obtain ⟨hshed, -⟩ := h.started lease hmem hactive
  have htotal := h.total
  obtain ⟨c', hrelease⟩ : ∃ c', g.controller.release lease.decision.action = .ok c' := by
    have hpos : 0 < g.leases.countP (isActive lease.decision.action) :=
      countP_pos_iff.mpr ⟨lease, hmem, by simp [isActive, hactive]⟩
    cases haction : lease.decision.action with
    | shed => exact absurd haction hshed
    | admitted =>
      rw [haction, ← h.interactive] at hpos
      simp only [release]
      rw [if_neg (by omega), if_neg (by omega)]
      exact ⟨_, rfl⟩
    | defer =>
      rw [haction, ← h.deferred] at hpos
      simp only [release]
      rw [if_neg (by omega), if_neg (by omega)]
      exact ⟨_, rfl⟩
  refine ⟨c', ?_, hrelease⟩
  simp [step, onLease, hlease, AdmissionLease.complete, hactive, hrelease]

theorem counted_completed : (g.step (.completed i)).Counted := by
  simp only [step]
  rcases onLease_cases g i (·.complete g.controller) with heq | ⟨lease, lease', c', hlease, hok, heq⟩
  · rwa [heq]
  · obtain ⟨hactive, rfl, hrelease⟩ := AdmissionLease.complete_ok hok
    have hcount : ∀ action, (g.leases.set i { lease with completed := true }).countP (isActive action) +
        (if isActive action lease then 1 else 0) = g.leases.countP (isActive action) := by
      intro action
      have hset := countP_set_eq (p := isActive action) hlease { lease with completed := true }
      simpa [isActive] using hset
    have hadmitted := hcount .admitted
    have hdefer := hcount .defer
    obtain ⟨hinteractive, hdeferred, htotal, hstarted⟩ := h
    rw [heq]
    obtain ⟨-, -, hflight, ⟨haction, hpos, rfl⟩ | ⟨haction, hpos, rfl⟩⟩ := release_ok hrelease
    all_goals
      simp only [isActive, hactive, haction] at hadmitted hdefer
      refine ⟨?_, ?_, ?_, ?_⟩
      · simp at hadmitted ⊢
        omega
      · simp at hdefer ⊢
        omega
      · simp only
        omega
      · intro lease1 hmem hactive1
        rcases mem_or_eq_of_mem_set hmem with hmem | rfl
        · exact hstarted lease1 hmem hactive1
        · exact nomatch hactive1

theorem step_counted (call : SloCall) : (g.step call).Counted := by
  cases call with
  | start elapsed now => exact counted_start h
  | finishedFirstToken i now => exact counted_firstToken h
  | completed i => exact counted_completed h

end

/-- A controller nothing has gone through. -/
def Fresh (c : AdmissionController) : Prop :=
  c.inFlight = 0 ∧ c.interactiveInFlight = 0 ∧ c.deferredInFlight = 0 ∧ 0 ≤ c.ttftPerUnitEma

theorem Reachable.counted (hfresh : Fresh c) (h : Reachable c g) : g.Counted := by
  induction h with
  | new =>
    obtain ⟨htotal, hinteractive, hdeferred, -⟩ := hfresh
    exact ⟨by simpa using hinteractive, by simpa using hdeferred, by simp [*], by simp⟩
  | step _ call ih => exact step_counted ih call

theorem Reachable.ema_nonneg (hfresh : Fresh c) (h : Reachable c g) : 0 ≤ g.controller.ttftPerUnitEma := by
  induction h with
  | new => exact hfresh.2.2.2
  | step _ call ih => exact step_ema_nonneg ih call

/-- Completing the first `n` leases changes no average. -/
theorem complete_all (h : g.Counted) (n : Nat) : let g' := ((List.range n).map SloCall.completed).foldl step g
    g'.Counted ∧ g'.controller.slo = g.controller.slo ∧
      g'.controller.ttftPerUnitEma = g.controller.ttftPerUnitEma ∧ g'.leases.length = g.leases.length ∧
      ∀ i < n, ∀ lease, g'.leases[i]? = some lease → lease.completed = true := by
  induction n with
  | zero => exact ⟨h, rfl, rfl, rfl, by simp⟩
  | succ n ih =>
    obtain ⟨hcounted, hslo, hema, hlength, hdone⟩ := ih
    simp only [range_succ, map_append, foldl_append, map_singleton, foldl_cons, foldl_nil]
    generalize ((List.range n).map SloCall.completed).foldl step g = g1 at *
    refine ⟨step_counted hcounted _, ?_⟩
    by_cases hopen : ∃ lease, g1.leases[n]? = some lease ∧ lease.completed = false
    · obtain ⟨lease, hlease, hactive⟩ := hopen
      obtain ⟨c', heq, hrelease⟩ := step_completed hcounted hlease hactive
      obtain ⟨hslo', hema', -⟩ := release_ok hrelease
      rw [heq]
      refine ⟨hslo'.trans hslo, hema'.trans hema, by simpa using hlength, fun i hi lease1 hi' => ?_⟩
      rw [getElem?_set_of_some hlease] at hi'
      split at hi'
      · cases hi'
        rfl
      · next hne => exact hdone i (by omega) lease1 hi'
    · have hsame : g1.step (.completed n) = g1 := by
        rcases onLease_cases g1 n (·.complete g1.controller) with heq | ⟨lease, _, _, hlease, hok, _⟩
        · exact heq
        · exact absurd ⟨lease, hlease, (AdmissionLease.complete_ok hok).1⟩ hopen
      rw [hsame]
      refine ⟨hslo, hema, hlength, fun i hi lease hi' => ?_⟩
      rcases Nat.lt_succ_iff_lt_or_eq.mp hi with hi | rfl
      · exact hdone i hi lease hi'
      · exact Bool.eq_true_of_not_eq_false fun hactive => hopen ⟨lease, hi', hactive⟩

/-- With every lease completed, a `begin(0)` admits when the average is within the
    objective. -/
theorem reopens_of_ema_le (h : g.Counted) (hema : g.controller.ttftPerUnitEma ≤ g.controller.slo) : g.Reopens := by
  obtain ⟨hcounted, hslo, hsame, hlength, hdone⟩ := complete_all h g.leases.length
  refine ⟨(List.range g.leases.length).map .completed, .start 0 0, ?_, ?_⟩
  · intro call hcall
    rcases mem_append.mp hcall with hcall | hcall
    · obtain ⟨i, -, rfl⟩ := mem_map.mp hcall
      trivial
    · rw [mem_singleton.mp hcall]
      rfl
  · generalize ((List.range g.leases.length).map SloCall.completed).foldl step g = g' at *
    have hnone : g'.controller.interactiveInFlight = 0 := by
      rw [hcounted.interactive, countP_eq_zero]
      intro lease hmem
      obtain ⟨i, hi, hlease⟩ := mem_iff_getElem.mp hmem
      have := hdone i (hlength ▸ hi) lease (by rw [List.getElem?_eq_getElem hi, hlease])
      simp [isActive, this]
    have hpredicted : g'.controller.predictedTtft 0 ≤ g'.controller.slo := by
      simp only [predictedTtft, hnone, hslo, hsame]
      simpa using hema
    have hdecide : g'.controller.decide 0 =
        { action := .admitted, predictedTtft := g'.controller.predictedTtft 0 } := by
      simp [AdmissionController.decide, hpredicted]
    simp only [Admits, start, hdecide]
    exact ⟨_, _, rfl, rfl⟩

/-- The first token of a lease that owes it, with the least delay. -/
theorem step_firstToken (h : g.Counted) (howes : g.Owes i) : ∃ now, let g' := g.step (.finishedFirstToken i now)
      g'.controller.slo = g.controller.slo ∧
      g'.controller.ttftPerUnitEma =
        average g.controller.ttftPerUnitEma (leastTtft / g.concurrency i) ∧
      ∀ j, g'.concurrency j = g.concurrency j ∧ (i ≠ j → g.Owes j → g'.Owes j) := by
  obtain ⟨lease, hlease, hactive, hobserved, hadmitted⟩ := howes
  obtain ⟨-, startedAt, k, hstarted, hk, hpos⟩ :=
    h.started lease (mem_of_getElem? hlease) hactive
  have hconcurrency : g.concurrency i = k := by simp [concurrency, hlease, hk]
  have hleast : max 0 leastTtft = leastTtft := max_eq_right (by norm_num [leastTtft])
  have heq : g.step (.finishedFirstToken i startedAt) =
      ⟨{ g.controller with
          ttftPerUnitEma := average g.controller.ttftPerUnitEma (leastTtft / g.concurrency i) },
        g.leases.set i { lease with firstTokenObserved := true }⟩ := by
    have hk' : ¬ k < 1 := by omega
    simp [step, onLease, hlease, AdmissionLease.finishedFirstToken, hactive, hobserved, hstarted, hk,
      finishedFirstToken, hk', hadmitted, hleast, hconcurrency]
  refine ⟨startedAt, ?_⟩
  simp only [heq]
  refine ⟨trivial, trivial, fun j => ⟨concurrency_set hlease (by rfl) j, fun hne howes => ?_⟩⟩
  obtain ⟨lease1, hlease1, hrest⟩ := howes
  exact ⟨lease1, by rw [getElem?_set_of_some hlease, if_neg hne, hlease1], hrest⟩

theorem reopens_of_recoverable (h : g.Counted) (hrecoverable : g.Recoverable) : g.Reopens := by
  obtain ⟨owing, hnodup, hall, hbest⟩ := hrecoverable
  induction owing generalizing g with
  | nil => exact reopens_of_ema_le h hbest
  | cons i rest ih =>
    obtain ⟨hi, hnodup⟩ := nodup_cons.mp hnodup
    obtain ⟨now, hslo, hema, hkeep⟩ := step_firstToken h (hall i mem_cons_self)
    have howes : ∀ j ∈ rest, (g.step (.finishedFirstToken i now)).Owes j := fun j hj =>
      (hkeep j).2 (fun heq => hi (heq ▸ hj)) (hall j (mem_cons_of_mem i hj))
    have hrest : (g.step (.finishedFirstToken i now)).bestEma rest ≤
        (g.step (.finishedFirstToken i now)).controller.slo := by
      rw [hslo]
      refine le_of_eq_of_le ?_ hbest
      simp only [bestEma, hema]
      refine foldl_ext _ _ _ fun ema j _ => ?_
      rw [(hkeep j).1]
    obtain ⟨calls, last, hcontinues, hadmits⟩ := ih (step_counted h _) hnodup howes hrest
    refine ⟨.finishedFirstToken i now :: calls, last, ?_, hadmits⟩
    intro call hcall
    rcases mem_cons.mp hcall with rfl | hcall
    · trivial
    · exact hcontinues call hcall

theorem fresh_of_new {slo : ℚ} {threshold : Option ℚ} (h : new slo threshold = .ok c) : Fresh c := by
  simp only [new] at h
  split_ifs at h
  cases h
  exact ⟨rfl, rfl, rfl, by norm_num⟩

/-- A controller with an objective of one second. -/
def oneSecond : AdmissionController where
  slo := 1
  deferThreshold := 2
  slo_pos := by norm_num
  slo_lt := by norm_num

/-- One admitted request whose first token took a hundred seconds, and its completion. -/
def slowStart : SloGateway :=
  (((⟨oneSecond, []⟩ : SloGateway).step (.start 0 0)).step (.finishedFirstToken 0 100)).step (.completed 0)

end SloGateway

end Kairyu
