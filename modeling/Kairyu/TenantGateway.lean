/-
  Kairyu/TenantGateway.lean
  =========================
  **Every call keeps the books of every tenant.**

  A run is a list of calls on one limiter and on the admissions it returned, in any
  order.  `Balanced` says that a tenant's counters are what its admissions hold; no call
  of a balanced gateway raises a bookkeeping error, and each call makes moves on one
  tenant only.  The bound on the tokens taken between two moments is the accounting of
  those moves, summed over the calls.
-/
import Kairyu.TenancyRuns

namespace Kairyu

open List TenantAdmission TokenBucket Bucket

/-- Replacing an element moves a sum by the difference. -/
theorem sum_map_set {α : Type*} (f : α → Nat) {xs : List α} {i : Nat} {x : α} (h : xs[i]? = some x) (y : α) :
    ((xs.set i y).map f).sum + f x = (xs.map f).sum + f y := by
  induction xs generalizing i with
  | nil => simp at h
  | cons z xs ih =>
    cases i with
    | zero =>
      obtain rfl : z = x := by simpa using h
      simp only [set_cons_zero, map_cons, sum_cons]
      omega
    | succ i =>
      have hrest := ih (by simpa using h)
      simp only [set_cons_succ, map_cons, sum_cons]
      omega

namespace TenantGateway

open TenantLimiter TenantAdmission

variable {g g' g'' : TenantGateway} {t tenant : Text} {c : TenantCall}

/-! ### The invariant -/

/-- The counters are what the admissions hold, and no tenant has more than its leases. -/
structure Balanced (g : TenantGateway) : Prop where
  sound : g.limiter.Sound
  settled : ∀ a ∈ g.admissions, a.settled = true → a.reservedTokens ≠ 0
  leases : ∀ t, g.limiter.active t = (g.admissions.map (leases t)).sum
  shares : ∀ t, g.limiter.reserved t = (g.admissions.map (share t)).sum
  bounded : ∀ t m, (g.limiter.config.limitsFor t).maxInFlight = some m → g.limiter.active t ≤ m

/-- The tenant a call is about. -/
def tenantOf (g : TenantGateway) : TenantCall → Option Text
  | .acquire tenant | .acquireReserved tenant _ _ | .chargeTokens tenant _ => some tenant
  | .reserveTokens i _ _ | .markDispatched i | .settleTokens i _ _ _ | .release i =>
    (g.admissions[i]?).map (·.tenant)

/-- A call on the tenant: the books stay balanced, and nothing of another tenant moves. -/
structure Advances (t : Text) (g g' : TenantGateway) : Prop where
  balanced : g'.Balanced
  moves : Moves t g.limiter.readings g.limiter g'.limiter
  admissions : ∀ (i : Nat) a, g.admissions[i]? = some a → a.tenant ≠ t → g'.admissions[i]? = some a

variable {l : TenantLimiter} {a : TenantAdmission}

theorem leases_of_ne (h : a.tenant ≠ t) : a.leases t = 0 := by
  simp [leases, h]

theorem share_of_ne (h : a.tenant ≠ t) : a.share t = 0 := by
  simp [share, h]

theorem active_of_untouched {l l' : TenantLimiter} (h : Untouched t l l') : l'.active t = l.active t := by
  simp only [active, h.inFlight]

theorem reserved_of_untouched {l l' : TenantLimiter} (h : Untouched t l l') : l'.reserved t = l.reserved t := by
  simp only [reserved, h.reserved]

/-- A new admission. -/
theorem advances_of_acquires (hg : g.Balanced) (h : Acquires t g.limiter a l) :
    Advances t g ⟨l, g.admissions ++ [a]⟩ := by
  have hconfig := h.moves.same.1
  have hactive : ∀ t', l.active t' = g.limiter.active t' + a.leases t' := by
    intro t'
    by_cases heq : t' = t
    · subst heq
      cases hadmitted : a.admitted with
      | false => simp [h.rejected hadmitted, leases, hadmitted]
      | true => simp [(h.admitted hadmitted).1, leases, hadmitted, h.tenant, h.released]
    · rw [active_of_untouched (h.moves.untouched heq), leases_of_ne (h.tenant ▸ Ne.symm heq), add_zero]
  refine ⟨⟨h.moves.sound hg.sound, ?_, ?_, ?_, ?_⟩, h.moves, ?_⟩
  · intro a' ha' hsettled
    rcases mem_append.mp ha' with hold | hnew
    · exact hg.settled a' hold hsettled
    · obtain rfl := mem_singleton.mp hnew
      rw [h.settled] at hsettled
      cases hsettled
  · intro t'
    simp only [hactive, hg.leases, map_append, map_cons, map_nil, sum_append, sum_singleton]
  · intro t'
    simp only [map_append, map_cons, map_nil, sum_append, sum_singleton, ← hg.shares]
    by_cases heq : t' = t
    · subst heq
      rw [h.reserved]
      cases hadmitted : a.admitted <;>
        simp [share, hadmitted, h.tenant, h.released, h.settled]
    · rw [reserved_of_untouched (h.moves.untouched heq), share_of_ne (h.tenant ▸ Ne.symm heq), add_zero]
  · intro t' m hm
    have hm' : (g.limiter.config.limitsFor t').maxInFlight = some m := by rw [← hm, hconfig]
    have hbound := hg.bounded t' m hm'
    by_cases heq : t' = t
    · subst heq
      cases hadmitted : a.admitted with
      | false => exact (h.rejected hadmitted).trans_le hbound
      | true =>
        obtain ⟨hone, hroom⟩ := h.admitted hadmitted
        have hlt : g.limiter.active t' < m := by simpa [full, hm'] using hroom
        exact hone.trans_le hlt
    · exact (active_of_untouched (h.moves.untouched heq)).trans_le hbound
  · intro i a' ha' _
    exact (List.getElem?_append_left (List.getElem?_eq_some_iff.mp ha').1).trans ha'

/-- A call of the admission at a position. -/
theorem advances_of_adjusts (hg : g.Balanced) {i : Nat} {a a' : TenantAdmission} (hi : g.admissions[i]? = some a)
    (h : Adjusts g.limiter a l a') : Advances a.tenant g ⟨l, g.admissions.set i a'⟩ := by
  have hconfig := h.moves.same.1
  have hmem : a ∈ g.admissions := mem_of_getElem? hi
  refine ⟨⟨h.moves.sound hg.sound, ?_, ?_, ?_, ?_⟩, h.moves, ?_⟩
  · intro a1 ha1
    rcases mem_or_eq_of_mem_set ha1 with hold | rfl
    · exact hg.settled a1 hold
    · exact h.settled (hg.settled a hmem)
  · intro t'
    have hsum := sum_map_set (leases t') hi a'
    have hleases := hg.leases t'
    by_cases heq : t' = a.tenant
    · subst heq
      have hmoved := h.leases
      simp only
      omega
    · have hsame := active_of_untouched (h.moves.untouched heq)
      have hnone := leases_of_ne (Ne.symm heq)
      have hnone' := leases_of_ne (h.tenant ▸ Ne.symm heq)
      simp only
      omega
  · intro t'
    have hsum := sum_map_set (share t') hi a'
    have hshares := hg.shares t'
    by_cases heq : t' = a.tenant
    · subst heq
      have hmoved := h.shares
      simp only
      omega
    · have hsame := reserved_of_untouched (h.moves.untouched heq)
      have hnone := share_of_ne (Ne.symm heq)
      have hnone' := share_of_ne (h.tenant ▸ Ne.symm heq)
      simp only
      omega
  · intro t' m hm
    have hbound := hg.bounded t' m (by rw [← hm, hconfig])
    by_cases heq : t' = a.tenant
    · subst heq
      exact h.fewer.trans hbound
    · exact (active_of_untouched (h.moves.untouched heq)).trans_le hbound
  · intro j a1 hj hne
    have hij : i ≠ j := by
      rintro rfl
      rw [hi] at hj
      exact hne (by rw [Option.some.inj hj])
    exact (List.getElem?_set_ne hij).trans hj

/-! ### Calls -/

/-- A call raises a misuse error, finds no admission at its position, or advances. -/
inductive Outcome (g : TenantGateway) (c : TenantCall) : Prop where
  | misused (e : TenantError) (h : g.call c = .error e) (he : e.internal = false)
  | missing (h : g.call c = .ok g) (hnone : g.tenantOf c = none)
  | advanced (t : Text) (g' : TenantGateway) (h : g.call c = .ok g') (ht : g.tenantOf c = some t)
      (hadvances : Advances t g g')

section

variable (hg : g.Balanced)
include hg

theorem outcome_of_admission {i : Nat} {f : TenantAdmission → Except TenantError (TenantAdmission × TenantLimiter)}
    (hcall : g.call c = g.onAdmission i f) (htenant : g.tenantOf c = (g.admissions[i]?).map (·.tenant))
    (hf : ∀ a ∈ g.admissions, a.share a.tenant ≤ g.limiter.reserved a.tenant →
      a.leases a.tenant ≤ g.limiter.active a.tenant → Safe g.limiter a (f a)) : Outcome g c := by
  cases hi : g.admissions[i]? with
  | none => exact .missing (by rw [hcall, onAdmission, hi]) (by rw [htenant, hi]; rfl)
  | some a =>
    have hmem : a ∈ g.admissions := mem_of_getElem? hi
    have hshare : a.share a.tenant ≤ g.limiter.reserved a.tenant :=
      (le_sum_of_mem (mem_map_of_mem hmem)).trans_eq (hg.shares _).symm
    have hleases : a.leases a.tenant ≤ g.limiter.active a.tenant :=
      (le_sum_of_mem (mem_map_of_mem hmem)).trans_eq (hg.leases _).symm
    rcases hf a hmem hshare hleases with ⟨e, herror, he⟩ | ⟨a', l, hok, hadjusts⟩
    · exact .misused e (by simp only [hcall, onAdmission, hi, herror]) he
    · exact .advanced a.tenant _ (by simp only [hcall, onAdmission, hi, hok]) (by rw [htenant, hi]; rfl)
        (advances_of_adjusts hg hi hadjusts)

theorem chargeTokens_advances (t : Text) (tokens : Int) :
    Advances t g { g with limiter := g.limiter.chargeTokens t tokens } := by
  have hserves := chargeTokens_serves g.limiter t tokens
  refine ⟨⟨hserves.moves.sound hg.sound, hg.settled, ?_, ?_, ?_⟩, hserves.moves, fun i a h _ => h⟩
  · intro t'
    rw [← hg.leases]
    exact hserves.active t'
  · intro t'
    rw [← hg.shares]
    exact hserves.reserved_eq t'
  · intro t' m hm
    have hconfig := hserves.moves.same.1
    exact (hserves.active t').trans_le (hg.bounded t' m (by rw [← hm, hconfig]))

theorem call_outcome (c : TenantCall) : Outcome g c := by
  cases c with
  | acquire t => exact .advanced t _ rfl rfl (advances_of_acquires hg (acquire_acquires hg.sound t))
  | acquireReserved t tokens refundable =>
    by_cases htokens : tokens < 1
    · have herror : g.limiter.acquireReserved t tokens refundable = .error .reservationNotPositive := by
        rw [acquireReserved, if_pos htokens]
      exact .misused .reservationNotPositive (by simp only [call, herror]) rfl
    · obtain ⟨a, l, hok, hacquires⟩ := acquireReserved_acquires hg.sound t htokens refundable
      exact .advanced t _ (by simp only [call, hok]) rfl (advances_of_acquires hg hacquires)
  | reserveTokens i tokens refundable =>
    exact outcome_of_admission hg rfl rfl fun a ha _ _ =>
      reserveTokens_safe (hg.settled a ha) tokens refundable
  | markDispatched i =>
    exact outcome_of_admission hg rfl rfl fun a _ _ _ => markDispatched_safe g.limiter a
  | settleTokens i actual exact forceRefundSurplus =>
    exact outcome_of_admission hg rfl rfl fun a _ hshare _ =>
      settleTokens_safe hshare actual exact forceRefundSurplus
  | release i =>
    exact outcome_of_admission hg rfl rfl fun a _ hshare hleases => release_safe hshare hleases
  | chargeTokens t tokens => exact .advanced t _ rfl rfl (chargeTokens_advances hg t tokens)

theorem call_error {e : TenantError} (h : g.call c = .error e) : e.internal = false := by
  rcases call_outcome hg c with ⟨e', he', hinternal⟩ | ⟨hok, -⟩ | ⟨t, g', hok, -, -⟩
  · rw [he'] at h
    cases h
    exact hinternal
  · exact nomatch hok.symm.trans h
  · exact nomatch hok.symm.trans h

/-- A step advances one tenant; where there is nothing to do, it is any. -/
theorem step_advances (c : TenantCall) : (∃ t, g.tenantOf c = some t ∧ Advances t g (g.step c)) ∨ g.step c = g := by
  rcases call_outcome hg c with ⟨e, he, -⟩ | ⟨hok, -⟩ | ⟨t, g', hok, ht, hadvances⟩
  · exact .inr (by simp only [step, he])
  · exact .inr (by simp only [step, hok])
  · exact .inl ⟨t, ht, by simpa only [step, hok] using hadvances⟩

end

/-! ### Runs -/

/-- The state after the calls. -/
def run (g : TenantGateway) (calls : List TenantCall) : TenantGateway := calls.foldl step g

/-- A limiter with no bucket yet. -/
def start (config : TenantConfig) (clock : Nat → ℚ) : TenantGateway := ⟨{ config, clock }, []⟩

theorem start_balanced (config : TenantConfig) (clock : Nat → ℚ) : (start config clock).Balanced := by
  refine ⟨⟨?_, ?_⟩, ?_, ?_, ?_, ?_⟩
  · intro t b hb
    simp [start] at hb
  · intro t b hb
    simp [start] at hb
  · simp [start]
  · simp [start, active]
  · simp [start, reserved]
  · simp [start, active]

section

variable (hg : g.Balanced)
include hg

theorem step_balanced (c : TenantCall) : (g.step c).Balanced := by
  rcases step_advances hg c with ⟨t, -, hadvances⟩ | hsame
  · exact hadvances.balanced
  · rwa [hsame]

theorem run_balanced (calls : List TenantCall) : (g.run calls).Balanced := by
  induction calls generalizing g with
  | nil => exact hg
  | cons c calls ih => exact ih (step_balanced hg c)

theorem step_same (c : TenantCall) :
    (g.step c).limiter.config = g.limiter.config ∧ (g.step c).limiter.clock = g.limiter.clock ∧
      g.limiter.readings ≤ (g.step c).limiter.readings := by
  rcases step_advances hg c with ⟨t, -, hadvances⟩ | hsame
  · exact hadvances.moves.same
  · rw [hsame]
    exact ⟨rfl, rfl, le_rfl⟩

theorem run_same (calls : List TenantCall) :
    (g.run calls).limiter.config = g.limiter.config ∧ (g.run calls).limiter.clock = g.limiter.clock ∧
      g.limiter.readings ≤ (g.run calls).limiter.readings := by
  induction calls generalizing g with
  | nil => exact ⟨rfl, rfl, le_rfl⟩
  | cons c calls ih =>
    obtain ⟨hconfig, hclock, hreadings⟩ := step_same hg c
    obtain ⟨hconfig', hclock', hreadings'⟩ := ih (step_balanced hg c)
    exact ⟨hconfig'.trans hconfig, hclock'.trans hclock, hreadings.trans hreadings'⟩

/-- The accounting of the moves, over the calls of a window. -/
theorem run_accounts (calls : List TenantCall) (t : Text) {c M : ℚ}
    (hbetween : Between c M g.limiter.readings (g.run calls).limiter) :
    Accounts t c M g.limiter (g.run calls).limiter := by
  induction calls generalizing g with
  | nil => exact .refl t c M g.limiter
  | cons call calls ih =>
    obtain ⟨-, -, hreadings⟩ := step_same hg call
    obtain ⟨-, hclock', hreadings'⟩ := run_same (step_balanced hg call) calls
    have hrest := ih (step_balanced hg call) fun k hk hlt => hbetween k (hreadings.trans hk) hlt
    refine Accounts.trans ?_ hrest
    rcases step_advances hg call with ⟨tenant, -, hadvances⟩ | hsame
    · exact hadvances.moves.accounts (hbetween.before hclock' hreadings')
    · rw [hsame]
      exact .refl t c M g.limiter

end

/-! ### The window -/

/-- The tokens the entries reserve for the tenant, less those they give back. -/
def spent (t : Text) (entries : List (Text × TokenEntry)) : ℚ :=
  (entries.map fun
    | (t', .took amount) => if t' = t then amount else 0
    | (t', .refunded amount) => if t' = t then -amount else 0
    | (t', .charged amount) => if t' = t then min 0 amount else 0).sum

/-- The successful takes of the tenant. -/
def takes (t : Text) (entries : List (Text × TokenEntry)) : Nat :=
  entries.countP fun
    | (t', .took _) => t' = t
    | _ => false

theorem net_eq (t : Text) (entries : List (Text × TokenEntry)) :
    net t entries = spent t entries - slack * takes t entries := by
  induction entries with
  | nil => simp [net, spent, takes]
  | cons entry entries ih =>
    simp only [net] at ih
    rcases entry with ⟨t', amount | amount | amount⟩
    · by_cases heq : t' = t
      · simp [net, spent, takes, netEntry, heq, ih]
        ring
      · simp [net, spent, takes, netEntry, heq, ih]
    · simp [net, spent, takes, netEntry, ih]
      ring
    · simp [net, spent, takes, netEntry, ih]
      ring

theorem tokenLevel_nonneg (l : TenantLimiter) (t : Text) (c : ℚ) : 0 ≤ l.tokenLevel t c := by
  rw [tokenLevel]
  split
  · exact level_nonneg _ c
  · exact tokenCapacity_nonneg l t

theorem tokenLevel_le (hl : l.Configured) (t : Text) (c : ℚ) : l.tokenLevel t c ≤ l.tokenCapacity t := by
  rw [tokenLevel]
  split
  · next b hb =>
    have hcapacity := (hl t b hb).1
    rw [← hcapacity]
    exact level_le_capacity (hcapacity ▸ tokenCapacity_nonneg l t) c
  · exact le_rfl

theorem le_tokenSince (l : TenantLimiter) (t : Text) (c : ℚ) : c ≤ l.tokenSince t c := by
  rw [tokenSince]
  split
  · exact le_max_right _ _
  · exact le_rfl

/-- Between two moments at most a full bucket and the time between `c` and `M` are spent,
    and the slack of each take. -/
theorem run_spent (hg : g.Balanced) (calls : List TenantCall) (t : Text) {c M : ℚ} (hle : c ≤ M)
    (hbetween : Between c M g.limiter.readings (g.run calls).limiter) :
    ∃ entries, (g.run calls).limiter.log = g.limiter.log ++ entries ∧ spent t entries ≤
        g.limiter.tokenCapacity t + g.limiter.tokenRate t * (M - c) + slack * takes t entries := by
  have haccounts := run_accounts hg calls t hbetween
  obtain ⟨entries, hlog, hpaid⟩ := haccounts.paid hg.sound.configured
  refine ⟨entries, hlog, ?_⟩
  have hfrom := tokenLevel_le hg.sound.configured t c
  have hto := tokenLevel_nonneg (g.run calls).limiter t c
  have hsince := le_tokenSince g.limiter t c
  have helapsed : (g.run calls).limiter.tokenSince t c - g.limiter.tokenSince t c ≤ M - c := by
    rcases le_max_iff.mp haccounts.since with hold | hnew <;> linarith
  have htime := mul_le_mul_of_nonneg_left helapsed (tokenRate_pos g.limiter t).le
  rw [net_eq] at hpaid
  linarith

/-! ### Trying again -/

/-- No call of the run is about the tenant. -/
def Avoids (t : Text) : TenantGateway → List TenantCall → Prop
  | _, [] => True
  | g, c :: calls => g.tenantOf c ≠ some t ∧ Avoids t (g.step c) calls

theorem run_untouched (hg : g.Balanced) (calls : List TenantCall) (h : Avoids t g calls) :
    Untouched t g.limiter (g.run calls).limiter := by
  induction calls generalizing g with
  | nil => exact ⟨rfl, rfl, rfl, rfl, rfl⟩
  | cons c calls ih =>
    refine Untouched.trans ?_ (ih (step_balanced hg c) h.2)
    rcases step_advances hg c with ⟨tenant, htenant, hadvances⟩ | hsame
    · have hne : t ≠ tenant := by
        rintro rfl
        exact h.1 htenant
      exact hadvances.moves.untouched hne
    · rw [hsame]
      exact ⟨rfl, rfl, rfl, rfl, rfl⟩

/-- The quota rejection of `acquire_reserved`, and when it retries. -/
theorem acquireReserved_quota {l l' : TenantLimiter} {tokens : Int} {refundable : Bool}
    (h : l.acquireReserved t tokens refundable = .ok (a, l')) (hquota : a.reason = .tokenQuota) :
    ¬ tokens < 1 ∧ tokens ≤ (l.opened t).1.capacity ∧ (l.opened t).1.tokens + slack < tokens ∧
      a.retryAfter = some ((tokens - (l.opened t).1.tokens) / (l.opened t).1.rate) ∧ l' = (l.opened t).2 := by
  have htokens : ¬ tokens < 1 := by
    intro hlow
    rw [acquireReserved, if_pos hlow] at h
    cases h
  rw [acquireReserved_eq l t htokens] at h
  refine ⟨htokens, ?_⟩
  split at h
  · cases h
    cases hquota
  · next hfits =>
    split at h
    · next hshort =>
      cases h
      exact ⟨not_lt.mp hfits, hshort, rfl, rfl⟩
    · split at h
      · cases h
        cases hquota
      · simp only at h
        split at h
        · cases h
          cases hquota
        · split at h
          · cases h
          · cases h
            cases hquota

theorem opened_some {b : Bucket} (hb : l.tokenBuckets.lookup t = some b) : (l.opened t).1 = (b.take 0 l.now.1).2 := by
  simp only [opened, tokenBucket, now, hb, takeTokens]

theorem opened_none (hb : l.tokenBuckets.lookup t = none) : l.tokenCapacity t ≤ (l.opened t).1.tokens := by
  have hopened : (l.opened t).1 = ((l.freshTokens t (l.clock (l.readings + 1))).take 0 l.now.1).2 := by
    simp only [opened, tokenBucket, now, hb]
    rfl
  rw [hopened]
  have hfull : l.tokenCapacity t ≤ ((l.freshTokens t (l.clock (l.readings + 1))).refill l.now.1).tokens :=
    refill_full (b := l.freshTokens t (l.clock (l.readings + 1))) (tokenRate_pos l t).le le_rfl _
  exact hfull.trans (refill_le_take_zero _ _ _)

/-- A bucket that was short of the tokens at a reading has them after the reported time. -/
theorem retry_has_tokens (hg : g.Balanced) {tokens : Int} {refundable : Bool} {d : ℚ}
    (h : g.limiter.acquireReserved t tokens refundable = .ok (a, l)) (hquota : a.reason = .tokenQuota)
    (hretry : a.retryAfter = some d)
    (hclock : ∀ b, g.limiter.tokenBuckets.lookup t = some b → b.updated ≤ g.limiter.now.1) {later : TenantLimiter}
    (hsame : Untouched t l later) (hlater : g.limiter.now.1 + d ≤ later.now.1) :
    tokens ≤ (later.opened t).1.tokens := by
  obtain ⟨-, hfits, hshort, hafter, rfl⟩ := acquireReserved_quota h hquota
  obtain ⟨hserves, hlookup, -, -, -⟩ := opened_serves hg.sound t
  have hsound := hserves.moves.sound hg.sound
  have hconfigured := hsound.configured t _ hlookup
  have hrate : 0 < (g.limiter.opened t).1.rate := by
    rw [hconfigured.2]
    exact tokenRate_pos _ t
  obtain rfl : (tokens - (g.limiter.opened t).1.tokens) / (g.limiter.opened t).1.rate = d :=
    Option.some.inj (hafter.symm.trans hretry)
  have hupdated : (g.limiter.opened t).1.updated = g.limiter.now.1 := by
    cases hb : g.limiter.tokenBuckets.lookup t with
    | some b =>
      rw [opened_some hb]
      exact (take_updated rfl).trans (max_eq_right (hclock b hb))
    | none =>
      -- A bucket made now is full, so the tokens would have been there.
      have hfull := opened_none hb
      have hslack : (0 : ℚ) < slack := by norm_num [slack]
      have hcapacity : (g.limiter.opened t).1.capacity = g.limiter.tokenCapacity t := by
        rw [hconfigured.1, tokenCapacity, tokenCapacity, hserves.moves.same.1]
      linarith
  rw [opened_some (hsame.token.trans hlookup)]
  refine le_trans (refill_after hrate hfits ?_) (refill_le_take_zero _ _ _)
  rw [hupdated]
  exact hlater

/-- **Tenant accounting.**  After any calls, on any clock: the counters are what the
    admissions hold, within `max_in_flight`, and no call reports broken bookkeeping; from
    there on, what a tenant spends is bounded by its bucket and the clocks read; a call
    on one tenant changes nothing of another; and a quota rejection holds no longer than
    it says, if its clock was not behind the bucket's. -/
theorem tenant_accounting (config : TenantConfig) (clock : Nat → ℚ) (before : List TenantCall)
    (g : TenantGateway) (hg : g = (start config clock).run before) :
    ((∀ t, g.limiter.active t = (g.admissions.map (leases t)).sum ∧
        g.limiter.reserved t = (g.admissions.map (share t)).sum ∧
        ∀ m, (config.limitsFor t).maxInFlight = some m → g.limiter.active t ≤ m) ∧
      ∀ c e, g.call c = .error e → e.internal = false) ∧ (∀ t calls c M, c ≤ M →
      (∀ k, g.limiter.readings ≤ k → k < (g.run calls).limiter.readings → c ≤ clock k ∧ clock k ≤ M) →
      ∃ entries, (g.run calls).limiter.log = g.limiter.log ++ entries ∧ spent t entries ≤
          g.limiter.tokenCapacity t + g.limiter.tokenRate t * (M - c) + slack * takes t entries) ∧
    (∀ c t, g.tenantOf c ≠ some t → Untouched t g.limiter (g.step c).limiter ∧
      ∀ (i : Nat) a, g.admissions[i]? = some a → a.tenant = t → (g.step c).admissions[i]? = some a) ∧
    ∀ t tokens refundable a l d, g.limiter.acquireReserved t tokens refundable = .ok (a, l) →
      a.reason = .tokenQuota → a.retryAfter = some d →
      (∀ b, g.limiter.tokenBuckets.lookup t = some b → b.updated ≤ g.limiter.now.1) →
      ∀ calls, Avoids t (g.step (.acquireReserved t tokens refundable)) calls →
      ∀ later, later = (g.step (.acquireReserved t tokens refundable)).run calls →
        g.limiter.now.1 + d ≤ later.limiter.now.1 →
        ∃ a' l', later.limiter.acquireReserved t tokens refundable = .ok (a', l') ∧ a'.reason ≠ .tokenQuota := by
  have hbalanced : g.Balanced := hg ▸ run_balanced (start_balanced config clock) before
  obtain ⟨hconfig, hclock, -⟩ := run_same (start_balanced config clock) before
  rw [← hg] at hconfig hclock
  refine ⟨⟨fun t => ⟨hbalanced.leases t, hbalanced.shares t, fun m hm => ?_⟩, fun c e he => ?_⟩, ?_, ?_, ?_⟩
  · exact hbalanced.bounded t m (by rw [hconfig]; exact hm)
  · exact call_error hbalanced he
  · intro t calls c M hle hbetween
    apply run_spent hbalanced calls t hle
    intro k hk hlt
    rw [(run_same hbalanced calls).2.1, hclock]
    exact hbetween k hk hlt
  · intro c t hne
    rcases step_advances hbalanced c with ⟨tenant, htenant, hadvances⟩ | hsame
    · have hother : t ≠ tenant := by
        rintro rfl
        exact hne htenant
      refine ⟨hadvances.moves.untouched hother, fun i a hi ha => ?_⟩
      exact hadvances.admissions i a hi (ha ▸ hother)
    · rw [hsame]
      exact ⟨⟨rfl, rfl, rfl, rfl, rfl⟩, fun i a hi _ => hi⟩
  · rintro t tokens refundable a l d hreject hquota hretry hbehind calls havoids later rfl hlater
    have hstep : (g.step (.acquireReserved t tokens refundable)).limiter = l := by
      simp only [step, call, hreject]
    have hbalanced' := step_balanced hbalanced (.acquireReserved t tokens refundable)
    have hsame := run_untouched hbalanced' calls havoids
    rw [hstep] at hsame
    have henough := retry_has_tokens hbalanced hreject hquota hretry hbehind hsame hlater
    obtain ⟨htokens, -⟩ := acquireReserved_quota hreject hquota
    obtain ⟨a', l', hok, -⟩ :=
      acquireReserved_acquires (run_balanced hbalanced' calls).sound t htokens refundable
    refine ⟨a', l', hok, fun hquota' => ?_⟩
    obtain ⟨-, -, hshort, -⟩ := acquireReserved_quota hok hquota'
    have hslack : (0 : ℚ) < slack := by norm_num [slack]
    linarith

/-- Sixty tokens, one a second. -/
def sixty : TenantConfig :=
  ⟨(∅ : Dict Text TenantLimits).insert (Text.of "t") { TenantLimits.standard with tokensPerMinute := 60, tokens_pos := by decide }⟩

/-- A minute's tokens at once, and thirty more that are refused for thirty seconds. -/
def refused : TenantGateway :=
  (start sixty fun k => if k < 4 then 0 else 30).run [.acquireReserved (Text.of "t") 60 true]

/-- The same thirty, thirty seconds later. -/
theorem tenant_accounting_sixty :
    ∃ a l, refused.limiter.acquireReserved (Text.of "t") 30 true = .ok (a, l) ∧ a.reason = .tokenQuota ∧
      a.retryAfter = some 30 ∧ ∃ a' l', (refused.step (.acquireReserved (Text.of "t") 30 true)).limiter.acquireReserved
          (Text.of "t") 30 true = .ok (a', l') ∧ a'.reason ≠ .tokenQuota := by
  have hanswer : (refused.limiter.acquireReserved (Text.of "t") 30 true).toOption.map
      (fun answer => (answer.1.reason, answer.1.retryAfter)) = some (.tokenQuota, some 30) := by
    decide +kernel
  cases hok : refused.limiter.acquireReserved (Text.of "t") 30 true with
  | error e =>
    rw [hok] at hanswer
    exact nomatch hanswer
  | ok answer =>
    obtain ⟨a, l⟩ := answer
    rw [hok] at hanswer
    obtain ⟨hquota, hretry⟩ := Prod.mk.inj (Option.some.inj hanswer)
    refine ⟨a, l, rfl, hquota, hretry, ?_⟩
    refine (tenant_accounting sixty (fun k => if k < 4 then 0 else 30)
      [.acquireReserved (Text.of "t") 60 true] _ rfl).2.2.2 (Text.of "t") 30 true a l 30 hok hquota hretry
      ?_ [] trivial _ rfl ?_
    · intro b hb
      have hupdated : (refused.limiter.tokenBuckets.lookup (Text.of "t")).map (·.updated) = some 0 := by
        decide +kernel
      have hnow : refused.limiter.now.1 = 0 := by decide +kernel
      have hzero : some b.updated = some 0 := hupdated ▸ (congrArg (Option.map _) hb).symm
      exact (Option.some.inj hzero).trans_le hnow.ge
    · decide +kernel

/-- The reason and the retry time of the last admission. -/
def lastAnswer (g : TenantGateway) : Option (AdmissionOutcome × Option ℚ) :=
  g.admissions.getLast?.map fun a => (a.reason, a.retryAfter)

/-- A clock behind the bucket's makes a refusal outlast its retry time, and a clock that
    goes back and forward again fills the bucket twice; so does a negative charge. -/
theorem backward_clock_breaks : (let clock : Nat → ℚ := fun k => if k < 3 then 100 else if k = 3 then 0 else 30
     let calls := [.acquireReserved (Text.of "t") 60 true, .acquireReserved (Text.of "t") 30 true]
     ((start sixty clock).run calls).lastAnswer = some (.tokenQuota, some 30) ∧
      ((start sixty clock).run calls).limiter.now.1 = clock 3 + 30 ∧
      ((start sixty clock).run (calls ++ [.acquireReserved (Text.of "t") 30 true])).lastAnswer =
        some (.tokenQuota, some 30)) ∧
    (let clock : Nat → ℚ := fun k => if 3 ≤ k ∧ k < 6 then 0 else 1000
     let g := (start sixty clock).run [.acquire (Text.of "u")]
     let later := g.run [.acquireReserved (Text.of "t") 60 true, .acquireReserved (Text.of "t") 60 true]
     let entries := later.limiter.log.drop g.limiter.log.length
     g.limiter.readings = 3 ∧ (∀ k, clock k ≤ clock 2) ∧
      60 + 1 * (clock 2 - clock 2) + slack * takes (Text.of "t") entries <
        spent (Text.of "t") entries) ∧
    (let g := (start sixty fun _ => 0).run [.acquireReserved (Text.of "t") 60 true,
        .chargeTokens (Text.of "t") (-60), .acquireReserved (Text.of "t") 60 true]
     let entries := g.limiter.log.filter fun entry => entry.2 ≠ .charged (-60)
     60 + 1 * 0 + slack * takes (Text.of "t") entries < spent (Text.of "t") entries) := by
  refine ⟨by decide +kernel, ⟨by decide +kernel, ?_, by decide +kernel⟩, by decide +kernel⟩
  intro k
  simp only
  split_ifs <;> norm_num at *

end TenantGateway

end Kairyu
