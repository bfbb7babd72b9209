/-
  Kairyu/TenancyRuns.lean
  =======================
  **Tenant accounting over whole runs.**

  Every method of the limiter is a sequence of small moves on one tenant
  (`TenantLimiter.Move`).  The moves say once what can happen to a tenant's buckets and
  counters: that no other tenant is touched and that tokens are taken only for level and
  time (`Accounts`) follow from them by induction, the counters from the equations of the
  methods.
-/
import Kairyu.Tenancy

namespace Kairyu

open TokenBucket AList Bucket TenantAdmission

namespace TenantLimiter

variable {l l' l'' : TenantLimiter} {t tenant : Text} {n m : Nat} {now amount : ℚ} {b b' : Bucket}

/-! ### Moves -/

/-- A reading of the clock made since the first `n`. -/
def Seen (l : TenantLimiter) (n : Nat) (now : ℚ) : Prop := ∃ k, n ≤ k ∧ k < l.readings ∧ now = l.clock k

/-- The tenant's token bucket is replaced. -/
def putTokens (l : TenantLimiter) (t : Text) (b : Bucket) : TenantLimiter :=
  { l with tokenBuckets := l.tokenBuckets.insert t b }

def logged (l : TenantLimiter) (t : Text) (entry : TokenEntry) : TenantLimiter :=
  { l with log := l.log ++ [(t, entry)] }

/-- The new token bucket of a tenant. -/
def freshTokens (l : TenantLimiter) (t : Text) (now : ℚ) : Bucket :=
  new (l.config.limitsFor t).tokensPerMinute (l.config.limitsFor t).tokenBurst now

/-- What one move on the tenant `t` does, with clocks read since the first `n`. -/
inductive Move (t : Text) (n : Nat) : TenantLimiter → TenantLimiter → Prop where
  | read (l : TenantLimiter) : Move t n l l.now.2
  | create {l : TenantLimiter} {now : ℚ} (hnone : l.tokenBuckets.lookup t = none) (hseen : l.Seen n now) :
      Move t n l (l.putTokens t (l.freshTokens t now))
  | took {l : TenantLimiter} {b b' : Bucket} {amount now : ℚ} (hb : l.tokenBuckets.lookup t = some b)
      (hseen : l.Seen n now) (htake : b.take amount now = (true, b')) :
      Move t n l ((l.putTokens t b').logged t (.took amount))
  | refilled {l : TenantLimiter} {b : Bucket} {now : ℚ} (hb : l.tokenBuckets.lookup t = some b)
      (hseen : l.Seen n now) : Move t n l (l.putTokens t (b.refill now))
  | debited {l : TenantLimiter} {b : Bucket} {amount now : ℚ} (hb : l.tokenBuckets.lookup t = some b)
      (hseen : l.Seen n now) (hamount : 0 ≤ amount) : Move t n l (l.putTokens t (b.debit amount now))
  | charged {l : TenantLimiter} {b : Bucket} (amount : ℚ) {now : ℚ}
      (hb : l.tokenBuckets.lookup t = some b) (hseen : l.Seen n now) :
      Move t n l ((l.putTokens t (b.debit amount now)).logged t (.charged amount))
  | refunded {l : TenantLimiter} {b : Bucket} {amount now : ℚ} (hb : l.tokenBuckets.lookup t = some b)
      (hseen : l.Seen n now) (hamount : 0 ≤ amount) :
      Move t n l ((l.putTokens t (b.refund amount now)).logged t (.refunded amount))
  | requests (l : TenantLimiter) (b : Bucket) (hcapacity : 0 ≤ b.capacity) :
      Move t n l { l with buckets := l.buckets.insert t b }
  | inFlight (l : TenantLimiter) {inFlight : Dict Text Nat}
      (hsame : ∀ t', t' ≠ t → inFlight.lookup t' = l.inFlight.lookup t') : Move t n l { l with inFlight }
  | reserved (l : TenantLimiter) {reservedTokens : Dict Text Nat}
      (hsame : ∀ t', t' ≠ t → reservedTokens.lookup t' = l.reservedTokens.lookup t') :
      Move t n l { l with reservedTokens }
  | violated (l : TenantLimiter) (count : Nat) :
      Move t n l { l with boundViolations := l.boundViolations.insert t count }

open Move

/-- Any number of moves. -/
def Moves (t : Text) (n : Nat) : TenantLimiter → TenantLimiter → Prop := Relation.ReflTransGen (Move t n)

theorem Moves.refl (l : TenantLimiter) : Moves t n l l := Relation.ReflTransGen.refl

theorem Moves.trans (h : Moves t n l l') (h' : Moves t n l' l'') : Moves t n l l'' :=
  Relation.ReflTransGen.trans h h'

theorem Move.moves (h : Move t n l l') : Moves t n l l' := Relation.ReflTransGen.single h

theorem Seen.mono (h : l.Seen n now) (hreadings : l.readings ≤ l'.readings) (hclock : l'.clock = l.clock)
    (hle : m ≤ n) : l'.Seen m now := by
  obtain ⟨k, hk, hlt, rfl⟩ := h
  exact ⟨k, hle.trans hk, hlt.trans_le hreadings, by rw [hclock]⟩

theorem seen_now (l : TenantLimiter) (h : n ≤ l.readings) : l.now.2.Seen n l.now.1 :=
  ⟨l.readings, h, Nat.lt_succ_self _, rfl⟩

/-! ### Other tenants -/

/-- Nothing of the tenant changed. -/
structure Untouched (t : Text) (l l' : TenantLimiter) : Prop where
  request : l'.buckets.lookup t = l.buckets.lookup t
  token : l'.tokenBuckets.lookup t = l.tokenBuckets.lookup t
  inFlight : l'.inFlight.lookup t = l.inFlight.lookup t
  reserved : l'.reservedTokens.lookup t = l.reservedTokens.lookup t
  violations : l'.boundViolations.lookup t = l.boundViolations.lookup t

theorem Untouched.trans (h : Untouched t l l') (h' : Untouched t l' l'') : Untouched t l l'' :=
  ⟨h'.request.trans h.request, h'.token.trans h.token, h'.inFlight.trans h.inFlight,
    h'.reserved.trans h.reserved, h'.violations.trans h.violations⟩

theorem Move.untouched (h : Move tenant n l l') (hne : t ≠ tenant) : Untouched t l l' := by
  cases h with
  | read => exact ⟨rfl, rfl, rfl, rfl, rfl⟩
  | inFlight hsame => exact ⟨rfl, rfl, hsame t hne, rfl, rfl⟩
  | reserved hsame => exact ⟨rfl, rfl, rfl, hsame t hne, rfl⟩
  | create | took | refilled | debited | charged | refunded =>
    exact ⟨rfl, lookup_insert_ne hne, rfl, rfl, rfl⟩
  | requests b _ => exact ⟨lookup_insert_ne hne, rfl, rfl, rfl, rfl⟩
  | violated count => exact ⟨rfl, rfl, rfl, rfl, lookup_insert_ne hne⟩

theorem Moves.untouched (h : Moves tenant n l l') (hne : t ≠ tenant) : Untouched t l l' := by
  induction h with
  | refl => exact ⟨rfl, rfl, rfl, rfl, rfl⟩
  | tail _ hmove ih => exact ih.trans (hmove.untouched hne)

/-! ### Tokens over a window -/

/-- What the tenant's token bucket holds when it is full. -/
def tokenCapacity (l : TenantLimiter) (t : Text) : ℚ :=
  ((l.config.limitsFor t).tokenBurst.getD (l.config.limitsFor t).tokensPerMinute : Nat)

def tokenRate (l : TenantLimiter) (t : Text) : ℚ := (l.config.limitsFor t).tokensPerMinute / 60

theorem tokenCapacity_nonneg (l : TenantLimiter) (t : Text) : 0 ≤ l.tokenCapacity t := Nat.cast_nonneg _

theorem tokenRate_pos (l : TenantLimiter) (t : Text) : 0 < l.tokenRate t := by
  have hpos : (0 : ℚ) < (l.config.limitsFor t).tokensPerMinute :=
    Nat.cast_pos.mpr (l.config.limitsFor t).tokens_pos
  exact div_pos hpos (by norm_num)

/-- Every token bucket has the capacity and the rate of its tenant's limits. -/
def Configured (l : TenantLimiter) : Prop :=
  ∀ t b, l.tokenBuckets.lookup t = some b → b.capacity = l.tokenCapacity t ∧ b.rate = l.tokenRate t

/-- The level of the tenant's bucket; a bucket not made yet is full. -/
def tokenLevel (l : TenantLimiter) (t : Text) (c : ℚ) : ℚ :=
  match l.tokenBuckets.lookup t with
  | some b => b.level c
  | none => l.tokenCapacity t

def tokenSince (l : TenantLimiter) (t : Text) (c : ℚ) : ℚ :=
  match l.tokenBuckets.lookup t with
  | some b => b.since c
  | none => c

/-- What an entry takes of the tenant's tokens, less the slack of a `take`.  A charge takes
    nothing, and a negative one gives tokens back. -/
def netEntry (t : Text) : Text × TokenEntry → ℚ
  | (t', .took amount) => if t' = t then amount - slack else 0
  | (t', .refunded amount) => if t' = t then -amount else 0
  | (t', .charged amount) => if t' = t then min 0 amount else 0

def net (t : Text) (entries : List (Text × TokenEntry)) : ℚ := (entries.map (netEntry t)).sum

/-- The tokens taken between the two states are paid for with level and with time from
    `c` on, and no clock after `M` was seen. -/
structure Accounts (t : Text) (c M : ℚ) (l l' : TenantLimiter) : Prop where
  config : l'.config = l.config
  clock : l'.clock = l.clock
  readings : l.readings ≤ l'.readings
  configured : l.Configured → l'.Configured
  paid : l.Configured → ∃ entries, l'.log = l.log ++ entries ∧
    net t entries + l'.tokenLevel t c ≤
      l.tokenLevel t c + l.tokenRate t * (l'.tokenSince t c - l.tokenSince t c)
  since : l'.tokenSince t c ≤ max (l.tokenSince t c) M

theorem Accounts.refl (t : Text) (c M : ℚ) (l : TenantLimiter) : Accounts t c M l l :=
  ⟨rfl, rfl, le_rfl, id, fun _ => ⟨[], by simp, by simp [net]⟩, le_max_left _ _⟩

variable {c M : ℚ}

theorem Accounts.trans (h : Accounts t c M l l') (h' : Accounts t c M l' l'') : Accounts t c M l l'' := by
  refine ⟨h'.config.trans h.config, h'.clock.trans h.clock, h.readings.trans h'.readings,
    fun hl => h'.configured (h.configured hl), fun hl => ?_, ?_⟩
  · obtain ⟨entries, hlog, hpaid⟩ := h.paid hl
    obtain ⟨more, hlog', hpaid'⟩ := h'.paid (h.configured hl)
    have hrate : l'.tokenRate t = l.tokenRate t := by simp only [tokenRate, h.config]
    refine ⟨entries ++ more, by rw [hlog', hlog, List.append_assoc], ?_⟩
    have hnet : net t (entries ++ more) = net t entries + net t more := by simp [net]
    rw [hrate] at hpaid'
    linarith
  · exact h'.since.trans (max_le h.since (le_max_right _ _))

/-- A move that leaves the token buckets and the history alone. -/
theorem accounts_of_same (hconfig : l'.config = l.config) (hclock : l'.clock = l.clock)
    (hreadings : l.readings ≤ l'.readings) (htokens : l'.tokenBuckets = l.tokenBuckets) (hlog : l'.log = l.log) :
    Accounts t c M l l' := by
  refine ⟨hconfig, hclock, hreadings, ?_, fun _ => ⟨[], by simpa using hlog, ?_⟩, ?_⟩
  · intro hl t' b hb
    rw [htokens] at hb
    simpa only [tokenCapacity, tokenRate, hconfig] using hl t' b hb
  · simp [net, tokenLevel, tokenSince, htokens, tokenCapacity, hconfig]
  · simp [tokenSince, htokens]

theorem configured_put (hl : l.Configured) (hcapacity : b.capacity = l.tokenCapacity tenant)
    (hrate : b.rate = l.tokenRate tenant) : (l.putTokens tenant b).Configured := by
  intro t' b1 hb1
  simp only [putTokens, lookup_insert_if] at hb1
  split at hb1
  · next heq =>
    cases hb1
    subst heq
    exact ⟨hcapacity, hrate⟩
  · exact hl t' b1 hb1

/-- The entries a move on one tenant writes. -/
def entriesOf (tenant : Text) (entry : Option TokenEntry) : List (Text × TokenEntry) :=
  entry.toList.map fun e => (tenant, e)

theorem net_other (h : t ≠ tenant) (entry : Option TokenEntry) : net t (entriesOf tenant entry) = 0 := by
  rcases entry with _ | _ | _ | _ <;> simp [net, entriesOf, netEntry, h.symm]

/-- A move that replaces a token bucket by one that paid. -/
theorem accounts_of_put (entry : Option TokenEntry) (hb : l.tokenBuckets.lookup tenant = some b)
    (hnow : now ≤ M) (hupdated : b'.updated = max b.updated now)
    (hpays : l.Configured → Pays c b b' (net tenant (entriesOf tenant entry))) :
    Accounts t c M l { l.putTokens tenant b' with log := l.log ++ entriesOf tenant entry } := by
  refine ⟨rfl, rfl, le_rfl, ?_, fun hl => ⟨_, rfl, ?_⟩, ?_⟩
  · intro hl
    obtain ⟨hcapacity, hrate⟩ := hl tenant b hb
    have hpaid := hpays hl
    exact configured_put hl (hpaid.capacity.trans hcapacity) (hpaid.rate.trans hrate)
  · by_cases heq : t = tenant
    · subst heq
      have hpaid := (hpays hl).paid
      rw [(hl t b hb).2] at hpaid
      simpa [tokenLevel, tokenSince, putTokens, hb] using hpaid
    · simp [tokenLevel, tokenSince, putTokens, lookup_insert_ne heq, net_other heq, tokenCapacity]
  · by_cases heq : t = tenant
    · subst heq
      simp only [tokenSince, putTokens, lookup_insert, hb, since, hupdated]
      exact max_le (max_le (le_max_of_le_left (le_max_left _ _)) (le_max_of_le_right hnow))
        (le_max_of_le_left (le_max_right _ _))
    · simp [tokenSince, putTokens, lookup_insert_ne heq]

/-- Every clock read since the first `n` is between `c` and `M`. -/
def Between (c M : ℚ) (n : Nat) (l : TenantLimiter) : Prop :=
  ∀ k, n ≤ k → k < l.readings → c ≤ l.clock k ∧ l.clock k ≤ M

theorem Between.seen (h : Between c M n l) (hseen : l.Seen n now) : c ≤ now ∧ now ≤ M := by
  obtain ⟨k, hk, hlt, rfl⟩ := hseen
  exact h k hk hlt

/-- A move with no entry in the history. -/
theorem accounts_of_silent (hb : l.tokenBuckets.lookup tenant = some b) (hnow : now ≤ M)
    (hupdated : b'.updated = max b.updated now) (hpays : l.Configured → Pays c b b' 0) :
    Accounts t c M l (l.putTokens tenant b') := by
  have hput : Accounts t c M l { l.putTokens tenant b' with log := l.log ++ entriesOf tenant none } :=
    accounts_of_put none hb hnow hupdated hpays
  simpa [entriesOf, putTokens] using hput

/-- A move with one entry. -/
theorem accounts_of_logged {entry : TokenEntry} (hb : l.tokenBuckets.lookup tenant = some b) (hnow : now ≤ M)
    (hupdated : b'.updated = max b.updated now)
    (hpays : l.Configured → Pays c b b' (netEntry tenant (tenant, entry))) :
    Accounts t c M l ((l.putTokens tenant b').logged tenant entry) :=
  accounts_of_put (some entry) hb hnow hupdated fun hl => by simpa [net, entriesOf] using hpays hl

/-- A new bucket is full, as the tenant's level was before it was made. -/
theorem accounts_of_create (hnone : l.tokenBuckets.lookup tenant = none) (hc : c ≤ now) (hnow : now ≤ M) :
    Accounts t c M l (l.putTokens tenant (l.freshTokens tenant now)) := by
  refine ⟨rfl, rfl, le_rfl, fun hl => configured_put hl rfl rfl, fun _ => ⟨[], by simp [putTokens], ?_⟩, ?_⟩
  · by_cases heq : t = tenant
    · subst heq
      have hlevel : (l.freshTokens t now).level c ≤ l.tokenCapacity t :=
        level_le_capacity (tokenCapacity_nonneg l t) c
      have hsince : (l.freshTokens t now).since c = now := since_of_updated hc
      have helapsed : 0 ≤ l.tokenRate t * (now - c) :=
        mul_nonneg (tokenRate_pos l t).le (sub_nonneg.mpr hc)
      simp only [tokenLevel, tokenSince, putTokens, lookup_insert, hnone, hsince, net,
        List.map_nil, List.sum_nil]
      linarith
    · simp [tokenLevel, tokenSince, putTokens, lookup_insert_ne heq, net, tokenCapacity]
  · by_cases heq : t = tenant
    · subst heq
      have hsince : (l.freshTokens t now).since c = now := since_of_updated hc
      simp only [tokenSince, putTokens, lookup_insert, hsince]
      exact le_max_of_le_right hnow
    · simp [tokenSince, putTokens, lookup_insert_ne heq]

theorem Move.accounts (h : Move tenant n l l') (hbetween : Between c M n l') : Accounts t c M l l' := by
  have hslack : (0 : ℚ) ≤ slack := by norm_num [slack]
  have hrate : ∀ {b : Bucket}, l.tokenBuckets.lookup tenant = some b → l.Configured → 0 ≤ b.rate := by
    intro b hb hl
    rw [(hl tenant b hb).2]
    exact (tokenRate_pos l tenant).le
  cases h with
  | read => exact accounts_of_same rfl rfl (Nat.le_succ _) rfl rfl
  | requests | inFlight | reserved | violated => exact accounts_of_same rfl rfl le_rfl rfl rfl
  | create hnone hseen =>
    obtain ⟨hc, hM⟩ := hbetween.seen hseen
    exact accounts_of_create hnone hc hM
  | refilled hb hseen =>
    obtain ⟨hc, hM⟩ := hbetween.seen hseen
    exact accounts_of_silent hb hM rfl fun hl => refill_pays (hrate hb hl) hc
  | @debited b amount now hb hseen hamount =>
    obtain ⟨hc, hM⟩ := hbetween.seen hseen
    refine accounts_of_silent hb hM rfl fun hl => ?_
    have hpays := debit_pays (hrate hb hl) hc amount
    rwa [min_eq_left hamount] at hpays
  | @charged b amount now hb hseen =>
    obtain ⟨hc, hM⟩ := hbetween.seen hseen
    refine accounts_of_logged hb hM rfl fun hl => ?_
    simpa [netEntry] using debit_pays (hrate hb hl) hc amount
  | @refunded b amount now hb hseen hamount =>
    obtain ⟨hc, hM⟩ := hbetween.seen hseen
    refine accounts_of_logged hb hM rfl fun hl => ?_
    simpa [netEntry] using refund_pays (hrate hb hl) hc hamount
  | @took b b' amount now hb hseen htake =>
    obtain ⟨hc, hM⟩ := hbetween.seen hseen
    refine accounts_of_logged hb hM (take_updated htake) fun hl => ?_
    simpa [netEntry] using take_pays (hrate hb hl) hc hslack htake

theorem Move.same (h : Move tenant n l l') : l'.config = l.config ∧ l'.clock = l.clock ∧ l.readings ≤ l'.readings := by
  cases h <;> exact ⟨rfl, rfl, by simp [now, putTokens, logged]⟩

theorem Moves.same (h : Moves tenant n l l') : l'.config = l.config ∧ l'.clock = l.clock ∧
    l.readings ≤ l'.readings := by
  induction h with
  | refl => exact ⟨rfl, rfl, le_rfl⟩
  | tail _ hmove ih =>
    obtain ⟨hconfig, hclock, hreadings⟩ := hmove.same
    exact ⟨hconfig.trans ih.1, hclock.trans ih.2.1, ih.2.2.trans hreadings⟩

theorem Between.before (h : Between c M n l') (hclock : l'.clock = l.clock) (hreadings : l.readings ≤ l'.readings) :
    Between c M n l := fun k hk hlt =>
  hclock ▸ h k hk (hlt.trans_le hreadings)

theorem Moves.accounts (h : Moves tenant n l l') (hbetween : Between c M n l') : Accounts t c M l l' := by
  induction h with
  | refl => exact .refl t c M l
  | tail _ hmove ih =>
    obtain ⟨-, hclock, hreadings⟩ := hmove.same
    exact (ih (hbetween.before hclock hreadings)).trans (hmove.accounts hbetween)

/-! ### The methods -/

/-- The buckets are those of the limits. -/
structure Sound (l : TenantLimiter) : Prop where
  configured : l.Configured
  requests : ∀ t b, l.buckets.lookup t = some b → 0 ≤ b.capacity

theorem Move.sound (h : Move tenant n l l') (hl : l.Sound) : l'.Sound := by
  refine ⟨?_, ?_⟩
  · cases h with
    | create => exact configured_put hl.configured rfl rfl
    | took hb _ htake =>
      obtain ⟨hcapacity, hrate⟩ := hl.configured tenant _ hb
      obtain ⟨hcapacity', hrate'⟩ := take_same htake
      exact configured_put hl.configured (hcapacity'.trans hcapacity) (hrate'.trans hrate)
    | refilled hb | debited hb | charged _ hb | refunded hb =>
      exact configured_put hl.configured (hl.configured _ _ hb).1 (hl.configured _ _ hb).2
    | read | requests | inFlight | reserved | violated => exact hl.configured
  · cases h with
    | requests b hcapacity =>
      intro t b' hb'
      simp only [lookup_insert_if] at hb'
      split at hb'
      · cases hb'
        exact hcapacity
      · exact hl.requests t b' hb'
    | _ => exact hl.requests

theorem Moves.sound (h : Moves tenant n l l') (hl : l.Sound) : l'.Sound := by
  induction h with
  | refl => exact hl
  | tail _ hmove ih => exact hmove.sound ih

/-- Moves that leave the leases and the reservations alone. -/
structure Serves (t : Text) (n : Nat) (l l' : TenantLimiter) : Prop where
  moves : Moves t n l l'
  inFlight : l'.inFlight = l.inFlight
  reserved : l'.reservedTokens = l.reservedTokens

theorem Serves.trans (h : Serves t n l l') (h' : Serves t n l' l'') : Serves t n l l'' :=
  ⟨h.moves.trans h'.moves, h'.inFlight.trans h.inFlight, h'.reserved.trans h.reserved⟩

theorem Serves.refl (t : Text) (n : Nat) (l : TenantLimiter) : Serves t n l l := ⟨.refl l, rfl, rfl⟩

theorem Serves.full (h : Serves t n l l') (tenant : Text) : l'.full tenant = l.full tenant := by
  simp only [TenantLimiter.full, TenantLimiter.active, h.inFlight, h.moves.same.1]
  rfl

theorem Serves.active (h : Serves t n l l') (tenant : Text) : l'.active tenant = l.active tenant := by
  simp only [TenantLimiter.active, h.inFlight]

theorem Serves.reserved_eq (h : Serves t n l l') (tenant : Text) : l'.reserved tenant = l.reserved tenant := by
  simp only [TenantLimiter.reserved, h.reserved]

theorem now_serves (t : Text) (n : Nat) (l : TenantLimiter) : Serves t n l l.now.2 :=
  ⟨(read l).moves, rfl, rfl⟩

theorem tokenBucket_serves (l : TenantLimiter) (t : Text) (h : n ≤ l.readings) : Serves t n l (l.tokenBucket t).2 ∧
      (l.tokenBucket t).2.tokenBuckets.lookup t = some (l.tokenBucket t).1 := by
  cases hb : l.tokenBuckets.lookup t with
  | some b =>
    have heq : l.tokenBucket t = (b, l) := by simp only [tokenBucket, hb]
    rw [heq]
    exact ⟨.refl t n l, hb⟩
  | none =>
    have heq : l.tokenBucket t =
        (l.now.2.freshTokens t l.now.1, l.now.2.putTokens t (l.now.2.freshTokens t l.now.1)) := by
      simp only [tokenBucket, hb]
      rfl
    rw [heq]
    exact ⟨⟨(read l).moves.trans (create (l := l.now.2) hb (seen_now l h)).moves, rfl, rfl⟩,
      lookup_insert _⟩

theorem requestBucket_serves (hl : l.Sound) (t : Text) (n : Nat) :
    Serves t n l (l.requestBucket t).2 ∧ 0 ≤ (l.requestBucket t).1.capacity ∧
      (l.requestBucket t).2.tokenBuckets = l.tokenBuckets ∧ l.readings ≤ (l.requestBucket t).2.readings := by
  cases hb : l.buckets.lookup t with
  | some b =>
    have heq : l.requestBucket t = (b, l) := by simp only [requestBucket, hb]
    rw [heq]
    exact ⟨.refl t n l, hl.requests t b hb, rfl, le_rfl⟩
  | none =>
    have hcapacity : 0 ≤ (new (l.config.limitsFor t).requestsPerMinute
        (l.config.limitsFor t).requestBurst l.now.1).capacity := Nat.cast_nonneg _
    have heq : l.requestBucket t =
        (new (l.config.limitsFor t).requestsPerMinute (l.config.limitsFor t).requestBurst l.now.1,
          { l.now.2 with
            buckets := l.buckets.insert t (new (l.config.limitsFor t).requestsPerMinute
              (l.config.limitsFor t).requestBurst l.now.1) }) := by
      simp only [requestBucket, hb]
      rfl
    rw [heq]
    exact ⟨⟨(read l).moves.trans (requests l.now.2 _ hcapacity).moves, rfl, rfl⟩,
      hcapacity, rfl, Nat.le_succ _⟩

theorem takeTokens_serves (hb : l.tokenBuckets.lookup t = some b) (hseen : l.Seen n now) (amount : ℚ) :
    Serves t n l (l.takeTokens t b amount now).2.2 ∧
      (l.takeTokens t b amount now).2.2.tokenBuckets.lookup t = some (l.takeTokens t b amount now).2.1 := by
  cases htake : b.take amount now with
  | mk taken b' =>
    refine ⟨?_, by simp only [takeTokens, lookup_insert]⟩
    cases taken with
    | true =>
      have heq : (l.takeTokens t b amount now).2.2 = (l.putTokens t b').logged t (.took amount) := by
        simp only [takeTokens, htake]
        rfl
      rw [heq]
      exact ⟨(took hb hseen htake).moves, rfl, rfl⟩
    | false =>
      obtain rfl := take_fails htake
      have heq : (l.takeTokens t b amount now).2.2 = l.putTokens t (b.refill now) := by
        simp only [takeTokens, htake]
        rfl
      rw [heq]
      exact ⟨(refilled hb hseen).moves, rfl, rfl⟩

theorem takeRequest_serves (t : Text) (n : Nat) (hcapacity : 0 ≤ b.capacity) (amount now : ℚ) :
    Serves t n l (l.takeRequest t b amount now).2.2 ∧ 0 ≤ (l.takeRequest t b amount now).2.1.capacity ∧
      (l.takeRequest t b amount now).2.2.tokenBuckets = l.tokenBuckets := by
  cases htake : b.take amount now with
  | mk taken b' =>
    have hcapacity' : 0 ≤ b'.capacity := (take_same htake).1 ▸ hcapacity
    have heq : l.takeRequest t b amount now =
        (taken, b', { l with buckets := l.buckets.insert t b' }) := by simp only [takeRequest, htake]
    rw [heq]
    exact ⟨⟨(requests l b' hcapacity').moves, rfl, rfl⟩, hcapacity', rfl⟩

/-- How `acquire` and `acquire_reserved` begin: the token bucket, refilled. -/
def opened (l : TenantLimiter) (t : Text) : Bucket × TenantLimiter :=
  (l.now.2.tokenBucket t).2.takeTokens t (l.now.2.tokenBucket t).1 0 l.now.1 |>.2

theorem opened_serves (hl : l.Sound) (t : Text) :
    Serves t l.readings l (l.opened t).2 ∧ (l.opened t).2.tokenBuckets.lookup t = some (l.opened t).1 ∧
      (l.opened t).2.Seen l.readings l.now.1 ∧ l.now.1 ≤ (l.opened t).1.updated ∧
      (l.opened t).1.tokens ≤ (l.opened t).1.capacity := by
  obtain ⟨hbucket, hlookup⟩ := tokenBucket_serves l.now.2 t (Nat.le_succ _)
  obtain ⟨-, hclock, hreadings⟩ := hbucket.moves.same
  have hseen : (l.now.2.tokenBucket t).2.Seen l.readings l.now.1 :=
    (seen_now l le_rfl).mono hreadings hclock le_rfl
  obtain ⟨htake, hlookup'⟩ := takeTokens_serves hlookup hseen 0
  have hserves := ((now_serves t l.readings l).trans hbucket).trans htake
  obtain ⟨hconfig', hclock', hreadings'⟩ := htake.moves.same
  have hcapacity : 0 ≤ (l.now.2.tokenBucket t).1.capacity := by
    have hsound := ((now_serves t l.readings l).trans hbucket).moves.sound hl
    rw [(hsound.configured t _ hlookup).1]
    exact tokenCapacity_nonneg _ t
  obtain ⟨hupdated, htokens⟩ := take_settles hcapacity (le_refl (0 : ℚ))
    (rfl : take slack (l.now.2.tokenBucket t).1 0 l.now.1 = (_, (l.opened t).1))
  exact ⟨hserves, hlookup', hseen.mono hreadings' hclock' le_rfl, hupdated, htokens⟩

theorem acquire_eq (l : TenantLimiter) (t : Text) : l.acquire t =
      if (l.opened t).1.tokens < 1 then (.rejected t .tokenQuota none, (l.opened t).2)
      else if (l.opened t).2.full t then (.rejected t .inFlight none, (l.opened t).2) else
        let request := (l.opened t).2.requestBucket t
        let taken := request.2.takeRequest t request.1 1 l.now.1
        if taken.1 then
          (.acquired t, { taken.2.2 with inFlight := taken.2.2.inFlight.insert t ((l.opened t).2.active t + 1) })
        else (.rejected t .requestQuota none, taken.2.2) := rfl

/-- What `acquire` does to the counters. -/
structure Acquires (t : Text) (l : TenantLimiter) (a : TenantAdmission) (l' : TenantLimiter) : Prop where
  moves : Moves t l.readings l l'
  tenant : a.tenant = t
  released : a.released = false
  settled : a.settled = false
  reserved : l'.reserved t = l.reserved t + if a.admitted then a.reservedTokens else 0
  rejected : a.admitted = false → l'.active t = l.active t
  admitted : a.admitted = true → l'.active t = l.active t + 1 ∧ l.full t = false

theorem acquires_of_rejected (hserves : Serves t l.readings l l') (reason : AdmissionOutcome)
    (retryAfter : Option ℚ) : Acquires t l (.rejected t reason retryAfter) l' :=
  ⟨hserves.moves, rfl, rfl, rfl, by simp [rejected, hserves.reserved_eq],
    fun _ => hserves.active t, nofun⟩

theorem acquire_acquires (hl : l.Sound) (t : Text) : Acquires t l (l.acquire t).1 (l.acquire t).2 := by
  obtain ⟨hopen, -⟩ := opened_serves hl t
  obtain ⟨hrequest, hcapacity, -, -⟩ :=
    requestBucket_serves (hopen.moves.sound hl) t l.readings
  obtain ⟨htake, -⟩ := takeRequest_serves t l.readings
    hcapacity 1 l.now.1
  have hserves := (hopen.trans hrequest).trans htake
  rw [acquire_eq]
  split
  · exact acquires_of_rejected hopen _ _
  · split
    · exact acquires_of_rejected hopen _ _
    · next hfull =>
      simp only
      split
      · refine ⟨hserves.moves.trans (Move.inFlight _ fun t' hne => lookup_insert_ne hne).moves,
          rfl, rfl, rfl, ?_, nofun, fun _ => ⟨?_, ?_⟩⟩
        · exact (hserves.reserved_eq t).trans (by simp [acquired])
        · simp [active, hopen.inFlight]
        · rw [← hopen.full]
          simpa using hfull
      · exact acquires_of_rejected hserves _ _

/-- How `acquire_reserved` goes on: the request bucket, refilled. -/
def requested (l : TenantLimiter) (t : Text) (now : ℚ) : Bucket × TenantLimiter :=
  (l.requestBucket t).2.takeRequest t (l.requestBucket t).1 0 now |>.2

theorem requested_serves (hl : l.Sound) (t : Text) (n : Nat) (now : ℚ) :
    Serves t n l (l.requested t now).2 ∧ 0 ≤ (l.requested t now).1.capacity ∧
      (l.requested t now).2.tokenBuckets = l.tokenBuckets ∧ now ≤ (l.requested t now).1.updated ∧
      (l.requested t now).1.tokens ≤ (l.requested t now).1.capacity := by
  obtain ⟨hrequest, hcapacity, hsame, -⟩ := requestBucket_serves hl t n
  obtain ⟨htake, hcapacity', hsame'⟩ :=
    takeRequest_serves t n hcapacity 0 now
  obtain ⟨hupdated, htokens⟩ := take_settles hcapacity (le_refl (0 : ℚ))
    (rfl : take slack (l.requestBucket t).1 0 now = (_, (l.requested t now).1))
  exact ⟨hrequest.trans htake, hcapacity', hsame'.trans hsame, hupdated, htokens⟩

theorem acquireReserved_eq (l : TenantLimiter) (t : Text) {tokens : Int} (htokens : ¬ tokens < 1)
    (refundable : Bool) : l.acquireReserved t tokens refundable = if (l.opened t).1.capacity < tokens then
        .ok (.rejected t .tokenRequestTooLarge none, (l.opened t).2)
      else if (l.opened t).1.tokens + slack < tokens then
        .ok (.rejected t .tokenQuota (some ((tokens - (l.opened t).1.tokens) / (l.opened t).1.rate)), (l.opened t).2)
      else if (l.opened t).2.full t then .ok (.rejected t .inFlight (some 1), (l.opened t).2) else
        let request := (l.opened t).2.requested t l.now.1
        if request.1.tokens + slack < 1 then
          .ok (.rejected t .requestQuota (some ((1 - request.1.tokens) / request.1.rate)), request.2)
        else
          let once := request.2.takeRequest t request.1 1 l.now.1
          let taken := once.2.2.takeTokens t (l.opened t).1 tokens l.now.1
          if once.1 = false ∨ taken.1 = false then .error .quotaChanged
          else
            .ok ({ acquired t with
                reservedTokens := tokens.toNat, refundableOnExactUsage := refundable },
              { taken.2.2 with
                inFlight := taken.2.2.inFlight.insert t ((l.opened t).2.active t + 1)
                reservedTokens :=
                  taken.2.2.reservedTokens.insert t (taken.2.2.reserved t + tokens.toNat) }) := by
  rw [acquireReserved, if_neg htokens]
  rfl

/-- A positive reservation is granted or rejected, and never fails half way. -/
theorem acquireReserved_acquires (hl : l.Sound) (t : Text) {tokens : Int} (htokens : ¬ tokens < 1) (refundable : Bool) :
    ∃ a l', l.acquireReserved t tokens refundable = .ok (a, l') ∧ Acquires t l a l' := by
  obtain ⟨hopen, hlookup, hseen, hupdated, hfilled⟩ := opened_serves hl t
  obtain ⟨hrequest, hcapacity, hsame, hupdated', hfilled'⟩ :=
    requested_serves (hopen.moves.sound hl) t l.readings l.now.1
  have hrequested := hopen.trans hrequest
  rw [acquireReserved_eq l t htokens]
  split
  · exact ⟨_, _, rfl, acquires_of_rejected hopen _ _⟩
  · split
    · exact ⟨_, _, rfl, acquires_of_rejected hopen _ _⟩
    · next henough =>
      split
      · exact ⟨_, _, rfl, acquires_of_rejected hopen _ _⟩
      · next hfull =>
        simp only
        split
        · exact ⟨_, _, rfl, acquires_of_rejected hrequested _ _⟩
        · next henough' =>
          obtain ⟨honce, -, hsame'⟩ :=
            takeRequest_serves t l.readings hcapacity 1 l.now.1
          generalize hr : ((l.opened t).2.requested t l.now.1).2.takeRequest t
            ((l.opened t).2.requested t l.now.1).1 1 l.now.1 = once at honce hsame'
          have htaken : once.1 = true := by
            rw [← hr]
            simp only [takeRequest, Bucket.take, take_of_enough hupdated' hfilled' henough']
          have hserves := hrequested.trans honce
          have hlookup' : once.2.2.tokenBuckets.lookup t = some (l.opened t).1 := by
            rw [hsame', hsame, hlookup]
          have hseen' : once.2.2.Seen l.readings l.now.1 := by
            obtain ⟨-, hclock, hreadings⟩ := (hrequest.trans honce).moves.same
            exact hseen.mono hreadings hclock le_rfl
          obtain ⟨htake, -⟩ := takeTokens_serves hlookup' hseen' tokens
          have htaken' : (once.2.2.takeTokens t (l.opened t).1 tokens l.now.1).1 = true := by
            simp only [takeTokens, Bucket.take, take_of_enough hupdated hfilled henough]
          have hall := hserves.trans htake
          rw [if_neg (by simp [htaken, htaken'])]
          refine ⟨_, _, rfl, ?_⟩
          refine ⟨?_, rfl, rfl, rfl, ?_, nofun, fun _ => ⟨?_, ?_⟩⟩
          · exact (hall.moves.trans (Move.inFlight _ fun t' hne => lookup_insert_ne hne).moves).trans
              (Move.reserved _ fun t' hne => lookup_insert_ne hne).moves
          · simp [reserved, acquired, hall.reserved]
          · simp [active, hopen.inFlight]
          · rw [← hopen.full]
            simpa using hfull

theorem finishReservation_ok (n : Nat) {k : Nat} (h : k ≤ l.reserved t) :
    ∃ l', l.finishReservation t k = .ok l' ∧ Moves t n l l' ∧ l'.active t = l.active t ∧
      l'.reserved t = l.reserved t - k := by
  simp only [finishReservation]
  rw [if_neg (by omega)]
  split
  · exact ⟨_, rfl, (Move.reserved l fun t' hne => lookup_insert_ne hne).moves, rfl, by simp [reserved]⟩
  · next hnone =>
    refine ⟨_, rfl, (Move.reserved l fun t' hne => lookup_erase_ne hne).moves, rfl, ?_⟩
    have hzero : l.reserved t - k = 0 := not_not.mp hnone
    rw [hzero]
    simp [reserved]

theorem Serves.finish (hserves : Serves t n l l') {k : Nat} (h : k ≤ l.reserved t) :
    ∃ l'', l'.finishReservation t k = .ok l'' ∧ Moves t n l l'' ∧ l''.active t = l.active t ∧
      l''.reserved t = l.reserved t - k := by
  obtain ⟨l'', hok, hmoves, hactive, hreserved⟩ :=
    finishReservation_ok n (h.trans_eq (hserves.reserved_eq t).symm)
  exact ⟨l'', hok, hserves.moves.trans hmoves, hactive.trans (hserves.active t),
    by rw [hreserved, hserves.reserved_eq]⟩

theorem releaseLease_ok (n : Nat) (h : 1 ≤ l.active t) :
    ∃ l', l.releaseLease t = .ok l' ∧ Moves t n l l' ∧ l'.active t = l.active t - 1 ∧ l'.reserved t = l.reserved t := by
  simp only [releaseLease]
  rw [if_neg (by omega)]
  split
  · next hone =>
    refine ⟨_, rfl, (Move.inFlight l fun t' hne => lookup_erase_ne hne).moves, ?_, rfl⟩
    rw [hone]
    simp [active]
  · exact ⟨_, rfl, (Move.inFlight l fun t' hne => lookup_insert_ne hne).moves, by simp [active], rfl⟩

/-- The token bucket and a later reading of the clock. -/
theorem tokenBucket_read (l : TenantLimiter) (t : Text) : Serves t l.readings l (l.tokenBucket t).2.now.2 ∧
      (l.tokenBucket t).2.now.2.tokenBuckets.lookup t = some (l.tokenBucket t).1 ∧
      (l.tokenBucket t).2.now.2.Seen l.readings (l.tokenBucket t).2.now.1 := by
  obtain ⟨hbucket, hlookup⟩ := tokenBucket_serves l t le_rfl
  exact ⟨hbucket.trans (now_serves t l.readings _), hlookup, seen_now _ hbucket.moves.same.2.2⟩

theorem debit_serves (hb : l.tokenBuckets.lookup t = some b) (hn : n ≤ l.readings) (hamount : 0 ≤ amount) :
    Serves t n l (l.now.2.putTokens t (b.debit amount l.now.1)) :=
  (now_serves t n l).trans ⟨(debited (l := l.now.2) hb (seen_now l hn) hamount).moves, rfl, rfl⟩

theorem refund_serves (hb : l.tokenBuckets.lookup t = some b) (hn : n ≤ l.readings) (hamount : 0 ≤ amount) :
    Serves t n l (l.now.2.refundTokens t b amount l.now.1) :=
  (now_serves t n l).trans ⟨(refunded (l := l.now.2) hb (seen_now l hn) hamount).moves, rfl, rfl⟩

theorem chargeTokens_serves (l : TenantLimiter) (t : Text) (tokens : Int) :
    Serves t l.readings l (l.chargeTokens t tokens) := by
  obtain ⟨hread, hlookup, hseen⟩ := tokenBucket_read l t
  exact hread.trans ⟨(charged tokens hlookup hseen).moves, rfl, rfl⟩

theorem reserveTokens_moves (l : TenantLimiter) (t : Text) (tokens : Nat) :
    Moves t l.readings l (l.reserveTokens t tokens).2 ∧ (l.reserveTokens t tokens).2.active t = l.active t ∧
      (l.reserveTokens t tokens).2.reserved t = l.reserved t + if (l.reserveTokens t tokens).1 then tokens else 0 := by
  obtain ⟨hread, hlookup, hseen⟩ := tokenBucket_read l t
  obtain ⟨htake, -⟩ := takeTokens_serves hlookup hseen tokens
  have hserves := hread.trans htake
  simp only [reserveTokens]
  split
  · refine ⟨hserves.moves.trans (Move.reserved _ fun t' hne => lookup_insert_ne hne).moves, hserves.active t, ?_⟩
    have hsame := hserves.reserved_eq t
    simp only [reserved] at hsame ⊢
    simp [hsame]
  · exact ⟨hserves.moves, hserves.active t, by simpa using hserves.reserved_eq t⟩

theorem refundReservation_ok {k : Nat} (h : k ≤ l.reserved t) :
    ∃ l', l.refundReservation t k = .ok l' ∧ Moves t l.readings l l' ∧ l'.active t = l.active t ∧
      l'.reserved t = l.reserved t - k := by
  obtain ⟨hbucket, hlookup⟩ := tokenBucket_serves l t le_rfl
  exact (hbucket.trans (refund_serves hlookup hbucket.moves.same.2.2 (Nat.cast_nonneg k))).finish h

theorem settleTokens_ok {k : Nat} (h : k ≤ l.reserved t) (actual : Nat) (refundSurplus : Bool) :
    ∃ l', l.settleTokens t k actual refundSurplus = .ok l' ∧ Moves t l.readings l l' ∧
      l'.active t = l.active t ∧ l'.reserved t = l.reserved t - k := by
  obtain ⟨hbucket, hlookup⟩ := tokenBucket_serves l t le_rfl
  have hreadings := hbucket.moves.same.2.2
  simp only [settleTokens]
  split
  · have hviolated : Serves t l.readings (l.tokenBucket t).2 { (l.tokenBucket t).2 with
        boundViolations := (l.tokenBucket t).2.boundViolations.insert t
          (((l.tokenBucket t).2.boundViolations.lookup t).getD 0 + 1) } :=
      ⟨(violated _ _).moves, rfl, rfl⟩
    exact ((hbucket.trans hviolated).trans (debit_serves hlookup hreadings (Nat.cast_nonneg (actual - k)))).finish h
  · split
    · exact (hbucket.trans (refund_serves hlookup hreadings (Nat.cast_nonneg (k - actual)))).finish h
    · exact hbucket.finish h

end TenantLimiter

/-! ### Admissions -/

namespace TenantAdmission

open TenantLimiter

variable {a a' : TenantAdmission} {l l' : TenantLimiter} {t : Text}

/-- The lease the admission holds of the tenant. -/
def leases (t : Text) (a : TenantAdmission) : Nat :=
  if a.tenant = t ∧ a.admitted = true ∧ a.released = false then 1 else 0

/-- The tokens it holds of the tenant's reservations. -/
def share (t : Text) (a : TenantAdmission) : Nat :=
  if a.tenant = t ∧ a.admitted = true ∧ a.released = false ∧ a.settled = false then a.reservedTokens
  else 0

/-- A call of the admission moves its tenant's counters as it moves what it holds. -/
structure Adjusts (l : TenantLimiter) (a : TenantAdmission) (l' : TenantLimiter) (a' : TenantAdmission) :
    Prop where
  moves : Moves a.tenant l.readings l l'
  tenant : a'.tenant = a.tenant
  leases : l'.active a.tenant + a.leases a.tenant = l.active a.tenant + a'.leases a.tenant
  shares : l'.reserved a.tenant + a.share a.tenant = l.reserved a.tenant + a'.share a.tenant
  fewer : l'.active a.tenant ≤ l.active a.tenant
  settled : (a.settled = true → a.reservedTokens ≠ 0) → a'.settled = true → a'.reservedTokens ≠ 0

/-- A call raises a misuse error or adjusts the counters. -/
def Safe (l : TenantLimiter) (a : TenantAdmission)
    (result : Except TenantError (TenantAdmission × TenantLimiter)) : Prop :=
  (∃ e, result = .error e ∧ e.internal = false) ∨ ∃ a' l', result = .ok (a', l') ∧ Adjusts l a l' a'

theorem adjusts_refl (l : TenantLimiter) (a : TenantAdmission) : Adjusts l a l a :=
  ⟨.refl l, rfl, rfl, rfl, le_rfl, id⟩

theorem safe_error (e : TenantError) (h : e.internal = false) : Safe l a (.error e) := .inl ⟨e, rfl, h⟩

theorem safe_same (l : TenantLimiter) (a : TenantAdmission) : Safe l a (.ok (a, l)) :=
  .inr ⟨a, l, rfl, adjusts_refl l a⟩

theorem reserveTokens_safe (hsettled : a.settled = true → a.reservedTokens ≠ 0) (tokens : Int) (refundable : Bool) :
    Safe l a (match a.reserveTokens l tokens refundable with
      | .error error => .error error
      | .ok (_, a, l) => .ok (a, l)) := by
  simp only [reserveTokens]
  split_ifs with hpositive hreleased hadmitted hreserved
  · exact safe_error _ rfl
  · exact safe_error _ rfl
  · exact safe_same l a
  · exact safe_error _ rfl
  · obtain ⟨hmoves, hactive, hreserved'⟩ := reserveTokens_moves l a.tenant tokens.toNat
    have hnone : a.reservedTokens = 0 := not_not.mp hreserved
    cases hresult : l.reserveTokens a.tenant tokens.toNat with
    | mk taken l' =>
      rw [hresult] at hmoves hactive hreserved'
      cases taken with
      | false =>
        refine .inr ⟨_, _, rfl, hmoves, rfl, ?_, ?_, hactive.le, id⟩
        · simp [leases, hactive]
        · simpa [share, hnone] using hreserved'
      | true =>
        have hunsettled : a.settled = false := by simpa [hnone] using hsettled
        refine .inr ⟨_, _, rfl, hmoves, rfl, ?_, ?_, hactive.le, fun _ => by simp [hunsettled]⟩
        · simp [leases, hactive]
        · simp_all [share]

theorem markDispatched_safe (l : TenantLimiter) (a : TenantAdmission) : Safe l a (match a.markDispatched with
      | .error error => .error error
      | .ok a => .ok (a, l)) := by
  simp only [markDispatched]
  split_ifs
  · exact safe_error _ rfl
  · exact safe_same l a
  · exact safe_error _ rfl
  · exact .inr ⟨_, l, rfl, .refl l, rfl, rfl, rfl, le_rfl, id⟩

theorem settleTokens_safe (h : a.share a.tenant ≤ l.reserved a.tenant) (actual : Int)
    (exact forceRefundSurplus : Bool) : Safe l a (a.settleTokens l actual exact forceRefundSurplus) := by
  simp only [settleTokens]
  split_ifs with hactual hforce hreleased hadmitted hreserved hsettled
  · exact safe_error _ rfl
  · exact safe_error _ rfl
  · exact safe_error _ rfl
  · exact safe_same l a
  · exact safe_error _ rfl
  · exact safe_same l a
  · have hshare : a.share a.tenant = a.reservedTokens := by simp_all [share]
    rw [hshare] at h
    obtain ⟨l', hok, hmoves, hactive, hreserved'⟩ := settleTokens_ok h actual.toNat
      (exact && (a.refundableOnExactUsage || forceRefundSurplus))
    rw [hok]
    refine .inr ⟨_, l', rfl, hmoves, rfl, ?_, ?_, hactive.le, fun _ _ => by simp; omega⟩
    · simp [leases, hactive]
    · rw [hshare]
      simp [share]
      omega

theorem release_safe (h : a.share a.tenant ≤ l.reserved a.tenant)
    (hleases : a.leases a.tenant ≤ l.active a.tenant) : Safe l a (a.release l) := by
  rw [release]
  by_cases hover : a.released = true ∨ a.admitted = false
  · rw [if_pos hover]
    exact safe_same l a
  · have hheld : a.released = false ∧ a.admitted = true := by simpa using hover
    have hlease : a.leases a.tenant = 1 := by simp [leases, hheld]
    rw [hlease] at hleases
    -- What the reservation was is given up first, whether it is refunded or consumed.
    obtain ⟨l1, hok, hmoves, hactive, hreserved⟩ : ∃ l1,
        (if a.reservedTokens ≠ 0 ∧ a.settled = false then
          if a.dispatched = true then l.finishReservation a.tenant a.reservedTokens
          else l.refundReservation a.tenant a.reservedTokens
        else .ok l) = .ok l1 ∧ Moves a.tenant l.readings l l1 ∧ l1.active a.tenant = l.active a.tenant ∧
          l1.reserved a.tenant = l.reserved a.tenant - a.share a.tenant := by
      split_ifs with hreserved hdispatched
      · have hshare : a.share a.tenant = a.reservedTokens := by simp [share, hheld, hreserved.2]
        rw [hshare] at h ⊢
        exact finishReservation_ok l.readings h
      · have hshare : a.share a.tenant = a.reservedTokens := by simp [share, hheld, hreserved.2]
        rw [hshare] at h ⊢
        exact refundReservation_ok h
      · have hshare : a.share a.tenant = 0 := by
          simp only [share]
          grind
        exact ⟨l, rfl, .refl l, rfl, by rw [hshare, Nat.sub_zero]⟩
    obtain ⟨l2, hok', hmoves', hactive', hreserved'⟩ :=
      releaseLease_ok l.readings (hleases.trans_eq hactive.symm)
    refine .inr ⟨{ a with released := true }, l2, ?_, hmoves.trans hmoves', rfl, ?_, ?_, ?_, id⟩
    · rw [if_neg hover]
      split_ifs at hok ⊢ <;> simp_all [bind, Except.bind, pure, Except.pure]
    · rw [hlease]
      simp [leases]
      omega
    · rw [hreserved', hreserved]
      simp [share]
      simp [share] at h
      omega
    · omega

end TenantAdmission

end Kairyu
