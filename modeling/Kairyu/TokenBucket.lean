/-
  Kairyu/TokenBucket.lean
  =======================
  **Token buckets**, over an arbitrary ordered field.

  A bucket refills at a constant rate up to its capacity, as far as the clock has moved
  past the latest reading it has seen; a clock that moves back refills nothing.  `take`
  succeeds when the bucket holds the amount up to a small `slack`, `debit` may leave it
  below zero, `refund` gives tokens back up to the capacity.

  What can be taken in a window is bounded by a potential: `level c` is what the bucket
  would hold at the clock `c`, and each operation at a later clock pays for what it takes
  with the level it loses and the time it sees pass.
-/
import Mathlib.Algebra.Order.Field.Basic
import Mathlib.Tactic.Linarith
import Mathlib.Tactic.Ring

set_option linter.unusedSectionVars false

structure TokenBucket (K : Type*) where
  capacity : K
  tokens : K
  rate : K
  updated : K

namespace TokenBucket

variable {K : Type*} [Field K] [LinearOrder K] [IsStrictOrderedRing K]

/-- The bucket at this reading of the clock. -/
def refill (b : TokenBucket K) (now : K) : TokenBucket K :=
  { b with
    tokens := min b.capacity (b.tokens + max 0 (now - b.updated) * b.rate)
    updated := max b.updated now }

def take (slack : K) (b : TokenBucket K) (amount now : K) : Bool × TokenBucket K :=
  let b := b.refill now
  if b.tokens + slack < amount then (false, b)
  else (true, { b with tokens := max 0 (b.tokens - amount) })

/-- Subtracts without a check: what goes below zero is carried forward. -/
def debit (b : TokenBucket K) (amount now : K) : TokenBucket K :=
  let b := b.refill now
  { b with tokens := b.tokens - amount }

def refund (b : TokenBucket K) (amount now : K) : TokenBucket K :=
  { b with
    tokens := min b.capacity (b.tokens + max 0 (now - b.updated) * b.rate + amount)
    updated := max b.updated now }

/-! ### The potential -/

/-- What the bucket would hold at the clock `c`, and at least nothing. -/
def level (b : TokenBucket K) (c : K) : K :=
  max 0 (min b.capacity (b.tokens + max 0 (c - b.updated) * b.rate))

/-- The latest clock the bucket knows of, and at least `c`. -/
def since (b : TokenBucket K) (c : K) : K := max b.updated c

variable {b : TokenBucket K} {c now amount slack : K}

theorem level_nonneg (b : TokenBucket K) (c : K) : 0 ≤ b.level c := le_max_left _ _

theorem level_le_capacity (hcapacity : 0 ≤ b.capacity) (c : K) : b.level c ≤ b.capacity :=
  max_le hcapacity (min_le_left _ _)

theorem max_zero_sub (x u : K) : max 0 (x - u) = max u x - u := by
  rcases le_total u x with h | h
  · rw [max_eq_right (sub_nonneg.mpr h), max_eq_right h]
  · rw [max_eq_left (sub_nonpos.mpr h), max_eq_left h, sub_self]

/-- Tokens at a clock after `c` are those at `c` and what the time between brings. -/
theorem tokens_at (b : TokenBucket K) (c now : K) : b.tokens + max 0 (now - b.updated) * b.rate =
      b.tokens + max 0 (c - b.updated) * b.rate + b.rate * (max b.updated now - b.since c) := by
  rw [max_zero_sub, max_zero_sub, since]
  ring

theorem min_add_le {x y z : K} (hz : 0 ≤ z) : min x (y + z) ≤ min x y + z := by
  rcases le_total x y with h | h
  · rw [min_eq_left h]
    exact (min_le_left _ _).trans (le_add_of_nonneg_right hz)
  · rw [min_eq_right h]
    exact min_le_right _ _

theorem max_add_le {x y z : K} (hz : 0 ≤ z) : max x (y + z) ≤ max x y + z :=
  max_le ((le_max_left _ _).trans (le_add_of_nonneg_right hz)) (by gcongr; exact le_max_right _ _)

/-- After a reading at or after `c` the level is what the bucket holds. -/
theorem level_of_updated (h : c ≤ b.updated) : b.level c = max 0 (min b.capacity b.tokens) := by
  rw [level, max_eq_left (sub_nonpos.mpr h), zero_mul, add_zero]

theorem since_of_updated (h : c ≤ b.updated) : b.since c = b.updated := max_eq_left h

theorem since_le (b : TokenBucket K) (h : c ≤ now) : b.since c ≤ max b.updated now :=
  max_le_max_left _ h

theorem elapsed_nonneg (hrate : 0 ≤ b.rate) (h : c ≤ now) : 0 ≤ b.rate * (max b.updated now - b.since c) :=
  mul_nonneg hrate (sub_nonneg.mpr (b.since_le h))

/-- Refilling gains at most what the time between brings. -/
theorem refill_level (hrate : 0 ≤ b.rate) (h : c ≤ now) :
    max 0 (b.refill now).tokens ≤ b.level c + b.rate * (max b.updated now - b.since c) := by
  have helapsed := elapsed_nonneg hrate h
  simp only [refill]
  rw [tokens_at b c now]
  calc max 0 (min b.capacity (b.tokens + max 0 (c - b.updated) * b.rate + b.rate * (max b.updated now - b.since c)))
      ≤ max 0 (min b.capacity (b.tokens + max 0 (c - b.updated) * b.rate) +
          b.rate * (max b.updated now - b.since c)) := max_le_max_left _ (min_add_le helapsed)
    _ ≤ b.level c + b.rate * (max b.updated now - b.since c) := max_add_le helapsed

/-- The bucket afterwards has paid `taken` with level and with time after `c`. -/
structure Pays (c : K) (b b' : TokenBucket K) (taken : K) : Prop where
  capacity : b'.capacity = b.capacity
  rate : b'.rate = b.rate
  paid : taken + b'.level c ≤ b.level c + b.rate * (b'.since c - b.since c)

variable {b' : TokenBucket K}

/-- A bucket that read the clock at or after `c` and holds no more than it paid for. -/
theorem pays_of_tokens {taken : K} (hrate : 0 ≤ b.rate) (h : c ≤ now) (hcapacity : b'.capacity = b.capacity)
    (hsame : b'.rate = b.rate) (hupdated : b'.updated = max b.updated now)
    (hpaid : taken + max 0 b'.tokens ≤ max 0 (b.refill now).tokens) : Pays c b b' taken := by
  have hlater : c ≤ b'.updated := hupdated ▸ h.trans (le_max_right _ _)
  have hlevel : b'.level c ≤ max 0 b'.tokens := by
    rw [level_of_updated hlater]
    exact max_le_max_left _ (min_le_right _ _)
  refine ⟨hcapacity, hsame, ?_⟩
  rw [since_of_updated hlater, hupdated]
  linarith [refill_level hrate h]

theorem refill_pays (hrate : 0 ≤ b.rate) (h : c ≤ now) : Pays c b (b.refill now) 0 :=
  pays_of_tokens hrate h rfl rfl rfl (by rw [zero_add])

/-- A successful `take` pays all but the slack. -/
theorem take_pays (hrate : 0 ≤ b.rate) (h : c ≤ now) (hslack : 0 ≤ slack) (htake : take slack b amount now = (true, b')) :
    Pays c b b' (amount - slack) := by
  simp only [take] at htake
  split at htake
  · exact nomatch (Prod.mk.inj htake).1
  · next henough =>
    obtain ⟨-, rfl⟩ := Prod.mk.inj htake
    refine pays_of_tokens hrate h rfl rfl rfl ?_
    have htokens := le_max_right 0 (b.refill now).tokens
    simp only [max_eq_right (le_max_left (0 : K) ((b.refill now).tokens - amount))]
    rcases le_total 0 ((b.refill now).tokens - amount) with hle | hle
    · rw [max_eq_right hle]
      linarith
    · rw [max_eq_left hle]
      linarith [not_lt.mp henough]

theorem take_updated {taken : Bool} (htake : take slack b amount now = (taken, b')) :
    b'.updated = max b.updated now := by
  simp only [take] at htake
  split at htake <;> obtain ⟨-, rfl⟩ := Prod.mk.inj htake <;> rfl

theorem take_same {taken : Bool} (htake : take slack b amount now = (taken, b')) :
    b'.capacity = b.capacity ∧ b'.rate = b.rate := by
  simp only [take] at htake
  split at htake <;> obtain ⟨-, rfl⟩ := Prod.mk.inj htake <;> exact ⟨rfl, rfl⟩

/-- After a `take` the bucket has seen the clock and holds no more than its capacity. -/
theorem take_settles {taken : Bool} (hcapacity : 0 ≤ b.capacity) (hamount : 0 ≤ amount)
    (htake : take slack b amount now = (taken, b')) : now ≤ b'.updated ∧ b'.tokens ≤ b'.capacity := by
  refine ⟨take_updated htake ▸ le_max_right _ _, ?_⟩
  have hrefill : (b.refill now).tokens ≤ b.capacity := min_le_left _ _
  simp only [take] at htake
  split at htake <;> obtain ⟨-, rfl⟩ := Prod.mk.inj htake
  · exact hrefill
  · exact max_le hcapacity ((sub_le_self _ hamount).trans hrefill)

/-- A second reading of the same clock refills nothing. -/
theorem refill_of_settled (hupdated : now ≤ b.updated) (htokens : b.tokens ≤ b.capacity) : b.refill now = b := by
  rcases b with ⟨capacity, tokens, rate, updated⟩
  have helapsed : max 0 (now - updated) = 0 := max_eq_left (sub_nonpos.mpr hupdated)
  simp only [refill, helapsed, zero_mul, add_zero, mk.injEq, true_and]
  exact ⟨min_eq_right htokens, max_eq_left hupdated⟩

theorem take_of_enough (hupdated : now ≤ b.updated) (htokens : b.tokens ≤ b.capacity)
    (henough : ¬ b.tokens + slack < amount) :
    take slack b amount now = (true, { b with tokens := max 0 (b.tokens - amount) }) := by
  simp only [take, refill_of_settled hupdated htokens, if_neg henough]

/-- A `take` of nothing only refills, up to a debt within the slack. -/
theorem refill_le_take_zero (slack : K) (b : TokenBucket K) (now : K) :
    (b.refill now).tokens ≤ (take slack b 0 now).2.tokens := by
  simp only [take, sub_zero]
  split
  · exact le_rfl
  · exact le_max_right _ _

theorem refill_full (hrate : 0 ≤ b.rate) (hfull : b.capacity ≤ b.tokens) (now : K) :
    b.capacity ≤ (b.refill now).tokens :=
  le_min le_rfl (hfull.trans (le_add_of_nonneg_right (mul_nonneg (le_max_left _ _) hrate)))

/-- After the time that `amount` takes to fill, it is there. -/
theorem refill_after (hrate : 0 < b.rate) (hamount : amount ≤ b.capacity)
    (hlater : b.updated + (amount - b.tokens) / b.rate ≤ now) : amount ≤ (b.refill now).tokens := by
  refine le_min hamount ?_
  have helapsed : (amount - b.tokens) / b.rate ≤ max 0 (now - b.updated) :=
    (le_sub_iff_add_le'.mpr hlater).trans (le_max_right _ _)
  have hfilled := (div_le_iff₀ hrate).mp helapsed
  linarith

theorem take_fails (htake : take slack b amount now = (false, b')) : b' = b.refill now := by
  simp only [take] at htake
  split at htake
  · exact (Prod.mk.inj htake).2.symm
  · exact nomatch (Prod.mk.inj htake).1

/-- A debit takes nothing, and one of a negative amount gives it back. -/
theorem debit_pays (hrate : 0 ≤ b.rate) (h : c ≤ now) (amount : K) : Pays c b (b.debit amount now) (min 0 amount) := by
  refine pays_of_tokens hrate h rfl rfl rfl ?_
  have hgain : (b.debit amount now).tokens ≤ (b.refill now).tokens + max 0 (-amount) := by
    have hle : -amount ≤ max 0 (-amount) := le_max_right _ _
    simp only [debit]
    linarith
  have hmax : max 0 (b.debit amount now).tokens ≤ max 0 (b.refill now).tokens + max 0 (-amount) :=
    (max_le_max_left 0 hgain).trans (max_add_le (le_max_left _ _))
  have hneg : min 0 amount = -max 0 (-amount) := by
    rw [max_def, min_def]
    split_ifs <;> linarith
  linarith

theorem refund_pays (hrate : 0 ≤ b.rate) (h : c ≤ now) (hamount : 0 ≤ amount) :
    Pays c b (b.refund amount now) (-amount) := by
  refine pays_of_tokens hrate h rfl rfl rfl ?_
  have hgain : max 0 (b.refund amount now).tokens ≤ max 0 (b.refill now).tokens + amount :=
    (max_le_max_left _ (min_add_le hamount)).trans (max_add_le hamount)
  linarith

end TokenBucket
