/-
  Kairyu/Clock.lean
  =================
  **Instants and durations of the standard library** — a small library.

  A `datetime` is the number of microseconds since the first one, and a `timedelta` a number
  of microseconds.  Making either may overflow, and a number of seconds is rounded to whole
  microseconds, so a positive number of seconds may be no time at all.
-/
import Mathlib.Data.Rat.Floor

namespace Kairyu

/-- An aware `datetime`, in microseconds after `datetime.min`. -/
abbrev Instant := Int

/-- `datetime.max` -/
def maxInstant : Instant := 3652059 * 86400 * 10 ^ 6 - 1

/-- The nearest integer, the even one of two. -/
def roundHalfEven (q : ℚ) : Int :=
  let below := ⌊q⌋
  if q - below < 1 / 2 then below
  else if 1 / 2 < q - below then below + 1
  else if below % 2 = 0 then below
  else below + 1

/-- `timedelta(seconds=seconds)`; `none` is an `OverflowError`. -/
def timedelta (seconds : ℚ) : Option Int :=
  let micros := roundHalfEven (seconds * 10 ^ 6)
  if -999999999 * 86400 * 10 ^ 6 ≤ micros ∧ micros < 1000000000 * 86400 * 10 ^ 6 then some micros else none

/-- `now + timedelta(microseconds=span)`; `none` is an `OverflowError`. -/
def addSpan (now : Instant) (span : Int) : Option Instant :=
  if 0 ≤ now + span ∧ now + span ≤ maxInstant then some (now + span) else none

theorem addSpan_eq_some {now later : Instant} {span : Int} (h : addSpan now span = some later) : later = now + span := by
  unfold addSpan at h
  split at h
  · exact (Option.some.inj h).symm
  · cases h

end Kairyu
