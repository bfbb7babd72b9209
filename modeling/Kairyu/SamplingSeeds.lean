/-
  Kairyu/SamplingSeeds.lean
  =========================
  **The sampling seed of a position** (`engine/core/sampling_types.py`).

  `mix_seed` is the finalizer of SplitMix64 over the request's seed and a multiple of the
  position.  Every step of it can be undone, so a seed is never given twice.

  The source masks each value to 64 bits: the values are words, and of a Python integer a word
  keeps the low bits.
-/
import Mathlib

namespace Kairyu

open Function BitVec

def mixSeed (base position : Int) : BitVec 64 :=
  let x := BitVec.ofInt 64 base ^^^ BitVec.ofInt 64 ((position + 1) * 0x9E3779B97F4A7C15)
  let x := (x ^^^ x >>> 30) * 0xBF58476D1CE4E5B9#64
  let x := (x ^^^ x >>> 27) * 0x94D049BB133111EB#64
  x ^^^ x >>> 31

section Word

variable {w : Nat}

/-- A word is determined by its xor with itself shifted: where two words differ, their
    difference would be equal to itself shifted. -/
theorem xorShift_injective (shift : Nat) (hshift : 0 < shift) : Injective fun x : BitVec w => x ^^^ x >>> shift := by
  intro x y heq
  have hself : x ^^^ y = (x ^^^ y) >>> shift := by
    rw [← BitVec.xor_eq_zero_iff, ushiftRight_xor_distrib]
    calc x ^^^ y ^^^ (x >>> shift ^^^ y >>> shift) = x ^^^ x >>> shift ^^^ (y ^^^ y >>> shift) := by ac_rfl
      _ = 0#w := BitVec.xor_eq_zero_iff.mpr heq
  have hzero : (x ^^^ y).toNat = 0 := by
    by_contra hne
    have hnat := congrArg BitVec.toNat hself
    rw [toNat_ushiftRight] at hnat
    have hlt := Nat.div_lt_self (Nat.pos_of_ne_zero hne) (Nat.one_lt_two_pow hshift.ne')
    omega
  exact BitVec.xor_eq_zero_iff.mp (eq_of_toNat_eq hzero)

theorem mul_unit_injective {c : BitVec w} (inverse : BitVec w) (hunit : c * inverse = 1#w) : Injective (· * c) := by
  intro x y heq
  have hscaled : x * c * inverse = y * c * inverse := congrArg (· * inverse) heq
  simpa only [BitVec.mul_assoc, hunit, BitVec.mul_one] using hscaled

theorem ofInt_eq_ofInt_iff (i j : Int) : BitVec.ofInt w i = BitVec.ofInt w j ↔ i ≡ j [ZMOD 2 ^ w] := by
  have hpos : (2 : Int) ^ w ≠ 0 := pow_ne_zero w two_ne_zero
  have hi := Int.emod_nonneg i hpos
  have hj := Int.emod_nonneg j hpos
  simp only [BitVec.toNat_eq, BitVec.toNat_ofInt, Int.ModEq]
  push_cast
  omega

end Word

/-- The steps after the position is mixed in. -/
theorem finalizer_injective : Injective fun x : BitVec 64 => let x := (x ^^^ x >>> 30) * 0xBF58476D1CE4E5B9#64
    let x := (x ^^^ x >>> 27) * 0x94D049BB133111EB#64
    x ^^^ x >>> 31 := by
  have hfirst : Injective (· * 0xBF58476D1CE4E5B9#64) := mul_unit_injective 0x96DE1B173F119089#64 (by decide)
  have hsecond : Injective (· * 0x94D049BB133111EB#64) := mul_unit_injective 0x319642B2D24D8EC3#64 (by decide)
  have h30 := xorShift_injective (w := 64) 30 (by decide)
  have h27 := xorShift_injective (w := 64) 27 (by decide)
  have h31 := xorShift_injective (w := 64) 31 (by decide)
  exact h31.comp (hsecond.comp (h27.comp (hfirst.comp h30)))

/-- **Seeds do not collide**: under one base the positions give different seeds up to their
    class modulo `2 ^ 64`, and at one position different bases give different seeds. -/
theorem mixSeed_injective : (∀ base i j : Int, mixSeed base i = mixSeed base j ↔ i ≡ j [ZMOD 2 ^ 64]) ∧
    ∀ position, Set.InjOn (mixSeed · position) (Set.Ico 0 (2 ^ 64)) := by
  constructor
  · intro base i j
    have hmul : Injective (· * BitVec.ofInt 64 0x9E3779B97F4A7C15) :=
      mul_unit_injective 0xF1DE83E19937733D#64 (by decide)
    unfold mixSeed
    rw [finalizer_injective.eq_iff, BitVec.xor_right_inj, BitVec.ofInt_mul, BitVec.ofInt_mul, hmul.eq_iff,
      ofInt_eq_ofInt_iff]
    exact ⟨Int.ModEq.add_right_cancel' 1, Int.ModEq.add_right 1⟩
  · intro position a ha b hb heq
    have hword := (BitVec.xor_left_inj _).mp (finalizer_injective heq)
    have hmod := (ofInt_eq_ofInt_iff a b).mp hword
    rwa [Int.ModEq, Int.emod_eq_of_lt ha.1 ha.2, Int.emod_eq_of_lt hb.1 hb.2] at hmod

end Kairyu
