import Mathlib.Data.BitVec
import Mathlib.Algebra.Order.Ring.Int

/-!
# Bit vectors of different widths

Arithmetic commutes with truncation; sign extension in two steps is one step; a number
that fits a width is not changed by truncating it; the signed order in terms of the sign
bits.
-/

namespace Mirage

variable {w n : Nat}

theorem setWidth_sub (x y : BitVec w) (h : n ≤ w) :
    (x - y).setWidth n = x.setWidth n - y.setWidth n := by
  rw [BitVec.sub_eq_add_neg, BitVec.sub_eq_add_neg, BitVec.setWidth_add _ _ h,
    BitVec.setWidth_neg_of_le h]

theorem setWidth_signExtend (x : BitVec n) {k l : Nat} (hk : k ≤ l) :
    (x.signExtend l).setWidth k = x.signExtend k := by
  ext i hi
  simp [BitVec.getElem_signExtend, show i < l by omega]

theorem signExtend_signExtend (x : BitVec n) {k l : Nat} (hn : n ≤ k) (hk : k ≤ l) :
    (x.signExtend k).signExtend l = x.signExtend l := by
  apply BitVec.eq_of_toInt_eq
  rw [BitVec.toInt_signExtend_of_le hk, BitVec.toInt_signExtend_of_le hn,
    BitVec.toInt_signExtend_of_le (by omega)]

/-- A number that fits is not changed by truncation. -/
theorem setWidth_setWidth_eq {x : BitVec w} (h : x.toNat < 2 ^ n) :
    (x.setWidth n).setWidth w = x := by
  apply BitVec.eq_of_toNat_eq
  rw [BitVec.toNat_setWidth, BitVec.toNat_setWidth, Nat.mod_eq_of_lt h, Nat.mod_eq_of_lt x.isLt]

theorem setWidth_setWidth_of_ge (x : BitVec n) {k l : Nat} (hn : n ≤ k) :
    (x.setWidth k).setWidth l = x.setWidth l := by
  apply BitVec.eq_of_toNat_eq
  rw [BitVec.toNat_setWidth, BitVec.toNat_setWidth, BitVec.toNat_setWidth,
    Nat.mod_eq_of_lt (lt_of_lt_of_le x.isLt (Nat.pow_le_pow_right (by omega) hn))]

theorem eq_of_setWidth_eq {x y : BitVec w} (hx : x.toNat < 2 ^ n) (hy : y.toNat < 2 ^ n)
    (h : x.setWidth n = y.setWidth n) : x = y := by
  rw [← setWidth_setWidth_eq hx, ← setWidth_setWidth_eq hy, h]

theorem setWidth_udiv {x y : BitVec w} (hx : x.toNat < 2 ^ n) (hy : y.toNat < 2 ^ n) :
    x.setWidth n / y.setWidth n = (x / y).setWidth n := by
  apply BitVec.eq_of_toNat_eq
  simp only [BitVec.toNat_udiv, BitVec.toNat_setWidth, Nat.mod_eq_of_lt hx, Nat.mod_eq_of_lt hy]
  rw [Nat.mod_eq_of_lt (lt_of_le_of_lt (Nat.div_le_self _ _) hx)]

theorem setWidth_umod {x y : BitVec w} (hx : x.toNat < 2 ^ n) (hy : y.toNat < 2 ^ n) :
    x.setWidth n % y.setWidth n = (x % y).setWidth n := by
  apply BitVec.eq_of_toNat_eq
  simp only [BitVec.toNat_umod, BitVec.toNat_setWidth, Nat.mod_eq_of_lt hx, Nat.mod_eq_of_lt hy]
  rw [Nat.mod_eq_of_lt (lt_of_le_of_lt (Nat.mod_le _ _) hx)]

theorem xor_neg_one (x : BitVec n) : x ^^^ (-1) = ~~~x := by
  rw [show (-1 : BitVec n) = BitVec.allOnes n from BitVec.neg_one_eq_allOnes]
  exact BitVec.xor_allOnes

/-! ## Operations on what was widened -/

theorem toNat_setWidth_of_ge (x : BitVec n) {k : Nat} (h : n ≤ k) :
    (x.setWidth k).toNat = x.toNat := by
  rw [BitVec.toNat_setWidth, Nat.mod_eq_of_lt (x.isLt.trans_le (Nat.pow_le_pow_right (by omega) h))]

theorem setWidth_ofInt {k : Nat} (h : n ≤ k) (z : Int) :
    (BitVec.ofInt k z).setWidth n = BitVec.ofInt n z := by
  apply BitVec.eq_of_toNat_eq
  have hdvd : (2 ^ n : Nat) ∣ (2 ^ k : Nat) := pow_dvd_pow 2 h
  have hpos (m : Nat) : ((2 ^ m : Nat) : Int) ≠ 0 := by simp
  rw [BitVec.toNat_setWidth, BitVec.toNat_ofInt, BitVec.toNat_ofInt]
  apply Int.ofNat.inj
  show (((z % (2 ^ k : Nat)).toNat % 2 ^ n : Nat) : Int) = ((z % (2 ^ n : Nat)).toNat : Int)
  rw [Int.natCast_mod, Int.toNat_of_nonneg (Int.emod_nonneg _ (hpos k)),
    Int.toNat_of_nonneg (Int.emod_nonneg _ (hpos n)),
    Int.emod_emod_of_dvd _ (Int.natCast_dvd_natCast.2 hdvd)]

theorem sshiftRight_signExtend (x : BitVec n) {l : Nat} (h : n ≤ l) (k : Nat) :
    ((x.signExtend l).sshiftRight k).setWidth n = x.sshiftRight k := by
  rcases h.eq_or_lt with rfl | hlt
  · rw [BitVec.signExtend_eq, BitVec.setWidth_eq]
  · ext i hi
    have hmsb : (x.signExtend l).msb = x.msb := by
      rw [BitVec.msb_signExtend, if_neg (by omega), decide_eq_true (by omega), Bool.true_and]
    simp only [BitVec.getElem_sshiftRight, BitVec.getElem_setWidth, BitVec.getLsbD_sshiftRight,
      BitVec.getLsbD_signExtend, hmsb]
    rw [decide_eq_false (show ¬ l ≤ i by omega), Bool.not_false, Bool.true_and]
    split_ifs with hl hn hn
    · rw [decide_eq_true hl, Bool.true_and, BitVec.getLsbD_eq_getElem]
    · rw [decide_eq_true hl, Bool.true_and]
    · exact absurd (hn.trans hlt) hl
    · rfl

theorem shiftLeft_setWidth (x : BitVec n) {l : Nat} (h : n ≤ l) (k : Nat) :
    (x.setWidth l <<< k).setWidth n = x <<< k := by
  apply BitVec.eq_of_toNat_eq
  rw [BitVec.toNat_setWidth, BitVec.toNat_shiftLeft, BitVec.toNat_shiftLeft,
    toNat_setWidth_of_ge x h, Nat.mod_mod_of_dvd _ (pow_dvd_pow 2 h)]

theorem ushiftRight_setWidth (x : BitVec n) {l : Nat} (h : n ≤ l) (k : Nat) :
    x.setWidth l >>> k = (x >>> k).setWidth l := by
  apply BitVec.eq_of_toNat_eq
  rw [BitVec.toNat_ushiftRight, toNat_setWidth_of_ge x h, toNat_setWidth_of_ge _ h,
    BitVec.toNat_ushiftRight]

theorem udiv_setWidth (x y : BitVec n) {l : Nat} (h : n ≤ l) :
    x.setWidth l / y.setWidth l = (x / y).setWidth l := by
  apply BitVec.eq_of_toNat_eq
  rw [BitVec.toNat_udiv, toNat_setWidth_of_ge x h, toNat_setWidth_of_ge y h,
    toNat_setWidth_of_ge _ h, BitVec.toNat_udiv]

theorem umod_setWidth (x y : BitVec n) {l : Nat} (h : n ≤ l) :
    x.setWidth l % y.setWidth l = (x % y).setWidth l := by
  apply BitVec.eq_of_toNat_eq
  rw [BitVec.toNat_umod, toNat_setWidth_of_ge x h, toNat_setWidth_of_ge y h,
    toNat_setWidth_of_ge _ h, BitVec.toNat_umod]

theorem setWidth_eq_zero {x : BitVec n} {l : Nat} (h : n ≤ l) : x.setWidth l = 0 ↔ x = 0 := by
  rw [BitVec.toNat_eq, BitVec.toNat_eq, toNat_setWidth_of_ge x h]
  rfl

theorem signExtend_eq_zero {x : BitVec n} {l : Nat} (h : n ≤ l) : x.signExtend l = 0 ↔ x = 0 := by
  constructor
  · intro he
    rw [← BitVec.signExtend_eq x, ← setWidth_signExtend x h, he]
    simp
  · rintro rfl
    refine BitVec.eq_of_toInt_eq ?_
    rw [BitVec.toInt_signExtend_of_le h]
    exact BitVec.toInt_zero.trans BitVec.toInt_zero.symm

/-- A number below the width has no sign. -/
theorem signExtend_of_lt_width {x : BitVec n} (h : x.toNat < n) (l : Nat) :
    x.signExtend l = x.setWidth l := by
  refine BitVec.signExtend_eq_setWidth_of_msb_false ?_
  have hlt : n - 1 < 2 ^ (n - 1) := Nat.lt_two_pow_self
  rw [BitVec.msb_eq_decide, decide_eq_false_iff_not]
  omega

theorem sdiv_eq_ofInt (x y : BitVec n) : x.sdiv y = BitVec.ofInt n (x.toInt.tdiv y.toInt) :=
  BitVec.eq_of_toInt_eq (by rw [BitVec.toInt_ofInt, BitVec.toInt_sdiv])

/-! ## Order -/

/-- Of two numbers with different signs the negative one is smaller. -/
theorem slt_of_msb_ne {x y : BitVec n} (h : x.msb ≠ y.msb) : x.slt y = x.msb := by
  rw [BitVec.slt_eq_ult, BitVec.ult_eq_msb_of_msb_neq h]
  cases hx : x.msb <;> cases hy : y.msb <;> simp_all

theorem slt_of_msb_eq {x y : BitVec n} (h : x.msb = y.msb) : x.slt y = x.ult y := by
  rw [BitVec.slt_eq_ult, h]
  simp

theorem ule_eq_ult_or_eq (x y : BitVec n) : x.ule y = (x.ult y || x == y) := by
  rw [BitVec.ule, BitVec.ult, beq_eq_decide, ← Bool.decide_or, decide_eq_decide, BitVec.toNat_eq]
  exact Nat.le_iff_lt_or_eq

/-- The sign of a difference that does not overflow. -/
theorem msb_sub_of_msb_eq {x y : BitVec n} (h : x.msb = y.msb) : (x - y).msb = x.slt y := by
  rw [BitVec.slt, BitVec.msb_eq_toInt, BitVec.toInt_sub]
  have hx : x.toInt < 2 ^ (n - 1) := BitVec.toInt_lt
  have hx' : -2 ^ (n - 1) ≤ x.toInt := BitVec.le_toInt x
  have hy : y.toInt < 2 ^ (n - 1) := BitVec.toInt_lt
  have hy' : -2 ^ (n - 1) ≤ y.toInt := BitVec.le_toInt y
  rw [BitVec.msb_eq_toInt, BitVec.msb_eq_toInt, decide_eq_decide] at h
  cases n with
  | zero => simp [BitVec.eq_nil x, BitVec.eq_nil y]
  | succ n =>
    rw [Nat.add_sub_cancel] at *
    have hpow : (2 : Int) ^ (n + 1) = 2 * 2 ^ n := by rw [pow_succ, mul_comm]
    have hb : (x.toInt - y.toInt).bmod (2 ^ (n + 1)) = x.toInt - y.toInt := by
      apply Int.bmod_eq_of_le
      · push_cast
        omega
      · push_cast
        omega
    rw [hb, decide_eq_decide]
    omega

end Mirage
