import Mirage.Lowering

/-!
# Constant folding against the emitted code

What `peephole` folds an integer operation on constants to, compared with what the x86
template and the WebAssembly code of the operation leave when they run on the canonical
forms of the same constants. `foldAgrees_iff` says on which operations they differ
(`FoldDiffers`): the signed comparisons of narrow types, which both backends do without
extending the sign, the sign extension of an `i1`, and what leaves an `i1`.
-/

namespace Mirage

open X86 (Env Machine Ctx Mode context firstIndex widthOf zeroExtend signExtend intValue)

variable {op : Op} {type src : Ty} {x y z k v : BitVec 64} {pb : Nat}

/-! ## The folds on canonical constants -/

theorem typeBits_integer (h : isInteger type = true) (pb : Nat) :
    typeBits type pb = typeBits type 64 := by
  cases type <;> first | (cases h; done) | rfl

theorem typeBits_le (h : isInteger type = true) (pb : Nat) : typeBits type pb ≤ 64 := by
  rw [typeBits_integer h]
  cases type <;> first | (cases h; done) | decide

/-- Normalising twice. -/
theorem normalize_normalize (h : isInteger type = true) (v : BitVec 64) (pb : Nat) (sign : Bool) :
    normalize (normalize v type pb false) type pb sign = normalize v type pb sign := by
  have hback : ((v.setWidth (typeBits type pb)).setWidth 64).setWidth (typeBits type pb) =
      v.setWidth (typeBits type pb) := by
    rw [setWidth_setWidth_of_ge _ (typeBits_le h pb), BitVec.setWidth_eq]
  cases sign
  · rw [normalize_unsigned h, normalize_unsigned h, hback]
  · rw [normalize_signed h, normalize_unsigned h, normalize_signed h, hback]

theorem canonical_normalize (h : isInteger type = true) (v : BitVec 64) (pb : Nat) :
    Canonical type (normalize v type pb false) := by
  rw [Canonical, normalize_unsigned h, typeBits_integer h pb, BitVec.toNat_setWidth]
  exact lt_of_le_of_lt (Nat.mod_le _ _) (v.setWidth (typeBits type 64)).isLt

theorem normalize_of_canonical (h : isInteger type = true) (hx : Canonical type x) (pb : Nat) :
    normalize x type pb false = x := by
  rw [normalize_unsigned h, typeBits_integer h]
  exact setWidth_setWidth_eq hx

/-- Wider than `i1`, the width of the templates is the width of the type. -/
theorem widthBits_eq (h : isInteger type = true) (h1 : type ≠ .i1) (pb : Nat) :
    (widthOf type).bits = typeBits type pb := by
  cases type <;> first | (cases h; done) | (exact absurd rfl h1) | rfl

theorem normalize_eq_zeroExtend (h : isInteger type = true) (h1 : type ≠ .i1) (v : BitVec 64)
    (pb : Nat) : normalize v type pb false = zeroExtend (widthOf type) v := by
  rw [normalize_unsigned h, zeroExtend, widthBits_eq h h1 pb]

theorem normalize_eq_signExtend (h : isInteger type = true) (h1 : type ≠ .i1) (v : BitVec 64)
    (pb : Nat) : normalize v type pb true = signExtend (widthOf type) v := by
  rw [normalize_signed h, signExtend, widthBits_eq h h1 pb]

theorem toInt_normalize_signed (h : isInteger type = true) (v : BitVec 64) (pb : Nat) :
    (normalize v type pb true).toInt = (v.setWidth (typeBits type 64)).toInt := by
  rw [normalize_signed h, typeBits_integer h, BitVec.toInt_signExtend_of_le (typeBits_le h 64)]

theorem divSigned_eq (a b : BitVec 64) : divSigned a b = a.sdiv b :=
  BitVec.eq_of_toInt_eq (by rw [divSigned, BitVec.toInt_ofInt, BitVec.toInt_sdiv])

theorem remSigned_eq (a b : BitVec 64) : remSigned a b = a.srem b := by
  rw [remSigned, ← BitVec.toInt_srem, BitVec.ofInt_toInt]

/-- A shift count in range has no sign. -/
theorem signExtend_of_lt (h : isInteger type = true) (h1 : type ≠ .i1)
    (hy : y.toNat < typeBits type pb) : signExtend (widthOf type) y = y := by
  rw [← widthBits_eq h h1 pb] at hy
  have hhalf : y.toNat < 2 ^ ((widthOf type).bits - 1) := by
    refine lt_of_lt_of_le hy ?_
    cases type <;> first | (cases h; done) | (exact absurd rfl h1) | decide
  have hfull : y.toNat < 2 ^ (widthOf type).bits :=
    lt_of_lt_of_le hhalf (Nat.pow_le_pow_right (by omega) (by omega))
  have hmsb : (y.setWidth (widthOf type).bits).msb = false := by
    rw [BitVec.msb_eq_false_iff_two_mul_lt, BitVec.toNat_setWidth, Nat.mod_eq_of_lt hfull]
    cases type <;> first | (cases h; done) | (exact absurd rfl h1) |
      (simp only [widthOf, X86.Width.bits] at hy ⊢; omega)
  rw [signExtend, BitVec.signExtend_eq_setWidth_of_msb_false hmsb, setWidth_setWidth_eq hfull]

/-- Wider than `i1`, an operation is folded to what the template computes. -/
theorem intValue_of_foldBinary (hop : isIntBinary op = true) (h1 : type ≠ .i1)
    (h : X86.CanonicalOperands op type src x y z) (hk : foldBinary op type x y pb = some k) :
    intValue op type src x y z = some k := by
  have ht := h.typeInt
  have hsrc := h.same (.inl hop)
  have hx : Canonical type x := hsrc ▸ h.first
  have hy : Canonical type y := hsrc ▸ h.second (.inl hop)
  have hle := typeBits_le ht pb
  cases op <;> first
    | (cases hop; done)
    | simp only [foldBinary, normalize_of_canonical ht hx, normalize_of_canonical ht hy,
        normalize_eq_signExtend ht h1, normalize_eq_zeroExtend ht h1, divSigned_eq,
        remSigned_eq] at hk
  case add => exact hk
  case sub => exact hk
  case mul => exact hk
  case and => exact hk
  case or => exact hk
  case xor => exact hk
  case udiv =>
    simp only [intValue, X86.divide_zero]
    split_ifs at hk ⊢
    exact hk
  case urem =>
    simp only [intValue, X86.divide_zero]
    split_ifs at hk ⊢
    exact hk
  case sdiv =>
    simp only [intValue, X86.idivide_signWord]
    split_ifs at hk ⊢
    exact hk
  case srem =>
    simp only [intValue, X86.idivide_signWord]
    split_ifs at hk ⊢
    exact hk
  case shl =>
    split_ifs at hk with hc
    rw [intValue, Nat.mod_eq_of_lt (by omega)]
    exact hk
  case lshr =>
    split_ifs at hk with hc
    rw [intValue, Nat.mod_eq_of_lt (by omega)]
    exact hk
  case ashr =>
    split_ifs at hk with hc
    rw [signExtend_of_lt ht h1 (lt_of_not_ge hc)] at hk
    rw [intValue, Nat.mod_eq_of_lt (by omega)]
    exact hk

/-! ## Comparisons -/

/-- The sign bit of a value at the width of its type. -/
def signBit (type : Ty) (x : BitVec 64) : Bool := x.getLsbD (typeBits type 64 - 1)

theorem signBit_eq_msb (h : isInteger type = true) (x : BitVec 64) :
    signBit type x = (x.setWidth (typeBits type 64)).msb := by
  rw [BitVec.msb_eq_getLsbD_last, BitVec.getLsbD_setWidth, signBit]
  have hpos : 0 < typeBits type 64 := by
    cases type <;> first | (cases h; done) | decide
  simp [hpos]

/-- A narrow signed comparison that does not look at the sign. -/
theorem slt_setWidth_eq_iff {n m : Nat} (hn : n < m) (hx : x.toNat < 2 ^ n) (hy : y.toNat < 2 ^ n) :
    (x.setWidth m).slt (y.setWidth m) = (x.setWidth n).slt (y.setWidth n) ↔
      (x.setWidth n).msb = (y.setWidth n).msb := by
  have hpow : 2 ^ n ≤ 2 ^ (m - 1) := Nat.pow_le_pow_right (by omega) (by omega)
  have hdouble : 2 ^ m = 2 * 2 ^ (m - 1) := by
    rw [← pow_succ', Nat.sub_add_cancel (by omega)]
  have hmsb : ∀ {v : BitVec 64}, v.toNat < 2 ^ n → (v.setWidth m).msb = false := fun {v} hv => by
    rw [BitVec.msb_eq_false_iff_two_mul_lt, BitVec.toNat_setWidth, Nat.mod_eq_of_lt (by omega)]
    omega
  have hult : (x.setWidth m).slt (y.setWidth m) = (x.setWidth n).ult (y.setWidth n) := by
    rw [slt_of_msb_eq ((hmsb hx).trans (hmsb hy).symm), BitVec.ult, BitVec.ult]
    simp only [BitVec.toNat_setWidth]
    rw [Nat.mod_eq_of_lt (show x.toNat < 2 ^ m by omega),
      Nat.mod_eq_of_lt (show y.toNat < 2 ^ m by omega), Nat.mod_eq_of_lt hx, Nat.mod_eq_of_lt hy]
  rw [hult]
  constructor
  · intro h
    by_contra hne
    rw [slt_of_msb_ne hne, BitVec.ult_eq_msb_of_msb_neq hne] at h
    exact hne h.symm
  · intro h
    rw [slt_of_msb_eq h]

def isSignedComparison (op : Op) : Bool :=
  op == .icmpSlt || op == .icmpSle || op == .icmpSgt || op == .icmpSge

open Wasm (relOpOf)

/-- The comparisons that do not look at the sign, at two widths. -/
theorem holds_unsigned {n m : Nat} (hop : isIntComparison op = true)
    (hs : isSignedComparison op = false) (hn : n ≤ m) (hx : x.toNat < 2 ^ n)
    (hy : y.toNat < 2 ^ n) :
    (relOpOf op).holds (x.setWidth m) (y.setWidth m) =
      (relOpOf op).holds (x.setWidth n) (y.setWidth n) := by
  have hpow : 2 ^ n ≤ 2 ^ m := Nat.pow_le_pow_right (by omega) hn
  have hnat : ∀ {v : BitVec 64}, v.toNat < 2 ^ n →
      (v.setWidth m).toNat = v.toNat ∧ (v.setWidth n).toNat = v.toNat := fun {v} hv => by
    rw [BitVec.toNat_setWidth, BitVec.toNat_setWidth, Nat.mod_eq_of_lt (by omega),
      Nat.mod_eq_of_lt hv]
    exact ⟨rfl, rfl⟩
  cases op <;> first
    | (cases hop; done)
    | (cases hs; done)
    | simp only [relOpOf, Wasm.RelOp.holds, BitVec.ult, BitVec.ule, BitVec.toNat_eq, hnat hx,
        hnat hy, ne_eq]

/-- The ones that do agree when the signs are the same. -/
theorem holds_signed_iff {n m : Nat} (hs : isSignedComparison op = true) (hn : n < m)
    (hx : x.toNat < 2 ^ n) (hy : y.toNat < 2 ^ n) :
    (relOpOf op).holds (x.setWidth m) (y.setWidth m) =
        (relOpOf op).holds (x.setWidth n) (y.setWidth n) ↔
      (x.setWidth n).msb = (y.setWidth n).msb := by
  have hlt := slt_setWidth_eq_iff hn hx hy
  have hgt := (slt_setWidth_eq_iff hn hy hx).trans eq_comm
  cases op <;> first | (cases hs; done) | simp only [relOpOf, Wasm.RelOp.holds]
  · exact hlt
  · rw [BitVec.sle_eq_not_slt, BitVec.sle_eq_not_slt, Bool.not_inj_iff]
    exact hgt
  · exact hgt
  · rw [BitVec.sle_eq_not_slt, BitVec.sle_eq_not_slt, Bool.not_inj_iff]
    exact hlt

/-- The fold of a comparison is the comparison at the width of the type. -/
theorem foldCompare_eq (hop : isIntComparison op = true) (hs : isInteger src = true)
    (hx : Canonical src x) (hy : Canonical src y) (pb : Nat) :
    foldCompare op src x y pb = some (if (relOpOf op).holds (x.setWidth (typeBits src 64))
      (y.setWidth (typeBits src 64)) then 1 else 0) := by
  have hback : ∀ {v : BitVec 64}, Canonical src v →
      (v.setWidth (typeBits src 64)).toNat = v.toNat := fun {v} hv => by
    rw [BitVec.toNat_setWidth, Nat.mod_eq_of_lt hv]
  simp only [foldCompare, normalize_of_canonical hs hx, normalize_of_canonical hs hy]
  cases op <;> first
    | (cases hop; done)
    | simp only [relOpOf, Wasm.RelOp.holds, BitVec.ult, BitVec.ule, BitVec.slt, BitVec.sle,
        toInt_normalize_signed hs, hback hx, hback hy, BitVec.toNat_eq, ne_eq]
  all_goals rfl

/-- A comparison is folded to what the templates compute, unless they have to look at
    the sign of a narrow value and do not. -/
theorem compare_eq_iff (hop : isIntComparison op = true) (hs : isInteger src = true)
    (hx : Canonical src x) (hy : Canonical src y) (pb : Nat) :
    intValue op type src x y z = foldCompare op src x y pb ↔
      ¬ (isSignedComparison op = true ∧ (src = .i1 ∨ src = .i8 ∨ src = .i16) ∧
        signBit src x ≠ signBit src y) := by
  have hbool : ∀ p q : Bool, (some (if p then (1 : BitVec 64) else 0) =
      some (if q then 1 else 0)) ↔ p = q := by decide
  rw [foldCompare_eq hop hs hx hy, X86.Ctx.intValue_comparison hop, X86.compareValue,
    Wasm.holds_cmp hop, hbool, signBit_eq_msb hs, signBit_eq_msb hs]
  by_cases hn : src = .i1 ∨ src = .i8 ∨ src = .i16
  · have hlt : typeBits src 64 < X86.Width.w32.bits ∧ (if widthOf src = .w64 then X86.Width.w64 else .w32) =
        .w32 := by
      rcases hn with rfl | rfl | rfl <;> decide
    rw [hlt.2]
    by_cases hsig : isSignedComparison op = true
    · simp only [hsig, hn, true_and, not_not]
      exact holds_signed_iff hsig hlt.1 hx hy
    · simp only [hsig, Bool.false_eq_true, false_and, not_false_eq_true, iff_true]
      exact holds_unsigned hop (by simpa using hsig) (le_of_lt hlt.1) hx hy
  · have heq : (if widthOf src = .w64 then X86.Width.w64 else .w32).bits = typeBits src 64 := by
      cases src <;> first | (cases hs; done) | rfl | exact absurd (by simp) hn
    simp only [hn, false_and, and_false, not_false_eq_true, iff_true]
    rw [heq]

/-! ## Where the folds differ -/

/-- The operations on constants whose fold is not what the emitted code leaves: the carry
    out of an `i1`; a signed comparison of narrow values with different signs; the sign
    extension of an `i1`; and the conversions whose types go the wrong way or end in `i1`. -/
def FoldDiffers (op : Op) (type src : Ty) (x y : BitVec 64) : Prop :=
  match op with
  | .add => type = .i1 ∧ x = 1 ∧ y = 1
  | .sub => type = .i1 ∧ x = 0 ∧ y = 1
  | .icmpSlt | .icmpSle | .icmpSgt | .icmpSge =>
    (src = .i1 ∨ src = .i8 ∨ src = .i16) ∧ signBit src x ≠ signBit src y
  | .trunc => type = .i64 ∨ type = .i1 ∧ 2 ≤ x.toNat % 256
  | .zext => 2 ^ typeBits type 64 ≤ x.toNat
  | .sext => src = .i64 ∨ src = .i1 ∧ x = 1 ∧ type ≠ .i1 ∨ type = .i1 ∧ 2 ≤ x.toNat % 256
  | _ => False

theorem normalize_pb (h : isInteger type = true) (v : BitVec 64) (pb : Nat) (sign : Bool) :
    normalize v type pb sign = normalize v type 64 sign := by
  rw [normalize, normalize, typeBits_integer h]

theorem foldBinary_pb (h : isInteger type = true) (a b : BitVec 64) (pb : Nat) :
    foldBinary op type a b pb = foldBinary op type a b 64 := by
  simp only [foldBinary, normalize_pb h _ pb, typeBits_integer h pb]

/-- At `i1`, all the operands. -/
theorem binary_bool_iff (hop : isIntBinary op = true) (hx : x = 0 ∨ x = 1) (hy : y = 0 ∨ y = 1)
    (hk : foldBinary op .i1 x y pb = some k) :
    intValue op .i1 src x y z = some (normalize k .i1 pb false) ↔ ¬ FoldDiffers op .i1 src x y := by
  rw [foldBinary_pb rfl] at hk
  rw [normalize_pb rfl]
  cases op <;> first
    | (cases hop; done)
    | (rcases hx with rfl | rfl <;> rcases hy with rfl | rfl <;>
        first
        | (cases hk; done)
        | (cases hk
           simp only [intValue, X86.idivide_signWord, X86.divide_zero, FoldDiffers]
           decide))

theorem binary_iff (hop : isIntBinary op = true) (h : X86.CanonicalOperands op type src x y z)
    (hk : foldBinary op type x y pb = some k) :
    intValue op type src x y z = some (normalize k type pb false) ↔
      ¬ FoldDiffers op type src x y := by
  by_cases h1 : type = .i1
  · obtain ⟨hx, hy⟩ := h.bools hop h1
    subst h1
    exact binary_bool_iff hop hx hy hk
  · have hv := intValue_of_foldBinary hop h1 h hk
    have hno : ¬ X86.Overflows op type x y ∧ ¬ FoldDiffers op type src x y := by
      cases op <;> first | (cases hop; done) | simp [X86.Overflows, FoldDiffers, h1]
    have hint : Ctx.isIntOp op = true := by simp [Ctx.isIntOp, hop]
    have hcan := (X86.canonical_intValue_iff hint h hv).2 hno.1
    rw [normalize_of_canonical h.typeInt hcan, hv]
    simp [hno.2]

/-! ## Conversions -/

theorem zeroExtend_eq_normalize_iff (h : isInteger type = true) (v : BitVec 64) (pb : Nat) :
    zeroExtend (widthOf type) v = normalize v type pb false ↔
      ¬ (type = .i1 ∧ 2 ≤ v.toNat % 256) := by
  rw [← X86.canonical_zeroExtend_iff h]
  refine ⟨fun he => he ▸ canonical_normalize h v pb, fun hc => ?_⟩
  by_cases h1 : type = .i1
  · subst h1
    have hlow : (zeroExtend (widthOf .i1) v).setWidth (typeBits .i1 pb) =
        v.setWidth (typeBits .i1 pb) := by
      have hle : typeBits .i1 pb ≤ (widthOf .i1).bits := by
        rw [typeBits_integer h]
        decide
      rw [zeroExtend, BitVec.setWidth_setWidth_of_le _ (typeBits_le h pb),
        BitVec.setWidth_setWidth_of_le _ hle]
    calc zeroExtend (widthOf .i1) v
        = normalize (zeroExtend (widthOf .i1) v) .i1 pb false :=
          (normalize_of_canonical h hc pb).symm
      _ = normalize v .i1 pb false := by rw [normalize_unsigned h, normalize_unsigned h, hlow]
  · rw [normalize_eq_zeroExtend h h1]

theorem sext_bool_iff (ht : isInteger type = true) (hx : x = 0 ∨ x = 1) (pb : Nat) :
    intValue .sext type .i1 x y z = some (foldConvert .sext type .i1 x pb) ↔
      ¬ (x = 1 ∧ type ≠ .i1) := by
  rw [foldConvert, normalize_pb ht, normalize_pb (show isInteger .i1 = true from rfl)]
  cases type <;> first
    | (cases ht; done)
    | (rcases hx with rfl | rfl <;>
        (simp only [intValue]
         decide))

theorem convert_iff (hop : isIntConversion op = true) (h : X86.CanonicalOperands op type src x y z)
    (hodd : ¬ Wasm.WasmOdd op type src x y) :
    intValue op type src x y z = some (normalize (foldConvert op type src x pb) type pb false) ↔
      ¬ FoldDiffers op type src x y := by
  have hnorm : normalize (foldConvert op type src x pb) type pb false =
      foldConvert op type src x pb := by
    rw [foldConvert, normalize_normalize h.typeInt]
  rw [hnorm]
  simp only [isIntConversion, Bool.or_eq_true, beq_iff_eq] at hop
  rcases hop with (rfl | rfl) | rfl
  · have hwide : type ≠ .i64 := hodd
    rw [foldConvert, show (Op.trunc == .sext) = false from rfl,
      normalize_of_canonical h.srcInt h.first, intValue, Option.some.injEq,
      zeroExtend_eq_normalize_iff h.typeInt]
    simp [FoldDiffers, hwide]
  · have hfit : Canonical type x := not_not.1 hodd
    rw [foldConvert, show (Op.zext == .sext) = false from rfl,
      normalize_of_canonical h.srcInt h.first, normalize_of_canonical h.typeInt hfit]
    simpa [intValue, FoldDiffers, Canonical] using hfit
  · have hwide : src ≠ .i64 := hodd
    by_cases h1 : src = .i1
    · subst h1
      have hx := h.first.eq_zero_or_one
      rw [sext_bool_iff h.typeInt hx]
      have hlow : ¬ 2 ≤ x.toNat % 256 := by
        rcases hx with rfl | rfl <;> decide
      simp [FoldDiffers, hlow]
    · rw [foldConvert, show (Op.sext == .sext) = true from rfl,
        normalize_eq_signExtend h.srcInt h1, intValue, Option.some.injEq,
        zeroExtend_eq_normalize_iff h.typeInt, X86.signExtend_mod]
      simp [FoldDiffers, hwide, h1]

/-! ## Agreement -/

variable {module : Module} {fn : Function} {mode : Mode} {b i : Nat} {inst : Inst} {env : Env}
  {m : Machine} {s : Wasm.State}

/-- The value the emitted code leaves, on both targets. -/
theorem leaves_iff (h : IntegerAt module fn b i inst) (hf : (context module fn mode).FrameOk m 8)
    (hm : SameOperands (context module fn mode) inst m s)
    (hodd : ¬ Wasm.WasmOdd inst.op inst.type (fn.valueType inst.a)
      ((context module fn mode).gprHome m inst.a) ((context module fn mode).gprHome m inst.b)) :
    (context module fn mode).Leaves env (firstIndex fn b + i) inst m v ∧ Wasm.Leaves fn inst s v ↔
      intValue inst.op inst.type (fn.valueType inst.a) ((context module fn mode).gprHome m inst.a)
        ((context module fn mode).gprHome m inst.b) ((context module fn mode).gprHome m inst.c) =
        some v := by
  have hx := h.x86_value env hf
  have hw := Wasm.run_emitInt h.op (h.canonicalOperands hm) (h.operandLocals hm) hodd
  generalize intValue inst.op inst.type (fn.valueType inst.a)
    ((context module fn mode).gprHome m inst.a) ((context module fn mode).gprHome m inst.b)
    ((context module fn mode).gprHome m inst.c) = o at hx hw
  constructor
  · rintro ⟨hl, -⟩
    cases o with
    | none => exact absurd (hx.faults rfl) (not_fault_of_leaves hl)
    | some v' => rw [leaves_unique hl (hx.runs v' rfl)]
  · rintro rfl
    exact ⟨hx.runs v rfl, hw⟩

/-- Where the lowerings go their own way, they do not leave the folded constant. -/
theorem not_leaves_of_odd (h : IntegerAt module fn b i inst)
    (hf : (context module fn mode).FrameOk m 8)
    (hm : SameOperands (context module fn mode) inst m s) (hv : Canonical inst.type v)
    (hodd : Wasm.WasmOdd inst.op inst.type (fn.valueType inst.a)
      ((context module fn mode).gprHome m inst.a) ((context module fn mode).gprHome m inst.b)) :
    ¬ ((context module fn mode).Leaves env (firstIndex fn b + i) inst m v ∧
      Wasm.Leaves fn inst s v) := by
  rintro ⟨hl, hw⟩
  exact not_agree_of_differ h hf hm ((loweringsDiffer_iff ..).2 (.inl hodd))
    (.inr ⟨v, hv, hl, hw⟩)

/-- What is folded. -/
theorem foldInst_cases {t : Ty} {ka kb : BitVec 64}
    (hk : foldInst pb inst src (some ka) (some kb) = some (t, k)) :
    isIntBinary inst.op = true ∧ t = inst.type ∧ foldBinary inst.op inst.type ka kb pb = some k ∨
      isIntComparison inst.op = true ∧ t = .i1 ∧ foldCompare inst.op src ka kb pb = some k ∨
      isIntConversion inst.op = true ∧ t = inst.type ∧
        foldConvert inst.op inst.type src ka pb = k := by
  rw [foldInst] at hk
  split_ifs at hk with h1 h2 h3
  · simp only [Option.map_eq_some_iff, Prod.mk.injEq] at hk
    obtain ⟨_, hk, rfl, rfl⟩ := hk
    exact .inl ⟨by simp_all, rfl, hk⟩
  · simp only [Option.map_eq_some_iff, Prod.mk.injEq] at hk
    obtain ⟨_, hk, rfl, rfl⟩ := hk
    exact .inr (.inl ⟨by simp_all, rfl, hk⟩)
  · simp only [Option.map_some, Option.some.injEq, Prod.mk.injEq] at hk
    exact .inr (.inr ⟨h3, hk.1.symm, hk.2⟩)

/-- A fold only looks at the canonical forms of its operands. -/
theorem foldBinary_normalize (h : isInteger type = true) (ka kb : BitVec 64) (pb : Nat) :
    foldBinary op type ka kb pb =
      foldBinary op type (normalize ka type pb false) (normalize kb type pb false) pb := by
  simp only [foldBinary, normalize_normalize h]

theorem foldCompare_normalize (h : isInteger src = true) (ka kb : BitVec 64) (pb : Nat) :
    foldCompare op src ka kb pb =
      foldCompare op src (normalize ka src pb false) (normalize kb src pb false) pb := by
  simp only [foldCompare, normalize_normalize h]

theorem foldConvert_normalize (h : isInteger src = true) (ka : BitVec 64) (pb : Nat) :
    foldConvert op type src ka pb = foldConvert op type src (normalize ka src pb false) pb := by
  simp only [foldConvert, normalize_normalize h]

/-- An overflowing remainder is not folded. -/
theorem not_odd_of_foldBinary (hop : isIntBinary op = true) (hk : foldBinary op type x y pb = some k) :
    ¬ Wasm.WasmOdd op type src x y := by
  cases op <;> first | (cases hop; done) | exact id | skip
  rintro ⟨rfl, rfl, rfl⟩
  rw [foldBinary_pb rfl] at hk
  cases hk

theorem foldDiffers_comparison (hop : isIntComparison op = true) :
    FoldDiffers op type src x y ↔ isSignedComparison op = true ∧
      (src = .i1 ∨ src = .i8 ∨ src = .i16) ∧ signBit src x ≠ signBit src y := by
  cases op <;> first | (cases hop; done) | simp [FoldDiffers, isSignedComparison]

/-- The emitted code leaves the constant an operation is folded to, but for the
    operations listed. -/
theorem foldAgrees_iff (h : IntegerAt module fn b i inst)
    (hf : (context module fn mode).FrameOk m 8)
    (hm : SameOperands (context module fn mode) inst m s) (ka kb : BitVec 64) {t : Ty}
    (ha : (context module fn mode).gprHome m inst.a =
      normalize ka (fn.valueType inst.a) module.pointerBits false)
    (hb : inst.b ∈ valueOperands inst → (context module fn mode).gprHome m inst.b =
      normalize kb (fn.valueType inst.b) module.pointerBits false)
    (hfold : foldInst module.pointerBits inst (fn.valueType inst.a) (some ka) (some kb) =
      some (t, k)) :
    ((context module fn mode).Leaves env (firstIndex fn b + i) inst m
        (normalize k t module.pointerBits false) ∧
      Wasm.Leaves fn inst s (normalize k t module.pointerBits false)) ↔
      ¬ FoldDiffers inst.op inst.type (fn.valueType inst.a)
        ((context module fn mode).gprHome m inst.a)
        ((context module fn mode).gprHome m inst.b) := by
  have hc := h.canonicalOperands hm
  rcases foldInst_cases hfold with ⟨hop, rfl, hk⟩ | ⟨hop, rfl, hk⟩ | ⟨hop, rfl, rfl⟩
  · obtain ⟨hvb, htb⟩ := h.checked.second (.inl hop)
    have hsame := h.checked.same (.inl hop)
    have hb' := hb (Ctx.mem_valueOperands_second (.inl hop) hvb.1)
    rw [htb, hsame] at hb'
    rw [hsame] at ha
    rw [foldBinary_normalize h.type, ← ha, ← hb'] at hk
    rw [leaves_iff h hf hm (not_odd_of_foldBinary hop hk), binary_iff hop hc hk]
  · obtain ⟨hvb, htb⟩ := h.checked.second (.inr hop)
    have hb' := hb (Ctx.mem_valueOperands_second (.inr hop) hvb.1)
    rw [htb] at hb'
    rw [foldCompare_normalize h.src, ← ha, ← hb'] at hk
    have hodd : ¬ Wasm.WasmOdd inst.op inst.type (fn.valueType inst.a)
        ((context module fn mode).gprHome m inst.a)
        ((context module fn mode).gprHome m inst.b) := by
      intro ho
      rcases Wasm.wasmOdd_cases ho with ⟨he, -⟩ | ⟨he, -⟩ | ⟨he, -⟩ | ⟨he, -⟩ <;>
        (rw [he] at hop; cases hop)
    have hcan : Canonical .i1 k := by
      rw [foldCompare_eq hop h.src hc.first (hc.second (.inr hop))] at hk
      rw [← Option.some.inj hk]
      exact X86.canonical_bool _
    rw [leaves_iff h hf hm hodd, normalize_of_canonical rfl hcan, ← hk,
      compare_eq_iff hop h.src hc.first (hc.second (.inr hop)), foldDiffers_comparison hop]
  · rw [foldConvert_normalize h.src, ← ha]
    by_cases hodd : Wasm.WasmOdd inst.op inst.type (fn.valueType inst.a)
        ((context module fn mode).gprHome m inst.a) ((context module fn mode).gprHome m inst.b)
    · have hd : FoldDiffers inst.op inst.type (fn.valueType inst.a)
          ((context module fn mode).gprHome m inst.a)
          ((context module fn mode).gprHome m inst.b) := by
        rcases Wasm.wasmOdd_cases hodd with ⟨he, -⟩ | ⟨he, ht⟩ | ⟨he, hn⟩ | ⟨he, hs⟩
        · rw [he] at hop
          cases hop
        · rw [he]
          exact .inl ht
        · rw [he]
          exact not_lt.1 hn
        · rw [he]
          exact .inl hs
      simp only [hd, not_true_eq_false, iff_false]
      exact not_leaves_of_odd h hf hm (canonical_normalize h.type _ _) hodd
    · rw [leaves_iff h hf hm hodd]
      exact convert_iff hop hc hodd

theorem placed_slt : PairPlaced (context (pairModule .icmpSlt .i1 .i8 1 2)
      (pairFn .icmpSlt .i1 .i8 1 2) .linear) ∧
    PairPlaced (context (pairModule .icmpSlt .i1 .i8 (-1) 1) (pairFn .icmpSlt .i1 .i8 (-1) 1)
      .linear) :=
  ⟨⟨by decide, by decide, by decide⟩, ⟨by decide, by decide, by decide⟩⟩

/-- The comparison of 1 and 2 as 8-bit numbers is folded to what the code leaves. -/
theorem slt_fold_agrees : foldInst 64 (pairInst .icmpSlt .i1) .i8 (some 1) (some 2) =
      some (.i1, 1) ∧
    (context (pairModule .icmpSlt .i1 .i8 1 2) (pairFn .icmpSlt .i1 .i8 1 2) .linear).Leaves idleEnv
      (firstIndex (pairFn .icmpSlt .i1 .i8 1 2) 0 + 2) (pairInst .icmpSlt .i1) (pairMachine 1 2)
      (normalize 1 .i1 64 false) ∧
    Wasm.Leaves (pairFn .icmpSlt .i1 .i8 1 2) (pairInst .icmpSlt .i1) (pairState .i1 .i8 1 2)
      (normalize 1 .i1 64 false) := by
  obtain ⟨h0, h1⟩ := home_pair placed_slt.1 1 2
  refine ⟨by decide, (foldAgrees_iff (integerAt_pair (by decide) (.inr rfl) rfl rfl rfl)
    (frameOk_pair placed_slt.1 1 2)
    (sameOperands_pair placed_slt.1 (by decide) rfl (by decide) (by decide)) 1 2
    (h0.trans (by decide)) (fun _ => h1.trans (by decide)) (by decide)).2 ?_⟩
  rintro ⟨-, hs⟩
  rw [show (pairInst .icmpSlt .i1).a = 0 from rfl, show (pairInst .icmpSlt .i1).b = 1 from rfl,
    h0, h1] at hs
  exact hs (by decide)

/-- The comparison of -1 and 1 is folded to 1, and the code leaves 0. -/
theorem slt_fold_disagrees : foldInst 64 (pairInst .icmpSlt .i1) .i8 (some (-1)) (some 1) =
      some (.i1, 1) ∧
    ¬ ((context (pairModule .icmpSlt .i1 .i8 (-1) 1) (pairFn .icmpSlt .i1 .i8 (-1) 1)
        .linear).Leaves idleEnv (firstIndex (pairFn .icmpSlt .i1 .i8 (-1) 1) 0 + 2)
        (pairInst .icmpSlt .i1) (pairMachine (normalize (-1) .i8 64 false) 1)
        (normalize 1 .i1 64 false) ∧
      Wasm.Leaves (pairFn .icmpSlt .i1 .i8 (-1) 1) (pairInst .icmpSlt .i1)
        (pairState .i1 .i8 (normalize (-1) .i8 64 false) 1) (normalize 1 .i1 64 false)) := by
  obtain ⟨h0, h1⟩ := home_pair placed_slt.2 (normalize (-1) .i8 64 false) 1
  refine ⟨by decide, fun hl => ?_⟩
  have hv := (leaves_iff (integerAt_pair (by decide) (.inr rfl) rfl rfl rfl)
    (frameOk_pair placed_slt.2 _ _)
    (sameOperands_pair placed_slt.2 (by decide) rfl (by decide) (by decide)) id).1 hl
  rw [show (pairInst .icmpSlt .i1).a = 0 from rfl, show (pairInst .icmpSlt .i1).b = 1 from rfl,
    h0, h1, X86.Ctx.intValue_comparison rfl] at hv
  exact absurd hv (by decide)

end Mirage
