import Mirage.Lib.Width
import Mirage.X86.TemplateInt

/-!
# The values of integer operations

What the x86 templates compute (`intValue`), compared with integer arithmetic: the
division instructions divide, and the result of an operation on canonical operands is
canonical but for the few cases of `Overflows`, nearly all at the type `i1`, which the
templates treat as 8 bits wide.
-/

namespace Mirage

/-- The value is zero-extended from the width of its type. -/
def Canonical (type : Ty) (x : BitVec 64) : Prop := x.toNat < 2 ^ typeBits type 64

instance (type : Ty) (x : BitVec 64) : Decidable (Canonical type x) :=
  inferInstanceAs (Decidable (_ < _))

theorem isFloat_of_isInteger {type : Ty} (h : isInteger type = true) : isFloat type = false := by
  cases type <;> first | (cases h; done) | rfl

/-- A canonical value of a narrow type has at most 32 bits. -/
theorem Canonical.lt_of_narrow {type : Ty} {x : BitVec 64} (hx : Canonical type x)
    (h : isInteger type = true) (hn : type ≠ .i64) : x.toNat < 2 ^ 32 := by
  refine lt_of_lt_of_le hx (Nat.pow_le_pow_right (by omega) ?_)
  cases type <;> first | (cases h; done) | (exact absurd rfl hn) | decide

theorem Canonical.eq_zero_or_one {x : BitVec 64} (hx : Canonical .i1 x) : x = 0 ∨ x = 1 := by
  have h : x.toNat < 2 := hx
  rcases Nat.lt_succ_iff_lt_or_eq.1 h with h | h
  · exact .inl (BitVec.eq_of_toNat_eq (by simpa using h))
  · exact .inr (BitVec.eq_of_toNat_eq h)

theorem Canonical.mono {type : Ty} {x v : BitVec 64} (hx : Canonical type x)
    (h : v.toNat ≤ x.toNat) : Canonical type v := lt_of_le_of_lt h hx

namespace X86

/-! ## Division -/

/-- The dividend of a signed division is the sign-extended number. -/
theorem toInt_signWord (x : BitVec 64) :
    (signWord x).toInt * 2 ^ 64 + x.toNat = x.toInt := by
  have h := BitVec.toInt_eq_msb_cond x
  rw [signWord]
  cases hm : x.msb
  · rw [hm] at h
    simpa using h.symm
  · rw [hm] at h
    rw [if_pos rfl, h, show (BitVec.allOnes 64).toInt = -1 from rfl]
    simp
    omega

/-- The one quotient that does not fit. -/
theorem tdiv_range {x d : BitVec 64} (hd : d ≠ 0) :
    (x.toInt.tdiv d.toInt < -2 ^ 63 ∨ 2 ^ 63 ≤ x.toInt.tdiv d.toInt) ↔
      x = BitVec.intMin 64 ∧ d = -1 := by
  have hx : x.toInt < 2 ^ 63 := BitVec.toInt_lt
  have hx' : -2 ^ 63 ≤ x.toInt := BitVec.le_toInt x
  have hd0 : d.toInt ≠ 0 := fun h => hd (BitVec.eq_of_toInt_eq (by simpa using h))
  have habs : (x.toInt.tdiv d.toInt).natAbs = x.toInt.natAbs / d.toInt.natAbs :=
    Int.natAbs_tdiv x.toInt d.toInt
  constructor
  · intro h
    by_cases h1 : d.toInt = -1
    · have hdeq : d = -1 := BitVec.eq_of_toInt_eq (by rw [h1]; rfl)
      refine ⟨BitVec.eq_of_toInt_eq ?_, hdeq⟩
      rw [h1, Int.tdiv_neg, Int.tdiv_one] at h
      rw [show (BitVec.intMin 64).toInt = -2 ^ 63 from rfl]
      omega
    · by_cases h2 : d.toInt = 1
      · rw [h2, Int.tdiv_one] at h
        omega
      · have hdabs : 2 ≤ d.toInt.natAbs := by omega
        have hle : x.toInt.natAbs / d.toInt.natAbs ≤ x.toInt.natAbs / 2 :=
          Nat.div_le_div_left hdabs (by omega)
        omega
  · rintro ⟨rfl, rfl⟩
    decide

theorem idivide_signWord (x d : BitVec 64) :
    idivide (signWord x) x d =
      if d = 0 ∨ x = BitVec.intMin 64 ∧ d = -1 then none else some (x.sdiv d, x.srem d) := by
  have hcond : (d.toInt = 0 ∨ x.toInt.tdiv d.toInt < -2 ^ 63 ∨ 2 ^ 63 ≤ x.toInt.tdiv d.toInt) ↔
      d = 0 ∨ x = BitVec.intMin 64 ∧ d = -1 := by
    by_cases hd : d = 0
    · simp [hd]
    · have hd0 : d.toInt ≠ 0 := fun h => hd (BitVec.eq_of_toInt_eq (by simpa using h))
      simp only [hd, hd0, false_or]
      exact tdiv_range hd
  rw [idivide]
  simp only [toInt_signWord, hcond]
  have hq : BitVec.ofInt 64 (x.toInt.tdiv d.toInt) = x.sdiv d :=
    BitVec.eq_of_toInt_eq (by rw [BitVec.toInt_ofInt, BitVec.toInt_sdiv])
  have hr : BitVec.ofInt 64 (x.toInt.tmod d.toInt) = x.srem d := by
    rw [← BitVec.toInt_srem, BitVec.ofInt_toInt]
  rw [hq, hr]

theorem divide_zero (x d : BitVec 64) :
    divide 0 x d = if d = 0 then none else some (x / d, x % d) := by
  have hlt : x.toNat / d.toNat < 2 ^ 64 := lt_of_le_of_lt (Nat.div_le_self _ _) x.isLt
  have hd : d.toNat = 0 ↔ d = 0 := by rw [BitVec.toNat_eq]; simp
  rw [divide]
  simp only [BitVec.toNat_zero, BitVec.ofNat_eq_ofNat, Nat.zero_mul, Nat.zero_add, hd,
    show ¬ 2 ^ 64 ≤ x.toNat / d.toNat by omega, or_false]
  have hq : BitVec.ofNat 64 (x.toNat / d.toNat) = x / d :=
    BitVec.eq_of_toNat_eq (by rw [BitVec.toNat_ofNat, Nat.mod_eq_of_lt hlt, BitVec.toNat_udiv])
  have hr : BitVec.ofNat 64 (x.toNat % d.toNat) = x % d :=
    BitVec.eq_of_toNat_eq (by
      rw [BitVec.toNat_ofNat, BitVec.toNat_umod, Nat.mod_eq_of_lt
        (lt_of_le_of_lt (Nat.mod_le _ _) x.isLt)])
  rw [hq, hr]

/-! ## Canonical results -/

/-- The operands of an integer operation are canonical, and its types are what the
    verifier asks for; `src` is the type of the first operand. -/
structure CanonicalOperands (op : Op) (type src : Ty) (x y z : BitVec 64) : Prop where
  typeInt : isInteger type = true
  srcInt : isInteger src = true
  first : Canonical src x
  second : isIntBinary op = true ∨ isIntComparison op = true → Canonical src y
  same : isIntBinary op = true ∨ op = .not ∨ op = .neg → src = type
  bool : isIntComparison op = true → type = .i1
  select : op = .select → src = .i1 ∧ Canonical type y ∧ Canonical type z

/-- The operations whose result is not canonical. -/
def Overflows (op : Op) (type : Ty) (x y : BitVec 64) : Prop :=
  match op with
  | .add => type = .i1 ∧ x = 1 ∧ y = 1
  | .sub => type = .i1 ∧ x = 0 ∧ y = 1
  | .neg => type = .i1 ∧ x = 1
  | .shl => type = .i1 ∧ x = 1 ∧ y = 1
  | .trunc | .sext => type = .i1 ∧ 2 ≤ x.toNat % 256
  | .zext => ¬ Canonical type x
  | _ => False

variable {op : Op} {type src : Ty} {x y z v : BitVec 64}

/-- They do not fault. -/
theorem exists_intValue_of_overflows (src : Ty) (z : BitVec 64) (h : Overflows op type x y) :
    ∃ v, intValue op type src x y z = some v := by
  cases op <;> first | exact ⟨_, rfl⟩ | exact h.elim

/-- The canonical form of the templates is the canonical form but for `i1`. -/
theorem canonical_zeroExtend_iff (h : isInteger type = true) (v : BitVec 64) :
    Canonical type (zeroExtend (widthOf type) v) ↔ ¬ (type = .i1 ∧ 2 ≤ v.toNat % 256) := by
  have hlt : ∀ w : Width, (zeroExtend w v).toNat < 2 ^ w.bits := fun w => by
    rw [zeroExtend, BitVec.toNat_setWidth]
    exact lt_of_le_of_lt (Nat.mod_le _ _) (v.setWidth w.bits).isLt
  by_cases h1 : type = .i1
  · subst h1
    have hval : (zeroExtend (widthOf .i1) v).toNat = v.toNat % 256 := by
      rw [zeroExtend, BitVec.toNat_setWidth, BitVec.toNat_setWidth]
      simp only [widthOf, Width.bits]
      omega
    rw [Canonical, hval]
    simp only [typeBits, true_and]
    omega
  · simp only [h1, false_and, not_false_eq_true, iff_true]
    have := hlt (widthOf type)
    cases type <;> first | (cases h; done) | (exact absurd rfl h1) | exact this

theorem signExtend_mod (w : Width) (x : BitVec 64) : (signExtend w x).toNat % 256 = x.toNat % 256 := by
  have h : (signExtend w x).setWidth 8 = x.setWidth 8 := by
    rw [signExtend, setWidth_signExtend _ (by omega)]
    rw [BitVec.signExtend_eq_setWidth_of_le _ (by cases w <;> decide),
      BitVec.setWidth_setWidth_of_le _ (by cases w <;> decide)]
  have := congrArg BitVec.toNat h
  simpa only [BitVec.toNat_setWidth] using this

/-- The operands of a two-operand operation at `i1`. -/
theorem CanonicalOperands.bools (h : CanonicalOperands op type src x y z)
    (hop : isIntBinary op = true) (h1 : type = .i1) : (x = 0 ∨ x = 1) ∧ (y = 0 ∨ y = 1) := by
  have hsrc : src = .i1 := (h.same (.inl hop)).trans h1
  have hx := h.first
  have hy := h.second (.inl hop)
  rw [hsrc] at hx hy
  exact ⟨hx.eq_zero_or_one, hy.eq_zero_or_one⟩

theorem canonical_binary (hop : op ∈ [Op.add, .sub, .mul, .sdiv, .srem, .shl, .ashr])
    (h : CanonicalOperands op type src x y z) (hv : intValue op type src x y z = some v) :
    Canonical type v ↔ ¬ Overflows op type x y := by
  have hbin : isIntBinary op = true := by
    simp only [List.mem_cons, List.not_mem_nil, or_false] at hop
    rcases hop with rfl | rfl | rfl | rfl | rfl | rfl | rfl <;> rfl
  have hext : ∃ u, v = zeroExtend (widthOf type) u := by
    simp only [List.mem_cons, List.not_mem_nil, or_false] at hop
    rcases hop with rfl | rfl | rfl | rfl | rfl | rfl | rfl <;>
      simp only [intValue, Option.some.injEq, Option.map_eq_some_iff] at hv
    · exact ⟨_, hv.symm⟩
    · exact ⟨_, hv.symm⟩
    · exact ⟨_, hv.symm⟩
    · obtain ⟨_, -, rfl⟩ := hv
      exact ⟨_, rfl⟩
    · obtain ⟨_, -, rfl⟩ := hv
      exact ⟨_, rfl⟩
    · exact ⟨_, hv.symm⟩
    · exact ⟨_, hv.symm⟩
  by_cases h1 : type = .i1
  · -- two operands of one bit: all of them
    obtain ⟨hx, hy⟩ := h.bools hbin h1
    subst h1
    clear h hext
    simp only [List.mem_cons, List.not_mem_nil, or_false] at hop
    rcases hop with rfl | rfl | rfl | rfl | rfl | rfl | rfl <;> rcases hx with rfl | rfl <;>
      rcases hy with rfl | rfl <;> simp only [intValue, idivide_signWord] at hv <;>
      first
      | (cases hv; done)
      | (obtain rfl := Option.some.inj hv
         simp only [Overflows]
         decide)
  · obtain ⟨u, rfl⟩ := hext
    have hno : ¬ Overflows op type x y := by
      simp only [List.mem_cons, List.not_mem_nil, or_false] at hop
      rcases hop with rfl | rfl | rfl | rfl | rfl | rfl | rfl <;> simp [Overflows, h1]
    simp [hno, canonical_zeroExtend_iff h.typeInt, h1]

theorem canonical_and (hx : Canonical type x) : Canonical type (x &&& y) :=
  hx.mono (by rw [BitVec.toNat_and]; exact Nat.and_le_left)

theorem canonical_or (hx : Canonical type x) (hy : Canonical type y) : Canonical type (x ||| y) := by
  rw [Canonical, BitVec.toNat_or]
  exact Nat.or_lt_two_pow hx hy

theorem canonical_xor (hx : Canonical type x) (hy : Canonical type y) : Canonical type (x ^^^ y) := by
  rw [Canonical, BitVec.toNat_xor]
  exact Nat.xor_lt_two_pow hx hy

theorem canonical_bool (b : Bool) : Canonical .i1 (if b then 1 else 0) := by
  cases b <;> decide

/-- `not` and `neg`. -/
theorem canonical_unary (hop : op = .not ∨ op = .neg) (h : CanonicalOperands op type src x y z)
    (hv : intValue op type src x y z = some v) : Canonical type v ↔ ¬ Overflows op type x y := by
  have hsrc : src = type := h.same (.inr hop)
  by_cases h1 : type = .i1
  · have hx := h.first
    rw [hsrc, h1] at hx
    subst h1
    rcases hop with rfl | rfl <;> rcases hx.eq_zero_or_one with rfl | rfl <;>
      (simp only [intValue] at hv
       obtain rfl := Option.some.inj hv
       simp only [Overflows]
       decide)
  · have hext : ∃ u, v = zeroExtend (widthOf type) u := by
      rcases hop with rfl | rfl <;> simp only [intValue, h1, if_false] at hv
      · exact ⟨_, (Option.some.inj hv).symm⟩
      · exact ⟨_, (Option.some.inj hv).symm⟩
    obtain ⟨u, rfl⟩ := hext
    have hno : ¬ Overflows op type x y := by
      rcases hop with rfl | rfl <;> simp [Overflows, h1]
    simp [hno, canonical_zeroExtend_iff h.typeInt, h1]

/-- The results that are not canonical are the ones listed. -/
theorem canonical_intValue_iff (hop : Ctx.isIntOp op = true)
    (h : CanonicalOperands op type src x y z) (hv : intValue op type src x y z = some v) :
    Canonical type v ↔ ¬ Overflows op type x y := by
  have hfirst : isIntBinary op = true → Canonical type x := fun hb => h.same (.inl hb) ▸ h.first
  have hsecond : isIntBinary op = true → Canonical type y :=
    fun hb => h.same (.inl hb) ▸ h.second (.inl hb)
  rcases Ctx.isIntOp_cases hop with ⟨hmem, hb⟩ | hmem | hmem | hmem | ⟨hmem, hne⟩ | hcmp | rfl
  · simp only [List.mem_cons, List.not_mem_nil, or_false] at hmem
    rcases hmem with rfl | rfl | rfl | rfl | rfl | rfl | rfl
    · cases hb
    · exact canonical_binary (by simp) h hv
    · exact canonical_binary (by simp) h hv
    · obtain rfl := Option.some.inj hv
      simpa [Overflows] using canonical_and (hfirst rfl)
    · obtain rfl := Option.some.inj hv
      simpa [Overflows] using canonical_or (hfirst rfl) (hsecond rfl)
    · obtain rfl := Option.some.inj hv
      simpa [Overflows] using canonical_xor (hfirst rfl) (hsecond rfl)
    · exact canonical_binary (by simp) h hv
  · simp only [List.mem_cons, List.not_mem_nil, or_false] at hmem
    rcases hmem with rfl | rfl | rfl
    · exact canonical_binary (by simp) h hv
    · obtain rfl := Option.some.inj hv
      simp only [Overflows, not_false_eq_true, iff_true]
      refine (hfirst rfl).mono ?_
      rw [BitVec.toNat_ushiftRight]
      exact Nat.shiftRight_le _ _
    · exact canonical_binary (by simp) h hv
  · simp only [List.mem_cons, List.not_mem_nil, or_false] at hmem
    have hx : Canonical type x := by
      rcases hmem with rfl | rfl
      · exact hfirst rfl
      · exact hfirst rfl
    rcases hmem with rfl | rfl <;> simp only [intValue, divide_zero] at hv <;>
      simp only [Overflows, not_false_eq_true, iff_true] <;> refine hx.mono ?_ <;>
      split_ifs at hv <;> first | (cases hv; done) | obtain rfl := Option.some.inj hv
    · rw [BitVec.toNat_udiv]
      exact Nat.div_le_self _ _
    · rw [BitVec.toNat_umod]
      exact Nat.mod_le _ _
  · simp only [List.mem_cons, List.not_mem_nil, or_false] at hmem
    rcases hmem with rfl | rfl <;> exact canonical_binary (by simp) h hv
  · simp only [List.mem_cons, List.not_mem_nil, or_false] at hmem
    rcases hmem with rfl | rfl | rfl | rfl | rfl | rfl | rfl
    · exact canonical_unary (.inl rfl) h hv
    · exact canonical_unary (.inr rfl) h hv
    · obtain rfl := Option.some.inj hv
      exact canonical_zeroExtend_iff h.typeInt x
    · obtain rfl := Option.some.inj hv
      simp [Overflows]
    · exact absurd rfl hne.1
    · exact absurd rfl hne.2
    · obtain rfl := Option.some.inj hv
      rw [canonical_zeroExtend_iff h.typeInt, signExtend_mod]
      rfl
  · rw [Ctx.intValue_comparison hcmp] at hv
    obtain rfl := Option.some.inj hv
    have hno : ¬ Overflows op type x y := by
      cases op <;> first | (cases hcmp; done) | exact id
    rw [h.bool hcmp] at *
    simp only [hno, not_false_eq_true, iff_true]
    exact canonical_bool _
  · obtain rfl := Option.some.inj hv
    obtain ⟨-, hy, hz⟩ := h.select rfl
    simp only [Overflows, not_false_eq_true, iff_true]
    split_ifs
    · exact hz
    · exact hy

end X86

end Mirage
