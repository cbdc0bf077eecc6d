import Mirage.Wasm.EmitInt
import Mirage.X86.IntValue

/-!
# What the integer lowering to WebAssembly computes

The local of the result after the code of an integer operation, in terms of the 64-bit
patterns the operands stand for. `run_emitInt` says that it holds what the x86 template
of the operation computes (`intValue`), or that both trap, but for four kinds of
instructions (`WasmOdd`): a remainder that overflows the division, and the conversions
whose types go the wrong way.
-/

namespace Mirage

namespace Wasm

open X86 (widthOf zeroExtend signExtend intValue)

variable {fn : Function} {s : State} {type : Ty} {inst : Inst} {v r : ValueId} {x y z : BitVec 64}

/-! ## Pieces -/

/-- The value in the local of the result, or a trap. -/
def State.settle (s : State) (r : ValueId) (type : Ty) : Option (BitVec 64) → Outcome
  | some v => .ok (s.setLocal r (localOf type v))
  | none => .trap

theorem type_localOf (h : isInteger type = true) (x : BitVec 64) :
    (localOf type x).type = valType type := by
  cases type <;> first | (cases h; done) | rfl

theorem localOf_narrow (h : type ≠ .i64) (x : BitVec 64) :
    localOf type x = .i32 (x.setWidth 32) := by simp [localOf, isI64Class, h]

theorem localOf_wide (x : BitVec 64) : localOf .i64 x = .i64 x := rfl

/-- Setting the local of the result. -/
theorem run_settle (hint : isInteger type = true) (hr : (s.locals r).type = valType type)
    (o : Option (BitVec 64)) :
    (s.pushOr (o.map (localOf type))).andThen (run [.localSet r]) = s.settle r type o := by
  cases o with
  | none => rfl
  | some x => exact run_set (hr.trans (type_localOf hint x).symm)

theorem widthBits_le (h : isInteger type = true) (hn : type ≠ .i64) :
    (widthOf type).bits ≤ 32 := by
  cases type <;> first | (cases h; done) | (exact absurd rfl hn) | decide

theorem and_narrowMask (h : isInteger type = true) (hn : type ≠ .i64) (hm : narrowMask type ≠ 0)
    (a : BitVec 32) : a &&& narrowMask type = (a.setWidth (widthOf type).bits).setWidth 32 := by
  have hmask : narrowMask type = (BitVec.allOnes (widthOf type).bits).setWidth 32 := by
    cases type <;> first | (cases h; done) | (exact absurd rfl hn) | (exact absurd rfl hm) | decide
  rw [hmask]
  ext i hi
  simp only [BitVec.getElem_and, BitVec.getElem_setWidth, BitVec.getLsbD_allOnes,
    BitVec.getLsbD_setWidth]
  rw [Bool.and_comm, BitVec.getLsbD_eq_getElem hi]

theorem width_of_narrowMask (h : isInteger type = true) (hn : type ≠ .i64)
    (hm : narrowMask type = 0) : (widthOf type).bits = 32 := by
  cases type <;> first | (cases h; done) | (exact absurd rfl hn) | rfl | cases hm

/-- The mask of a narrow type leaves the canonical form at the width the backends use. -/
theorem run_maskNarrow (hint : isInteger type = true) (hn : type ≠ .i64) (s : State)
    (x : BitVec 64) :
    run (maskNarrow type) (s.push (.i32 (x.setWidth 32))) =
      s.pushOr (some (localOf type (zeroExtend (widthOf type) x))) := by
  have hle := widthBits_le hint hn
  have hval : ((x.setWidth 32).setWidth (widthOf type).bits).setWidth 32 =
      (zeroExtend (widthOf type) x).setWidth 32 := by
    rw [zeroExtend, BitVec.setWidth_setWidth_of_le _ hle, BitVec.setWidth_setWidth_of_le _ (show 32 ≤ 64 by omega)]
  rw [localOf_narrow hn, State.pushOr, ← hval, maskNarrow]
  split_ifs with hm
  · rw [run_const32, run_op32, IntOp.apply, and_narrowMask hint hn hm]
    rfl
  · rw [width_of_narrowMask hint hn (by simpa using hm)]
    simp

/-- A value sign-extended to 64 bits. -/
theorem run_pushSigned64 (hint : isInteger (fn.valueType v) = true)
    (hv : s.locals v = localOf (fn.valueType v) x) :
    run (pushSigned64 fn v) s =
      .ok (s.push (.i64 (signExtend (widthOf (fn.valueType v)) x))) := by
  rw [pushSigned64]
  cases ht : fn.valueType v <;> rw [ht] at hint hv <;>
    first
    | (cases hint; done)
    | simp [hv, localOf, isI64Class, signExtend, widthOf, X86.Width.bits, signExtend_signExtend]

/-- A canonical value, zero-extended to 64 bits. -/
theorem run_pushUnsigned64 (hint : isInteger (fn.valueType v) = true)
    (hx : Canonical (fn.valueType v) x) (hv : s.locals v = localOf (fn.valueType v) x) :
    run (pushUnsigned64 fn v) s = .ok (s.push (.i64 x)) := by
  rw [pushUnsigned64]
  split_ifs with ht
  · simp [hv, localOf_narrow ht, setWidth_setWidth_eq (hx.lt_of_narrow hint ht)]
  · have ht' : fn.valueType v = .i64 := by simpa using ht
    rw [ht'] at hv
    simp [hv, localOf_wide]

/-! ## Ends of sequences -/

/-- The canonical form of a narrow type, then the local. -/
theorem run_narrow (hint : isInteger type = true) (hn : type ≠ .i64)
    (hr : (s.locals r).type = valType type) (o : Option (BitVec 64)) :
    (s.pushOr (o.map fun v => .i32 (v.setWidth 32))).andThen
      (run (maskNarrow type ++ [.localSet r])) =
      s.settle r type (o.map (zeroExtend (widthOf type))) := by
  cases o with
  | none => rfl
  | some x =>
    rw [Option.map_some, pushOr_some_andThen, run_append, run_maskNarrow hint hn]
    exact run_settle hint hr (some (zeroExtend (widthOf type) x))

/-- A 64-bit result, wrapped. -/
theorem run_wrapOr (o : Option (BitVec 64)) (rest : List Instr) :
    (s.pushOr (o.map .i64)).andThen (run (.i32WrapI64 :: rest)) =
      (s.pushOr (o.map fun v => .i32 (v.setWidth 32))).andThen (run rest) := by
  cases o <;> rfl

/-- The 64-bit result of an operation, in its local. -/
theorem run_wide (hr : (s.locals r).type = valType .i64) (o : Option (BitVec 64)) :
    (s.pushOr (o.map .i64)).andThen (run [.localSet r]) = s.settle r .i64 o :=
  run_settle rfl hr o

theorem run_short (hint : isInteger type = true) (hn : type ≠ .i64)
    (hr : (s.locals r).type = valType type) (o : Option (BitVec 64)) :
    (s.pushOr (o.map fun v => .i32 (v.setWidth 32))).andThen (run [.localSet r]) =
      s.settle r type o := by
  rw [← run_settle hint hr o]
  congr 3
  exact funext fun v => (localOf_narrow hn v).symm

theorem zeroExtend_i64 : zeroExtend (widthOf .i64) = id :=
  funext fun x => X86.Ctx.zeroExtend_w64 x

theorem signExtend_i64 (x : BitVec 64) : signExtend (widthOf .i64) x = x :=
  X86.Ctx.signExtend_w64 x

/-! ## Arithmetic -/

/-- The operations that commute with truncation. -/
theorem apply_setWidth {op : Op} (h : op ∈ [Op.add, .sub, .mul, .and, .or, .xor])
    (x y : BitVec 64) :
    (intOpOf op).apply (x.setWidth 32) (y.setWidth 32) =
      ((intOpOf op).apply x y).map (·.setWidth 32) := by
  simp only [List.mem_cons, List.not_mem_nil, or_false] at h
  rcases h with rfl | rfl | rfl | rfl | rfl | rfl <;>
    simp [intOpOf, IntOp.apply, BitVec.setWidth_add, BitVec.setWidth_mul, setWidth_sub]

/-- Both operands, then an operation at the width of their class. -/
theorem run_opAt {a b : ValueId} (ha : s.locals a = localOf type x)
    (hb : s.locals b = localOf type y) (op : IntOp) (rest : List Instr) :
    run (.localGet a :: .localGet b :: opAt type op :: rest) s =
      (s.pushOr (if type = .i64 then (op.apply x y).map .i64
        else (op.apply (x.setWidth 32) (y.setWidth 32)).map .i32)).andThen (run rest) := by
  rw [run_get, run_get, push_locals, ha, hb]
  by_cases ht : type = .i64
  · rw [if_pos ht, ht, localOf_wide, localOf_wide]
    exact run_op64 op rest s x y
  · rw [if_neg ht, localOf_narrow ht, localOf_narrow ht]
    simp only [opAt, isI64Class, beq_iff_eq, ht, if_false]
    exact run_op32 op rest s _ _

section Ops

variable (hint : isInteger inst.type = true)
  (hr : (s.locals inst.result).type = valType inst.type)

include hint hr

theorem run_arith (hop : inst.op ∈ [Op.add, .sub, .mul])
    (ha : s.locals inst.a = localOf inst.type x) (hb : s.locals inst.b = localOf inst.type y) :
    run (emitInt fn inst) s = s.settle inst.result inst.type
      (((intOpOf inst.op).apply x y).map (zeroExtend (widthOf inst.type))) := by
  have hcode : emitInt fn inst = .localGet inst.a :: .localGet inst.b ::
      opAt inst.type (intOpOf inst.op) :: (maskNarrow inst.type ++ [.localSet inst.result]) := by
    simp only [List.mem_cons, List.not_mem_nil, or_false] at hop
    rcases hop with h | h | h <;> simp [emitInt, h]
  rw [hcode, run_opAt ha hb]
  by_cases ht : inst.type = .i64
  · rw [ht] at hr
    rw [if_pos ht, ht, zeroExtend_i64, Option.map_id]
    exact run_wide hr _
  · rw [if_neg ht, apply_setWidth, Option.map_map]
    · exact run_narrow hint ht hr _
    · simp only [List.mem_cons, List.not_mem_nil, or_false] at hop ⊢
      tauto

theorem run_bitwise (hop : inst.op ∈ [Op.and, .or, .xor])
    (ha : s.locals inst.a = localOf inst.type x) (hb : s.locals inst.b = localOf inst.type y) :
    run (emitInt fn inst) s = s.settle inst.result inst.type ((intOpOf inst.op).apply x y) := by
  have hcode : emitInt fn inst = [.localGet inst.a, .localGet inst.b,
      opAt inst.type (intOpOf inst.op), .localSet inst.result] := by
    simp only [List.mem_cons, List.not_mem_nil, or_false] at hop
    rcases hop with h | h | h <;> simp [emitInt, h]
  rw [hcode, run_opAt ha hb]
  by_cases ht : inst.type = .i64
  · rw [ht] at hr
    rw [if_pos ht, ht]
    exact run_wide hr _
  · rw [if_neg ht, apply_setWidth, Option.map_map]
    · exact run_short hint ht hr _
    · simp only [List.mem_cons, List.not_mem_nil, or_false] at hop ⊢
      tauto

theorem run_not (hop : inst.op = .not) (ha : s.locals inst.a = localOf inst.type x)
    (hi1 : inst.type ≠ .i1) :
    run (emitInt fn inst) s =
      s.settle inst.result inst.type (some (zeroExtend (widthOf inst.type) (~~~x))) := by
  simp only [emitInt, hop, beq_iff_eq, hi1, if_false]
  rw [List.cons_append, run_get, ha]
  by_cases ht : inst.type = .i64
  · rw [ht] at hr
    rw [ht, zeroExtend_i64, localOf_wide]
    refine Eq.trans ?_ (run_wide hr (some (~~~x)))
    rw [← xor_neg_one x]
    rfl
  · rw [localOf_narrow ht]
    simp only [isI64Class, beq_iff_eq, ht, if_false]
    refine Eq.trans ?_ (run_narrow hint ht hr (some (~~~x)))
    rw [Option.map_some, BitVec.setWidth_not (by omega), ← xor_neg_one]
    rfl

omit hint in

/-- At `i1`, the low bit. -/
theorem run_not_bool (hop : inst.op = .not) (h1 : inst.type = .i1) (hx : Canonical .i1 x)
    (ha : s.locals inst.a = localOf inst.type x) :
    run (emitInt fn inst) s = s.settle inst.result .i1
      (some (X86.mergeWidth .w8 x ((x.setWidth 8 ^^^ 1).setWidth 64))) := by
  rw [h1] at ha hr
  simp only [emitInt, hop, h1]
  refine Eq.trans ?_ (run_settle rfl hr _)
  rw [List.cons_append, run_get, ha]
  rcases hx.eq_zero_or_one with rfl | rfl <;> rfl

theorem run_neg (hop : inst.op = .neg) (ha : s.locals inst.a = localOf inst.type x) :
    run (emitInt fn inst) s =
      s.settle inst.result inst.type (some (zeroExtend (widthOf inst.type) (-x))) := by
  simp only [emitInt, hop]
  by_cases ht : inst.type = .i64
  · rw [ht] at hr ha
    rw [ht, zeroExtend_i64]
    refine Eq.trans ?_ (run_wide hr (some (-x)))
    simp [isI64Class, ha, localOf_wide, IntOp.apply]
  · simp only [isI64Class, beq_iff_eq, ht, if_false]
    refine Eq.trans ?_ (run_narrow hint ht hr (some (-x)))
    simp [ha, localOf_narrow ht, IntOp.apply, BitVec.setWidth_neg_of_le]

/-! ## Division -/

theorem run_signedDiv (hop : inst.op ∈ [Op.sdiv, .srem])
    (hta : fn.valueType inst.a = inst.type) (htb : fn.valueType inst.b = inst.type)
    (ha : s.locals inst.a = localOf inst.type x) (hb : s.locals inst.b = localOf inst.type y) :
    run (emitInt fn inst) s = s.settle inst.result inst.type
      (((intOpOf inst.op).apply (signExtend (widthOf inst.type) x)
        (signExtend (widthOf inst.type) y)).map (zeroExtend (widthOf inst.type))) := by
  have hcode : emitInt fn inst =
      (if isI64Class inst.type then [.localGet inst.a, .localGet inst.b, .i64Op (intOpOf inst.op)]
      else pushSigned64 fn inst.a ++ pushSigned64 fn inst.b ++
        [.i64Op (intOpOf inst.op), .i32WrapI64] ++ maskNarrow inst.type) ++
      [.localSet inst.result] := by
    simp only [List.mem_cons, List.not_mem_nil, or_false] at hop
    rcases hop with h | h <;> simp [emitInt, h]
  rw [hcode]
  by_cases ht : inst.type = .i64
  · rw [ht] at hr ha hb
    rw [ht, zeroExtend_i64, Option.map_id, signExtend_i64, signExtend_i64]
    refine Eq.trans ?_ (run_wide hr _)
    simp [isI64Class, ha, hb, localOf_wide]
  · simp only [isI64Class, beq_iff_eq, ht, if_false, List.append_assoc]
    have hpa : run (pushSigned64 fn inst.a) s = _ :=
      run_pushSigned64 (hta ▸ hint) (by rw [ha, hta])
    have hpb : ∀ v, run (pushSigned64 fn inst.b) (s.push v) = _ := fun v =>
      run_pushSigned64 (htb ▸ hint) (by rw [push_locals, hb, htb])
    rw [run_append, hpa, hta, Outcome.andThen, run_append, hpb, htb, Outcome.andThen,
      List.cons_append, run_op64, List.cons_append, run_wrapOr, List.nil_append]
    exact run_narrow hint ht hr _

theorem run_unsignedDiv (hop : inst.op ∈ [Op.udiv, .urem]) (hx : Canonical inst.type x)
    (hy : Canonical inst.type y)
    (ha : s.locals inst.a = localOf inst.type x) (hb : s.locals inst.b = localOf inst.type y) :
    run (emitInt fn inst) s = s.settle inst.result inst.type ((intOpOf inst.op).apply x y) := by
  have hcode : emitInt fn inst = [.localGet inst.a, .localGet inst.b,
      opAt inst.type (intOpOf inst.op), .localSet inst.result] := by
    simp only [List.mem_cons, List.not_mem_nil, or_false] at hop
    rcases hop with h | h <;> simp [emitInt, h]
  rw [hcode, run_opAt ha hb]
  by_cases ht : inst.type = .i64
  · rw [ht] at hr
    rw [if_pos ht, ht]
    exact run_wide hr _
  · have happly : (intOpOf inst.op).apply (x.setWidth 32) (y.setWidth 32) =
        ((intOpOf inst.op).apply x y).map (·.setWidth 32) := by
      have hx32 := hx.lt_of_narrow hint ht
      have hy32 := hy.lt_of_narrow hint ht
      have hzero : y.setWidth 32 = 0 ↔ y = 0 :=
        ⟨fun h => eq_of_setWidth_eq hy32 (by simp) (by simpa using h), fun h => by simp [h]⟩
      simp only [List.mem_cons, List.not_mem_nil, or_false] at hop
      rcases hop with h | h <;> simp only [h, intOpOf, IntOp.apply, hzero] <;> split_ifs <;>
        simp only [Option.map_none, Option.map_some, Option.some.injEq]
      · rw [setWidth_udiv hx32 hy32]
      · rw [setWidth_umod hx32 hy32]
    rw [if_neg ht, happly, Option.map_map]
    exact run_short hint ht hr _

/-! ## Shifts -/

theorem run_shift (hop : inst.op ∈ [Op.shl, .lshr, .ashr])
    (hta : fn.valueType inst.a = inst.type) (htb : fn.valueType inst.b = inst.type)
    (hx : Canonical inst.type x) (hy : Canonical inst.type y)
    (ha : s.locals inst.a = localOf inst.type x) (hb : s.locals inst.b = localOf inst.type y) :
    run (emitInt fn inst) s = s.settle inst.result inst.type
      (some (X86.Ctx.shiftValue inst.op inst.type x y)) := by
  by_cases ht : inst.type = .i64
  · rw [ht] at hr ha hb
    have hvalue : some (X86.Ctx.shiftValue inst.op .i64 x y) = (intOpOf inst.op).apply x y := by
      simp only [List.mem_cons, List.not_mem_nil, or_false] at hop
      rcases hop with h | h | h <;>
        simp [h, X86.Ctx.shiftValue, intOpOf, IntOp.apply, zeroExtend_i64, signExtend_i64]
    rw [ht, hvalue]
    refine Eq.trans ?_ (run_wide hr _)
    simp only [List.mem_cons, List.not_mem_nil, or_false] at hop
    rcases hop with h | h | h <;> simp [emitInt, h, ht, isI64Class, ha, hb, localOf_wide]
  · -- at 64 bits, on the extended operands
    have hpb : ∀ v, run (pushUnsigned64 fn inst.b) (s.push v) = .ok ((s.push v).push (.i64 y)) :=
      fun v => run_pushUnsigned64 (htb ▸ hint) (htb ▸ hy) (by rw [push_locals, hb, htb])
    have hpa : run (pushUnsigned64 fn inst.a) s = .ok (s.push (.i64 x)) :=
      run_pushUnsigned64 (hta ▸ hint) (hta ▸ hx) (by rw [ha, hta])
    have hps : run (pushSigned64 fn inst.a) s =
        .ok (s.push (.i64 (signExtend (widthOf inst.type) x))) :=
      hta ▸ run_pushSigned64 (hta ▸ hint) (by rw [ha, hta])
    have hwide : isI64Class inst.type = false := by simp [isI64Class, ht]
    simp only [List.mem_cons, List.not_mem_nil, or_false] at hop
    rcases hop with h | h | h <;> simp only [emitInt, h, hwide, List.append_assoc]
    · refine Eq.trans ?_ (run_narrow hint ht hr (IntOp.apply .shl x y))
      rw [← run_wrapOr]
      simp [run_append, hpa, hpb, Outcome.andThen, intOpOf]
    · refine Eq.trans ?_ (run_short hint ht hr (IntOp.apply .shrU x y))
      rw [← run_wrapOr]
      simp [run_append, hpa, hpb, Outcome.andThen, intOpOf]
    · refine Eq.trans ?_ (run_narrow hint ht hr
        (IntOp.apply .shrS (signExtend (widthOf inst.type) x) y))
      rw [← run_wrapOr]
      simp [run_append, hps, hpb, Outcome.andThen, intOpOf]

/-! ## Conversions -/

theorem run_trunc (hop : inst.op = .trunc) (ht : inst.type ≠ .i64)
    (ha : s.locals inst.a = localOf (fn.valueType inst.a) x) :
    run (emitInt fn inst) s =
      s.settle inst.result inst.type (some (zeroExtend (widthOf inst.type) x)) := by
  have hmask : (if inst.type == .i32 || inst.type == .ptr then [] else maskNarrow inst.type) =
      maskNarrow inst.type := by
    clear ha hr
    cases h : inst.type <;> rw [h] at hint <;> first | (cases hint; done) | rfl
  simp only [emitInt, hop, hmask]
  refine Eq.trans ?_ (run_narrow hint ht hr (some x))
  by_cases hs : fn.valueType inst.a = .i64
  · simp [hs, isI64Class, ha, localOf_wide]
  · simp [hs, isI64Class, ha, localOf_narrow hs]

/-- A widening `zext`, or one of a value that fits. -/
theorem run_zext (hop : inst.op = .zext) (hsrc : isInteger (fn.valueType inst.a) = true)
    (hx : Canonical (fn.valueType inst.a) x) (hfit : Canonical inst.type x)
    (ha : s.locals inst.a = localOf (fn.valueType inst.a) x) :
    run (emitInt fn inst) s = s.settle inst.result inst.type (some x) := by
  simp only [emitInt, hop]
  by_cases ht : inst.type = .i64
  · rw [ht] at hr
    have hmask : maskNarrow inst.type = [] := by rw [ht]; rfl
    rw [hmask, ht]
    refine Eq.trans ?_ (run_wide hr (some x))
    by_cases hs : fn.valueType inst.a = .i64
    · simp [hs, isI64Class, ha, localOf_wide]
    · simp [hs, isI64Class, ha, localOf_narrow hs,
        setWidth_setWidth_eq (hx.lt_of_narrow hsrc hs)]
  · have hkeep : zeroExtend (widthOf inst.type) x = x := by
      refine setWidth_setWidth_eq (lt_of_lt_of_le hfit (Nat.pow_le_pow_right (by omega) ?_))
      clear ha hr hfit
      cases h : inst.type <;> rw [h] at hint <;> first | (cases hint; done) | decide
    refine Eq.trans ?_ ((run_narrow hint ht hr (some x)).trans (by rw [Option.map_some, hkeep]))
    by_cases hs : fn.valueType inst.a = .i64
    · simp [hs, ht, isI64Class, ha, localOf_wide]
    · simp [hs, ht, isI64Class, ha, localOf_narrow hs]

theorem run_sext (hop : inst.op = .sext) (hsrc : isInteger (fn.valueType inst.a) = true)
    (hs : fn.valueType inst.a ≠ .i64) (ha : s.locals inst.a = localOf (fn.valueType inst.a) x) :
    run (emitInt fn inst) s = s.settle inst.result inst.type
      (some (zeroExtend (widthOf inst.type) (signExtend (widthOf (fn.valueType inst.a)) x))) := by
  simp only [emitInt, hop]
  rw [localOf_narrow hs] at ha
  -- the operand, sign-extended at 32 bits
  have hext : ∀ rest, run (.localGet inst.a :: signExtendNarrow (fn.valueType inst.a) ++ rest) s =
      run rest (s.push (.i32 ((signExtend (widthOf (fn.valueType inst.a)) x).setWidth 32))) := by
    intro rest
    clear hr hint
    cases h : fn.valueType inst.a <;> rw [h] at hsrc hs <;>
      first
      | (cases hsrc; done)
      | (exact absurd rfl hs)
      | simp [ha, signExtendNarrow, signExtend, widthOf, X86.Width.bits, setWidth_signExtend]
  rw [List.append_assoc, hext]
  by_cases ht : inst.type = .i64
  · rw [ht] at hr
    have hback : ((signExtend (widthOf (fn.valueType inst.a)) x).setWidth 32).signExtend 64 =
        signExtend (widthOf (fn.valueType inst.a)) x := by
      rw [signExtend, setWidth_signExtend _ (by omega),
        signExtend_signExtend _ (widthBits_le hsrc hs) (by omega)]
    rw [ht, zeroExtend_i64]
    refine Eq.trans ?_ (run_wide hr (some (signExtend (widthOf (fn.valueType inst.a)) x)))
    simp [isI64Class, hback]
  · have hwide : isI64Class inst.type = false := by simp [isI64Class, ht]
    refine Eq.trans ?_ (run_narrow hint ht hr
      (some (signExtend (widthOf (fn.valueType inst.a)) x)))
    simp [hwide]

/-! ## Selection and comparison -/

theorem run_selection (hop : inst.op = .select) (hx : Canonical .i1 x)
    (ha : s.locals inst.a = localOf .i1 x) (hb : s.locals inst.b = localOf inst.type y)
    (hc : s.locals inst.c = localOf inst.type z) :
    run (emitInt fn inst) s =
      s.settle inst.result inst.type (some (if x.setWidth 8 = 0 then z else y)) := by
  have htype : (localOf inst.type y).type = (localOf inst.type z).type := by
    rw [type_localOf hint, type_localOf hint]
  simp only [emitInt, hop, run_get, push_locals, ha, hb, hc]
  rw [localOf_narrow (show Ty.i1 ≠ .i64 by simp), run_select htype]
  refine Eq.trans ?_ (run_settle hint hr _)
  rcases hx.eq_zero_or_one with rfl | rfl <;> rfl

end Ops

/-- The condition the x86 backend reads after a comparison is the relation. -/
theorem holds_cmp {op : Op} (h : isIntComparison op = true) {n : Nat} (x y : BitVec n) :
    (X86.Ctx.icmpCond op).holds (X86.Alu.flags .cmp x y) = (relOpOf op).holds x y := by
  have hzf : (X86.Alu.flags .cmp x y).zf = decide (x = y) := by
    simp only [X86.Alu.flags, X86.Alu.apply]
    rw [beq_eq_decide, decide_eq_decide]
    exact sub_eq_zero
  have hcf : (X86.Alu.flags .cmp x y).cf = x.ult y := rfl
  have hlt : ((X86.Alu.flags .cmp x y).sf != (X86.Alu.flags .cmp x y).of) = x.slt y := by
    simp only [X86.Alu.flags, X86.Alu.apply]
    by_cases hm : x.msb = y.msb
    · rw [← msb_sub_of_msb_eq hm]
      simp [hm]
    · rw [slt_of_msb_ne hm]
      cases hx : x.msb <;> cases hy : y.msb <;> simp_all
  have hge : ((X86.Alu.flags .cmp x y).sf == (X86.Alu.flags .cmp x y).of) = !x.slt y := by
    rw [← hlt, bne, Bool.not_not]
  cases op <;> first
    | (cases h; done)
    | simp only [X86.Ctx.icmpCond, X86.Cond.holds, relOpOf, RelOp.holds, hzf, hcf, hlt, hge]
  · simp
  · rw [BitVec.sle_eq_slt_or_eq, Bool.or_comm, beq_eq_decide]
  · rw [← Bool.not_or, ← beq_eq_decide, Bool.or_comm, ← BitVec.sle_eq_slt_or_eq,
      BitVec.sle_eq_not_slt, Bool.not_not]
  · rw [BitVec.sle_eq_not_slt]
  · rw [← beq_eq_decide, ule_eq_ult_or_eq]
  · rw [← Bool.not_or, ← beq_eq_decide, ← ule_eq_ult_or_eq, BitVec.ule_eq_not_ult, Bool.not_not]
  · rw [BitVec.ule_eq_not_ult]

/-- A comparison of two integers. -/
theorem run_icmp (hop : isIntComparison inst.op = true)
    (hr : (s.locals inst.result).type = .i32)
    (ha : s.locals inst.a = localOf type x) (hb : s.locals inst.b = localOf type y)
    (hta : fn.valueType inst.a = type) (hint : isInteger type = true) :
    run (emitInt fn inst) s = s.settle inst.result .i1 (some (X86.compareValue inst.op
      (if widthOf type = .w64 then .w64 else .w32) x y)) := by
  have hcode : emitInt fn inst = emitIcmp fn inst := by
    clear ha hb hr
    rw [emitInt]
    cases h : inst.op <;> rw [h] at hop <;> first | rfl | cases hop
  have hval : ∀ b : Bool, boolVal b = localOf .i1 (if b then 1 else 0) := by decide
  rw [hcode, emitIcmp, hta, X86.compareValue, holds_cmp hop, run_get, run_get, push_locals, ha, hb]
  refine Eq.trans ?_ (run_settle rfl hr _)
  by_cases ht : type = .i64
  · rw [ht, localOf_wide, localOf_wide]
    rw [if_pos (show isI64Class .i64 = true from rfl), run_rel64, hval]
    simp [widthOf, X86.Width.bits]
  · have hw : widthOf type ≠ .w64 := by
      intro h
      have := widthBits_le hint ht
      rw [h] at this
      exact absurd this (by decide)
    rw [localOf_narrow ht, localOf_narrow ht, if_neg (by simp [isI64Class, ht]), run_rel32, hval,
      if_neg hw]
    rfl

/-! ## All of them -/

/-- The locals of the operands hold the values `x`, `y` and `z`, and the local of the
    result has its type. -/
structure OperandLocals (fn : Function) (s : State) (inst : Inst) (x y z : BitVec 64) : Prop where
  first : s.locals inst.a = localOf (fn.valueType inst.a) x
  second : isIntBinary inst.op = true ∨ isIntComparison inst.op = true →
    fn.valueType inst.b = fn.valueType inst.a ∧ s.locals inst.b = localOf (fn.valueType inst.a) y
  select : inst.op = .select →
    s.locals inst.b = localOf inst.type y ∧ s.locals inst.c = localOf inst.type z
  result : (s.locals inst.result).type = valType inst.type

/-- The instructions on which the lowering does something of its own. -/
def WasmOdd (op : Op) (type src : Ty) (x y : BitVec 64) : Prop :=
  match op with
  | .srem => type = .i64 ∧ x = BitVec.intMin 64 ∧ y = -1
  | .trunc => type = .i64
  | .zext => ¬ Canonical type x
  | .sext => src = .i64
  | _ => False

theorem wasmOdd_cases {op : Op} {src : Ty} (h : WasmOdd op type src x y) :
    op = .srem ∧ type = .i64 ∧ x = BitVec.intMin 64 ∧ y = -1 ∨ op = .trunc ∧ type = .i64 ∨
      op = .zext ∧ ¬ Canonical type x ∨ op = .sext ∧ src = .i64 := by
  cases op <;> simp_all [WasmOdd]

/-- A sign-extended narrow number is not the least one. -/
theorem signExtend_ne_intMin (hint : isInteger type = true) (hn : type ≠ .i64) (x : BitVec 64) :
    signExtend (widthOf type) x ≠ BitVec.intMin 64 := by
  intro h
  have hle := widthBits_le hint hn
  have hlow := BitVec.le_toInt (x.setWidth (widthOf type).bits)
  have hint := congrArg BitVec.toInt h
  rw [signExtend, BitVec.toInt_signExtend_of_le (by omega),
    show (BitVec.intMin 64).toInt = -2 ^ 63 from rfl] at hint
  have hpow : (2 : Int) ^ ((widthOf type).bits - 1) ≤ 2 ^ 31 :=
    pow_le_pow_right₀ (by omega) (by omega)
  omega

/-- Signed division at 64 bits, against the processor's. -/
theorem apply_signedDiv {op : Op} {x y : BitVec 64} (hop : op = .sdiv ∨ op = .srem)
    (hodd : op = .srem → ¬ (x = BitVec.intMin 64 ∧ y = -1)) :
    (intOpOf op).apply x y =
      (X86.idivide (X86.signWord x) x y).map fun qr => if op = .sdiv then qr.1 else qr.2 := by
  rw [X86.idivide_signWord]
  rcases hop with rfl | rfl
  · simp only [intOpOf, IntOp.apply]
    split_ifs <;> rfl
  · have hno := hodd rfl
    simp only [intOpOf, IntOp.apply, hno, or_false, reduceCtorEq, if_false]
    split_ifs <;> rfl

/-! ## The odd ones -/

/-- A `trunc` to `i64` sets a local of type `i64` to a value of type `i32`. -/
theorem run_trunc_wide (hop : inst.op = .trunc) (ht : inst.type = .i64)
    (hr : (s.locals inst.result).type = .i64)
    (ha : s.locals inst.a = localOf (fn.valueType inst.a) x) :
    run (emitInt fn inst) s = .invalid := by
  simp only [emitInt, hop, ht]
  have hne : (s.locals inst.result).type ≠ (Val.i32 (x.setWidth 32)).type := by
    rw [hr]
    exact fun h => by cases h
  refine Eq.trans ?_ (run_set_invalid hne)
  by_cases hs : fn.valueType inst.a = .i64
  · simp [hs, isI64Class, ha, localOf_wide, maskNarrow, narrowMask]
  · simp [hs, isI64Class, ha, localOf_narrow hs, maskNarrow, narrowMask]

/-- A `sext` from `i64` goes on as if the value were an `i32`. -/
theorem run_sext_wide (hop : inst.op = .sext) (hs : fn.valueType inst.a = .i64)
    (hint : isInteger inst.type = true) (hr : (s.locals inst.result).type = valType inst.type)
    (ha : s.locals inst.a = localOf (fn.valueType inst.a) x) :
    run (emitInt fn inst) s = .invalid := by
  rw [hs, localOf_wide] at ha
  simp only [emitInt, hop, hs, signExtendNarrow, List.nil_append, List.cons_append]
  rw [run_get, ha]
  by_cases ht : inst.type = .i64
  · rw [ht]
    rfl
  · have hwide : isI64Class inst.type = false := by simp [isI64Class, ht]
    rw [hwide, maskNarrow]
    by_cases hm : narrowMask inst.type = 0
    · simp only [hm, ne_eq, not_true_eq_false, if_false, List.nil_append, Bool.false_eq_true]
      refine run_set_invalid ?_
      rw [hr]
      clear hr ha hm
      cases h : inst.type <;> rw [h] at hint ht <;>
        first | (cases hint; done) | (exact absurd rfl ht) | exact fun h => by cases h
    · rw [if_pos hm]
      rfl

/-- The remainder of the one quotient that does not fit is zero. -/
theorem run_srem_overflow (hop : inst.op = .srem) (ht : inst.type = .i64)
    (hr : (s.locals inst.result).type = .i64)
    (ha : s.locals inst.a = .i64 (BitVec.intMin 64)) (hb : s.locals inst.b = .i64 (-1)) :
    run (emitInt fn inst) s = s.settle inst.result .i64 (some 0) := by
  simp only [emitInt, hop, ht]
  refine Eq.trans ?_ (run_wide hr (some 0))
  have hrem : (BitVec.intMin 64).srem (-1) = 0 := by decide
  simp only [isI64Class, beq_self_eq_true, if_true, List.cons_append, List.nil_append, run_get,
    push_locals, ha, hb, run_op64, intOpOf, IntOp.apply, hrem]
  rfl

/-- The lowering of an integer operation leaves what the x86 template computes. -/
theorem run_emitInt (hop : X86.Ctx.isIntOp inst.op = true)
    (h : X86.CanonicalOperands inst.op inst.type (fn.valueType inst.a) x y z)
    (hl : OperandLocals fn s inst x y z)
    (hodd : ¬ WasmOdd inst.op inst.type (fn.valueType inst.a) x y) :
    run (emitInt fn inst) s = s.settle inst.result inst.type
      (intValue inst.op inst.type (fn.valueType inst.a) x y z) := by
  have hint := h.typeInt
  have hr := hl.result
  -- the operands of a two-operand operation
  have hbin : isIntBinary inst.op = true → fn.valueType inst.a = inst.type ∧
      fn.valueType inst.b = inst.type ∧ s.locals inst.a = localOf inst.type x ∧
      s.locals inst.b = localOf inst.type y ∧ Canonical inst.type x ∧ Canonical inst.type y := by
    intro hb
    have hsame := h.same (.inl hb)
    have h1 := hl.first
    obtain ⟨h2, h3⟩ := hl.second (.inl hb)
    have h4 := h.first
    have h5 := h.second (.inl hb)
    rw [hsame] at h1 h2 h3 h4 h5
    exact ⟨hsame, h2, h1, h3, h4, h5⟩
  rcases X86.Ctx.isIntOp_cases hop with ⟨hmem, hb⟩ | hmem | hmem | hmem | ⟨hmem, hne⟩ | hcmp | hsel
  · obtain ⟨-, -, ha, hb', -, -⟩ := hbin hb
    simp only [List.mem_cons, List.not_mem_nil, or_false] at hmem
    rcases hmem with hm | hm | hm | hm | hm | hm | hm
    · rw [hm] at hb
      cases hb
    all_goals
      first
      | (rw [run_arith hint hr (by simp [hm]) ha hb', hm]
         rfl)
      | (rw [run_bitwise hint hr (by simp [hm]) ha hb', hm]
         rfl)
  · have hb : isIntBinary inst.op = true := by
      simp only [List.mem_cons, List.not_mem_nil, or_false] at hmem
      rcases hmem with hm | hm | hm <;> rw [hm] <;> rfl
    obtain ⟨hta, htb, ha, hb', hx, hy⟩ := hbin hb
    rw [run_shift hint hr hmem hta htb hx hy ha hb']
    simp only [List.mem_cons, List.not_mem_nil, or_false] at hmem
    rcases hmem with hm | hm | hm <;> rw [hm] <;> rfl
  · have hb : isIntBinary inst.op = true := by
      simp only [List.mem_cons, List.not_mem_nil, or_false] at hmem
      rcases hmem with hm | hm <;> rw [hm] <;> rfl
    obtain ⟨hta, htb, ha, hb', hx, hy⟩ := hbin hb
    rw [run_unsignedDiv hint hr hmem hx hy ha hb']
    simp only [List.mem_cons, List.not_mem_nil, or_false] at hmem
    rcases hmem with hm | hm <;> rw [hm] <;>
      simp only [intOpOf, IntOp.apply, intValue, X86.divide_zero] <;> split_ifs <;> rfl
  · have hb : isIntBinary inst.op = true := by
      simp only [List.mem_cons, List.not_mem_nil, or_false] at hmem
      rcases hmem with hm | hm <;> rw [hm] <;> rfl
    obtain ⟨hta, htb, ha, hb', hx, hy⟩ := hbin hb
    have hover : inst.op = .srem → ¬ (signExtend (widthOf inst.type) x = BitVec.intMin 64 ∧
        signExtend (widthOf inst.type) y = -1) := by
      intro hm hcon
      by_cases ht : inst.type = .i64
      · rw [ht, signExtend_i64, signExtend_i64] at hcon
        rw [hm] at hodd
        exact hodd ⟨ht, hcon⟩
      · exact signExtend_ne_intMin hint ht x hcon.1
    rw [run_signedDiv hint hr hmem hta htb ha hb']
    simp only [List.mem_cons, List.not_mem_nil, or_false] at hmem
    rw [apply_signedDiv hmem hover, Option.map_map]
    rcases hmem with hm | hm <;> rw [hm] <;> rfl
  · simp only [List.mem_cons, List.not_mem_nil, or_false] at hmem
    have hun : inst.op = .not ∨ inst.op = .neg → s.locals inst.a = localOf inst.type x :=
      fun hm => h.same (.inr hm) ▸ hl.first
    rcases hmem with hm | hm | hm | hm | hm | hm | hm
    · by_cases h1 : inst.type = .i1
      · have hx := h.first
        rw [h.same (.inr (.inl hm)), h1] at hx
        rw [run_not_bool hr hm h1 hx (hun (.inl hm)), hm, h1]
        rfl
      · rw [run_not hint hr hm (hun (.inl hm)) h1, hm]
        simp only [intValue, h1, if_false]
    · rw [run_neg hint hr hm (hun (.inr hm)), hm]
      rfl
    · rw [hm] at hodd
      rw [run_trunc hint hr hm hodd hl.first, hm]
      rfl
    · rw [hm] at hodd
      rw [run_zext hint hr hm h.srcInt h.first (not_not.1 hodd) hl.first, hm]
      rfl
    · exact absurd hm hne.1
    · exact absurd hm hne.2
    · rw [hm] at hodd
      rw [run_sext hint hr hm h.srcInt hodd hl.first, hm]
      rfl
  · obtain ⟨htb, hb⟩ := hl.second (.inr hcmp)
    have ht := h.bool hcmp
    rw [ht] at hr
    rw [run_icmp hcmp hr hl.first hb rfl h.srcInt, X86.Ctx.intValue_comparison hcmp, ht]
  · obtain ⟨hb, hc⟩ := hl.select hsel
    obtain ⟨hs, -, -⟩ := h.select hsel
    have hx := h.first
    have ha := hl.first
    rw [hs] at hx ha
    rw [run_selection hint hr hsel hx ha hb hc, hsel]
    rfl

end Wasm

end Mirage
