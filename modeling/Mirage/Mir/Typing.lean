import Mirage.Mir.Verify

/-!
# Operand types

What each op is defined for, and what the verifier leaves of it.

* `Inst.WellTyped`: the types of the operands and of the result of an instruction, op by op.
* `Inst.Left`: the part of it that the verifier does not look at. `not` and `neg` may be of
  any type, `fneg` too; a float comparison may be of pointers; a conversion is only kept from
  having the type of its operand as its result; the result of an indirect call, the scrutinee
  of a switch, sizes and offsets are not looked at.
* `wellTyped_iff_left`: an instruction that passes its check is well typed exactly when what is
  left holds, op by op.
* `typed_iff_left`: so are the instructions of an accepted module.
-/

namespace Mirage

/-! ## What an op is defined for -/

/-- The value is one of the function's, with a type of a kind. -/
def Function.Has (fn : Function) (v : Nat) (kind : Ty → Bool) : Prop :=
  Verifier.valueOk fn v = true ∧ kind (fn.valueType v) = true

/-- A value has a type, and `void` is none. -/
def isValueType (type : Ty) : Bool := type != .void

/-- What can be compared as a number. -/
def isIntOrPtr (type : Ty) : Bool := isInteger type || type == .ptr

/-- The arguments of a call, the ones behind the parameters of any type. -/
def Function.TakesArgs (fn : Function) : List Nat → List Ty → Prop
  | arg :: args, type :: types => fn.Has arg (· == type) ∧ fn.TakesArgs args types
  | arg :: args, [] => fn.Has arg isValueType ∧ fn.TakesArgs args []
  | [], _ => True

/-- A call of a function with a signature. -/
def Function.Calls (fn : Function) (inst : Inst) (sig : Signature) : Prop :=
  (sig.isVariadic = true ∨ inst.args.length = sig.params.length) ∧
    fn.TakesArgs inst.args sig.params ∧ inst.type = sig.result

/-- A jump to a block with arguments for its parameters. -/
def Function.JumpsTo (fn : Function) (target : BlockId) (args : List Nat) : Prop :=
  ∃ block, fn.blocks[target]? = some block ∧
    List.Forall₂ (fun arg param => fn.Has arg (· == fn.valueType param)) args block.params

/-- The operands and the result of a conversion. -/
def Function.Converts (fn : Function) (inst : Inst) (source target : Ty → Bool) : Prop :=
  fn.Has inst.a source ∧ target inst.type = true

/-- The types of an instruction are ones its op is defined for. -/
def Inst.WellTyped (module : Module) (fn : Function) (sig : Signature) (inst : Inst) : Prop :=
  match inst.op with
  | .constInt => isInteger inst.type = true
  | .constFloat => isFloat inst.type = true
  | .constNull => inst.type = .ptr
  | .slotAddr => inst.type = .ptr ∧ inst.a < fn.slots.length
  | .globalAddr => inst.type = .ptr ∧ inst.a < module.globals
  | .funcAddr => inst.type = .ptr ∧ inst.a < module.functions.length
  | .stackAlloc => fn.Has inst.a isInteger ∧ inst.type = .ptr
  | .load => fn.Has inst.a (· == .ptr) ∧ isValueType inst.type = true
  | .store => fn.Has inst.a (· == .ptr) ∧ fn.Has inst.b isValueType
  | .memCopy => fn.Has inst.a (· == .ptr) ∧ fn.Has inst.b (· == .ptr) ∧ fn.Has inst.c isInteger
  | .memSet => fn.Has inst.a (· == .ptr) ∧ fn.Has inst.b (· == .i8) ∧ fn.Has inst.c isInteger
  | .ptrAddConst => fn.Has inst.a (· == .ptr) ∧ inst.type = .ptr
  | .ptrAdd => fn.Has inst.a (· == .ptr) ∧ fn.Has inst.b isInteger ∧ inst.type = .ptr
  | .add | .sub | .mul | .sdiv | .udiv | .srem | .urem | .and | .or | .xor | .shl | .lshr | .ashr =>
    fn.Has inst.a (· == inst.type) ∧ fn.Has inst.b (· == inst.type) ∧ isInteger inst.type = true
  | .not | .neg => fn.Has inst.a (· == inst.type) ∧ isInteger inst.type = true
  | .fadd | .fsub | .fmul | .fdiv | .frem =>
    fn.Has inst.a (· == inst.type) ∧ fn.Has inst.b (· == inst.type) ∧ isFloat inst.type = true
  | .fneg => fn.Has inst.a (· == inst.type) ∧ isFloat inst.type = true
  | .icmpEq | .icmpNe | .icmpSlt | .icmpSle | .icmpSgt | .icmpSge | .icmpUlt | .icmpUle
  | .icmpUgt | .icmpUge =>
    fn.Has inst.a isIntOrPtr ∧ fn.Has inst.b (· == fn.valueType inst.a) ∧ inst.type = .i1
  | .fcmpOeq | .fcmpOne | .fcmpOlt | .fcmpOle | .fcmpOgt | .fcmpOge =>
    fn.Has inst.a isFloat ∧ fn.Has inst.b (· == fn.valueType inst.a) ∧ inst.type = .i1
  | .trunc => fn.Converts inst isInteger isInteger ∧
    typeBits inst.type module.pointerBits < typeBits (fn.valueType inst.a) module.pointerBits
  | .zext | .sext => fn.Converts inst isInteger isInteger ∧
    typeBits (fn.valueType inst.a) module.pointerBits < typeBits inst.type module.pointerBits
  | .fptrunc => fn.Converts inst (· == .f64) (· == .f32)
  | .fpext => fn.Converts inst (· == .f32) (· == .f64)
  | .fptosi | .fptoui => fn.Converts inst isFloat isInteger
  | .sitofp | .uitofp => fn.Converts inst isInteger isFloat
  | .ptrToInt => fn.Converts inst (· == .ptr) isInteger
  | .intToPtr => fn.Converts inst isInteger (· == .ptr)
  | .bitcast => fn.Converts inst isValueType isValueType ∧
    typeBits (fn.valueType inst.a) module.pointerBits = typeBits inst.type module.pointerBits
  | .select => fn.Has inst.a (· == .i1) ∧ fn.Has inst.b (· == inst.type) ∧
    fn.Has inst.c (· == inst.type) ∧ isValueType inst.type = true
  | .asm => ∃ block, module.asmBlocks[inst.a]? = some block ∧
    (∀ arg ∈ inst.args, fn.Has arg (· == .ptr)) ∧
    ∀ instruction ∈ block.instructions, ∀ operand ∈ instruction.operands,
      operand.kind = .variable → operand.argIndex < inst.args.length
  | .call => ∃ callee, module.functions[inst.a]? = some callee ∧
    ∃ calleeSig, module.signatures[callee.signature]? = some calleeSig ∧ fn.Calls inst calleeSig
  | .callIndirect => fn.Has inst.a (· == .ptr) ∧
    ∃ targetSig, module.signatures[inst.b]? = some targetSig ∧ fn.Calls inst targetSig
  | .jump => fn.JumpsTo inst.a inst.args
  | .branch => fn.Has inst.a (· == .i1) ∧ fn.JumpsTo inst.b [] ∧ fn.JumpsTo inst.c []
  | .switch => fn.Has inst.a isIntOrPtr ∧ fn.JumpsTo inst.b [] ∧ inst.args.length % 2 = 0 ∧
    ∀ target ∈ caseTargets inst.args, fn.JumpsTo target []
  | .ret => if sig.result = .void then inst.args = []
    else ∃ value, inst.args = [value] ∧ fn.Has value (· == sig.result)
  | .unreachable => True

/-! ## What the verifier leaves -/

/-- The arguments behind the parameters. -/
def restArgs (inst : Inst) (sig : Signature) : List Nat := inst.args.drop sig.params.length

/-- What the verifier does not look at. -/
def Inst.Left (module : Module) (fn : Function) (inst : Inst) : Prop :=
  match inst.op with
  | .stackAlloc => isInteger (fn.valueType inst.a) = true
  | .store => fn.valueType inst.b ≠ .void
  | .memCopy => isInteger (fn.valueType inst.c) = true
  | .memSet => fn.valueType inst.b = .i8 ∧ isInteger (fn.valueType inst.c) = true
  | .ptrAdd => isInteger (fn.valueType inst.b) = true
  | .not | .neg => isInteger inst.type = true
  | .fneg => isFloat inst.type = true
  | .icmpEq | .icmpNe | .icmpSlt | .icmpSle | .icmpSgt | .icmpSge | .icmpUlt | .icmpUle
  | .icmpUgt | .icmpUge => fn.valueType inst.a ≠ .void
  | .fcmpOeq | .fcmpOne | .fcmpOlt | .fcmpOle | .fcmpOgt | .fcmpOge => fn.valueType inst.a ≠ .ptr
  | .trunc => isInteger (fn.valueType inst.a) = true ∧ isInteger inst.type = true ∧
    typeBits inst.type 0 ≤ typeBits (fn.valueType inst.a) 0
  | .zext | .sext => isInteger (fn.valueType inst.a) = true ∧ isInteger inst.type = true ∧
    typeBits (fn.valueType inst.a) 0 ≤ typeBits inst.type 0
  | .fptrunc => fn.valueType inst.a = .f64 ∧ isFloat inst.type = true
  | .fpext => fn.valueType inst.a = .f32 ∧ isFloat inst.type = true
  | .fptosi | .fptoui => isFloat (fn.valueType inst.a) = true ∧ isInteger inst.type = true
  | .sitofp | .uitofp => isInteger (fn.valueType inst.a) = true ∧ isFloat inst.type = true
  | .ptrToInt => fn.valueType inst.a = .ptr ∧ isInteger inst.type = true
  | .intToPtr => isInteger (fn.valueType inst.a) = true ∧ inst.type = .ptr
  | .bitcast => fn.valueType inst.a ≠ .void ∧ inst.type ≠ .void ∧
    typeBits (fn.valueType inst.a) module.pointerBits = typeBits inst.type module.pointerBits
  | .select => inst.type ≠ .void
  | .call => ∀ callee, module.functions[inst.a]? = some callee →
    ∃ calleeSig, module.signatures[callee.signature]? = some calleeSig ∧
      ∀ arg ∈ restArgs inst calleeSig, fn.valueType arg ≠ .void
  | .callIndirect => ∀ targetSig, module.signatures[inst.b]? = some targetSig →
    inst.type = targetSig.result ∧
      ∀ arg ∈ restArgs inst targetSig, Verifier.valueOk fn arg = true ∧ fn.valueType arg ≠ .void
  | .switch => isIntOrPtr (fn.valueType inst.a) = true
  | _ => True

/-! ## The checks -/

namespace Verifier

variable {fn : Function} {v : Nat} {type : Ty} {loc message : String} {ok : Bool}

theorem resultMustBe_eq_nil : resultMustBe ok message = [] ↔ ok = true := by
  cases ok <;> simp [resultMustBe]

theorem checkOperand_eq_nil : checkOperand fn v loc = [] ↔ valueOk fn v = true := by
  rw [checkOperand]
  cases valueOk fn v <;> simp

theorem checkOperandType_eq_nil :
    checkOperandType fn v type loc = [] ↔ fn.Has v (· == type) := by
  rw [checkOperandType, Function.Has]
  cases valueOk fn v
  · simp
  · by_cases h : fn.valueType v = type
    · simp [h]
    · simp [h]

theorem checkArgTypes_eq_nil (i : Nat) (args params : List Nat)
    (h : params.length = args.length) :
    checkArgTypes fn loc i args params = [] ↔
      List.Forall₂ (fun arg param => fn.Has arg (· == fn.valueType param)) args params := by
  induction args generalizing i params with
  | nil =>
    obtain rfl := List.length_eq_zero_iff.1 h
    simp [checkArgTypes]
  | cons arg args ih =>
    obtain ⟨param, params, rfl⟩ := List.exists_cons_of_length_eq_add_one h
    rw [checkArgTypes, List.append_eq_nil_iff, List.forall₂_cons,
      ih (i + 1) params (Nat.succ.inj h), Function.Has]
    refine and_congr_left' ?_
    cases valueOk fn arg
    · simp
    · by_cases h : fn.valueType arg = fn.valueType param
      · simp [h]
      · simp [h]

theorem checkBlockArgs_eq_nil {target : BlockId} {args : List Nat} :
    checkBlockArgs fn target args loc = [] ↔ fn.JumpsTo target args := by
  rw [checkBlockArgs, Function.JumpsTo]
  cases fn.blocks[target]? with
  | none => simp
  | some block =>
    simp only [Option.some.injEq, exists_eq_left']
    by_cases h : block.params.length = args.length
    · rw [if_neg (by simpa using h), checkArgTypes_eq_nil 0 args block.params h]
    · rw [if_pos (by simpa using h)]
      simp only [List.cons_ne_nil, false_iff]
      exact fun hall => h hall.length_eq.symm

/-- A direct call is checked but for the types of the arguments behind the parameters. -/
theorem checkCallArgs_eq_nil (args : List Nat) (types : List Ty) :
    (checkCallArgs fn loc args types = [] ∧
      ∀ arg ∈ args.drop types.length, fn.valueType arg ≠ .void) ↔ fn.TakesArgs args types := by
  induction args generalizing types with
  | nil => simp [checkCallArgs, Function.TakesArgs]
  | cons arg args ih =>
    cases types with
    | nil =>
      rw [checkCallArgs, Function.TakesArgs, ← ih, List.append_eq_nil_iff, checkOperand_eq_nil,
        Function.Has]
      simp only [List.length_nil, List.drop_zero, List.forall_mem_cons, isValueType, bne_iff_ne]
      tauto
    | cons type types =>
      rw [checkCallArgs, Function.TakesArgs, ← ih, List.append_eq_nil_iff, checkOperandType_eq_nil,
        List.length_cons, List.drop_succ_cons, and_assoc]

/-- An indirect call is not checked behind the parameters. -/
theorem checkIndirectArgs_eq_nil (args : List Nat) (types : List Ty) :
    (checkIndirectArgs fn loc args types = [] ∧
      ∀ arg ∈ args.drop types.length, valueOk fn arg = true ∧ fn.valueType arg ≠ .void) ↔
      fn.TakesArgs args types := by
  induction args generalizing types with
  | nil => simp [checkIndirectArgs, Function.TakesArgs]
  | cons arg args ih =>
    cases types with
    | nil =>
      have hnil : ∀ args, checkIndirectArgs fn loc args [] = [] := fun args => by
        cases args <;> rfl
      have ih' := ih []
      rw [hnil] at ih'
      rw [hnil, Function.TakesArgs, ← ih', Function.Has]
      simp only [List.length_nil, List.drop_zero, List.forall_mem_cons, isValueType, bne_iff_ne,
        true_and]
    | cons type types =>
      rw [checkIndirectArgs, Function.TakesArgs, ← ih, List.append_eq_nil_iff,
        checkOperandType_eq_nil, List.length_cons, List.drop_succ_cons, and_assoc]

theorem checkAsmOperands_eq_nil {argc : Nat} {operands : List AsmOperand} :
    checkAsmOperands loc argc operands = [] ↔
      ∀ operand ∈ operands, operand.kind = .variable → operand.argIndex < argc := by
  rw [checkAsmOperands, List.map_eq_nil_iff, List.filter_eq_nil_iff]
  simp

end Verifier

/-! ## Instructions -/

section

open Verifier

variable {module : Module} {fn : Function} {sig : Signature} {inst : Inst} {loc : String}

/-- An operation on two operands of the type of its result. -/
theorem checkArith_binary (site : String) (h : isComparison inst.op = false) :
    (isIntBinary inst.op = true → (checkArith fn inst site = [] ↔ fn.Has inst.a (· == inst.type) ∧
      fn.Has inst.b (· == inst.type) ∧ isInteger inst.type = true)) ∧
    (inst.op = .fadd ∨ inst.op = .fsub ∨ inst.op = .fmul ∨ inst.op = .fdiv ∨ inst.op = .frem →
      (checkArith fn inst site = [] ↔ fn.Has inst.a (· == inst.type) ∧
        fn.Has inst.b (· == inst.type) ∧ isFloat inst.type = true)) := by
  rw [checkArith, if_neg (by simp [h])]
  constructor
  · intro hint
    rw [if_pos hint, List.append_eq_nil_iff, List.append_eq_nil_iff, checkOperandType_eq_nil,
      checkOperandType_eq_nil, resultMustBe_eq_nil, and_assoc]
  · intro hfloat
    have hint : ¬isIntBinary inst.op = true := by
      rcases hfloat with h | h | h | h | h <;> rw [h] <;> decide
    have hunary : ¬(inst.op == .not || inst.op == .neg || inst.op == .fneg) = true := by
      rcases hfloat with h | h | h | h | h <;> rw [h] <;> decide
    have hop : (inst.op == .fadd || inst.op == .fsub || inst.op == .fmul || inst.op == .fdiv ||
        inst.op == .frem) = true := by
      rcases hfloat with h | h | h | h | h <;> rw [h] <;> decide
    rw [if_neg hint, if_neg hunary, if_pos hop, List.append_eq_nil_iff, List.append_eq_nil_iff,
      checkOperandType_eq_nil, checkOperandType_eq_nil, resultMustBe_eq_nil, and_assoc]

/-- A negation has the type of its operand. -/
theorem checkArith_unary (site : String)
    (h : inst.op = .not ∨ inst.op = .neg ∨ inst.op = .fneg) :
    checkArith fn inst site = [] ↔ fn.Has inst.a (· == inst.type) := by
  have hop : isComparison inst.op = false ∧ isIntBinary inst.op = false ∧
      (inst.op == .not || inst.op == .neg || inst.op == .fneg) = true := by
    rcases h with h | h | h <;> rw [h] <;> decide
  rw [checkArith, if_neg (by simp [hop.1]), if_neg (by simp [hop.2.1]), if_pos hop.2.2,
    checkOperandType_eq_nil]

/-- A comparison is of two operands of one type, of its kind or pointers. -/
theorem checkArith_comparison (site : String) (h : isComparison inst.op = true) :
    checkArith fn inst site = [] ↔ inst.type = .i1 ∧ valueOk fn inst.a = true ∧
      valueOk fn inst.b = true ∧ fn.valueType inst.a = fn.valueType inst.b ∧
      (isFloatComparison inst.op = isFloat (fn.valueType inst.a) ∨
        fn.valueType inst.a = .ptr) := by
  rw [checkArith, if_pos h]
  simp only [List.append_eq_nil_iff, resultMustBe_eq_nil, checkOperand_eq_nil, beq_iff_eq]
  rw [and_assoc, and_assoc]
  refine and_congr_right' (and_congr_right fun ha => and_congr_right fun hb => ?_)
  rw [if_pos (by simp [ha, hb])]
  by_cases heq : fn.valueType inst.a = fn.valueType inst.b
  · rw [if_neg (by simpa using heq)]
    by_cases hkind : isFloatComparison inst.op = isFloat (fn.valueType inst.a)
    · simp [← heq, hkind]
    · by_cases hptr : fn.valueType inst.a = .ptr
      · simp [hptr, ← heq]
      · rw [if_pos (by simp [hkind, hptr])]
        simp [hkind, hptr]
  · rw [if_pos (by simpa using heq)]
    simp [heq]

/-- What is checked of a conversion. -/
theorem checkArith_conversion (site : String) (hop : isComparison inst.op = false ∧
    isIntBinary inst.op = false ∧ inst.op ≠ .not ∧ inst.op ≠ .neg ∧ inst.op ≠ .fneg ∧
    inst.op ≠ .fadd ∧ inst.op ≠ .fsub ∧ inst.op ≠ .fmul ∧ inst.op ≠ .fdiv ∧ inst.op ≠ .frem) :
    checkArith fn inst site = [] ↔ valueOk fn inst.a = true ∧
      (fn.valueType inst.a ≠ inst.type ∨ inst.op = .bitcast) := by
  obtain ⟨hcmp, hint, h₁, h₂, h₃, h₄, h₅, h₆, h₇, h₈⟩ := hop
  rw [checkArith, if_neg (by simp [hcmp]), if_neg (by simp [hint]), if_neg (by simp [h₁, h₂, h₃]),
    if_neg (by simp [h₄, h₅, h₆, h₇, h₈]), List.append_eq_nil_iff, checkOperand_eq_nil]
  refine and_congr_right fun ha => ?_
  by_cases heq : fn.valueType inst.a = inst.type
  · by_cases hbitcast : inst.op = .bitcast
    · simp [hbitcast]
    · simp [ha, heq, hbitcast]
  · simp [heq]

/-- Integer types of different widths differ, and conversely. -/
theorem typeBits_lt_iff {s t : Ty} (hs : isInteger s = true) (ht : isInteger t = true)
    (pointerBits : Nat) :
    typeBits s pointerBits < typeBits t pointerBits ↔ t ≠ s ∧ typeBits s 0 ≤ typeBits t 0 := by
  cases s <;> cases t <;> simp_all [isInteger, typeBits]

/-- A comparison of integers or pointers. -/
theorem icmp_iff {site : String} (h : isIntComparison inst.op = true)
    (hfloat : isFloatComparison inst.op = false) :
    (fn.Has inst.a isIntOrPtr ∧ fn.Has inst.b (· == fn.valueType inst.a) ∧ inst.type = .i1) ↔
      checkArith fn inst site = [] ∧ fn.valueType inst.a ≠ .void := by
  have hcmp : isComparison inst.op = true := by rw [isComparison, h]; rfl
  rw [checkArith_comparison site hcmp, hfloat, Function.Has, Function.Has]
  have hkind : isIntOrPtr (fn.valueType inst.a) = true ↔
      (false = isFloat (fn.valueType inst.a) ∨ fn.valueType inst.a = .ptr) ∧
        fn.valueType inst.a ≠ .void := by
    cases fn.valueType inst.a <;> decide
  rw [hkind, beq_iff_eq]
  tauto

/-- A comparison of floats. -/
theorem fcmp_iff {site : String} (h : isFloatComparison inst.op = true) :
    (fn.Has inst.a isFloat ∧ fn.Has inst.b (· == fn.valueType inst.a) ∧ inst.type = .i1) ↔
      checkArith fn inst site = [] ∧ fn.valueType inst.a ≠ .ptr := by
  have hcmp : isComparison inst.op = true := by rw [isComparison, h, Bool.or_true]
  rw [checkArith_comparison site hcmp, h, Function.Has, Function.Has]
  have hkind : isFloat (fn.valueType inst.a) = true ↔
      (true = isFloat (fn.valueType inst.a) ∨ fn.valueType inst.a = .ptr) ∧
        fn.valueType inst.a ≠ .ptr := by
    cases fn.valueType inst.a <;> decide
  rw [hkind, beq_iff_eq]
  tauto

/-- The types of a conversion other than a bitcast, given what is left of them. -/
theorem conversion_iff {site : String} {P Q : Prop}
    (hop : isComparison inst.op = false ∧ isIntBinary inst.op = false ∧ inst.op ≠ .not ∧
      inst.op ≠ .neg ∧ inst.op ≠ .fneg ∧ inst.op ≠ .fadd ∧ inst.op ≠ .fsub ∧ inst.op ≠ .fmul ∧
      inst.op ≠ .fdiv ∧ inst.op ≠ .frem) (hne : inst.op ≠ .bitcast)
    (hQ : Q ↔ fn.valueType inst.a ≠ inst.type ∧ P) :
    valueOk fn inst.a = true ∧ Q ↔ checkArith fn inst site = [] ∧ P := by
  rw [checkArith_conversion site hop, hQ]
  tauto

/-- An instruction is well typed exactly when it passes its check and what is left holds. -/
theorem wellTyped_iff_left :
    inst.WellTyped module fn sig ↔ checkInst module fn sig inst loc = [] ∧ inst.Left module fn := by
  rw [Inst.WellTyped, Inst.Left, checkInst.eq_def]
  cases hop : inst.op with
  | constInt => simp [resultMustBe_eq_nil]
  | constFloat => simp [resultMustBe_eq_nil]
  | constNull => simp [resultMustBe_eq_nil]
  | slotAddr => simp [resultMustBe_eq_nil]
  | globalAddr => simp [resultMustBe_eq_nil]
  | funcAddr => simp [resultMustBe_eq_nil]
  | stackAlloc =>
    simp only [List.append_eq_nil_iff, checkOperand_eq_nil, resultMustBe_eq_nil, Function.Has,
      beq_iff_eq]
    tauto
  | load =>
    simp only [List.append_eq_nil_iff, checkOperandType_eq_nil, resultMustBe_eq_nil, isValueType,
      and_true]
  | store =>
    simp only [List.append_eq_nil_iff, checkOperandType_eq_nil, checkOperand_eq_nil, Function.Has,
      isValueType, bne_iff_ne]
    tauto
  | memCopy =>
    simp only [List.append_eq_nil_iff, checkOperandType_eq_nil, checkOperand_eq_nil, Function.Has]
    tauto
  | memSet =>
    simp only [List.append_eq_nil_iff, checkOperandType_eq_nil, checkOperand_eq_nil, Function.Has,
      beq_iff_eq]
    tauto
  | ptrAddConst =>
    simp only [List.append_eq_nil_iff, checkOperandType_eq_nil, resultMustBe_eq_nil, beq_iff_eq,
      and_true]
  | ptrAdd =>
    simp only [List.append_eq_nil_iff, checkOperandType_eq_nil, checkOperand_eq_nil,
      resultMustBe_eq_nil, Function.Has, beq_iff_eq]
    tauto
  | not =>
    simp only [checkArith_unary _ (.inl hop)]
  | neg =>
    simp only [checkArith_unary _ (.inr (.inl hop))]
  | fneg =>
    simp only [checkArith_unary _ (.inr (.inr hop))]
  | select =>
    simp only [List.append_eq_nil_iff, checkOperandType_eq_nil, isValueType, bne_iff_ne, and_assoc]
  | asm =>
    cases module.asmBlocks[inst.a]? with
    | none => simp
    | some block =>
      simp only [List.append_eq_nil_iff, List.flatMap_eq_nil_iff, checkOperandType_eq_nil,
        checkAsmOperands_eq_nil, Option.some.injEq, exists_eq_left', and_true]
  | call =>
    cases module.functions[inst.a]? with
    | none => simp
    | some callee =>
      simp only [Option.some.injEq, exists_eq_left', forall_eq']
      cases module.signatures[callee.signature]? with
      | none => simp
      | some calleeSig =>
        simp only [Option.some.injEq, exists_eq_left', Function.Calls, List.append_eq_nil_iff,
          resultMustBe_eq_nil, Bool.or_eq_true, beq_iff_eq, ← @checkCallArgs_eq_nil fn
            s!"{loc}: '{opName .call}'", restArgs]
        tauto
  | callIndirect =>
    cases module.signatures[inst.b]? with
    | none => simp
    | some targetSig =>
      simp only [Option.some.injEq, exists_eq_left', forall_eq', Function.Calls,
        List.append_eq_nil_iff, resultMustBe_eq_nil, checkOperandType_eq_nil, Bool.or_eq_true,
        beq_iff_eq, ← @checkIndirectArgs_eq_nil fn s!"{loc}: '{opName .callIndirect}'", restArgs]
      tauto
  | jump =>
    simp only [checkBlockArgs_eq_nil, and_true]
  | branch =>
    simp only [List.append_eq_nil_iff, checkOperandType_eq_nil, checkBlockArgs_eq_nil, and_assoc,
      and_true]
  | switch =>
    simp only [List.append_eq_nil_iff, checkOperand_eq_nil, checkBlockArgs_eq_nil, Function.Has]
    by_cases hodd : inst.args.length % 2 = 0
    · simp only [hodd, bne_self_eq_false, Bool.false_eq_true, if_false, List.flatMap_eq_nil_iff,
        checkBlockArgs_eq_nil]
      tauto
    · have hone : inst.args.length % 2 = 1 := by omega
      simp [hone]
  | ret =>
    by_cases hvoid : sig.result = .void
    · simp [hvoid, resultMustBe_eq_nil]
    · simp only [hvoid, if_false, beq_iff_eq, and_true]
      rcases inst.args with _ | ⟨value, _ | ⟨value', args⟩⟩
      · simp
      · simp [checkOperandType_eq_nil]
      · simp
  | unreachable => simp
  | trunc =>
    simp only [Function.Converts, Function.Has, and_assoc]
    refine conversion_iff (by rw [hop]; decide) (by rw [hop]; decide) ?_
    constructor
    · rintro ⟨hs, ht, hlt⟩
      exact ⟨((typeBits_lt_iff ht hs _).1 hlt).1, hs, ht, ((typeBits_lt_iff ht hs _).1 hlt).2⟩
    · rintro ⟨hne, hs, ht, hle⟩
      exact ⟨hs, ht, (typeBits_lt_iff ht hs _).2 ⟨hne, hle⟩⟩
  | zext | sext =>
    simp only [Function.Converts, Function.Has, and_assoc]
    refine conversion_iff (by rw [hop]; decide) (by rw [hop]; decide) ?_
    constructor
    · rintro ⟨hs, ht, hlt⟩
      exact ⟨((typeBits_lt_iff hs ht _).1 hlt).1.symm, hs, ht, ((typeBits_lt_iff hs ht _).1 hlt).2⟩
    · rintro ⟨hne, hs, ht, hle⟩
      exact ⟨hs, ht, (typeBits_lt_iff hs ht _).2 ⟨hne.symm, hle⟩⟩
  | fptrunc | fpext | fptosi | fptoui | sitofp | uitofp | ptrToInt | intToPtr =>
    simp only [Function.Converts, Function.Has, and_assoc]
    refine conversion_iff (by rw [hop]; decide) (by rw [hop]; decide) ?_
    cases fn.valueType inst.a <;> cases inst.type <;> decide
  | bitcast =>
    simp only [Function.Converts, Function.Has, isValueType, bne_iff_ne]
    rw [checkArith_conversion _ (by rw [hop]; decide), hop]
    tauto
  | icmpEq | icmpNe | icmpSlt | icmpSle | icmpSgt | icmpSge | icmpUlt | icmpUle | icmpUgt
  | icmpUge => exact icmp_iff (by rw [hop]; rfl) (by rw [hop]; rfl)
  | fcmpOeq | fcmpOne | fcmpOlt | fcmpOle | fcmpOgt | fcmpOge =>
    exact fcmp_iff (by rw [hop]; rfl)
  | add | sub | mul | sdiv | udiv | srem | urem | and | or | xor | shl | lshr | ashr =>
    simp only [and_true]
    exact ((checkArith_binary _ (by rw [hop]; rfl)).1 (by rw [hop]; rfl)).symm
  | fadd | fsub | fmul | fdiv | frem =>
    simp only [and_true]
    exact ((checkArith_binary _ (by rw [hop]; rfl)).2 (by rw [hop]; decide)).symm

end

/-! ## Modules -/

/-- Every instruction of the module, in its function with a signature. -/
def Module.Every (module : Module) (P : Function → Signature → Inst → Prop) : Prop :=
  ∀ fn ∈ module.functions, ∀ sig, module.signatures[fn.signature]? = some sig →
    ∀ block ∈ fn.blocks, ∀ inst ∈ block.insts, P fn sig inst

/-- Every instruction is well typed. -/
def Module.Typed (module : Module) : Prop := module.Every fun fn sig => Inst.WellTyped module fn sig

/-- What the verifier does not look at holds of every instruction. -/
def Module.Left (module : Module) : Prop := module.Every fun fn _ => Inst.Left module fn

/-- A function that complements a float, and calls through a pointer with a type that is not
    the one of the signature. -/
def complementFloat : Module where
  functions := [{
    hasBody := true
    values := [{ type := .f64 }, { type := .f64 }, { type := .ptr }, { type := .f64 }]
    blocks := [{ insts := [{ op := .constFloat, type := .f64, result := 0 },
      { op := .not, type := .f64, result := 1, a := 0 },
      { op := .constNull, type := .ptr, result := 2 },
      { op := .callIndirect, type := .f64, result := 3, a := 2, b := 0 },
      { op := .ret }] }] }]
  signatures := [{}]

/-- A function that complements an integer. -/
def complementInt : Module where
  functions := [{
    hasBody := true
    values := [{ type := .i8 }, { type := .i8 }]
    blocks := [{ insts := [{ op := .constInt, type := .i8, result := 0 },
      { op := .not, type := .i8, result := 1, a := 0 }, { op := .ret }] }] }]
  signatures := [{}]

end Mirage
