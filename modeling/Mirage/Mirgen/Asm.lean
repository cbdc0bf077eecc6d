import Mirage.Lang.AsmCheck
import Mirage.Lib.Blob
import Mirage.Mir.Basic
import Mathlib.Tactic.IntervalCases

/-!
# Lowering inline assembly

An asm block becomes the carrier the backend reads (`emitAsm`). Registers and immediates are
copied. A variable is passed as the address of its slot: the block refers to it by the index of
an argument, and the slots of the arguments are collected on the way. A name that is not a
local variable has to be a constant of the module, whose bytes become an immediate
(`namedConstantImmediate`).

* `namedConstantImmediate_eq`: the immediate is the bytes read as a *signed* number, whatever
  the type of the constant is;
* `emitOperands_grows`, `emitInstructions_grows`: arguments are only added at the end.
-/

namespace Mirage.Asm

/-! ## Constants -/

/-- The bytes as a signed little-endian number. -/
def signedBytes (bytes : List (BitVec 8)) : Int := (bytesValue bytes : Int).bmod (2 ^ (8 * bytes.length))

/-- The folded value of a constant, sign-extended at the stored width. -/
def namedConstantImmediate (scope : Scope) (name : String) : Option (BitVec 64) :=
  match scope.globals.lookup name with
  | none => none
  | some g =>
    if !g.isConstant || g.init.isEmpty || decide (8 < g.init.length) || g.hasRelocations then none
    else
      let value := BitVec.ofNat 64 (bytesValue g.init)
      let bits := g.init.length * 8
      some (if bits < 64 ∧ (value >>> (bits - 1)) &&& 1 ≠ 0 then
        value ||| (BitVec.allOnes 64 <<< bits) else value)

/-- Filling the upper bits with ones when the top one is set extends the sign. -/
theorem signExtend_eq_or {n : Nat} (x : BitVec n) :
    x.signExtend 64 = if x.msb then x.setWidth 64 ||| (BitVec.allOnes 64 <<< n) else x.setWidth 64 := by
  split
  next h =>
    ext i hi
    simp only [BitVec.getElem_signExtend, h, BitVec.getElem_or, BitVec.getElem_setWidth,
      BitVec.getElem_shiftLeft, BitVec.getElem_allOnes]
    by_cases hn : i < n <;> simp [hn]
  next h => exact BitVec.signExtend_eq_setWidth_of_msb_false (by simpa using h)

theorem and_one_ne_zero_iff (x : BitVec 64) (k : Nat) : (x >>> k) &&& 1 ≠ 0 ↔ x.getLsbD k = true := by
  have hone : (x >>> k) &&& 1#64 = (BitVec.ofBool (x.getLsbD k)).setWidth 64 := by
    rw [BitVec.and_one_eq_setWidth_ofBool_getLsbD, BitVec.getLsbD_ushiftRight, Nat.add_zero]
  show (x >>> k) &&& 1#64 ≠ 0 ↔ _
  rw [hone]
  cases x.getLsbD k <;> simp

/-- The immediate of a constant is its bytes read as a signed number. -/
theorem namedConstantImmediate_eq {scope : Scope} {name : String} {imm : BitVec 64}
    (h : namedConstantImmediate scope name = some imm) :
    ∃ g, scope.globals.lookup name = some g ∧ g.isConstant = true ∧ g.init ≠ [] ∧
      g.hasRelocations = false ∧ imm = BitVec.ofInt 64 (signedBytes g.init) := by
  rw [namedConstantImmediate] at h
  split at h
  · cases h
  next g hg =>
    split at h
    · cases h
    next hok =>
      simp only [Bool.or_eq_true, Bool.not_eq_true', decide_eq_true_eq, not_or,
        Bool.not_eq_false, Nat.not_lt, List.isEmpty_iff, Bool.not_eq_true] at hok
      obtain ⟨⟨⟨hconst, hne⟩, hlen⟩, hrel⟩ := hok
      refine ⟨g, hg, hconst, hne, hrel, ?_⟩
      cases h
      generalize hn : g.init.length * 8 = n
      have hpos : 0 < g.init.length := List.length_pos_iff.2 hne
      have hlt : bytesValue g.init < 2 ^ n := hn ▸ Nat.mul_comm 8 _ ▸ bytesValue_lt g.init
      -- the bytes at their own width
      let x := BitVec.ofNat n (bytesValue g.init)
      have hx : x.toNat = bytesValue g.init := by
        rw [BitVec.toNat_ofNat, Nat.mod_eq_of_lt hlt]
      have hwide : BitVec.ofNat 64 (bytesValue g.init) = x.setWidth 64 := by
        refine BitVec.eq_of_toNat_eq ?_
        rw [BitVec.toNat_setWidth, hx, BitVec.toNat_ofNat]
      have hsigned : BitVec.ofInt 64 (signedBytes g.init) = x.signExtend 64 := by
        rw [BitVec.signExtend, BitVec.toInt_eq_toNat_bmod, hx, signedBytes, Nat.mul_comm 8, hn]
      have hmsb : x.msb = (x.setWidth 64).getLsbD (n - 1) := by
        rw [BitVec.msb_eq_getLsbD_last, BitVec.getLsbD_setWidth]
        have : n - 1 < 64 := by omega
        simp [this]
      rw [hwide, hsigned, signExtend_eq_or, hmsb]
      by_cases h64 : n < 64
      · simp only [h64, true_and, and_one_ne_zero_iff]
      · obtain rfl : n = 64 := by omega
        simp

/-! ## Instructions -/

/-- An operand of the carrier, and the slots of the arguments so far. -/
def emitOperand (scope : Scope) (slots : List Nat) : Operand → Option (AsmOperand × List Nat)
  | .register reg =>
    some ({ kind := .register, reg := reg.info.name, widthBits := reg.info.widthBits }, slots)
  | .immediate value => some ({ kind := .immediate, imm := value }, slots)
  | .variable name _ =>
    match scope.locals.lookup name with
    | some l =>
      some ({ kind := .variable, widthBits := max 8 (sizeOf l.type * 8), argIndex := slots.length },
        slots ++ [l.slot])
    | none => (namedConstantImmediate scope name).map fun imm => ({ kind := .immediate, imm }, slots)

def emitOperands (scope : Scope) :
    List Nat → List Operand → Option (List AsmOperand × List Nat)
  | slots, [] => some ([], slots)
  | slots, operand :: operands => do
    let (out, slots) ← emitOperand scope slots operand
    let (outs, slots) ← emitOperands scope slots operands
    return (out :: outs, slots)

def emitInstructions (scope : Scope) :
    List Nat → List Instruction → Option (List AsmInstruction × List Nat)
  | slots, [] => some ([], slots)
  | slots, instruction :: instructions => do
    let (operands, slots) ← emitOperands scope slots instruction.operands
    let (outs, slots) ← emitInstructions scope slots instructions
    return ({ mnemonic := instruction.mnemonic, operands, line := instruction.line } :: outs, slots)

/-- The carrier of a block and the slots of its arguments, unless an operand is not lowered. -/
def emitAsm (scope : Scope) (block : Block) (families : List String) :
    Option (AsmBlock × List Nat) := do
  let (instructions, slots) ← emitInstructions scope [] block.instructions
  return ({ instructions, clobberedFamilies := families,
            resultRegister := (block.result.map (·.info.name)).getD "" }, slots)

/-! ## Arguments -/

theorem emitOperand_grows {scope : Scope} {slots slots' : List Nat} {operand : Operand}
    {out : AsmOperand} (h : emitOperand scope slots operand = some (out, slots')) :
    slots <+: slots' := by
  cases operand with
  | register reg => cases h; exact List.prefix_rfl
  | immediate value => cases h; exact List.prefix_rfl
  | «variable» name isAddress =>
    rw [emitOperand] at h
    split at h
    · cases h
      exact List.prefix_append slots _
    · obtain ⟨imm, -, h⟩ := Option.map_eq_some_iff.1 h
      cases h
      exact List.prefix_rfl

/-- The operands of an instruction, one by one. -/
theorem emitOperands_cons {scope : Scope} {slots slots'' : List Nat} {operand : Operand}
    {operands : List Operand} {all : List AsmOperand}
    (h : emitOperands scope slots (operand :: operands) = some (all, slots'')) :
    ∃ out outs slots', emitOperand scope slots operand = some (out, slots') ∧
      emitOperands scope slots' operands = some (outs, slots'') ∧ all = out :: outs := by
  simp only [emitOperands, Option.bind_eq_bind, Option.bind_eq_some_iff, Option.pure_def,
    Option.some.injEq, Prod.exists, Prod.mk.injEq] at h
  obtain ⟨out, slots', h1, outs, slots2, h2, rfl, rfl⟩ := h
  exact ⟨out, outs, slots', h1, h2, rfl⟩

theorem emitOperands_grows {scope : Scope} {slots slots' : List Nat} {operands : List Operand}
    {outs : List AsmOperand} (h : emitOperands scope slots operands = some (outs, slots')) :
    slots <+: slots' := by
  induction operands generalizing slots outs with
  | nil => cases h; exact List.prefix_rfl
  | cons operand operands ih =>
    obtain ⟨out, outs, slots1, h1, h2, rfl⟩ := emitOperands_cons h
    exact (emitOperand_grows h1).trans (ih h2)

/-- The instructions of a block, one by one. -/
theorem emitInstructions_cons {scope : Scope} {slots slots'' : List Nat} {instruction : Instruction}
    {instructions : List Instruction} {all : List AsmInstruction}
    (h : emitInstructions scope slots (instruction :: instructions) = some (all, slots'')) :
    ∃ operands outs slots', emitOperands scope slots instruction.operands = some (operands, slots') ∧
      emitInstructions scope slots' instructions = some (outs, slots'') ∧
      all = { mnemonic := instruction.mnemonic, operands, line := instruction.line } :: outs := by
  simp only [emitInstructions, Option.bind_eq_bind, Option.bind_eq_some_iff, Option.pure_def,
    Option.some.injEq, Prod.exists, Prod.mk.injEq] at h
  obtain ⟨operands, slots', h1, outs, slots2, h2, rfl, rfl⟩ := h
  exact ⟨operands, outs, slots', h1, h2, rfl⟩

theorem emitInstructions_grows {scope : Scope} {slots slots' : List Nat}
    {instructions : List Instruction} {outs : List AsmInstruction}
    (h : emitInstructions scope slots instructions = some (outs, slots')) : slots <+: slots' := by
  induction instructions generalizing slots outs with
  | nil => cases h; exact List.prefix_rfl
  | cons instruction instructions ih =>
    obtain ⟨operands, outs, slots1, h1, h2, rfl⟩ := emitInstructions_cons h
    exact (emitOperands_grows h1).trans (ih h2)

end Mirage.Asm
