import Mirage.Mir.Basic

/-!
# The MIR verifier

`verify` is the analogue of `llvm::verifyModule`: it walks every function and
reports, as messages naming the function and the block, blocks that do not end
in exactly one terminator, operands that are not values of the function or have
the wrong type, branch targets out of range, and jumps whose arguments do not
match the parameters of their target. A module is accepted when the list is
empty (`Module.Accepted`).

The checks of one instruction are `checkInst`; the lemmas at the end read off
what acceptance gives for an instruction of an accepted function.
-/

namespace Mirage

/-- A structural problem: the index of the function, and a readable message. -/
structure VerifyError where
  function : Nat
  message : String
  deriving DecidableEq

namespace Verifier

/-- The value is a value of the function. -/
def valueOk (fn : Function) (value : Nat) : Bool := value != noValue && value < fn.values.length

def notDefined (loc : String) (value : Nat) : String :=
  s!"{loc}: operand {value} is not a value defined in this function"

def checkOperand (fn : Function) (value : Nat) (loc : String) : List String :=
  if !valueOk fn value then [notDefined loc value] else []

def checkOperandType (fn : Function) (value : Nat) (expected : Ty) (loc : String) : List String :=
  if !valueOk fn value then [notDefined loc value]
  else if fn.valueType value != expected then
    [s!"{loc}: operand has type '{typeName (fn.valueType value)}', expected '{typeName expected}'"]
  else []

/-- The types of the arguments of a jump against the parameters of its target. -/
def checkArgTypes (fn : Function) (loc : String) :
    Nat → List Nat → List ValueId → List String
  | i, arg :: args, param :: params =>
    (if !valueOk fn arg then
      [s!"{loc}: block argument {i} is not a value defined in this function"]
    else if fn.valueType arg != fn.valueType param then
      [s!"{loc}: block argument {i} has type '{typeName (fn.valueType arg)}' but parameter is '{typeName (fn.valueType param)}'"]
    else []) ++ checkArgTypes fn loc (i + 1) args params
  | _, _, _ => []

def checkBlockArgs (fn : Function) (target : BlockId) (args : List Nat) (loc : String) :
    List String :=
  match fn.blocks[target]? with
  | none => [s!"{loc}: branch target {target} is out of range"]
  | some block =>
    if block.params.length != args.length then
      [s!"{loc}: target block '{block.label}' takes {block.params.length} parameter(s) but {args.length} argument(s) were passed"]
    else checkArgTypes fn loc 0 args block.params

/-- The arguments of a call: typed by the parameters, the variadic tail only
    checked to be values. -/
def checkCallArgs (fn : Function) (loc : String) : List Nat → List Ty → List String
  | arg :: args, ty :: types => checkOperandType fn arg ty loc ++ checkCallArgs fn loc args types
  | arg :: args, [] => checkOperand fn arg loc ++ checkCallArgs fn loc args []
  | [], _ => []

/-- The arguments of an indirect call: the variadic tail is not checked. -/
def checkIndirectArgs (fn : Function) (loc : String) : List Nat → List Ty → List String
  | arg :: args, ty :: types =>
    checkOperandType fn arg ty loc ++ checkIndirectArgs fn loc args types
  | _, _ => []

/-- The asm operands that refer to an argument the instruction does not have. -/
def checkAsmOperands (loc : String) (argc : Nat) (operands : List AsmOperand) : List String :=
  (operands.filter fun operand => operand.kind == .variable && operand.argIndex ≥ argc).map
    fun operand => s!"{loc}: asm operand references argument {operand.argIndex} of {argc}"

def resultMustBe (ok : Bool) (message : String) : List String := if ok then [] else [message]

/-- Comparison, arithmetic and conversion: the default case of the verifier. -/
def checkArith (fn : Function) (inst : Inst) (site : String) : List String :=
  if isComparison inst.op then
    resultMustBe (inst.type == .i1) s!"{site}: a comparison must produce 'i1'" ++
    checkOperand fn inst.a site ++ checkOperand fn inst.b site ++
    (if valueOk fn inst.a && valueOk fn inst.b then
      if fn.valueType inst.a != fn.valueType inst.b then
        [s!"{site}: operands have different types ('{typeName (fn.valueType inst.a)}' and '{typeName (fn.valueType inst.b)}')"]
      else if isFloatComparison inst.op != isFloat (fn.valueType inst.a) &&
          fn.valueType inst.a != .ptr then
        [s!"{site}: operand type '{typeName (fn.valueType inst.a)}' does not match the comparison kind"]
      else []
    else [])
  else if isIntBinary inst.op then
    checkOperandType fn inst.a inst.type site ++ checkOperandType fn inst.b inst.type site ++
    resultMustBe (isInteger inst.type) s!"{site}: integer operation on '{typeName inst.type}'"
  else if inst.op == .not || inst.op == .neg || inst.op == .fneg then
    checkOperandType fn inst.a inst.type site
  else if inst.op == .fadd || inst.op == .fsub || inst.op == .fmul || inst.op == .fdiv ||
      inst.op == .frem then
    checkOperandType fn inst.a inst.type site ++ checkOperandType fn inst.b inst.type site ++
    resultMustBe (isFloat inst.type) s!"{site}: float operation on '{typeName inst.type}'"
  else
    checkOperand fn inst.a site ++
    (if valueOk fn inst.a && fn.valueType inst.a == inst.type && inst.op != .bitcast then
      [s!"{site}: converts '{typeName inst.type}' to itself"]
    else [])

def checkInst (module : Module) (fn : Function) (sig : Signature) (inst : Inst) (loc : String) :
    List String :=
  let site := s!"{loc}: '{opName inst.op}'"
  match inst.op with
  | .constInt => resultMustBe (isInteger inst.type) s!"{site}: result must be an integer type"
  | .constFloat => resultMustBe (isFloat inst.type) s!"{site}: result must be a float type"
  | .constNull => resultMustBe (inst.type == .ptr) s!"{site}: result must be 'ptr'"
  | .slotAddr =>
    resultMustBe (inst.type == .ptr) s!"{site}: result must be 'ptr'" ++
    resultMustBe (inst.a < fn.slots.length) s!"{site}: slot {inst.a} does not exist"
  | .globalAddr =>
    resultMustBe (inst.type == .ptr) s!"{site}: result must be 'ptr'" ++
    resultMustBe (inst.a < module.globals) s!"{site}: global {inst.a} does not exist"
  | .funcAddr =>
    resultMustBe (inst.type == .ptr) s!"{site}: result must be 'ptr'" ++
    resultMustBe (inst.a < module.functions.length) s!"{site}: function {inst.a} does not exist"
  | .load =>
    checkOperandType fn inst.a .ptr site ++
    resultMustBe (inst.type != .void) s!"{site}: cannot load a void value"
  | .store => checkOperandType fn inst.a .ptr site ++ checkOperand fn inst.b site
  | .memCopy =>
    checkOperandType fn inst.a .ptr site ++ checkOperandType fn inst.b .ptr site ++
    checkOperand fn inst.c site
  | .memSet =>
    checkOperandType fn inst.a .ptr site ++ checkOperand fn inst.b site ++
    checkOperand fn inst.c site
  | .ptrAddConst =>
    checkOperandType fn inst.a .ptr site ++
    resultMustBe (inst.type == .ptr) s!"{site}: result must be 'ptr'"
  | .ptrAdd =>
    checkOperandType fn inst.a .ptr site ++ checkOperand fn inst.b site ++
    resultMustBe (inst.type == .ptr) s!"{site}: result must be 'ptr'"
  | .stackAlloc =>
    checkOperand fn inst.a site ++
    resultMustBe (inst.type == .ptr) s!"{site}: result must be 'ptr'"
  | .asm =>
    match module.asmBlocks[inst.a]? with
    | none => [s!"{site}: asm block {inst.a} does not exist"]
    | some block =>
      inst.args.flatMap (fun arg => checkOperandType fn arg .ptr site) ++
      block.instructions.flatMap fun instruction =>
        checkAsmOperands site inst.args.length instruction.operands
  | .select =>
    checkOperandType fn inst.a .i1 site ++ checkOperandType fn inst.b inst.type site ++
    checkOperandType fn inst.c inst.type site
  | .call =>
    match module.functions[inst.a]? with
    | none => [s!"{site}: callee {inst.a} does not exist"]
    | some callee =>
      match module.signatures[callee.signature]? with
      | none => []
      | some calleeSig =>
        resultMustBe (calleeSig.isVariadic || inst.args.length == calleeSig.params.length)
          s!"{site}: '{callee.name}' takes {calleeSig.params.length} argument(s), {inst.args.length} passed" ++
        checkCallArgs fn site inst.args calleeSig.params ++
        resultMustBe (inst.type == calleeSig.result)
          s!"{site}: '{callee.name}' returns '{typeName calleeSig.result}' but the call is typed '{typeName inst.type}'"
  | .callIndirect =>
    checkOperandType fn inst.a .ptr site ++
    match module.signatures[inst.b]? with
    | none => [s!"{site}: signature {inst.b} does not exist"]
    | some targetSig =>
      resultMustBe (targetSig.isVariadic || inst.args.length == targetSig.params.length)
        s!"{site}: signature takes {targetSig.params.length} argument(s), {inst.args.length} passed" ++
      checkIndirectArgs fn site inst.args targetSig.params
  | .jump => checkBlockArgs fn inst.a inst.args site
  | .branch =>
    checkOperandType fn inst.a .i1 site ++ checkBlockArgs fn inst.b [] site ++
    checkBlockArgs fn inst.c [] site
  | .switch =>
    checkOperand fn inst.a site ++ checkBlockArgs fn inst.b [] site ++
    (if inst.args.length % 2 != 0 then [s!"{site}: case list is not (value, block) pairs"]
    else (caseTargets inst.args).flatMap fun target => checkBlockArgs fn target [] site)
  | .ret =>
    if sig.result == .void then
      resultMustBe inst.args.isEmpty s!"{site}: function returns void but a value was returned"
    else match inst.args with
      | [value] => checkOperandType fn value sig.result site
      | args => [s!"{site}: function returns '{typeName sig.result}' but {args.length} value(s) were returned"]
  | .unreachable => []
  | _ => checkArith fn inst site

/-- Terminators before the last instruction: the emitter kept writing into a
    closed block. -/
def checkInner (loc : String) : Nat → List Inst → List String
  | ii, inst :: next :: rest =>
    (if isTerminator inst.op then
      [s!"{loc}: '{opName inst.op}' at instruction {ii} terminates the block but is not last"]
    else []) ++ checkInner loc (ii + 1) (next :: rest)
  | _, _ => []

def checkBlock (module : Module) (fn : Function) (sig : Signature) (bi : Nat) (block : Block) :
    List String :=
  let label := if block.label.isEmpty then s!"block{bi}" else block.label
  let loc := s!"{fn.name}:{label}"
  match block.insts.getLast? with
  | none => [s!"{loc}: block has no instructions (every block must end in a terminator)"]
  | some last =>
    checkInner loc 0 block.insts ++
    (if !isTerminator last.op then
      [s!"{loc}: block does not end in a terminator (ends in '{opName last.op}')"] else []) ++
    block.insts.flatMap fun inst => checkInst module fn sig inst loc

def checkFunction (module : Module) (fn : Function) : List String :=
  if !fn.hasBody then
    if !fn.blocks.isEmpty then [s!"function '{fn.name}' is a declaration but has blocks"] else []
  else if fn.blocks.isEmpty then [s!"function '{fn.name}' has a body but no blocks"]
  else match module.signatures[fn.signature]? with
    | none => [s!"function '{fn.name}' references signature {fn.signature}, which does not exist"]
    | some sig => fn.blocks.zipIdx.flatMap fun (block, bi) => checkBlock module fn sig bi block

end Verifier

/-- The problems of a module, in order; none when it is well formed. -/
def verify (module : Module) : List VerifyError :=
  module.functions.zipIdx.flatMap fun (fn, i) =>
    (Verifier.checkFunction module fn).map fun message => ⟨i, message⟩

/-- The verifier finds nothing in the module. -/
def Module.Accepted (module : Module) : Prop := verify module = []

/-- The verifier finds nothing in the function. -/
def Function.Accepted (module : Module) (fn : Function) : Prop :=
  Verifier.checkFunction module fn = []

instance (module : Module) : Decidable module.Accepted := inferInstanceAs (Decidable (_ = _))

instance (module : Module) (fn : Function) : Decidable (fn.Accepted module) :=
  inferInstanceAs (Decidable (_ = _))

/-! ## What acceptance gives -/

theorem Module.Accepted.function {module : Module} (h : module.Accepted) {fn : Function}
    (hfn : fn ∈ module.functions) : fn.Accepted module := by
  obtain ⟨i, hi, rfl⟩ := List.mem_iff_getElem.1 hfn
  have := List.flatMap_eq_nil_iff.1 h (module.functions[i], i)
    (List.mem_zipIdx_iff_getElem?.2 (List.getElem?_eq_getElem hi))
  exact List.map_eq_nil_iff.1 this

namespace Function.Accepted

open Verifier

variable {module : Module} {fn : Function}

/-- Every block of an accepted body is checked, against the signature. -/
theorem checkBlock_eq_nil (h : fn.Accepted module) {bi : Nat} {block : Block}
    (hb : fn.blocks[bi]? = some block) :
    ∃ sig, module.signatures[fn.signature]? = some sig ∧
      checkBlock module fn sig bi block = [] := by
  have hne : fn.blocks.isEmpty = false := by
    cases hbl : fn.blocks <;> simp_all
  simp only [Function.Accepted, checkFunction, hne, Bool.false_eq_true, if_false, Bool.not_false,
    if_true] at h
  split at h
  · simp at h
  split at h
  · simp at h
  · rename_i sig hsig
    exact ⟨sig, hsig, List.flatMap_eq_nil_iff.1 h (block, bi)
      (List.mem_zipIdx_iff_getElem?.2 hb)⟩

/-- A block of an accepted body ends in a terminator, its only one. -/
theorem exists_terminator (h : fn.Accepted module) {bi : Nat} {block : Block}
    (hb : fn.blocks[bi]? = some block) :
    ∃ init last, block.insts = init ++ [last] ∧ isTerminator last.op ∧
      ∀ inst ∈ init, ¬ isTerminator inst.op := by
  obtain ⟨sig, -, hc⟩ := h.checkBlock_eq_nil hb
  simp only [checkBlock] at hc
  split at hc
  · simp at hc
  · rename_i last hlast
    obtain ⟨init, hinit⟩ := List.getLast?_eq_some_iff.1 hlast
    simp only [List.append_eq_nil_iff] at hc
    obtain ⟨⟨hinner, hterm⟩, -⟩ := hc
    refine ⟨init, last, hinit, by simpa using hterm, ?_⟩
    rw [hinit] at hinner
    clear hinit hlast hterm hb
    -- by induction on the instructions before the last one
    generalize 0 = ii at hinner
    induction init generalizing ii with
    | nil => simp
    | cons inst rest ih =>
      intro i hi
      have hsplit : ∃ next tail, rest ++ [last] = next :: tail := by
        cases rest <;> simp
      obtain ⟨next, tail, hnt⟩ := hsplit
      rw [List.cons_append, hnt, checkInner] at hinner
      obtain ⟨hhead, htail⟩ := List.append_eq_nil_iff.1 hinner
      rw [← hnt] at htail
      rcases List.mem_cons.1 hi with rfl | hi
      · intro ht; simp [ht] at hhead
      · exact ih _ htail i hi

/-- Every instruction of an accepted body passes its check. -/
theorem checkInst_eq_nil (h : fn.Accepted module) {bi : Nat} {block : Block}
    (hb : fn.blocks[bi]? = some block) {inst : Inst} (hi : inst ∈ block.insts) :
    ∃ sig loc, module.signatures[fn.signature]? = some sig ∧
      checkInst module fn sig inst loc = [] := by
  obtain ⟨sig, hsig, hc⟩ := h.checkBlock_eq_nil hb
  simp only [checkBlock] at hc
  split at hc
  · simp at hc
  · simp only [List.append_eq_nil_iff, List.flatMap_eq_nil_iff] at hc
    exact ⟨sig, _, hsig, hc.2 inst hi⟩

end Function.Accepted

end Mirage
