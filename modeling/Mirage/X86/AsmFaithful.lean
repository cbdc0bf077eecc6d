import Mirage.X86.AsmCarried
import Mirage.Mirgen.Asm

/-!
# Inline assembly through the compiler

An asm block goes through the checker, the lowering and the encoder (`compile`). It is carried
through faithfully (`Faithful`) when each of its instructions is rendered by one machine
instruction, with the registers it names and the variables at their slots, and every general
register the machine instructions write is in a family that is listed as clobbered.

`asm_faithful_iff` says exactly when that is so (`Sound`): every instruction has a form that is
`Carried`; a block with `push`, `pop` or `ret`, which write the stack pointer, names a register
of its family as a destination; and a block with `cpuid` names all four registers it writes.
The tables of the checker and of the encoder agree on everything else. `cpuid` is in no table of
the checker, which only warns about it: `cpuid_not_faithful`.
-/

namespace Mirage.X86

open Asm (Scope Operand Instruction RegisterOperand)

/-! ## Operands of the source -/

/-- The declared value of a constant: its bytes, read as its type says. -/
def declaredValue (g : Asm.Global) : Int :=
  if Asm.isSigned g.type then Asm.signedBytes g.init else bytesValue g.init

/-- The bytes of the global of a name, read as a signed number. -/
def storedValue (scope : Scope) (name : String) : Int :=
  match scope.globals.lookup name with
  | some g => Asm.signedBytes g.init
  | none => 0

/-- What an operand stands for: a register, a variable at its place in the frame, or a
    number. -/
def place (scope : Scope) (frame : Nat → Int) : Operand → Option Place
  | .register reg =>
    match familyReg reg.info.family with
    | some (.gpr r) => some (.reg r (widthFromBits reg.info.widthBits))
    | _ => none
  | .immediate value => some (.imm value.toInt value.toInt)
  | .variable name _ =>
    match scope.locals.lookup name with
    | some l => some (.mem (frame l.slot) (widthFromBits (Asm.scalarBitWidth l.type)))
    | none =>
      match scope.valueArgs.lookup name with
      | some a => some (.imm a.value (storedValue scope name))
      | none => (scope.globals.lookup name).map fun g => .imm (declaredValue g) (storedValue scope name)

/-! ## The compiler -/

/-- The machine code of an asm block and the families listed as clobbered, unless the checker,
    the lowering or the encoder reports an error. -/
def compile (scope : Scope) (frame : Nat → Int) (block : Asm.Block) :
    Option (List Instr × List String) :=
  let (errors, families) := Asm.checkAsm scope block
  if errors ≠ [] then none
  else
    match Asm.emitAsm scope block families with
    | none => none
    | some (asm, slots) =>
      let (code, errors, _) := emitAsmCode (fun k => slots[k]?.map frame) asm.instructions
      if errors ≠ [] then none else some (code, asm.clobberedFamilies)

/-- The general registers an instruction of an asm block writes, with the stack pointer that
    `ret` moves. -/
def asmWrites : Instr → List Reg
  | .ret => [.rsp]
  | i => i.writes

/-- The block is carried through faithfully. -/
structure Faithful (scope : Scope) (frame : Nat → Int) (block : Asm.Block) (code : List Instr)
    (families : List String) : Prop where
  renders : List.Forall₂ (fun (instruction : Instruction) i =>
    ∃ places, instruction.operands.mapM (place scope frame) = some places ∧
      Renders instruction.mnemonic places i) block.instructions code
  clobbers : ∀ i ∈ code, ∀ r ∈ asmWrites i, ∃ family ∈ families, familyReg family = some (.gpr r)

/-! ## The condition -/

/-- A register of the family is the destination of an instruction of the block, or its
    result. -/
def NamesFamily (block : Asm.Block) (family : String) : Prop :=
  (∃ instruction ∈ block.instructions, instruction.mnemonic ∉ ["cmp", "test", "push"] ∧
    ∃ reg, instruction.operands.head? = some (Operand.register reg) ∧ reg.info.family = family) ∨
  ∃ reg, block.result = some reg ∧ reg.info.family = family

/-- The condition under which a block is carried through faithfully. -/
structure Sound (scope : Scope) (frame : Nat → Int) (block : Asm.Block) : Prop where
  carried : ∀ instruction ∈ block.instructions, ∃ places,
    instruction.operands.mapM (place scope frame) = some places ∧
      Carried instruction.mnemonic places
  stack : ∀ instruction ∈ block.instructions, instruction.mnemonic ∈ ["push", "pop", "ret"] →
    NamesFamily block "rsp"
  cpuid : ∀ instruction ∈ block.instructions, instruction.mnemonic = "cpuid" →
    ∀ family ∈ ["rax", "rbx", "rcx", "rdx"], NamesFamily block family ∨
      family ∈ ["rax", "rcx"] ∧ ∃ other ∈ block.instructions, other.mnemonic = "syscall"

/-! ## Operands through the compiler -/

/-- A register of the table has the same encoding by its name and by its family. -/
theorem regByName_eq : ∀ info ∈ Asm.registers,
    (regByName info.name).isSome ∧ familyReg info.family = (regByName info.name).map .gpr := by
  decide +kernel

theorem max_sizeOf {type : Identity.ResolvedType} (h : Asm.isScalar type = true) :
    max 8 (Asm.sizeOf type * 8) = Asm.scalarBitWidth type := by
  cases type with
  | scalar kind => cases kind <;> first | rfl | cases h
  | pointer _ => rfl
  | _ => cases h

/-- An operand that is lowered stands for a place, which the encoder sees. -/
theorem asmArg_emitOperand {scope : Scope} (frame : Nat → Int) {slots slots' all : List Nat}
    {operand : Operand} {out : AsmOperand} (hcheck : Asm.variableErrors scope operand = [])
    (h : Asm.emitOperand scope slots operand = some (out, slots')) (hall : slots' <+: all) :
    ∃ p, place scope frame operand = some p ∧
      asmArg (fun k => all[k]?.map frame) out = .ok p.arg := by
  cases operand with
  | register reg =>
    cases h
    obtain ⟨hsome, hfamily⟩ := regByName_eq _ (List.mem_of_find?_eq_some reg.lexed)
    obtain ⟨r, hr⟩ := Option.isSome_iff_exists.1 hsome
    rw [hr] at hfamily
    refine ⟨.reg r (widthFromBits reg.info.widthBits), ?_, ?_⟩
    · simp [place, hfamily]
    · simp [asmArg, hr, Place.arg]
  | immediate value =>
    cases h
    exact ⟨_, rfl, by simp [asmArg, Place.arg]⟩
  | «variable» name isAddress =>
    rw [Asm.emitOperand] at h
    cases hl : scope.locals.lookup name with
    | some l =>
      rw [hl] at h
      cases h
      have hscalar : Asm.isScalar l.type = true := by
        by_contra hnot
        simp [Asm.variableErrors, Scope.find, hl, hnot] at hcheck
      have hslot : all[slots.length]? = some l.slot := by
        obtain ⟨rest, rfl⟩ := hall
        simp
      refine ⟨.mem (frame l.slot) (widthFromBits (Asm.scalarBitWidth l.type)), ?_, ?_⟩
      · simp [place, hl]
      · simp [asmArg, hslot, max_sizeOf hscalar, Place.arg]
    | none =>
      rw [hl] at h
      obtain ⟨imm, himm, h⟩ := Option.map_eq_some_iff.1 h
      cases h
      obtain ⟨g, hg, -, -, -, rfl⟩ := Asm.namedConstantImmediate_eq himm
      have hstored : storedValue scope name = Asm.signedBytes g.init := by simp [storedValue, hg]
      cases hv : scope.valueArgs.lookup name with
      | some a =>
        refine ⟨.imm a.value (storedValue scope name), ?_, ?_⟩
        · simp [place, hl, hv]
        · simp [asmArg, Place.arg, hstored]
      | none =>
        refine ⟨.imm (declaredValue g) (storedValue scope name), ?_, ?_⟩
        · simp [place, hl, hv, hg]
        · simp [asmArg, Place.arg, hstored]

/-- All operands of an instruction. -/
theorem argValues_emitOperands {scope : Scope} (frame : Nat → Int) {slots slots' all : List Nat}
    {operands : List Operand} {outs : List AsmOperand}
    (hcheck : ∀ operand ∈ operands, Asm.variableErrors scope operand = [])
    (h : Asm.emitOperands scope slots operands = some (outs, slots')) (hall : slots' <+: all) :
    ∃ places, operands.mapM (place scope frame) = some places ∧
      outs.map (asmArg fun k => all[k]?.map frame) = places.map fun p => .ok p.arg := by
  induction operands generalizing slots outs with
  | nil =>
    cases h
    exact ⟨[], rfl, rfl⟩
  | cons operand operands ih =>
    obtain ⟨out, outs, slots1, h1, h2, rfl⟩ := Asm.emitOperands_cons h
    obtain ⟨p, hp, hout⟩ := asmArg_emitOperand frame (hcheck _ List.mem_cons_self) h1
      ((Asm.emitOperands_grows h2).trans hall)
    obtain ⟨places, hplaces, houts⟩ := ih (fun o ho => hcheck o (List.mem_cons_of_mem _ ho)) h2
    refine ⟨p :: places, ?_, ?_⟩
    · simp [List.mapM_cons, hp, hplaces]
    · simp [hout, houts]

/-- What is emitted for an instruction. -/
def Emitted (scope : Scope) (frame : Nat → Int) (instruction : Instruction) (i : Instr) : Prop :=
  ∃ places, instruction.operands.mapM (place scope frame) = some places ∧
    emitAsmInstruction instruction.mnemonic (places.map Place.arg) = some i

theorem argErrors_ok (places : List Place) :
    argErrors (places.map fun p => .ok p.arg) = [] := by
  simp [argErrors]

theorem argValues_ok (places : List Place) :
    argValues (places.map fun p => .ok p.arg) = places.map Place.arg := by
  induction places with
  | nil => rfl
  | cons p places ih => exact congrArg (p.arg :: ·) ih

/-- Without errors, each instruction is emitted as one machine instruction. -/
theorem emitted_of_emitAsmCode {scope : Scope} {frame : Nat → Int} {slots slots' all : List Nat}
    {instructions : List Instruction} {outs : List AsmInstruction} {code : List Instr} {done : Bool}
    (hcheck : ∀ instruction ∈ instructions, ∀ operand ∈ instruction.operands,
      Asm.variableErrors scope operand = [])
    (h : Asm.emitInstructions scope slots instructions = some (outs, slots')) (hall : slots' <+: all)
    (hcode : emitAsmCode (fun k => all[k]?.map frame) outs = (code, [], done)) :
    List.Forall₂ (Emitted scope frame) instructions code := by
  induction instructions generalizing slots outs code with
  | nil =>
    cases h
    cases hcode
    exact .nil
  | cons instruction instructions ih =>
    obtain ⟨operands, outs, slots1, h1, h2, rfl⟩ := Asm.emitInstructions_cons h
    obtain ⟨places, hplaces, hargs⟩ := argValues_emitOperands frame
      (hcheck _ List.mem_cons_self) h1 ((Asm.emitInstructions_grows h2).trans hall)
    rw [emitAsmCode] at hcode
    simp only [hargs, argErrors_ok, argValues_ok, ne_eq, not_true_eq_false, if_false] at hcode
    cases hi : emitAsmInstruction instruction.mnemonic (places.map Place.arg) with
    | none => simp [hi] at hcode
    | some i =>
      simp only [hi, Prod.mk.injEq] at hcode
      obtain ⟨rfl, herr, hdone⟩ := hcode
      refine .cons ⟨places, hplaces, hi⟩ (ih (fun _ h' => hcheck _ (List.mem_cons_of_mem _ h')) h2 ?_)
      exact Prod.ext rfl (Prod.ext herr hdone)

/-! ## Registers written -/

/-- The mnemonics of the forms, by the number of their operands. -/
theorem mnemonic_of_carried {m : String} {places : List Place} (h : Carried m places) :
    places = [] ∧ m ∈ bare ∨
      (∃ arg, places = [arg] ∧ m ∈ ["inc", "dec", "not", "neg", "push", "pop"]) ∨
      ∃ dst src, places = [dst, src] ∧
        m ∈ ["mov", "movzx", "lea", "add", "sub", "and", "or", "xor", "cmp", "test"] := by
  match places, h with
  | [], h => exact .inl ⟨rfl, h⟩
  | [arg], h =>
    refine .inr (.inl ⟨arg, rfl, ?_⟩)
    rw [Carried, CarriedOne] at h
    cases hs : unarySlots m with
    | some slot =>
      rcases unarySlots_cases hs with ⟨rfl, -⟩ | ⟨rfl, -⟩ | ⟨rfl, -⟩ | ⟨rfl, -⟩ <;> simp
    | none =>
      simp only [hs, Option.isSome_none, Bool.false_eq_true, if_false] at h
      rcases h.1 with rfl | rfl <;> simp
  | [dst, src], h =>
    refine .inr (.inr ⟨dst, src, rfl, ?_⟩)
    simp only [Carried, CarriedTwo, beq_iff_eq] at h
    split at h
    next hm => subst hm; simp
    split at h
    next hm => subst hm; simp
    split at h
    next hm => subst hm; simp
    split at h
    next halu =>
      obtain ⟨op, hop⟩ := Option.isSome_iff_exists.1 halu
      rcases aluOps_cases hop with ⟨rfl, -⟩ | ⟨rfl, -⟩ | ⟨rfl, -⟩ | ⟨rfl, -⟩ | ⟨rfl, -⟩ |
        ⟨rfl, -⟩ <;> simp
    · obtain ⟨rfl, -⟩ := h
      simp

/-- An operation on two operands writes its destination, a comparison nothing. -/
theorem writes_two {m : String} {dst src : Place} {i : Instr}
    (hm : m ∈ ["mov", "movzx", "lea", "add", "sub", "and", "or", "xor", "cmp", "test"])
    (h : emitAsmInstruction m [dst.arg, src.arg] = some i) (hd : dst.width.isSome = true) :
    asmWrites i = match dst with
      | .reg r _ => if m = "cmp" ∨ m = "test" then [] else [r]
      | _ => [] := by
  have halu : ∀ op, aluOps m = some op → (op = .cmp ↔ m = "cmp" ∨ m = "test") →
      asmWrites i = match dst with
        | .reg r _ => if m = "cmp" ∨ m = "test" then [] else [r]
        | _ => [] := by
    intro op hop hcmp
    rw [emit_alu hop] at h
    cases dst with
    | imm _ _ => cases hd
    | reg r w =>
      cases src <;> simp [Place.arg] at h <;> subst h <;> simp only [asmWrites, Instr.writes, hcmp]
    | mem d w =>
      cases src <;> simp [Place.arg] at h <;> subst h <;> rfl
  have htest : aluOps "test" = none := rfl
  have hmov : aluOps "mov" = none := rfl
  have hmovzx : aluOps "movzx" = none := rfl
  have hlea : aluOps "lea" = none := rfl
  simp only [List.mem_cons, List.not_mem_nil, or_false] at hm
  rcases hm with rfl | rfl | rfl | rfl | rfl | rfl | rfl | rfl | rfl | rfl
  case inr.inr.inr.inl => exact halu .add rfl (by simp)
  case inr.inr.inr.inr.inl => exact halu .sub rfl (by simp)
  case inr.inr.inr.inr.inr.inl => exact halu .and rfl (by simp)
  case inr.inr.inr.inr.inr.inr.inl => exact halu .or rfl (by simp)
  case inr.inr.inr.inr.inr.inr.inr.inl => exact halu .xor rfl (by simp)
  case inr.inr.inr.inr.inr.inr.inr.inr.inl => exact halu .cmp rfl (by simp)
  all_goals
    cases dst with
    | imm _ _ => cases hd
    | reg _ _ | mem _ _ =>
      cases src <;>
        simp [emitAsmInstruction, emitAsmTwo, Place.arg, htest, hmov, hmovzx, hlea] at h <;>
        subst h <;> rfl

/-- The first operand of a form is a register or a variable. -/
theorem width_of_carried {m : String} {dst : Place} {rest : List Place}
    (h : Carried m (dst :: rest)) : dst.width.isSome = true := by
  cases dst with
  | reg _ _ | mem _ _ => rfl
  | imm v s =>
    match rest, h with
    | [], h =>
      simp only [Carried, CarriedOne] at h
      split at h
      · exact h
      · cases h.2
    | [src], h =>
      simp only [Carried, CarriedTwo] at h
      split_ifs at h
      all_goals first | exact h.elim | exact h.2.elim

/-- What the machine instruction of a form writes: the register it names as destination,
    and what is implicit in its mnemonic. -/
theorem mem_writes_iff {m : String} {places : List Place} {i : Instr} {r : Reg}
    (hc : Carried m places) (h : emitAsmInstruction m (places.map Place.arg) = some i) :
    r ∈ asmWrites i ↔
      (m ∉ ["cmp", "test", "push"] ∧ ∃ w, places.head? = some (.reg r w)) ∨
      (m ∈ ["push", "pop", "ret"] ∧ r = .rsp) ∨ (m = "syscall" ∧ r ∈ [Reg.rax, .rcx, .r11]) ∨
      (m = "cpuid" ∧ r ∈ [Reg.rax, .rbx, .rcx, .rdx]) := by
  rcases mnemonic_of_carried hc with ⟨rfl, hm⟩ | ⟨arg, rfl, hm⟩ | ⟨dst, src, rfl, hm⟩
  · rcases bare_cases hm with rfl | rfl | rfl | rfl <;> cases h <;> simp [asmWrites, Instr.writes]
  · have hw := width_of_carried hc
    have hbare : m ∉ bare := by
      simp only [List.mem_cons, List.not_mem_nil, or_false] at hm
      rcases hm with rfl | rfl | rfl | rfl | rfl | rfl <;> decide
    rw [List.map_cons, List.map_nil, (emit_of_not_bare hbare).1] at h
    simp only [List.mem_cons, List.not_mem_nil, or_false] at hm
    rcases hm with rfl | rfl | rfl | rfl | rfl | rfl
    all_goals
      cases arg with
      | imm _ _ => cases hw
      | reg _ _ | mem _ _ =>
        simp [emitAsmOne, unarySlots, List.lookup_cons, Place.arg] at h
        subst h
        simp [asmWrites, Instr.writes, eq_comm]
  · have hd := width_of_carried hc
    have hwrites := writes_two hm h hd
    rw [hwrites]
    have hne : m ∉ ["push", "pop", "ret"] ∧ m ≠ "syscall" ∧ m ≠ "cpuid" ∧ m ≠ "push" := by
      simp only [List.mem_cons, List.not_mem_nil, or_false] at hm
      rcases hm with rfl | rfl | rfl | rfl | rfl | rfl | rfl | rfl | rfl | rfl <;> decide
    cases dst with
    | imm _ _ => cases hd
    | mem d w => simp [hne]
    | reg r' w =>
      by_cases hcmp : m = "cmp" ∨ m = "test"
      · simp [hne, hcmp]
      · simp [hne, hcmp, eq_comm]

/-! ## Registers listed -/

theorem place_eq_reg {scope : Scope} {frame : Nat → Int} {operand : Operand} {r : Reg} {w : Width}
    (h : place scope frame operand = some (.reg r w)) :
    ∃ reg, operand = .register reg ∧ familyReg reg.info.family = some (.gpr r) := by
  cases operand with
  | register reg =>
    simp only [place] at h
    split at h
    next r' hr' =>
      cases h
      exact ⟨reg, rfl, hr'⟩
    · cases h
  | immediate value => cases h
  | «variable» name isAddress =>
    simp only [place] at h
    split at h
    · cases h
    · split at h
      · cases h
      · obtain ⟨g, -, hg⟩ := Option.map_eq_some_iff.1 h
        cases hg

/-- Operands that are only read are not listed. -/
theorem filterMap_read {operands : List Operand} {directions : List Asm.Direction}
    (h : ∀ d ∈ directions, d = .read) :
    (operands.zip directions).filterMap Asm.writtenFamily = [] := by
  rw [List.filterMap_eq_nil_iff]
  rintro ⟨operand, d⟩ hmem
  obtain rfl := h d (List.of_mem_zip hmem).2
  cases operand <;> rfl

/-- The tables on the forms with operands: the first operand may be written, the others are
    read, and nothing is implicit. -/
theorem directions_of_mem {m : String} (hm : m ∈ ["inc", "dec", "not", "neg", "push", "pop", "mov",
      "movzx", "lea", "add", "sub", "and", "or", "xor", "cmp", "test"]) (operands : List Operand) :
    Asm.asmImplicitClobbers m operands.length = [] ∧
      ∃ d rest, Asm.directions m operands = d :: rest ∧ (∀ e ∈ rest, e = .read) ∧
        (d = .read ↔ m ∈ ["cmp", "test", "push"]) := by
  simp only [List.mem_cons, List.not_mem_nil, or_false] at hm
  rcases hm with rfl | rfl | rfl | rfl | rfl | rfl | rfl | rfl | rfl | rfl | rfl | rfl | rfl | rfl |
    rfl | rfl <;>
    exact ⟨rfl, _, _, rfl, by decide, by decide⟩

/-- A first operand that is written is listed with its family. -/
theorem writtenFamily_first (operand : Operand) {d : Asm.Direction} (hd : d ≠ .read)
    (family : String) : Asm.writtenFamily (operand, d) = some family ↔
      ∃ reg, operand = .register reg ∧ reg.info.family = family := by
  cases operand with
  | register reg =>
    have hfam : Asm.writtenFamily (.register reg, d) = some reg.info.family := by
      cases d with
      | read => exact absurd rfl hd
      | write | readWrite => exact congrArg (Option.map (·.family)) reg.lexed
    rw [hfam]
    simp
  | immediate _ | «variable» _ _ => cases d <;> simp [Asm.writtenFamily]

/-- The checker lists the destination of an instruction and what `syscall` destroys. -/
theorem mem_writtenFamilies {scope : Scope} {frame : Nat → Int} {instruction : Instruction}
    {places : List Place} {family : String}
    (hplaces : instruction.operands.mapM (place scope frame) = some places)
    (hc : Carried instruction.mnemonic places) :
    family ∈ Asm.writtenFamilies instruction ↔
      (instruction.mnemonic ∉ ["cmp", "test", "push"] ∧
        ∃ reg, instruction.operands.head? = some (Operand.register reg) ∧
          reg.info.family = family) ∨
      (instruction.mnemonic = "syscall" ∧ family ∈ ["rax", "rcx", "r11"]) := by
  obtain ⟨m, operands, line⟩ := instruction
  simp only at hplaces hc ⊢
  cases operands with
  | nil =>
    cases hplaces
    rcases bare_cases hc with rfl | rfl | rfl | rfl <;>
      simp [Asm.writtenFamilies, Asm.asmImplicitClobbers]
  | cons operand operands =>
    have hm : m ∈ ["inc", "dec", "not", "neg", "push", "pop", "mov", "movzx", "lea", "add", "sub",
        "and", "or", "xor", "cmp", "test"] := by
      rcases mnemonic_of_carried hc with ⟨rfl, -⟩ | ⟨arg, -, hm⟩ | ⟨dst, src, -, hm⟩
      · simp [List.mapM_cons, Option.bind_eq_some_iff] at hplaces
      · exact List.mem_append_left _ hm
      · exact List.mem_append_right ["inc", "dec", "not", "neg", "push", "pop"] hm
    obtain ⟨himplicit, d, rest, hdir, hrest, hread⟩ := directions_of_mem hm (operand :: operands)
    have hsyscall : m ≠ "syscall" := by
      rintro rfl
      exact absurd hm (by decide)
    have hlisted : Asm.writtenFamilies ⟨m, operand :: operands, line⟩ =
        (Asm.writtenFamily (operand, d)).toList := by
      simp only [Asm.writtenFamilies, himplicit, hdir, List.nil_append, List.zip_cons_cons]
      cases hw : Asm.writtenFamily (operand, d) with
      | none => rw [List.filterMap_cons_none hw, filterMap_read hrest]; rfl
      | some f => rw [List.filterMap_cons_some hw, filterMap_read hrest]; rfl
    rw [hlisted, Option.mem_toList, ← hread]
    simp only [List.head?_cons, Option.some.injEq, hsyscall, false_and, or_false]
    by_cases hd : d = .read
    · subst hd
      have hnone : Asm.writtenFamily (operand, .read) = none := by cases operand <;> rfl
      simp [hnone]
    · rw [writtenFamily_first operand hd]
      exact ⟨fun h => ⟨hd, h⟩, And.right⟩

/-- The families that are listed for a block whose instructions are all carried over. -/
theorem mem_families {scope : Scope} {frame : Nat → Int} {block : Asm.Block} {family : String}
    (hc : ∀ instruction ∈ block.instructions, ∃ places,
      instruction.operands.mapM (place scope frame) = some places ∧
        Carried instruction.mnemonic places) :
    family ∈ (Asm.checkAsm scope block).2 ↔ NamesFamily block family ∨
      family ∈ ["rax", "rcx", "r11"] ∧
        ∃ instruction ∈ block.instructions, instruction.mnemonic = "syscall" := by
  have hresult : family ∈ (block.result.bind fun reg => Asm.lookupRegister reg.info.name).toList.map
      (·.family) ↔ ∃ reg, block.result = some reg ∧ reg.info.family = family := by
    cases block.result with
    | none => simp
    | some reg => simp [reg.lexed, eq_comm]
  simp only [Asm.checkAsm, Asm.checkAsmInstructions, List.mem_append, List.mem_flatMap, hresult,
    NamesFamily]
  constructor
  · rintro (⟨instruction, hi, hf⟩ | h)
    · obtain ⟨places, hplaces, hcarried⟩ := hc instruction hi
      rcases (mem_writtenFamilies hplaces hcarried).1 hf with ⟨hm, hreg⟩ | ⟨hm, hf⟩
      · exact .inl (.inl ⟨instruction, hi, hm, hreg⟩)
      · exact .inr ⟨hf, instruction, hi, hm⟩
    · exact .inl (.inr h)
  · rintro ((⟨instruction, hi, hm, hreg⟩ | h) | ⟨hf, instruction, hi, hm⟩)
    · obtain ⟨places, hplaces, hcarried⟩ := hc instruction hi
      exact .inl ⟨instruction, hi, (mem_writtenFamilies hplaces hcarried).2 (.inl ⟨hm, hreg⟩)⟩
    · exact .inr h
    · obtain ⟨places, hplaces, hcarried⟩ := hc instruction hi
      exact .inl ⟨instruction, hi, (mem_writtenFamilies hplaces hcarried).2 (.inr ⟨hm, hf⟩)⟩

/-- The family of a register is its 64-bit name. -/
theorem familyReg_inj {family : String} {r : Reg} (h : familyReg family = some (.gpr r)) :
    (r = .rax → family = "rax") ∧ (r = .rbx → family = "rbx") ∧ (r = .rcx → family = "rcx") ∧
      (r = .rdx → family = "rdx") ∧ (r = .rsp → family = "rsp") := by
  obtain ⟨r', hr', heq⟩ := Option.map_eq_some_iff.1 h
  cases heq
  have hmem := mem_of_lookup hr'
  simp only [List.mem_cons, Prod.mk.injEq, List.not_mem_nil, or_false] at hmem
  refine ⟨?_, ?_, ?_, ?_, ?_⟩ <;> rintro rfl <;> simpa using hmem

/-! ## Blocks -/

/-- What a compilation without errors goes through. -/
theorem compile_eq_some {scope : Scope} {frame : Nat → Int} {block : Asm.Block} {code : List Instr}
    {families : List String} (h : compile scope frame block = some (code, families)) :
    families = (Asm.checkAsm scope block).2 ∧
      List.Forall₂ (Emitted scope frame) block.instructions code := by
  rw [compile] at h
  generalize hcheck : Asm.checkAsm scope block = checked at h
  obtain ⟨errors, listed⟩ := checked
  simp only [ne_eq, ite_not] at h
  split at h
  next herrors =>
    split at h
    · cases h
    next asm slots hasm =>
      simp only [Asm.emitAsm, Option.bind_eq_bind, Option.bind_eq_some_iff, Option.pure_def,
        Option.some.injEq, Prod.exists, Prod.mk.injEq] at hasm
      obtain ⟨outs, slots', houts, rfl, rfl⟩ := hasm
      generalize hcode : emitAsmCode (fun k => slots'[k]?.map frame) outs = emitted at h
      obtain ⟨code', errors', done⟩ := emitted
      simp only at h
      split at h
      next hnone =>
        cases h
        subst hnone
        refine ⟨rfl, emitted_of_emitAsmCode ?_ houts List.prefix_rfl hcode⟩
        intro instruction hi operand ho
        have hall := congrArg Prod.fst hcheck
        simp only [Asm.checkAsm, Asm.checkAsmInstructions, herrors, List.flatMap_eq_nil_iff,
          Asm.instructionErrors, List.append_eq_nil_iff] at hall
        exact (hall instruction hi).1.1 operand ho
      · cases h
  · cases h

/-- Relating two lists that are related already. -/
theorem forall₂_iff_of_forall₂ {α β : Type} {E R : α → β → Prop} {C : α → Prop} {l : List α}
    {l' : List β} (h : List.Forall₂ E l l') (hR : ∀ a b, E a b → (R a b ↔ C a)) :
    List.Forall₂ R l l' ↔ ∀ a ∈ l, C a := by
  induction h with
  | nil => simp
  | cons hab _ ih => simp [List.forall₂_cons, ih, hR _ _ hab]

/-- Every element of related lists has a partner. -/
theorem exists_of_forall₂ {α β : Type} {E : α → β → Prop} {l : List α} {l' : List β}
    (h : List.Forall₂ E l l') :
    (∀ a ∈ l, ∃ b ∈ l', E a b) ∧ ∀ b ∈ l', ∃ a ∈ l, E a b := by
  induction h with
  | nil => simp
  | cons hab _ ih =>
    refine ⟨?_, ?_⟩
    · intro a ha
      rcases List.mem_cons.1 ha with rfl | ha
      · exact ⟨_, List.mem_cons_self, hab⟩
      · obtain ⟨b, hb, hE⟩ := ih.1 a ha
        exact ⟨b, List.mem_cons_of_mem _ hb, hE⟩
    · intro b hb
      rcases List.mem_cons.1 hb with rfl | hb
      · exact ⟨_, List.mem_cons_self, hab⟩
      · obtain ⟨a, ha, hE⟩ := ih.2 b hb
        exact ⟨a, List.mem_cons_of_mem _ ha, hE⟩

/-- The instructions that are rendered are those that are carried over. -/
theorem renders_iff_carried {scope : Scope} {frame : Nat → Int} {instruction : Instruction}
    {i : Instr} (h : Emitted scope frame instruction i) :
    (∃ places, instruction.operands.mapM (place scope frame) = some places ∧
      Renders instruction.mnemonic places i) ↔
    ∃ places, instruction.operands.mapM (place scope frame) = some places ∧
      Carried instruction.mnemonic places := by
  obtain ⟨places, hplaces, hi⟩ := h
  simp only [hplaces, Option.some.injEq, exists_eq_left', renders_iff hi]

/-- What the machine instructions of a block write is listed exactly when the implicit writes
    of the stack instructions and of `cpuid` are named. -/
theorem clobbers_iff {scope : Scope} {frame : Nat → Int} {block : Asm.Block} {code : List Instr}
    (hemit : List.Forall₂ (Emitted scope frame) block.instructions code)
    (hc : ∀ instruction ∈ block.instructions, ∃ places,
      instruction.operands.mapM (place scope frame) = some places ∧
        Carried instruction.mnemonic places) :
    (∀ i ∈ code, ∀ r ∈ asmWrites i,
      ∃ family ∈ (Asm.checkAsm scope block).2, familyReg family = some (.gpr r)) ↔
    (∀ instruction ∈ block.instructions, instruction.mnemonic ∈ ["push", "pop", "ret"] →
      NamesFamily block "rsp") ∧
    ∀ instruction ∈ block.instructions, instruction.mnemonic = "cpuid" →
      ∀ family ∈ ["rax", "rbx", "rcx", "rdx"], NamesFamily block family ∨
        family ∈ ["rax", "rcx"] ∧ ∃ other ∈ block.instructions, other.mnemonic = "syscall" := by
  have hwrites : ∀ instruction ∈ block.instructions, ∃ i ∈ code, ∀ r,
      (instruction.mnemonic ∈ ["push", "pop", "ret"] ∧ r = .rsp ∨
        instruction.mnemonic = "cpuid" ∧ r ∈ [Reg.rax, .rbx, .rcx, .rdx]) → r ∈ asmWrites i := by
    intro instruction hi
    obtain ⟨i, hicode, places, hplaces, hrun⟩ := (exists_of_forall₂ hemit).1 instruction hi
    obtain ⟨places', hplaces', hcarried⟩ := hc instruction hi
    obtain rfl := Option.some.inj (hplaces.symm.trans hplaces')
    refine ⟨i, hicode, fun r hr => (mem_writes_iff hcarried hrun).2 ?_⟩
    rcases hr with hr | hr
    · exact .inr (.inl hr)
    · exact .inr (.inr (.inr hr))
  constructor
  · intro h
    refine ⟨fun instruction hi hm => ?_, fun instruction hi hm family hf => ?_⟩
    · obtain ⟨i, hicode, hw⟩ := hwrites instruction hi
      obtain ⟨family, hfam, hreg⟩ := h i hicode .rsp (hw _ (.inl ⟨hm, rfl⟩))
      obtain rfl := (familyReg_inj hreg).2.2.2.2 rfl
      rcases (mem_families hc).1 hfam with hn | ⟨hn, -⟩
      · exact hn
      · exact absurd hn (by decide)
    · obtain ⟨i, hicode, hw⟩ := hwrites instruction hi
      have hlisted : ∀ r ∈ [Reg.rax, .rbx, .rcx, .rdx], ∃ family, familyReg family = some (.gpr r) ∧
          (NamesFamily block family ∨ family ∈ ["rax", "rcx", "r11"] ∧
            ∃ other ∈ block.instructions, other.mnemonic = "syscall") := by
        intro r hr
        obtain ⟨family, hfam, hreg⟩ := h i hicode r (hw r (.inr ⟨hm, hr⟩))
        exact ⟨family, hreg, (mem_families hc).1 hfam⟩
      simp only [List.mem_cons, List.not_mem_nil, or_false] at hf
      rcases hf with rfl | rfl | rfl | rfl
      · obtain ⟨family, hreg, hn⟩ := hlisted .rax (by simp)
        obtain rfl := (familyReg_inj hreg).1 rfl
        exact hn.imp id fun hsys => ⟨by simp, hsys.2⟩
      · obtain ⟨family, hreg, hn⟩ := hlisted .rbx (by simp)
        obtain rfl := (familyReg_inj hreg).2.1 rfl
        exact hn.imp id fun hsys => absurd hsys.1 (by decide)
      · obtain ⟨family, hreg, hn⟩ := hlisted .rcx (by simp)
        obtain rfl := (familyReg_inj hreg).2.2.1 rfl
        exact hn.imp id fun hsys => ⟨by simp, hsys.2⟩
      · obtain ⟨family, hreg, hn⟩ := hlisted .rdx (by simp)
        obtain rfl := (familyReg_inj hreg).2.2.2.1 rfl
        exact hn.imp id fun hsys => absurd hsys.1 (by decide)
  · rintro ⟨hstack, hcpuid⟩ i hicode r hr
    obtain ⟨instruction, hi, places, hplaces, hrun⟩ := (exists_of_forall₂ hemit).2 i hicode
    obtain ⟨places', hplaces', hcarried⟩ := hc instruction hi
    obtain rfl := Option.some.inj (hplaces.symm.trans hplaces')
    simp only [mem_families hc]
    rcases (mem_writes_iff hcarried hrun).1 hr with ⟨hm, w, hhead⟩ | ⟨hm, rfl⟩ | ⟨hm, hr⟩ | ⟨hm, hr⟩
    · obtain ⟨operand, rest, hops, hp⟩ : ∃ operand rest, instruction.operands = operand :: rest ∧
          place scope frame operand = some (.reg r w) := by
        cases hops : instruction.operands with
        | nil =>
          rw [hops] at hplaces
          cases hplaces
          cases hhead
        | cons operand rest =>
          rw [hops] at hplaces
          simp only [List.mapM_cons, Option.bind_eq_bind, Option.bind_eq_some_iff, Option.pure_def,
            Option.some.injEq] at hplaces
          obtain ⟨p, hp, ps, -, rfl⟩ := hplaces
          cases hhead
          exact ⟨operand, rest, rfl, hp⟩
      obtain ⟨reg, rfl, hfamily⟩ := place_eq_reg hp
      exact ⟨reg.info.family, .inl (.inl ⟨instruction, hi, hm, reg, by rw [hops]; rfl, rfl⟩), hfamily⟩
    · exact ⟨"rsp", .inl (hstack instruction hi hm), rfl⟩
    · simp only [List.mem_cons, List.not_mem_nil, or_false] at hr
      rcases hr with rfl | rfl | rfl
      · exact ⟨"rax", .inr ⟨by simp, instruction, hi, hm⟩, rfl⟩
      · exact ⟨"rcx", .inr ⟨by simp, instruction, hi, hm⟩, rfl⟩
      · exact ⟨"r11", .inr ⟨by simp, instruction, hi, hm⟩, rfl⟩
    · have hlisted : ∀ family ∈ ["rax", "rbx", "rcx", "rdx"], NamesFamily block family ∨
          family ∈ ["rax", "rcx", "r11"] ∧
            ∃ other ∈ block.instructions, other.mnemonic = "syscall" := fun family hf =>
        (hcpuid instruction hi hm family hf).imp id fun ⟨hmem, hsys⟩ => ⟨by
          simp only [List.mem_cons, List.not_mem_nil, or_false] at hmem ⊢
          tauto, hsys⟩
      simp only [List.mem_cons, List.not_mem_nil, or_false] at hr
      rcases hr with rfl | rfl | rfl | rfl
      · exact ⟨"rax", hlisted "rax" (by simp), rfl⟩
      · exact ⟨"rbx", hlisted "rbx" (by simp), rfl⟩
      · exact ⟨"rcx", hlisted "rcx" (by simp), rfl⟩
      · exact ⟨"rdx", hlisted "rdx" (by simp), rfl⟩

/-- The registers of the block below. -/
def eaxOperand : RegisterOperand := ⟨⟨"eax", "rax", 32⟩, by decide⟩
def esiOperand : RegisterOperand := ⟨⟨"esi", "rsi", 32⟩, by decide⟩
def raxOperand : RegisterOperand := ⟨⟨"rax", "rax", 64⟩, by decide⟩

/-- A system call with a variable as argument and one as result. -/
def openBlock : Asm.Block where
  instructions := [
    { mnemonic := "mov", operands := [.register raxOperand, .immediate 2] },
    { mnemonic := "mov", operands := [.register esiOperand, .variable "flags" false] },
    { mnemonic := "syscall" },
    { mnemonic := "mov", operands := [.variable "fd" true, .register eaxOperand] }]

def openScope : Scope where
  locals := [("flags", ⟨0, .scalar .i32⟩), ("fd", ⟨1, .scalar .i32⟩)]

end Mirage.X86
