import Mirage.Mir.Fold
import Mirage.Mir.Verify
import Mirage.Wasm.IntValue

/-!
# The two lowerings of integer operations

The x86 template and the WebAssembly code of an integer operation, started with the same
canonical operands: they agree (`LoweringsAgree`) when both trap, or both leave the same
canonical value in the home and the local of the result. `loweringsAgree_iff` says on
which instructions and operands they do not (`LoweringsDiffer`).
-/

namespace Mirage

open X86 (Env Machine Ctx Mode context firstIndex IsValue)

/-! ## Integer operations of a function -/

/-- The operations with one operand. -/
def isIntUnary (op : Op) : Bool :=
  op == .not || op == .neg || op == .trunc || op == .zext || op == .sext

/-- An integer operation of an accepted function, with the result the `Builder` gives an
    instruction: a fresh value of the instruction's type. -/
structure IntegerAt (module : Module) (fn : Function) (b i : Nat) (inst : Inst) : Prop where
  accepted : fn.Accepted module
  found : ∃ block, fn.blocks[b]? = some block ∧ block.insts[i]? = some inst
  op : Ctx.isIntOp inst.op = true
  type : isInteger inst.type = true
  src : isInteger (fn.valueType inst.a) = true
  result : IsValue fn inst.result
  resultType : fn.valueType inst.result = inst.type
  fresh : inst.result ∉ valueOperands inst
  unary : isIntUnary inst.op = true → inst.b = noValue

namespace IntegerAt

open Verifier

variable {module : Module} {fn : Function} {b i : Nat} {inst : Inst}

theorem checkOperandType_eq_nil {v : Nat} {type : Ty} {loc : String}
    (h : checkOperandType fn v type loc = []) : IsValue fn v ∧ fn.valueType v = type := by
  simp only [checkOperandType] at h
  split_ifs at h with h1 h2
  simp only [valueOk, Bool.not_eq_true', Bool.not_eq_false, Bool.and_eq_true, bne_iff_ne, ne_eq,
    decide_eq_true_eq, Decidable.not_not] at h1 h2
  exact ⟨h1, h2⟩

theorem checkOperand_eq_nil {v : Nat} {loc : String} (h : checkOperand fn v loc = []) :
    IsValue fn v := by
  simp only [checkOperand] at h
  split_ifs at h with h1
  simpa [valueOk, IsValue] using h1

/-- What the verifier has checked. -/
structure Checked (fn : Function) (inst : Inst) : Prop where
  first : IsValue fn inst.a
  second : isIntBinary inst.op = true ∨ isIntComparison inst.op = true →
    IsValue fn inst.b ∧ fn.valueType inst.b = fn.valueType inst.a
  same : isIntBinary inst.op = true ∨ inst.op = .not ∨ inst.op = .neg →
    fn.valueType inst.a = inst.type
  bool : isIntComparison inst.op = true → inst.type = .i1
  select : inst.op = .select → fn.valueType inst.a = .i1 ∧
    (IsValue fn inst.b ∧ fn.valueType inst.b = inst.type) ∧
    (IsValue fn inst.c ∧ fn.valueType inst.c = inst.type)

/-- The integer operations other than `select` are checked in the default case. -/
theorem checkArith_eq_nil {sig : Signature} {loc : String} (hop : Ctx.isIntOp inst.op = true)
    (hne : inst.op ≠ .select) (h : checkInst module fn sig inst loc = []) :
    ∃ site, checkArith fn inst site = [] := by
  rw [checkInst] at h
  cases hop' : inst.op <;> simp only [hop'] at h <;>
    first
    | exact ⟨_, h⟩
    | (rw [hop'] at hop
       cases hop
       done)
    | exact absurd hop' hne

theorem checked (h : IntegerAt module fn b i inst) : Checked fn inst := by
  obtain ⟨block, hb, hi⟩ := h.found
  obtain ⟨sig, loc, -, hc⟩ := h.accepted.checkInst_eq_nil hb (List.mem_of_getElem? hi)
  by_cases hsel : inst.op = .select
  · simp only [checkInst, hsel, List.append_eq_nil_iff] at hc
    obtain ⟨⟨h1, h2⟩, h3⟩ := hc
    have hno : isIntBinary inst.op = false ∧ isIntComparison inst.op = false := by
      rw [hsel]
      exact ⟨rfl, rfl⟩
    exact ⟨(checkOperandType_eq_nil h1).1, by simp [hno],
      fun hs => by simp [hsel, isIntBinary] at hs, by simp [hno],
      fun _ => ⟨(checkOperandType_eq_nil h1).2, checkOperandType_eq_nil h2,
        checkOperandType_eq_nil h3⟩⟩
  obtain ⟨site, ha⟩ := checkArith_eq_nil h.op hsel hc
  rw [checkArith] at ha
  by_cases hcmp : isIntComparison inst.op = true
  · have hbin : isIntBinary inst.op = false ∧ inst.op ≠ .not ∧ inst.op ≠ .neg := by
      cases hop : inst.op <;> rw [hop] at hcmp <;> first | (cases hcmp; done) | decide
    simp only [isComparison, hcmp, Bool.true_or, if_true, List.append_eq_nil_iff] at ha
    obtain ⟨⟨⟨h0, h1⟩, h2⟩, h3⟩ := ha
    have hva := checkOperand_eq_nil h1
    have hvb := checkOperand_eq_nil h2
    refine ⟨hva, fun _ => ⟨hvb, ?_⟩, by simp [hbin], fun _ => ?_, fun hs => absurd hs hsel⟩
    · have hok : valueOk fn inst.a = true ∧ valueOk fn inst.b = true := by
        simpa [valueOk, IsValue] using And.intro hva hvb
      simp only [hok.1, hok.2, Bool.and_self, if_true] at h3
      by_contra hne
      rw [if_pos (by simpa [bne_iff_ne] using fun he => hne he.symm)] at h3
      cases h3
    · simp only [resultMustBe] at h0
      split_ifs at h0 with ht
      simpa using ht
  simp only [isComparison, hcmp, Bool.false_or] at ha
  have hf : isFloatComparison inst.op = false := by
    have := h.op
    cases hop : inst.op <;> rw [hop] at this <;> first | (cases this; done) | rfl
  simp only [hf, Bool.false_eq_true, if_false] at ha
  by_cases hbin : isIntBinary inst.op = true
  · simp only [hbin, if_true, List.append_eq_nil_iff] at ha
    obtain ⟨⟨h1, h2⟩, -⟩ := ha
    obtain ⟨hva, hta⟩ := checkOperandType_eq_nil h1
    obtain ⟨hvb, htb⟩ := checkOperandType_eq_nil h2
    exact ⟨hva, fun _ => ⟨hvb, htb.trans hta.symm⟩, fun _ => hta, fun hc => absurd hc hcmp,
      fun hs => absurd hs hsel⟩
  simp only [hbin, Bool.false_eq_true, if_false] at ha
  by_cases hun : inst.op = .not ∨ inst.op = .neg
  · have hcond : (inst.op == .not || inst.op == .neg || inst.op == .fneg) = true := by
      rcases hun with hop | hop <;> rw [hop] <;> rfl
    simp only [hcond, if_true] at ha
    obtain ⟨hva, hta⟩ := checkOperandType_eq_nil ha
    exact ⟨hva, by simp [hbin, hcmp], fun _ => hta, fun hc => absurd hc hcmp,
      fun hs => absurd hs hsel⟩
  · have hconv : isIntConversion inst.op = true := by
      have hop := h.op
      simp only [Ctx.isIntOp, isIntConversion, Bool.or_eq_true, beq_iff_eq] at hop ⊢
      tauto
    have hcond : (inst.op == .not || inst.op == .neg || inst.op == .fneg) = false ∧
        (inst.op == .fadd || inst.op == .fsub || inst.op == .fmul || inst.op == .fdiv ||
          inst.op == .frem) = false := by
      cases hop : inst.op <;> rw [hop] at hconv <;> first | (cases hconv; done) | decide
    simp only [hcond.1, hcond.2, Bool.false_eq_true, if_false, List.append_eq_nil_iff] at ha
    exact ⟨checkOperand_eq_nil ha.1, by simp [hbin, hcmp], by simp [hbin, hun],
      fun hc => absurd hc hcmp, fun hs => absurd hs hsel⟩

/-- The operands are integers of the function. -/
theorem operand (h : IntegerAt module fn b i inst) {v : ValueId} (hv : v ∈ valueOperands inst) :
    IsValue fn v ∧ isInteger (fn.valueType v) = true := by
  have hc := h.checked
  have ha : IsValue fn inst.a ∧ isInteger (fn.valueType inst.a) = true := ⟨hc.first, h.src⟩
  by_cases hsel : inst.op = .select
  · obtain ⟨-, ⟨hb, htb⟩, hc', htc⟩ := hc.select hsel
    simp only [valueOperands, hsel, List.mem_cons, List.not_mem_nil, or_false] at hv
    rcases hv with rfl | rfl | rfl
    · exact ha
    · exact ⟨hb, htb ▸ h.type⟩
    · exact ⟨hc', htc ▸ h.type⟩
  · have hmem : v = inst.a ∨ v = inst.b ∧ inst.b ≠ noValue := by
      have hop := h.op
      rw [valueOperands] at hv
      cases hop' : inst.op <;> rw [hop'] at hop <;> simp only [hop'] at hv <;>
        first
        | (cases hop; done)
        | exact absurd hop' hsel
        | (split_ifs at hv <;> simp_all)
    rcases hmem with rfl | ⟨rfl, hne⟩
    · exact ha
    · have htwo : isIntBinary inst.op = true ∨ isIntComparison inst.op = true := by
        have hop := h.op
        have hun := fun hu => hne (h.unary hu)
        simp only [Ctx.isIntOp, isIntUnary, Bool.or_eq_true, beq_iff_eq] at hop hun
        tauto
      obtain ⟨hb, htb⟩ := hc.second htwo
      exact ⟨hb, htb ▸ h.src⟩

theorem intSite (h : IntegerAt module fn b i inst) (mode : Mode) :
    (context module fn mode).IntSite (firstIndex fn b + i) inst := by
  obtain ⟨block, hb, hi⟩ := h.found
  refine ⟨X86.site hb hi ⟨fun v hv => (h.operand hv).1, fun _ => h.result⟩, ?_, h.fresh, h.result.1,
    ?_, fun v hv => ⟨(h.operand hv).1.1, isFloat_of_isInteger (h.operand hv).2⟩⟩
  · have hop := h.op
    rw [X86.definesLate]
    cases hop' : inst.op <;> rw [hop'] at hop <;> first | (cases hop; done) | rfl
  · show isFloat (fn.valueType inst.result) = false
    rw [h.resultType]
    exact isFloat_of_isInteger h.type

theorem intTyped (h : IntegerAt module fn b i inst) : Ctx.IntTyped fn inst where
  second := fun htwo => (h.checked.second htwo).1.1
  binary := fun hb => by
    have hta := h.checked.same (.inl hb)
    exact ⟨hta, (h.checked.second (.inl hb)).2.trans hta⟩
  select := fun _ => isFloat_of_isInteger h.type

end IntegerAt

/-! ## Agreement -/

variable {module : Module} {fn : Function} {mode : Mode} {b i : Nat} {inst : Inst} {env : Env}
  {m : Machine} {s : Wasm.State}

/-- The homes and the locals of the operands hold the same canonical values. -/
structure SameOperands (c : Ctx) (inst : Inst) (m : Machine) (s : Wasm.State) : Prop where
  canonical : ∀ v ∈ valueOperands inst, Canonical (c.fn.valueType v) (c.gprHome m v)
  locals : ∀ v ∈ valueOperands inst,
    s.locals v = Wasm.localOf (c.fn.valueType v) (c.gprHome m v)
  result : (s.locals inst.result).type = Wasm.valType inst.type

/-- The template leaves the value in the home of its result, and does nothing else. -/
def X86.Ctx.Leaves (c : Ctx) (env : Env) (index : Nat) (inst : Inst) (m : Machine)
    (v : BitVec 64) : Prop :=
  c.Runs env index inst (c.emitInst index inst) m fun M => c.gprHome M inst.result = v

/-- The code leaves the value in the local of its result, and does nothing else. -/
def Wasm.Leaves (fn : Function) (inst : Inst) (s : Wasm.State) (v : BitVec 64) : Prop :=
  Wasm.run (Wasm.emitInt fn inst) s =
    .ok (s.setLocal inst.result (Wasm.localOf inst.type v))

/-- Both lowerings trap, or both leave the same canonical value. -/
def LoweringsAgree (c : Ctx) (env : Env) (index : Nat) (inst : Inst) (m : Machine)
    (s : Wasm.State) : Prop :=
  X86.exec env (c.emitInst index inst) m = .fault ∧
      Wasm.run (Wasm.emitInt c.fn inst) s = .trap ∨
    ∃ v, Canonical inst.type v ∧ c.Leaves env index inst m v ∧ Wasm.Leaves c.fn inst s v

/-- The operations on which they do not agree: the carry out of an `i1`, which neither
    clears; the remainder whose division overflows, where only x86 traps; and the conversions
    whose types go the wrong way or end in `i1`. -/
def LoweringsDiffer (op : Op) (type src : Ty) (x y : BitVec 64) : Prop :=
  match op with
  | .add => type = .i1 ∧ x = 1 ∧ y = 1
  | .sub => type = .i1 ∧ x = 0 ∧ y = 1
  | .neg => type = .i1 ∧ x = 1
  | .shl => type = .i1 ∧ x = 1 ∧ y = 1
  | .srem => type = .i64 ∧ x = BitVec.intMin 64 ∧ y = -1
  | .trunc => type = .i64 ∨ type = .i1 ∧ 2 ≤ x.toNat % 256
  | .zext => 2 ^ typeBits type 64 ≤ x.toNat
  | .sext => src = .i64 ∨ type = .i1 ∧ 2 ≤ x.toNat % 256
  | _ => False

theorem loweringsDiffer_iff (op : Op) (type src : Ty) (x y : BitVec 64) :
    LoweringsDiffer op type src x y ↔
      Wasm.WasmOdd op type src x y ∨ X86.Overflows op type x y := by
  cases op <;> simp [LoweringsDiffer, Wasm.WasmOdd, X86.Overflows, Canonical]

namespace IntegerAt

variable (h : IntegerAt module fn b i inst)

include h

theorem canonicalOperands (hm : SameOperands (context module fn mode) inst m s) :
    X86.CanonicalOperands inst.op inst.type (fn.valueType inst.a)
      ((context module fn mode).gprHome m inst.a) ((context module fn mode).gprHome m inst.b)
      ((context module fn mode).gprHome m inst.c) where
  typeInt := h.type
  srcInt := h.src
  first := hm.canonical _ (Ctx.mem_valueOperands_first h.op)
  second := fun htwo => by
    obtain ⟨hb, htb⟩ := h.checked.second htwo
    have := hm.canonical _ (Ctx.mem_valueOperands_second htwo hb.1)
    rwa [show (context module fn mode).fn.valueType inst.b = fn.valueType inst.a from htb] at this
  same := h.checked.same
  bool := h.checked.bool
  select := fun hsel => by
    obtain ⟨hta, ⟨-, htb⟩, -, htc⟩ := h.checked.select hsel
    have hb := hm.canonical inst.b (by simp [valueOperands, hsel])
    have hc := hm.canonical inst.c (by simp [valueOperands, hsel])
    rw [show (context module fn mode).fn.valueType inst.b = inst.type from htb] at hb
    rw [show (context module fn mode).fn.valueType inst.c = inst.type from htc] at hc
    exact ⟨hta, hb, hc⟩

theorem operandLocals (hm : SameOperands (context module fn mode) inst m s) :
    Wasm.OperandLocals fn s inst ((context module fn mode).gprHome m inst.a)
      ((context module fn mode).gprHome m inst.b) ((context module fn mode).gprHome m inst.c) where
  first := hm.locals _ (Ctx.mem_valueOperands_first h.op)
  second := fun htwo => by
    obtain ⟨hb, htb⟩ := h.checked.second htwo
    have := hm.locals _ (Ctx.mem_valueOperands_second htwo hb.1)
    rw [show (context module fn mode).fn.valueType inst.b = fn.valueType inst.a from htb] at this
    exact ⟨htb, this⟩
  select := fun hsel => by
    obtain ⟨-, ⟨-, htb⟩, -, htc⟩ := h.checked.select hsel
    have hb := hm.locals inst.b (by simp [valueOperands, hsel])
    have hc := hm.locals inst.c (by simp [valueOperands, hsel])
    rw [show (context module fn mode).fn.valueType inst.b = inst.type from htb] at hb
    rw [show (context module fn mode).fn.valueType inst.c = inst.type from htc] at hc
    exact ⟨hb, hc⟩
  result := hm.result

/-- What the x86 template does. -/
theorem x86_value (env : Env) (hf : (context module fn mode).FrameOk m 8) :
    (context module fn mode).RunsOrFaults env (firstIndex fn b + i) inst
      ((context module fn mode).emitInst (firstIndex fn b + i) inst) m
      (X86.intValue inst.op inst.type (fn.valueType inst.a)
        ((context module fn mode).gprHome m inst.a) ((context module fn mode).gprHome m inst.b)
        ((context module fn mode).gprHome m inst.c)) :=
  Ctx.emitInst_int (h.intSite mode) hf h.op h.intTyped

end IntegerAt

/-- A template leaves one value. -/
theorem leaves_unique {c : Ctx} {index : Nat} {v v' : BitVec 64} (h : c.Leaves env index inst m v)
    (h' : c.Leaves env index inst m v') : v = v' := by
  obtain ⟨M, he, -, hv⟩ := h
  obtain ⟨M', he', -, hv'⟩ := h'
  rw [he] at he'
  cases he'
  exact hv.symm.trans hv'

theorem not_fault_of_leaves {c : Ctx} {index : Nat} {v : BitVec 64}
    (h : c.Leaves env index inst m v) : X86.exec env (c.emitInst index inst) m ≠ .fault := by
  obtain ⟨M, he, -, -⟩ := h
  rw [he]
  exact fun h => by cases h

/-- The lowerings agree on all other operations. -/
theorem agree_of_not_differ (h : IntegerAt module fn b i inst)
    (hf : (context module fn mode).FrameOk m 8)
    (hm : SameOperands (context module fn mode) inst m s)
    (hd : ¬ LoweringsDiffer inst.op inst.type (fn.valueType inst.a)
      ((context module fn mode).gprHome m inst.a) ((context module fn mode).gprHome m inst.b)) :
    LoweringsAgree (context module fn mode) env (firstIndex fn b + i) inst m s := by
  rw [loweringsDiffer_iff, not_or] at hd
  have hx := h.x86_value env hf
  have hw := Wasm.run_emitInt h.op (h.canonicalOperands hm) (h.operandLocals hm) hd.1
  have hc := fun v => X86.canonical_intValue_iff (v := v) h.op (h.canonicalOperands hm)
  generalize X86.intValue inst.op inst.type (fn.valueType inst.a)
    ((context module fn mode).gprHome m inst.a) ((context module fn mode).gprHome m inst.b)
    ((context module fn mode).gprHome m inst.c) = o at hx hw hc
  cases o with
  | none => exact .inl ⟨hx.faults rfl, hw⟩
  | some v => exact .inr ⟨v, (hc v rfl).2 hd.2, hx.runs v rfl, hw⟩

/-- And not on these. -/
theorem not_agree_of_differ (h : IntegerAt module fn b i inst)
    (hf : (context module fn mode).FrameOk m 8)
    (hm : SameOperands (context module fn mode) inst m s)
    (hd : LoweringsDiffer inst.op inst.type (fn.valueType inst.a)
      ((context module fn mode).gprHome m inst.a) ((context module fn mode).gprHome m inst.b)) :
    ¬ LoweringsAgree (context module fn mode) env (firstIndex fn b + i) inst m s := by
  have hx := h.x86_value env hf
  have hl := h.operandLocals hm
  have hco := h.canonicalOperands hm
  have hinvalid : Wasm.run (Wasm.emitInt fn inst) s = .invalid →
      ¬ LoweringsAgree (context module fn mode) env (firstIndex fn b + i) inst m s := by
    rintro hi (⟨-, ht⟩ | ⟨v, -, -, hw⟩)
    · exact Wasm.Outcome.noConfusion (hi.symm.trans ht)
    · exact Wasm.Outcome.noConfusion (hi.symm.trans hw)
  have hover : X86.Overflows inst.op inst.type ((context module fn mode).gprHome m inst.a)
      ((context module fn mode).gprHome m inst.b) →
      ¬ LoweringsAgree (context module fn mode) env (firstIndex fn b + i) inst m s := by
    intro ho
    obtain ⟨v, hv⟩ := X86.exists_intValue_of_overflows (fn.valueType inst.a)
      ((context module fn mode).gprHome m inst.c) ho
    have hleaves : (context module fn mode).Leaves env (firstIndex fn b + i) inst m v := hx.runs v hv
    rintro (⟨hfault, -⟩ | ⟨v', hcan, hleaves', -⟩)
    · exact not_fault_of_leaves hleaves hfault
    · rw [leaves_unique hleaves' hleaves] at hcan
      exact (X86.canonical_intValue_iff h.op hco hv).1 hcan ho
  rcases (loweringsDiffer_iff ..).1 hd with hodd | ho
  · rcases Wasm.wasmOdd_cases hodd with ⟨hop, ht, hxa, hya⟩ | ⟨hop, ht⟩ | ⟨hop, hno⟩ | ⟨hop, hsrc⟩
    · have hbin : isIntBinary inst.op = true := by rw [hop]; rfl
      have hta := h.checked.same (.inl hbin)
      obtain ⟨-, hlb⟩ := hl.second (.inl hbin)
      have hla := hl.first
      have hr := hl.result
      rw [hta, ht, hxa] at hla
      rw [hta, ht, hya] at hlb
      rw [ht] at hr
      have hnone : X86.intValue inst.op inst.type (fn.valueType inst.a)
          ((context module fn mode).gprHome m inst.a) ((context module fn mode).gprHome m inst.b)
          ((context module fn mode).gprHome m inst.c) = none := by
        rw [hop, ht, hxa, hya]
        simp only [X86.intValue, Wasm.signExtend_i64, X86.idivide_signWord]
        rfl
      rintro (⟨-, htrap⟩ | ⟨v, -, hleaves, -⟩)
      · exact Wasm.Outcome.noConfusion
          ((Wasm.run_srem_overflow hop ht hr hla hlb).symm.trans htrap)
      · exact not_fault_of_leaves hleaves (hx.faults hnone)
    · have hr := hl.result
      rw [ht] at hr
      exact hinvalid (Wasm.run_trunc_wide hop ht hr hl.first)
    · exact hover (by rw [hop]; exact hno)
    · exact hinvalid (Wasm.run_sext_wide hop hsrc h.type hl.result hl.first)
  · exact hover ho

/-- The two lowerings of an integer operation on canonical operands both trap or both
    leave the same canonical value, but for the operations listed. -/
theorem loweringsAgree_iff (h : IntegerAt module fn b i inst)
    (hf : (context module fn mode).FrameOk m 8)
    (hm : SameOperands (context module fn mode) inst m s) :
    LoweringsAgree (context module fn mode) env (firstIndex fn b + i) inst m s ↔
      ¬ LoweringsDiffer inst.op inst.type (fn.valueType inst.a)
        ((context module fn mode).gprHome m inst.a)
        ((context module fn mode).gprHome m inst.b) :=
  ⟨fun ha hd => not_agree_of_differ h hf hm hd ha, agree_of_not_differ h hf hm⟩

/-! ## Operations on two constants -/

/-- An operation on the values 0 and 1. -/
def pairInst (op : Op) (type : Ty) : Inst := { op, type, result := 2, a := 0, b := 1 }

/-- A function that returns the result of an operation on two constants. -/
def pairFn (op : Op) (type src : Ty) (ka kb : BitVec 64) : Function where
  name := "f"
  blocks := [{ insts := [{ op := .constInt, type := src, result := 0, imm := ka },
    { op := .constInt, type := src, result := 1, imm := kb }, pairInst op type,
    { op := .ret, args := [2] }] }]
  values := [{ block := 0, index := 0, type := src }, { block := 0, index := 1, type := src },
    { block := 0, index := 2, type := type }]
  hasBody := true

def pairModule (op : Op) (type src : Ty) (ka kb : BitVec 64) : Module :=
  { functions := [pairFn op type src ka kb], signatures := [{ result := type }] }

/-- The machine at the operation: the constants are in `r10` and `r11`. -/
def pairMachine (x y : BitVec 64) : Machine where
  gpr := fun
    | .rsp => 4096
    | .rbp => 8192
    | .r10 => x
    | .r11 => y
    | _ => 0
  xmm := fun _ => 0
  flags := ⟨false, false, false, false, false⟩
  mem := fun _ => 0

def pairState (type src : Ty) (x y : BitVec 64) : Wasm.State where
  stack := []
  locals := fun v =>
    if v = 0 then Wasm.localOf src x else if v = 1 then Wasm.localOf src y else Wasm.localOf type 0

/-- An outside world in which nothing happens. -/
def idleEnv : Env where
  call := fun _ m => m
  syscall := id
  cpuid := id
  undefFlags := fun m => m.flags
  symbol := fun _ => 0
  sse := fun _ _ x _ => x
  ucomis := fun _ _ _ => ⟨false, false, false, false, false⟩
  i2f := fun _ x _ => x
  f2i := fun _ x => x
  f2f := fun _ x _ => x

section Pair

variable {op : Op} {type src : Ty} {ka kb : BitVec 64}

/-- The allocator put the constants into `r10` and `r11` and needed no frame. -/
structure PairPlaced (c : Ctx) : Prop where
  size : c.frameSize = 0
  first : c.inReg 0 = true ∧ c.valGpr 0 = .r10
  second : c.inReg 1 = true ∧ c.valGpr 1 = .r11

theorem frameOk_pair {c : Ctx} (h : PairPlaced c) (x y : BitVec 64) :
    c.FrameOk (pairMachine x y) 8 where
  size := by
    rw [h.size]
    decide
  above := by
    rw [h.size]
    exact (by decide : (4096 : Int) + 0 ≤ 8192)
  room := (by decide : 8 ≤ 4096)

theorem home_pair {c : Ctx} (h : PairPlaced c) (x y : BitVec 64) :
    c.gprHome (pairMachine x y) 0 = x ∧ c.gprHome (pairMachine x y) 1 = y := by
  rw [Ctx.gprHome, Ctx.gprHome, if_pos h.first.1, if_pos h.second.1, h.first.2, h.second.2]
  exact ⟨rfl, rfl⟩

theorem sameOperands_pair {x y : BitVec 64} {mode : Mode}
    (h : PairPlaced (context (pairModule op type src ka kb) (pairFn op type src ka kb) mode))
    (hops : valueOperands (pairInst op type) = [0, 1]) (ht : isInteger type = true)
    (hx : Canonical src x) (hy : Canonical src y) :
    SameOperands (context (pairModule op type src ka kb) (pairFn op type src ka kb) mode)
      (pairInst op type) (pairMachine x y) (pairState type src x y) := by
  obtain ⟨h0, h1⟩ := home_pair h x y
  refine ⟨fun v hv => ?_, fun v hv => ?_, Wasm.type_localOf ht 0⟩
  · rw [hops] at hv
    simp only [List.mem_cons, List.not_mem_nil, or_false] at hv
    rcases hv with rfl | rfl
    · rw [h0]
      exact hx
    · rw [h1]
      exact hy
  · rw [hops] at hv
    simp only [List.mem_cons, List.not_mem_nil, or_false] at hv
    rcases hv with rfl | rfl
    · rw [h0]
      rfl
    · rw [h1]
      rfl

theorem integerAt_pair
    (hacc : (pairFn op type src ka kb).Accepted (pairModule op type src ka kb))
    (hop : isIntBinary op = true ∨ isIntComparison op = true)
    (hops : valueOperands (pairInst op type) = [0, 1]) (ht : isInteger type = true)
    (hs : isInteger src = true) :
    IntegerAt (pairModule op type src ka kb) (pairFn op type src ka kb) 0 2 (pairInst op type) where
  accepted := hacc
  found := ⟨_, rfl, rfl⟩
  op := by
    rcases hop with h | h <;> simp [Ctx.isIntOp, pairInst, h]
  type := ht
  src := hs
  result := ⟨(by decide : 2 ≠ noValue), (by decide : 2 < 3)⟩
  resultType := rfl
  fresh := by
    rw [hops]
    exact (by decide : 2 ∉ [0, 1])
  unary := by
    rcases hop with h | h <;> cases op <;> first | (cases h; done) | (intro hu; cases hu)

end Pair

theorem placed_srem : PairPlaced (context (pairModule .srem .i64 .i64 (BitVec.intMin 64) (-1))
    (pairFn .srem .i64 .i64 (BitVec.intMin 64) (-1)) .linear) :=
  ⟨by decide, by decide, by decide⟩

/-- On 7 and 2, both leave the remainder 1. -/
theorem srem_agrees : LoweringsAgree (context (pairModule .srem .i64 .i64 (BitVec.intMin 64) (-1))
    (pairFn .srem .i64 .i64 (BitVec.intMin 64) (-1)) .linear) idleEnv (firstIndex
      (pairFn .srem .i64 .i64 (BitVec.intMin 64) (-1)) 0 + 2) (pairInst .srem .i64)
    (pairMachine 7 2) (pairState .i64 .i64 7 2) := by
  refine (loweringsAgree_iff (integerAt_pair (by decide) (.inl rfl) rfl rfl rfl) (frameOk_pair placed_srem 7 2)
    (sameOperands_pair placed_srem (by decide) rfl (by decide) (by decide))).2 ?_
  rintro ⟨-, hx, -⟩
  rw [show (pairInst .srem .i64).a = 0 from rfl, (home_pair placed_srem 7 2).1] at hx
  exact absurd hx (by decide)

/-- On the least number and -1, x86 faults and WebAssembly leaves zero. -/
theorem sremOverflow_disagrees :
    ¬ LoweringsAgree (context (pairModule .srem .i64 .i64 (BitVec.intMin 64) (-1))
      (pairFn .srem .i64 .i64 (BitVec.intMin 64) (-1)) .linear) idleEnv (firstIndex
        (pairFn .srem .i64 .i64 (BitVec.intMin 64) (-1)) 0 + 2) (pairInst .srem .i64)
      (pairMachine (BitVec.intMin 64) (-1)) (pairState .i64 .i64 (BitVec.intMin 64) (-1)) :=
  not_agree_of_differ (integerAt_pair (by decide) (.inl rfl) rfl rfl rfl) (frameOk_pair placed_srem _ _)
    (sameOperands_pair placed_srem (by decide) rfl (by decide) (by decide))
    ⟨rfl, (home_pair placed_srem _ _).1, (home_pair placed_srem _ _).2⟩

end Mirage
