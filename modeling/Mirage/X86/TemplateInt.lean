import Mirage.X86.Template

/-!
# Templates of the integer operations

What the templates of the integer operations compute, on whatever the homes of the
operands hold: `intValue` is the value they leave in the home of the result, `none`
when the processor faults. The templates work at 64 bits and canonicalise at the
width of the type at most, so that an `i1` comes out at 8 bits; comparisons are done at
32 bits for every narrow type.

`emitInst_int` says that the template of an integer operation leaves that value, or
faults, and touches nothing else.
-/

namespace Mirage.X86

variable {env : Env} {c : Ctx} {m m₁ M : Machine} {v : ValueId} {index n : Nat} {inst : Inst}

/-! ## Values -/

/-- The word above a 64-bit dividend. -/
def signWord (x : BitVec 64) : BitVec 64 := if x.msb then BitVec.allOnes 64 else 0

/-- The outcome of an integer comparison of two registers at a width. -/
def compareValue (op : Op) (w : Width) (x y : BitVec 64) : BitVec 64 :=
  if (Ctx.icmpCond op).holds (Alu.flags .cmp (x.setWidth w.bits) (y.setWidth w.bits)) then 1 else 0

/-- The value the template of an integer operation computes from the homes of its
    operands; `src` is the type of its first operand. -/
def intValue (op : Op) (type src : Ty) (x y z : BitVec 64) : Option (BitVec 64) :=
  let w := widthOf type
  match op with
  | .add => some (zeroExtend w (x + y))
  | .sub => some (zeroExtend w (x - y))
  | .mul => some (zeroExtend w (x * y))
  | .and => some (x &&& y)
  | .or => some (x ||| y)
  | .xor => some (x ^^^ y)
  | .sdiv =>
    (idivide (signWord (signExtend w x)) (signExtend w x) (signExtend w y)).map
      fun qr => zeroExtend w qr.1
  | .srem =>
    (idivide (signWord (signExtend w x)) (signExtend w x) (signExtend w y)).map
      fun qr => zeroExtend w qr.2
  | .udiv => (divide 0 x y).map (·.1)
  | .urem => (divide 0 x y).map (·.2)
  -- a 64-bit shift takes its count modulo 64
  | .shl => some (zeroExtend w (x <<< (y.toNat % 64)))
  | .lshr => some (x >>> (y.toNat % 64))
  | .ashr => some (zeroExtend w ((signExtend w x).sshiftRight (y.toNat % 64)))
  | .not =>
    some (if type = .i1 then mergeWidth .w8 x ((x.setWidth 8 ^^^ 1).setWidth 64)
      else zeroExtend w (~~~x))
  | .neg => some (zeroExtend w (-x))
  | .trunc => some (zeroExtend w x)
  | .zext => some x
  | .sext => some (zeroExtend w (signExtend (widthOf src) x))
  | .select => some (if x.setWidth 8 = 0 then z else y)
  | _ => some (compareValue op (if widthOf src = .w64 then .w64 else .w32) x y)

namespace Ctx

/-! ## Sites of integer operations -/

/-- The operations on integers. -/
def isIntOp (op : Op) : Bool :=
  isIntBinary op || isIntComparison op || op == .not || op == .neg || op == .trunc ||
    op == .zext || op == .sext || op == .select

/-- The site of an instruction on integers that is not a call. -/
structure IntSite (c : Ctx) (index : Nat) (inst : Inst) : Prop extends c.Site index inst where
  early : definesLate inst = false
  fresh : inst.result ∉ valueOperands inst
  defines : inst.result ≠ noValue
  int : isFloat (c.fn.valueType inst.result) = false
  operand : ∀ v ∈ valueOperands inst, v ≠ noValue ∧ isFloat (c.fn.valueType v) = false

namespace IntSite

variable (h : c.IntSite index inst)

include h

theorem placed (hv : v ∈ valueOperands inst) : c.IntPlaced v := ⟨h.use v hv, (h.operand v hv).2⟩

theorem placedResult : c.IntPlaced inst.result := ⟨h.result h.defines, h.int⟩

theorem ne_result (hv : v ∈ valueOperands inst) : v ≠ inst.result := fun he => h.fresh (he ▸ hv)

theorem frame_not_mem : .rsp ∉ c.touched index inst ∧ .rbp ∉ c.touched index inst :=
  frame_not_mem_touched h.toSite fun hop => by simpa [definesLate, hop] using h.early

/-- The register of an operand that is excluded is not the one of the result. -/
theorem operand_ne {occ exclude : List PhysReg} (hv : v ∈ valueOperands inst)
    (hex : exclude.length < 14) (hmem : c.inReg v = true → .gpr (c.valGpr v) ∈ exclude)
    (hin : c.inReg v = true) : c.valGpr v ≠ (c.useGpr occ inst.result exclude).1 := by
  refine (useGpr_ne (fun hr => ?_) hex (hmem hin)).symm
  have hne := h.apart v hv (h.ne_result hv) h.defines h.early _ ((h.placed hv).reg_eq hin)
  rw [h.placedResult.reg_eq hr] at hne
  exact fun he => hne (by rw [he])

/-- An operand among the given values is excluded. -/
theorem mem_excl {values : List ValueId} (hv : v ∈ valueOperands inst) (hm : v ∈ values)
    (hin : c.inReg v = true) : .gpr (c.valGpr v) ∈ c.excl values :=
  Mirage.X86.mem_excl hm (h.operand v hv).1 hin ((h.placed hv).reg_eq hin)

end IntSite

/-- A result computed in one register. -/
theorem runs_defTemplate {body : Reg → List Instr} {exclude : List PhysReg} {x : BitVec 64}
    (hs : c.IntSite index inst) (hf : c.FrameOk m 8) (hex : exclude.length < 14)
    (hl : (c.useGpr (c.occupied index) inst.result exclude).2 ∈ c.leases index inst)
    (hbody : ∀ m₁, Near m m₁ →
      Computes env (body (c.useGpr (c.occupied index) inst.result exclude).1)
        (c.useGpr (c.occupied index) inst.result exclude).1 x m₁) :
    c.Runs env index inst (c.defTemplate index inst exclude body) m
      fun M => c.gprHome M inst.result = x :=
  Does.mono (does_defTemplate hf hs.placedResult hex hbody)
    (Set.union_subset (hs.placedResult.homeReg_subset hs.defines) (scratch_subset hl))
    (Set.empty_subset _) (homeBytes_subset hs.defines _) fun _ _ h => h

/-- The first part of a template, which only changes registers it may change. -/
theorem IntSite.runs_append (hs : c.IntSite index inst) {c₁ c₂ : List Instr} {R : Set Reg}
    {Q : Machine → Prop} (he : exec env c₁ m = .next M) (hk : Keeps R ∅ ∅ m M)
    (hR : R ⊆ c.touched index inst) (h : c.Runs env index inst c₂ M Q) :
    c.Runs env index inst (c₁ ++ c₂) m Q := by
  have hk' := hk.mono hR (Set.empty_subset (c.xtouched index inst))
    (Set.empty_subset (c.resultBytes (m.gpr .rbp) inst))
  obtain ⟨M', he', hkM, hq⟩ := h
  rw [hk'.gpr .rbp hs.frame_not_mem.2] at hkM
  exact ⟨M', by rw [exec_append_of_next env he, he'], hk'.trans hkM hs.frame_not_mem.1, hq⟩

/-! ## Two operands -/

/-- Reading the first operand, then combining it with the second one. -/
theorem computes_two {dst : Reg} {op : List Instr} {x y z : BitVec 64} {b : ValueId}
    (hx : c.gprHome m v = x) (hy : c.gprHome m b = y) (hrbp : dst ≠ .rbp)
    (hb : c.inReg b = true → c.valGpr b ≠ dst)
    (hop : ∀ M, M.gpr dst = x → c.gprHome M b = y → Computes env op dst z M) :
    Computes env (c.gprInto v dst ++ op) dst z m := by
  refine (computes_gprInto env c v dst m).append fun M hM => ?_
  exact hop M (hM.value.trans hx) ((gprHome_of_sets hM hrbp hb).trans hy)

/-- The address arithmetic and the two-operand operations on the operands' homes. -/
def binaryValue (op : Op) (type : Ty) (x y : BitVec 64) : BitVec 64 :=
  match op with
  | .mul => zeroExtend (widthOf type) (x * y)
  | .add => zeroExtend (widthOf type) (x + y)
  | .sub => zeroExtend (widthOf type) (x - y)
  | .ptrAdd => x + y
  | .and => x &&& y
  | .or => x ||| y
  | _ => x ^^^ y

/-- What stands between the read of the first operand and the commit. -/
theorem computes_binary (c : Ctx) {dst : Reg} {op : Op} (type : Ty) {x y : BitVec 64} {b : ValueId}
    (hx : m.gpr dst = x) (hy : c.gprHome m b = y) :
    op ∈ [Op.ptrAdd, .add, .sub, .and, .or, .xor, .mul] → Computes env
      (match op with
        | .mul => c.mulOperand dst b ++ canonicalize dst type
        | .ptrAdd => c.aluOperand .add dst b
        | .add | .sub => c.aluOperand (aluOf op) dst b ++ canonicalize dst type
        | op => c.aluOperand (aluOf op) dst b)
      dst (binaryValue op type x y) m := by
  have halu : ∀ alu : Alu, alu ≠ .cmp → Computes env (c.aluOperand alu dst b) dst
      (alu.apply x y) m := fun alu h => by
    have := computes_aluOperand env c h dst b m
    rwa [hx, hy] at this
  have hcanon : ∀ {code : List Instr} {z : BitVec 64}, Computes env code dst z m →
      Computes env (code ++ canonicalize dst type) dst (zeroExtend (widthOf type) z) m :=
    fun h => h.append fun M hM => by
      have := computes_canonicalize env dst type M
      rwa [hM.value] at this
  simp only [List.mem_cons, List.not_mem_nil, or_false]
  rintro (rfl | rfl | rfl | rfl | rfl | rfl | rfl)
  · exact halu .add (by simp)
  · exact hcanon (halu .add (by simp))
  · exact hcanon (halu .sub (by simp))
  · exact halu .and (by simp)
  · exact halu .or (by simp)
  · exact halu .xor (by simp)
  · refine hcanon ?_
    have := computes_mulOperand env c dst b m
    rwa [hx, hy] at this

theorem runs_emitBinary (hs : c.IntSite index inst) (hf : c.FrameOk m 8)
    (hop : inst.op ∈ [Op.ptrAdd, .add, .sub, .and, .or, .xor, .mul])
    (ha : inst.a ∈ valueOperands inst) (hb : inst.b ∈ valueOperands inst) :
    c.Runs env index inst (c.emitBinary index inst) m fun M => c.gprHome M inst.result =
      binaryValue inst.op inst.type (c.gprHome m inst.a) (c.gprHome m inst.b) := by
  have hex : (c.excl [inst.a, inst.b]).length < 14 :=
    lt_of_le_of_lt (length_excl_le c _) (by simp)
  have hl : (c.useGpr (c.occupied index) inst.result (c.excl [inst.a, inst.b])).2 ∈
      c.leases index inst := by
    simp only [List.mem_cons, List.not_mem_nil, or_false] at hop
    rcases hop with h | h | h | h | h | h | h <;> simp [leases, h]
  refine runs_defTemplate hs hf hex hl fun m₁ hn => ?_
  exact computes_two (hn.gprHome hf (hs.placed ha)) (hn.gprHome hf (hs.placed hb))
    (useGpr_ne_frame hs.placedResult).2
    (hs.operand_ne hb hex (hs.mem_excl hb (by simp)))
    fun M hx hy => computes_binary c inst.type hx hy hop

/-! ## One operand -/

/-- `not`, `neg` and the conversions on the operand's home; `src` is its type. -/
def unaryValue (op : Op) (type src : Ty) (x : BitVec 64) : BitVec 64 :=
  let w := widthOf type
  match op with
  | .not => if type = .i1 then mergeWidth .w8 x ((x.setWidth 8 ^^^ 1).setWidth 64)
    else zeroExtend w (~~~x)
  | .neg => zeroExtend w (-x)
  | .trunc => zeroExtend w x
  | .sext => zeroExtend w (signExtend (widthOf src) x)
  | _ => x

/-- A computation in one register, then the canonical form. -/
theorem Computes.canonical {code : List Instr} {dst : Reg} {z : BitVec 64}
    (h : Computes env code dst z m) (type : Ty) :
    Computes env (code ++ canonicalize dst type) dst (zeroExtend (widthOf type) z) m :=
  h.append fun M hM => by
    have := computes_canonicalize env dst type M
    rwa [hM.value] at this

theorem runs_emitUnary (hs : c.IntSite index inst) (hf : c.FrameOk m 8)
    (hop : inst.op ∈ [Op.not, .neg, .trunc, .zext, .ptrToInt, .intToPtr, .sext])
    (ha : inst.a ∈ valueOperands inst) :
    c.Runs env index inst (c.emitUnary index inst) m fun M => c.gprHome M inst.result =
      unaryValue inst.op inst.type (c.fn.valueType inst.a) (c.gprHome m inst.a) := by
  have hex : (c.excl [inst.a]).length < 14 := lt_of_le_of_lt (length_excl_le c _) (by simp)
  have hl : (c.useGpr (c.occupied index) inst.result (c.excl [inst.a])).2 ∈
      c.leases index inst := by
    simp only [List.mem_cons, List.not_mem_nil, or_false] at hop
    rcases hop with h | h | h | h | h | h | h <;> simp [leases, h]
  refine runs_defTemplate hs hf hex hl fun m₁ hn => ?_
  generalize (c.useGpr (c.occupied index) inst.result (c.excl [inst.a])).1 = dst
  have hread := computes_gprInto env c inst.a dst m₁
  have hsigned := computes_gprIntoSigned env c inst.a dst m₁
  rw [hn.gprHome hf (hs.placed ha)] at hread hsigned
  simp only [List.mem_cons, List.not_mem_nil, or_false] at hop
  rcases hop with h | h | h | h | h | h | h <;> simp only [h, unaryValue]
  · by_cases ht : inst.type = .i1
    · rw [if_pos (by simp [ht]), if_pos ht]
      refine hread.append fun M hM => .single rfl rfl ?_
      rw [← hM.value]
      exact (sets_setGpr M dst _).setFlags _
    · rw [if_neg (by simp [ht]), if_neg ht]
      rw [List.append_cons]
      refine Computes.canonical (hread.append fun M hM => ?_) inst.type
      rw [← hM.value]
      exact .single rfl rfl (sets_setGpr M dst _)
  · rw [List.append_cons]
    refine Computes.canonical (hread.append fun M hM => ?_) inst.type
    rw [← hM.value]
    exact .single rfl rfl ((sets_setGpr M dst _).setFlags _)
  · exact Computes.canonical hread inst.type
  · exact hread
  · exact hread
  · exact hread
  · exact Computes.canonical hsigned inst.type

/-- The address of a base plus a constant: the displacement is the low half of the
    constant, sign-extended. -/
theorem runs_emitPtrAddConst (hs : c.IntSite index inst) (hf : c.FrameOk m 8)
    (hop : inst.op = .ptrAddConst) :
    c.Runs env index inst (c.emitPtrAddConst index inst) m fun M => c.gprHome M inst.result =
      c.gprHome m inst.a + (inst.imm.setWidth 32).signExtend 64 := by
  rw [emitPtrAddConst]
  have ha : inst.a ∈ valueOperands inst := by simp [valueOperands, hop]
  have hex : (c.excl [inst.a]).length < 14 := lt_of_le_of_lt (length_excl_le c _) (by simp)
  have hl : (c.useGpr (c.occupied index) inst.result (c.excl [inst.a])).2 ∈
      c.leases index inst := by simp [leases, hop]
  refine runs_defTemplate hs hf hex hl fun m₁ hn => ?_
  generalize (c.useGpr (c.occupied index) inst.result (c.excl [inst.a])).1 = dst
  have hhome := hn.gprHome hf (hs.placed ha)
  rw [← hhome, gprHome]
  split_ifs with hin
  · exact .single rfl rfl (sets_setGpr m₁ dst _)
  · have hread : Computes env [.load .w64 dst .rbp (c.valOff inst.a)] dst
        (m₁.mem.read (m₁.addr .rbp (c.valOff inst.a)) 8) m₁ := .single rfl rfl (sets_setGpr m₁ dst _)
    refine hread.append fun M hM => ?_
    have hload : M.gpr dst = m₁.mem.read (m₁.addr .rbp (c.valOff inst.a)) 8 := hM.value
    rw [← hload]
    exact .single rfl rfl (sets_setGpr M dst _)

/-! ## Shifts -/

/-- A shift by the low six bits of the count. -/
def shiftValue (op : Op) (type : Ty) (x y : BitVec 64) : BitVec 64 :=
  let w := widthOf type
  match op with
  | .shl => zeroExtend w (x <<< (y.toNat % 64))
  | .lshr => x >>> (y.toNat % 64)
  | _ => zeroExtend w ((signExtend w x).sshiftRight (y.toNat % 64))

/-- The shifted operand, read as the shift asks for. -/
theorem computes_shift {dst : Reg} {op : Op} (type : Ty) {x y : BitVec 64}
    (hy : m.gpr .rcx = y) :
    m.gpr dst = (if op = .ashr then signExtend (widthOf type) x else x) →
    op ∈ [Op.shl, .lshr, .ashr] → Computes env
      (match op with
        | .shl => .shlCl dst :: canonicalize dst type
        | .lshr => [.shrCl dst]
        | _ => .sarCl dst :: canonicalize dst type)
      dst (shiftValue op type x y) m := by
  simp only [List.mem_cons, List.not_mem_nil, or_false]
  rintro hx (rfl | rfl | rfl) <;> simp only [reduceCtorEq, if_false, if_true] at hx <;>
    simp only [shiftValue]
  · rw [← hx, ← hy]
    have hshift : Computes env [.shlCl dst] dst (m.gpr dst <<< ((m.gpr .rcx).toNat % 64)) m :=
      .single rfl rfl ((sets_setGpr m dst _).setFlags _)
    exact Computes.canonical hshift type
  · rw [← hx, ← hy]
    exact .single rfl rfl ((sets_setGpr m dst _).setFlags _)
  · rw [← hx, ← hy]
    have hshift : Computes env [.sarCl dst] dst ((m.gpr dst).sshiftRight ((m.gpr .rcx).toNat % 64)) m :=
      .single rfl rfl ((sets_setGpr m dst _).setFlags _)
    exact Computes.canonical hshift type

theorem runs_emitShift (hs : c.IntSite index inst) (hf : c.FrameOk m 8)
    (hop : inst.op ∈ [Op.shl, .lshr, .ashr]) (ha : inst.a ∈ valueOperands inst)
    (htype : c.fn.valueType inst.a = inst.type) :
    c.Runs env index inst (c.emitShift index inst) m fun M => c.gprHome M inst.result =
      shiftValue inst.op inst.type (c.gprHome m inst.a) (c.gprHome m inst.b) := by
  have hex : (c.excl [inst.a, inst.b] ++ [PhysReg.gpr .rcx]).length < 14 :=
    c.length_excl_lt _ _ (by simp)
  have hclob : .gpr .rcx ∈ c.clobbers inst := by
    simp only [List.mem_cons, List.not_mem_nil, or_false] at hop
    rcases hop with h | h | h <;> simp [clobbers, h]
  have hrcx : Reg.rcx ∈ c.touched index inst := .inr (.inl hclob)
  have hl : (c.useGpr (c.occupied index) inst.result (c.excl [inst.a, inst.b] ++ [.gpr .rcx])).2 ∈
      c.leases index inst := by
    simp only [List.mem_cons, List.not_mem_nil, or_false] at hop
    rcases hop with h | h | h <;> simp [leases, h]
  have hane : c.inReg inst.a = true → c.valGpr inst.a ≠ .rcx := fun hin he =>
    hs.clobber hs.early inst.a ha _ ((hs.placed ha).reg_eq hin) (he ▸ hclob)
  rw [emitShift]
  refine ((computes_gprInto env c inst.b .rcx m).does hrcx).append hs.frame_not_mem.1
    fun M _ hM => ?_
  have hM' : c.gprHome M inst.a = c.gprHome m inst.a := gprHome_of_sets hM (by simp) hane
  have hfM := hf.of_gpr (hM.other (r := .rsp) (by simp)) (hM.other (r := .rbp) (by simp))
  rw [← hM.other (r := .rbp) (by simp)]
  refine runs_defTemplate hs hfM hex hl fun m₁ hn => ?_
  have hdst : (c.useGpr (c.occupied index) inst.result
      (c.excl [inst.a, inst.b] ++ [.gpr .rcx])).1 ≠ .rcx :=
    useGpr_ne (fun hin he => hs.clobberResult hs.early hs.defines _
      (hs.placedResult.reg_eq hin) (he ▸ hclob)) hex (by simp)
  generalize (c.useGpr (c.occupied index) inst.result
    (c.excl [inst.a, inst.b] ++ [.gpr .rcx])).1 = dst at hdst
  have hhome := (hn.gprHome hfM (hs.placed ha)).trans hM'
  have hcount : m₁.gpr .rcx = c.gprHome m inst.b := (hn.other (by simp)).trans hM.value
  have hread : Computes env
      (if inst.op == .ashr then c.gprIntoSigned inst.a dst else c.gprInto inst.a dst) dst
      (if inst.op = .ashr then signExtend (widthOf inst.type) (c.gprHome m inst.a)
        else c.gprHome m inst.a) m₁ := by
    rw [← hhome, ← htype]
    simp only [beq_iff_eq]
    split_ifs
    · exact computes_gprIntoSigned env c inst.a dst m₁
    · exact computes_gprInto env c inst.a dst m₁
  exact hread.append fun M' hM' => computes_shift inst.type
    ((hM'.other hdst.symm).trans hcount) hM'.value hop

/-! ## Division -/

/-- The template either runs to its end, with the value, or faults when there is none. -/
structure RunsOrFaults (c : Ctx) (env : Env) (index : Nat) (inst : Inst) (code : List Instr)
    (m : Machine) (value : Option (BitVec 64)) : Prop where
  runs : ∀ x, value = some x → c.Runs env index inst code m fun M => c.gprHome M inst.result = x
  faults : value = none → exec env code m = .fault

/-- The quotient and the remainder of a division instruction. -/
theorem setDiv_spec (env : Env) (m : Machine) (qr : BitVec 64 × BitVec 64) :
    (m.setDiv env qr).gpr .rax = qr.1 ∧ (m.setDiv env qr).gpr .rdx = qr.2 ∧
      Keeps {.rax, .rdx} ∅ ∅ m (m.setDiv env qr) := by
  refine ⟨by simp [Machine.setDiv], by simp [Machine.setDiv], fun r hr => ?_, fun _ _ => rfl,
    fun _ _ _ => rfl⟩
  simp only [Set.mem_insert_iff, Set.mem_singleton_iff, not_or] at hr
  simp [Machine.setDiv, hr.1, hr.2]

/-- The code divides: it leaves the quotient in `rax` and the remainder in `rdx`, or
    faults. -/
structure Divides (env : Env) (code : List Instr) (R : Set Reg) (m : Machine)
    (d : Option (BitVec 64 × BitVec 64)) : Prop where
  runs : ∀ qr, d = some qr →
    Does env code R ∅ ∅ m fun M => M.gpr .rax = qr.1 ∧ M.gpr .rdx = qr.2
  faults : d = none → exec env code m = .fault

theorem divides_single {i : Instr} {d : Option (BitVec 64 × BitVec 64)} (hi : i.control = .straight)
    (h : i.run env m = d.map (m.setDiv env)) : Divides env [i] {.rax, .rdx} m d where
  runs := by
    rintro qr rfl
    obtain ⟨h1, h2, hk⟩ := setDiv_spec env m qr
    exact .single hi h hk ⟨h1, h2⟩
  faults := by
    rintro rfl
    simp only [exec, execFrom, hi, h, Option.map_none]

theorem Divides.mono {code : List Instr} {R R' : Set Reg} {d : Option (BitVec 64 × BitVec 64)}
    (h : Divides env code R m d) (hR : R ⊆ R') : Divides env code R' m d where
  runs := fun qr hd => (h.runs qr hd).mono hR subset_rfl subset_rfl fun _ _ h => h
  faults := h.faults

/-- The two registers of a division are among those the template may change. -/
theorem div_subset_touched
    (hclob : .gpr .rax ∈ c.clobbers inst ∧ .gpr .rdx ∈ c.clobbers inst) :
    ({.rax, .rdx} : Set Reg) ⊆ c.touched index inst := by
  rintro r (rfl | rfl)
  · exact .inr (.inl hclob.1)
  · exact .inr (.inl hclob.2)

/-- A division template: what sets up the dividend, the division, and what follows it
    in the register of the result. -/
theorem runsOrFaults_division (hs : c.IntSite index inst) {pre div post : List Instr}
    {d : Option (BitVec 64 × BitVec 64)} (out : Reg) (f : BitVec 64 → BitVec 64)
    (hout : out = .rax ∨ out = .rdx)
    (hclob : .gpr .rax ∈ c.clobbers inst ∧ .gpr .rdx ∈ c.clobbers inst)
    (hpre : exec env pre m = .next M) (hk : Keeps {.rax, .rdx} ∅ ∅ m M)
    (hdiv : Divides env div (c.touched index inst) M d)
    (hpost : ∀ M, Computes env post out (f (M.gpr out)) M) :
    c.RunsOrFaults env index inst (pre ++ div ++ post ++ c.commitGpr inst.result out) m
      (d.map fun qr => f (if out = .rax then qr.1 else qr.2)) := by
  have hR : ({.rax, .rdx} : Set Reg) ⊆ c.touched index inst := div_subset_touched hclob
  refine ⟨fun x hx => ?_, fun hd => ?_⟩
  · obtain ⟨qr, hd, rfl⟩ := Option.map_eq_some_iff.1 hx
    obtain ⟨M₁, he₁, hk₁, hq, hr⟩ := hdiv.runs qr hd
    obtain ⟨M₂, he₂, hM₂⟩ := hpost M₁
    obtain ⟨M₃, he₃, hhome, hk₃⟩ := exec_commitGpr env c inst.result out M₂
    have hkeep : Keeps (c.touched index inst) (c.xtouched index inst)
        (c.resultBytes (m.gpr .rbp) inst) m M₂ := by
      have h₁ := hk.mono hR (Set.empty_subset (c.xtouched index inst))
        (Set.empty_subset (c.resultBytes (m.gpr .rbp) inst))
      have h₂ := hk₁.mono subset_rfl (Set.empty_subset (c.xtouched index inst))
        (Set.empty_subset (c.resultBytes (m.gpr .rbp) inst))
      refine (h₁.trans h₂ hs.frame_not_mem.1).trans (hM₂.keeps (hR ?_)) hs.frame_not_mem.1
      rcases hout with rfl | rfl <;> simp
    refine ⟨M₃, ?_, ?_, ?_⟩
    · rw [List.append_assoc, List.append_assoc, exec_append_of_next env hpre,
        exec_append_of_next env he₁, exec_append_of_next env he₂, he₃]
    · rw [hkeep.gpr .rbp hs.frame_not_mem.2] at hk₃
      exact hkeep.trans (hk₃.mono (hs.placedResult.homeReg_subset hs.defines) (Set.empty_subset _)
        (homeBytes_subset hs.defines _)) hs.frame_not_mem.1
    · refine (hhome.trans hM₂.value).trans ?_
      rcases hout with rfl | rfl
      · rw [hq]
        rfl
      · rw [hr]
        rfl
  · have hfault : exec env (pre ++ div) m = .fault := by
      rw [exec_append_of_next env hpre]
      exact hdiv.faults (Option.map_eq_none_iff.1 hd)
    exact exec_append_of_fault env (exec_append_of_fault env hfault _) _

theorem runs_emitUnsignedDiv (hs : c.IntSite index inst) (hop : inst.op ∈ [Op.udiv, .urem])
    (hb : inst.b ∈ valueOperands inst) :
    c.RunsOrFaults env index inst (c.emitUnsignedDiv inst) m
      ((divide 0 (c.gprHome m inst.a) (c.gprHome m inst.b)).map
        fun qr => if inst.op = .udiv then qr.1 else qr.2) := by
  have hclob : .gpr .rax ∈ c.clobbers inst ∧ .gpr .rdx ∈ c.clobbers inst := by
    simp only [List.mem_cons, List.not_mem_nil, or_false] at hop
    rcases hop with h | h <;> simp [clobbers, h]
  have hbne : c.inReg inst.b = true → c.valGpr inst.b ≠ .rax ∧ c.valGpr inst.b ≠ .rdx :=
    fun hin => by
      have h := hs.clobber hs.early inst.b hb _ ((hs.placed hb).reg_eq hin)
      exact ⟨fun he => h (he ▸ hclob.1), fun he => h (he ▸ hclob.2)⟩
  -- the dividend in rdx:rax
  obtain ⟨M₁, he₁, hM₁⟩ := computes_gprInto env c inst.a .rax m
  obtain ⟨M₂, he₂, hM₂⟩ : Computes env [.zero .rdx] .rdx 0 M₁ :=
    .single rfl rfl ((sets_setGpr M₁ .rdx 0).setFlags _)
  have he : exec env (c.gprInto inst.a .rax ++ [.zero .rdx]) m = .next M₂ := by
    rw [exec_append_of_next env he₁, he₂]
  have hk : Keeps {.rax, .rdx} ∅ ∅ m M₂ :=
    (hM₁.keeps (by simp)).trans (hM₂.keeps (by simp)) (by simp)
  have hx : M₂.gpr .rax = c.gprHome m inst.a := by rw [hM₂.other (by simp), hM₁.value]
  have hy : c.gprHome M₂ inst.b = c.gprHome m inst.b := by
    rw [gprHome_of_sets hM₂ (by simp) fun hin => (hbne hin).2,
      gprHome_of_sets hM₁ (by simp) fun hin => (hbne hin).1]
  have hdiv : Divides env (if c.inReg inst.b then [.divR (c.valGpr inst.b)]
      else [.divM .rbp (c.valOff inst.b)]) {.rax, .rdx} M₂
      (divide 0 (c.gprHome m inst.a) (c.gprHome m inst.b)) := by
    rw [← hx, ← hM₂.value, ← hy, gprHome]
    split_ifs with hin
    · exact divides_single rfl rfl
    · exact divides_single rfl rfl
  have h := fun out hout => runsOrFaults_division hs out id hout hclob he hk
    (hdiv.mono (div_subset_touched hclob)) fun M => .nil M out
  simp only [List.mem_cons, List.not_mem_nil, or_false] at hop
  rw [emitUnsignedDiv]
  rcases hop with hop | hop
  · simpa [hop] using h .rax (.inl rfl)
  · simpa [hop] using h .rdx (.inr rfl)

/-- The registers a division names are not those of its divisor. -/
theorem IntSite.divisor_ne (hs : c.IntSite index inst)
    (hclob : .gpr .rax ∈ c.clobbers inst ∧ .gpr .rdx ∈ c.clobbers inst)
    (hv : v ∈ valueOperands inst) (hin : c.inReg v = true) :
    c.valGpr v ≠ .rax ∧ c.valGpr v ≠ .rdx := by
  have h := hs.clobber hs.early v hv _ ((hs.placed hv).reg_eq hin)
  exact ⟨fun he => h (he ▸ hclob.1), fun he => h (he ▸ hclob.2)⟩

/-- The division of `rdx:rax` by an operand, sign-extended from its width. -/
theorem divides_signed (hs : c.IntSite index inst) (hf : c.FrameOk m 8)
    (hop : inst.op ∈ [Op.sdiv, .srem]) (hb : inst.b ∈ valueOperands inst) :
    let w := widthOf (c.fn.valueType inst.b)
    Divides env
      (if c.inReg inst.b && w = .w64 then [.idivR (c.valGpr inst.b)]
      else if w = .w64 then [.idivM .rbp (c.valOff inst.b)]
      else
        let l := leaseGpr (c.occupied index)
          (c.excl [inst.a, inst.b, inst.result] ++ [.gpr .rax, .gpr .rdx])
        l.acquire ++ c.gprIntoSigned inst.b l.reg ++ [.idivR l.reg] ++ l.release)
      (c.touched index inst) m
      (idivide (m.gpr .rdx) (m.gpr .rax) (signExtend w (c.gprHome m inst.b))) := by
  intro w
  have hclob : .gpr .rax ∈ c.clobbers inst ∧ .gpr .rdx ∈ c.clobbers inst := by
    simp only [List.mem_cons, List.not_mem_nil, or_false] at hop
    rcases hop with h | h <;> simp [clobbers, h]
  have hR : ({.rax, .rdx} : Set Reg) ⊆ c.touched index inst := div_subset_touched hclob
  by_cases hw : w = .w64
  · rw [hw, signExtend_w64, gprHome]
    simp only [decide_true, Bool.and_true, if_true]
    split_ifs with hin
    · exact Divides.mono (divides_single rfl (by rw [Instr.run])) hR
    · exact Divides.mono (divides_single rfl (by rw [Instr.run])) hR
  · have hex : (c.excl [inst.a, inst.b, inst.result] ++
        [PhysReg.gpr .rax, .gpr .rdx]).length < 14 :=
      c.length_excl_lt _ _ (by simp)
    have hl : leaseGpr (c.occupied index)
        (c.excl [inst.a, inst.b, inst.result] ++ [.gpr .rax, .gpr .rdx]) ∈ c.leases index inst := by
      simp only [List.mem_cons, List.not_mem_nil, or_false] at hop
      rcases hop with h | h <;> simp [leases, h, show widthOf (c.fn.valueType inst.b) ≠ .w64 from hw]
    simp only [hw, decide_false, Bool.and_false, Bool.false_eq_true, if_false]
    obtain ⟨hheld, hnot, -⟩ := @leaseGpr_spec (c.occupied index) _ hex
    have hsane := leaseGpr_sane (c.occupied index)
      (c.excl [inst.a, inst.b, inst.result] ++ [.gpr .rax, .gpr .rdx])
    generalize leaseGpr (c.occupied index)
      (c.excl [inst.a, inst.b, inst.result] ++ [.gpr .rax, .gpr .rdx]) = l at *
    have hrax : l.reg ≠ .rax := fun h => hnot (by simp [h])
    have hrdx : l.reg ≠ .rdx := fun h => hnot (by simp [h])
    have hnear := near_enter l hf.room
    -- inside the bracket: the divisor, then the division
    obtain ⟨M₁, he₁, hM₁⟩ := computes_gprIntoSigned env c inst.b l.reg (l.enter m)
    rw [hnear.gprHome hf (hs.placed hb)] at hM₁
    have hdiv : Divides env [.idivR l.reg] {.rax, .rdx} M₁
        (idivide (M₁.gpr .rdx) (M₁.gpr .rax) (M₁.gpr l.reg)) := divides_single rfl (by rw [Instr.run])
    rw [hM₁.value, hM₁.other hrax.symm, hM₁.other hrdx.symm, hnear.other (by simp),
      hnear.other (by simp)] at hdiv
    simp only [List.append_assoc]
    refine ⟨fun qr hd => ?_, fun hd => ?_⟩
    · obtain ⟨M₂, he₂, hk₂, hq, hr⟩ := hdiv.runs qr hd
      rw [← List.append_assoc (c.gprIntoSigned inst.b l.reg)]
      refine Does.mono (Does.leased (R := {.rax, .rdx}) hsane hf.room
        (Q := fun M => M.gpr .rax = qr.1 ∧ M.gpr .rdx = qr.2) ?_ (by simp) (by simp) ?_)
        (Set.union_subset hR (scratch_subset hl)) subset_rfl subset_rfl fun _ _ h => h
      · refine ⟨M₂, by rw [exec_append_of_next env he₁, he₂], ?_, hq, hr⟩
        have hrsp : Reg.rsp ∉ ({.rax, .rdx} : Set Reg) ∪ l.regs := by
          rintro ((h | h) | h)
          · cases h
          · cases h
          · exact hsane.rsp h.2.symm
        exact (hM₁.keeps (.inr ⟨hheld, rfl⟩)).trans
          (hk₂.mono Set.subset_union_left subset_rfl subset_rfl) hrsp
      · rintro M hk ⟨h1, h2⟩
        rw [Lease.leave]
        split_ifs
        · simp [Machine.pop, hrax.symm, hrdx.symm, h1, h2]
        · exact ⟨h1, h2⟩
    · rw [exec_append_of_next env (exec_acquire l m), exec_append_of_next env he₁]
      exact exec_append_of_fault env (hdiv.faults hd) _

theorem runs_emitSignedDiv (hs : c.IntSite index inst) (hf : c.FrameOk m 8)
    (hop : inst.op ∈ [Op.sdiv, .srem]) (hb : inst.b ∈ valueOperands inst)
    (hta : c.fn.valueType inst.a = inst.type) (htb : c.fn.valueType inst.b = inst.type) :
    let w := widthOf inst.type
    let x := signExtend w (c.gprHome m inst.a)
    c.RunsOrFaults env index inst (c.emitSignedDiv index inst) m
      ((idivide (signWord x) x (signExtend w (c.gprHome m inst.b))).map
        fun qr => zeroExtend w (if inst.op = .sdiv then qr.1 else qr.2)) := by
  intro w x
  have hclob : .gpr .rax ∈ c.clobbers inst ∧ .gpr .rdx ∈ c.clobbers inst := by
    simp only [List.mem_cons, List.not_mem_nil, or_false] at hop
    rcases hop with h | h <;> simp [clobbers, h]
  have hbne := hs.divisor_ne hclob hb
  -- the dividend, sign-extended into rdx:rax
  obtain ⟨M₁, he₁, hM₁⟩ := computes_gprIntoSigned env c inst.a .rax m
  rw [hta] at hM₁
  obtain ⟨M₂, he₂, hM₂⟩ : Computes env [.cqo] .rdx (signWord x) M₁ := by
    refine .single rfl rfl ?_
    rw [hM₁.value]
    exact sets_setGpr M₁ .rdx _
  have he : exec env (c.gprIntoSigned inst.a .rax ++ [.cqo]) m = .next M₂ := by
    rw [exec_append_of_next env he₁, he₂]
  have hk : Keeps {.rax, .rdx} ∅ ∅ m M₂ :=
    (hM₁.keeps (by simp)).trans (hM₂.keeps (by simp)) (by simp)
  have hx : M₂.gpr .rax = x := by rw [hM₂.other (by simp), hM₁.value]
  have hy : c.gprHome M₂ inst.b = c.gprHome m inst.b := by
    rw [gprHome_of_sets hM₂ (by simp) fun hin => (hbne hin).2,
      gprHome_of_sets hM₁ (by simp) fun hin => (hbne hin).1]
  have hfM := hf.of_gpr (hk.gpr .rsp (by simp)) (hk.gpr .rbp (by simp))
  have hdiv : Divides env _ _ M₂ _ := divides_signed hs hfM hop hb
  rw [hy, hx, hM₂.value, htb] at hdiv
  have h := fun out hout => runsOrFaults_division hs out (zeroExtend w) hout hclob he hk hdiv
    fun M => computes_canonicalize env out inst.type M
  simp only [List.mem_cons, List.not_mem_nil, or_false] at hop
  rw [emitSignedDiv, htb]
  rcases hop with hop | hop
  · simpa [hop] using h .rax (.inl rfl)
  · simpa [hop] using h .rdx (.inr rfl)

/-! ## Comparisons -/

theorem zeroExtend_setcc (old : BitVec 64) (b : Bool) :
    zeroExtend .w8 (mergeWidth .w8 old (if b then 1 else 0)) = if b then 1 else 0 := by
  cases b <;> simp [zeroExtend, mergeWidth, Width.bits]

theorem flags_leave (l : Lease) (m : Machine) : (l.leave m).flags = m.flags := by
  rw [Lease.leave]
  split_ifs <;> rfl

/-- The comparison of two operands sets the flags and changes nothing. -/
theorem does_cmp (c : Ctx) {ar : Reg} {w : Width} {x y : BitVec 64} {b : ValueId} {R : Set Reg}
    {X : Set XReg} {A : Set (BitVec 64)} (hw : w = .w64 ∨ w = .w32) (hx : m.gpr ar = x)
    (hy : c.gprHome m b = y) :
    Does env (if c.inReg b then [.aluRr .cmp w ar (c.valGpr b)]
      else [.aluRm .cmp w ar .rbp (c.valOff b)]) R X A m
      fun M => M.flags = Alu.flags .cmp (x.setWidth w.bits) (y.setWidth w.bits) := by
  rw [gprHome] at hy
  split_ifs at hy ⊢ with hin
  · refine .single rfl rfl (keeps_setFlags m _) ?_
    rw [← hx, ← hy]
    rfl
  · refine .single rfl rfl (keeps_setFlags m _) ?_
    have hread : (m.mem.read (m.addr .rbp (c.valOff b)) w.bytes).setWidth w.bits =
        y.setWidth w.bits := by
      rw [← hy]
      rcases hw with rfl | rfl
      · rfl
      · exact Mem.read_low_half _ _
    rw [← hread, ← hx]
    rfl

theorem icmpWidth_cases (c : Ctx) (v : ValueId) : c.icmpWidth v = .w64 ∨ c.icmpWidth v = .w32 := by
  rw [icmpWidth]
  split_ifs <;> simp

theorem runs_emitIcmp (hs : c.IntSite index inst) (hf : c.FrameOk m 8)
    (hop : isIntComparison inst.op = true) (ha : inst.a ∈ valueOperands inst)
    (hb : inst.b ∈ valueOperands inst) :
    c.Runs env index inst (c.emitIcmp index inst) m fun M => c.gprHome M inst.result =
      compareValue inst.op (c.icmpWidth inst.a) (c.gprHome m inst.a) (c.gprHome m inst.b) := by
  have hexa : (c.excl [inst.b, inst.result]).length < 14 :=
    lt_of_le_of_lt (length_excl_le c _) (by simp)
  have hexd : (c.excl [inst.a, inst.b]).length < 14 :=
    lt_of_le_of_lt (length_excl_le c _) (by simp)
  have hl : (c.useGpr (c.occupied index) inst.a (c.excl [inst.b, inst.result])).2 ∈
        c.leases index inst ∧
      (c.useGpr (c.occupied index) inst.result (c.excl [inst.a, inst.b])).2 ∈
        c.leases index inst := by
    cases h : inst.op <;> simp_all [isIntComparison, leases]
  have hcode : c.emitIcmp index inst =
      (c.useGprCode inst.a (c.useGpr (c.occupied index) inst.a (c.excl [inst.b, inst.result])).2 ++
        ((if c.inReg inst.b then [.aluRr .cmp (c.icmpWidth inst.a)
            (c.useGpr (c.occupied index) inst.a (c.excl [inst.b, inst.result])).1 (c.valGpr inst.b)]
          else [.aluRm .cmp (c.icmpWidth inst.a)
            (c.useGpr (c.occupied index) inst.a (c.excl [inst.b, inst.result])).1
            .rbp (c.valOff inst.b)]) ++
          (c.useGpr (c.occupied index) inst.a (c.excl [inst.b, inst.result])).2.release)) ++
      c.defTemplate index inst (c.excl [inst.a, inst.b]) fun dst =>
        [.setcc (icmpCond inst.op) dst, .movzx .w8 dst dst] := by
    simp only [emitIcmp, defTemplate, List.append_assoc]
  rw [hcode]
  -- the comparison
  have hcmp : Does env _ (c.touched index inst) (c.xtouched index inst)
      (c.resultBytes (m.gpr .rbp) inst) m fun M => M.flags = Alu.flags .cmp
        ((c.gprHome m inst.a).setWidth (c.icmpWidth inst.a).bits)
        ((c.gprHome m inst.b).setWidth (c.icmpWidth inst.a).bits) :=
    Does.mono (does_useGpr (R := ∅) (X := ∅) (A := ∅) hf (hs.placed ha) hexa (by simp) (by simp)
      (fun m₁ hin => does_cmp c (icmpWidth_cases c inst.a) hin.value
        (hin.gprHome (useGpr_sane c _ _ _) hf (hs.placed hb) ?_))
      fun M h => (flags_leave _ M).trans h)
      (by simpa using scratch_subset hl.1) (Set.empty_subset _) (Set.empty_subset _) fun _ _ h => h
  · -- the flags become the result
    refine hcmp.append hs.frame_not_mem.1 fun M hk hflags => ?_
    have hfM := hf.of_gpr (hk.gpr .rsp hs.frame_not_mem.1) (hk.gpr .rbp hs.frame_not_mem.2)
    rw [← hk.gpr .rbp hs.frame_not_mem.2]
    refine runs_defTemplate hs hfM hexd hl.2 fun m₁ hn => ?_
    generalize (c.useGpr (c.occupied index) inst.result (c.excl [inst.a, inst.b])).1 = dst
    have hset : Computes env [.setcc (icmpCond inst.op) dst] dst (mergeWidth .w8 (m₁.gpr dst)
        (if (icmpCond inst.op).holds m₁.flags then 1 else 0)) m₁ :=
      .single rfl rfl (sets_setGpr m₁ dst _)
    refine hset.append fun M' hM' => ?_
    have hvalue : zeroExtend .w8 (M'.gpr dst) =
        compareValue inst.op (c.icmpWidth inst.a) (c.gprHome m inst.a) (c.gprHome m inst.b) := by
      rw [hM'.value, zeroExtend_setcc, hn.flags, hflags]
      rfl
    rw [← hvalue]
    exact .single rfl rfl (sets_setGpr M' dst _)
  · exact fun hin hheld => useGpr_lease_ne hexa (hs.mem_excl hb (by simp) hin) hheld

/-! ## Selection -/

/-- The two arms of a `select`: one is skipped, the other one runs. -/
theorem computes_arms {dst : Reg} {first second : List Instr} {skip done : Label} {x y : BitVec 64}
    (hne : skip ≠ done) (hskip : ∀ i ∈ first, i.binds skip = false)
    (hdone : ∀ i ∈ second, i.binds done = false)
    (hx : m.flags.zf = false → Computes env first dst x m)
    (hy : m.flags.zf = true → Computes env second dst y m) :
    Computes env ([.jcc .e skip] ++ first ++ [.jmp done, .bind skip] ++ second ++ [.bind done]) dst
      (if m.flags.zf then y else x) m := by
  simp only [List.append_assoc, List.cons_append, List.nil_append]
  cases hz : m.flags.zf with
  | true =>
    obtain ⟨M, he, hs⟩ := hy hz
    refine ⟨M, ?_, by simpa using hs⟩
    simp only [exec, execFrom, Instr.control, Cond.holds, hz, if_true]
    rw [execFrom_skip env hskip]
    simp only [execFrom, Instr.binds, Bool.false_eq_true, if_false, decide_true, if_true]
    rw [execFrom_append]
    rw [exec] at he
    rw [he]
    rfl
  | false =>
    obtain ⟨M, he, hs⟩ := hx hz
    refine ⟨M, ?_, by simpa using hs⟩
    simp only [exec, execFrom, Instr.control, Cond.holds, hz, Bool.false_eq_true, if_false]
    rw [execFrom_append]
    rw [exec] at he
    rw [he]
    simp only [Outcome.andThen, execFrom, Instr.control, Instr.binds, hne, decide_false,
      Bool.false_eq_true, if_false]
    rw [execFrom_skip env hdone]
    simp [execFrom, Instr.binds]

/-- A register tested against itself is zero or not. -/
theorem zf_test (x : BitVec 64) :
    (Alu.flags .and (x.setWidth 8) (x.setWidth 8)).zf = decide (x.setWidth 8 = 0) := by
  simp only [Alu.flags, Alu.apply, BitVec.and_self]
  rfl

theorem gprInto_binds (c : Ctx) (v : ValueId) (dst : Reg) (l : Label) :
    ∀ i ∈ c.gprInto v dst, i.binds l = false := by
  rw [gprInto]
  split_ifs <;> simp [Instr.binds]

/-- A value outside the lease of the code around an operand is where it was. -/
theorem gprHome_of_scratch {l : Lease} (hl : l.Sane) (hk : Keeps l.scratch ∅ ∅ m M)
    (hf : c.FrameOk m n) (hv : c.IntPlaced v)
    (hne : c.inReg v = true → l.held = true → c.valGpr v ≠ l.reg) :
    c.gprHome M v = c.gprHome m v :=
  gprHome_of_keeps hk hf hv.toPlaced (fun h => hl.rbp h.2.2.symm)
    (fun hin h => hne hin h.1 h.2.2) (by simp)

theorem runs_emitSelect (hs : c.IntSite index inst) (hf : c.FrameOk m 8) (hop : inst.op = .select)
    (hint : isFloat inst.type = false) :
    c.Runs env index inst (c.emitSelect index inst) m fun M => c.gprHome M inst.result =
      if (c.gprHome m inst.a).setWidth 8 = 0 then c.gprHome m inst.c else c.gprHome m inst.b := by
  have hmem : inst.a ∈ valueOperands inst ∧ inst.b ∈ valueOperands inst ∧
      inst.c ∈ valueOperands inst := by simp [valueOperands, hop]
  obtain ⟨ha, hb, hc⟩ := hmem
  have hexa : (c.excl [inst.b, inst.c, inst.result]).length < 14 :=
    lt_of_le_of_lt (length_excl_le c _) (by simp)
  have hexd : (c.excl [inst.a, inst.b, inst.c]).length < 14 :=
    lt_of_le_of_lt (length_excl_le c _) (by simp)
  have hl : (c.useGpr (c.occupied index) inst.a (c.excl [inst.b, inst.c, inst.result])).2 ∈
        c.leases index inst ∧
      (c.useGpr (c.occupied index) inst.result (c.excl [inst.a, inst.b, inst.c])).2 ∈
        c.leases index inst := by simp [leases, hop, hint]
  -- the test of the condition
  obtain ⟨M, he, hk, hzf⟩ : Does env
      (c.useGprCode inst.a (c.useGpr (c.occupied index) inst.a
          (c.excl [inst.b, inst.c, inst.result])).2 ++
        ([.testRr .w8
            (c.useGpr (c.occupied index) inst.a (c.excl [inst.b, inst.c, inst.result])).1
            (c.useGpr (c.occupied index) inst.a (c.excl [inst.b, inst.c, inst.result])).1] ++
          (c.useGpr (c.occupied index) inst.a (c.excl [inst.b, inst.c, inst.result])).2.release))
      (∅ ∪ (c.useGpr (c.occupied index) inst.a (c.excl [inst.b, inst.c, inst.result])).2.scratch)
      ∅ ∅ m fun M => M.flags.zf = decide ((c.gprHome m inst.a).setWidth 8 = 0) := by
    refine does_useGpr hf (hs.placed ha) hexa (by simp) (by simp) (fun m₁ hin => ?_)
      fun M h => (congrArg Flags.zf (flags_leave _ M)).trans h
    refine .single rfl rfl (keeps_setFlags m₁ _) ?_
    rw [← hin.value]
    exact zf_test _
  rw [Set.empty_union] at hk
  have hsane := useGpr_sane c (c.occupied index) inst.a (c.excl [inst.b, inst.c, inst.result])
  have hMb := gprHome_of_scratch hsane hk hf (hs.placed hb) fun hin hheld =>
    useGpr_lease_ne hexa (hs.mem_excl hb (by simp) hin) hheld
  have hMc := gprHome_of_scratch hsane hk hf (hs.placed hc) fun hin hheld =>
    useGpr_lease_ne hexa (hs.mem_excl hc (by simp) hin) hheld
  have hfM := hf.of_gpr (hk.gpr .rsp fun h => hsane.rsp h.2.2.symm)
    (hk.gpr .rbp fun h => hsane.rbp h.2.2.symm)
  -- the arms
  have harms : c.Runs env index inst (c.defTemplate index inst (c.excl [inst.a, inst.b, inst.c])
      fun dst => [.jcc .e (.skip index)] ++ c.gprInto inst.b dst ++
        [.jmp (.done index), .bind (.skip index)] ++ c.gprInto inst.c dst ++ [.bind (.done index)]) M
      fun M => c.gprHome M inst.result = if (c.gprHome m inst.a).setWidth 8 = 0 then
        c.gprHome m inst.c else c.gprHome m inst.b := by
    refine runs_defTemplate hs hfM hexd hl.2 fun m₁ hn => ?_
    generalize (c.useGpr (c.occupied index) inst.result (c.excl [inst.a, inst.b, inst.c])).1 = dst
    have harm := computes_arms (show Label.skip index ≠ .done index by simp)
      (c.gprInto_binds inst.b dst _) (c.gprInto_binds inst.c dst _)
      (fun _ => computes_gprInto env c inst.b dst m₁) fun _ => computes_gprInto env c inst.c dst m₁
    rw [hn.gprHome hfM (hs.placed hb), hn.gprHome hfM (hs.placed hc), hMb, hMc, hn.flags, hzf]
      at harm
    simpa using harm
  have h := hs.runs_append he hk (scratch_subset hl.1) harms
  rw [emitSelect]
  simp only [hint, Bool.false_eq_true, if_false]
  simpa only [List.append_assoc] using h

/-! ## All of them -/

/-- A template that always runs to its end. -/
theorem RunsOrFaults.of_runs {code : List Instr} {x : BitVec 64}
    (h : c.Runs env index inst code m fun M => c.gprHome M inst.result = x) :
    c.RunsOrFaults env index inst code m (some x) where
  runs := fun _ hx => Option.some.inj hx ▸ h
  faults := fun hx => by cases hx

/-- How the verifier wants the operands of an integer operation. -/
structure IntTyped (fn : Function) (inst : Inst) : Prop where
  second : isIntBinary inst.op = true ∨ isIntComparison inst.op = true → inst.b ≠ noValue
  binary : isIntBinary inst.op = true →
    fn.valueType inst.a = inst.type ∧ fn.valueType inst.b = inst.type
  select : inst.op = .select → isFloat inst.type = false

/-- The operations, by their template. -/
theorem isIntOp_cases {op : Op} (h : isIntOp op = true) :
    op ∈ [Op.ptrAdd, .add, .sub, .and, .or, .xor, .mul] ∧ isIntBinary op = true ∨
      op ∈ [Op.shl, .lshr, .ashr] ∨ op ∈ [Op.udiv, .urem] ∨ op ∈ [Op.sdiv, .srem] ∨
      op ∈ [Op.not, .neg, .trunc, .zext, .ptrToInt, .intToPtr, .sext] ∧ op ≠ .ptrToInt ∧
        op ≠ .intToPtr ∨
      isIntComparison op = true ∨ op = .select := by
  cases op <;> first | (cases h; done) | decide

theorem intValue_comparison {op : Op} (h : isIntComparison op = true) (type src : Ty)
    (x y z : BitVec 64) : intValue op type src x y z =
      some (compareValue op (if widthOf src = .w64 then .w64 else .w32) x y) := by
  cases op <;> first | (cases h; done) | rfl

theorem emitInst_comparison (c : Ctx) (index : Nat) (h : isIntComparison inst.op = true) :
    c.emitInst index inst = c.emitIcmp index inst := by
  rw [emitInst]
  cases hop : inst.op <;> rw [hop] at h <;> first | rfl | cases h

theorem mem_valueOperands_first (h : isIntOp inst.op = true) : inst.a ∈ valueOperands inst := by
  rw [valueOperands]
  cases hop : inst.op <;> rw [hop] at h <;>
    first | (cases h; done) | (dsimp only; split_ifs <;> simp) | simp

theorem mem_valueOperands_second
    (h : isIntBinary inst.op = true ∨ isIntComparison inst.op = true) (hb : inst.b ≠ noValue) :
    inst.b ∈ valueOperands inst := by
  rw [valueOperands]
  cases hop : inst.op <;> rw [hop] at h <;> simp_all [isIntBinary, isIntComparison]

/-- The template of an integer operation leaves its value in the home of the result. -/
theorem emitInst_int (hs : c.IntSite index inst) (hf : c.FrameOk m 8) (hop : isIntOp inst.op = true)
    (ht : IntTyped c.fn inst) :
    c.RunsOrFaults env index inst (c.emitInst index inst) m
      (intValue inst.op inst.type (c.fn.valueType inst.a) (c.gprHome m inst.a)
        (c.gprHome m inst.b) (c.gprHome m inst.c)) := by
  have ha := mem_valueOperands_first hop
  have hb := fun h => mem_valueOperands_second h (ht.second h)
  rcases isIntOp_cases hop with ⟨h, hi⟩ | h | h | h | ⟨h, hne⟩ | h | h
  · have hr : c.RunsOrFaults env index inst _ m _ :=
      .of_runs (runs_emitBinary hs hf h ha (hb (.inl hi)))
    simp only [List.mem_cons, List.not_mem_nil, or_false] at h
    rcases h with h | h | h | h | h | h | h <;> simp_all only [emitInst, intValue, binaryValue]
    cases hop
  · have hi : isIntBinary inst.op = true := by
      simp only [List.mem_cons, List.not_mem_nil, or_false] at h
      rcases h with h | h | h <;> rw [h] <;> rfl
    have hr : c.RunsOrFaults env index inst _ m _ :=
      .of_runs (runs_emitShift hs hf h ha (ht.binary hi).1)
    simp only [List.mem_cons, List.not_mem_nil, or_false] at h
    rcases h with h | h | h <;> simp_all only [emitInst, intValue, shiftValue]
  · have hi : isIntBinary inst.op = true := by
      simp only [List.mem_cons, List.not_mem_nil, or_false] at h
      rcases h with h | h <;> rw [h] <;> rfl
    have hr : c.RunsOrFaults env index inst _ m _ := runs_emitUnsignedDiv hs h (hb (.inl hi))
    simp only [List.mem_cons, List.not_mem_nil, or_false] at h
    rcases h with h | h <;> simpa [h, emitInst, intValue] using hr
  · have hi : isIntBinary inst.op = true := by
      simp only [List.mem_cons, List.not_mem_nil, or_false] at h
      rcases h with h | h <;> rw [h] <;> rfl
    have hr : c.RunsOrFaults env index inst _ m _ :=
      runs_emitSignedDiv hs hf h (hb (.inl hi)) (ht.binary hi).1 (ht.binary hi).2
    simp only [List.mem_cons, List.not_mem_nil, or_false] at h
    rcases h with h | h <;> simpa [h, emitInst, intValue] using hr
  · have hr : c.RunsOrFaults env index inst _ m _ := .of_runs (runs_emitUnary hs hf h ha)
    simp only [List.mem_cons, List.not_mem_nil, or_false] at h
    rcases h with h | h | h | h | h | h | h <;>
      simp_all only [emitInst, intValue, unaryValue, ne_eq, not_true_eq_false, and_false, false_and]
  · rw [emitInst_comparison c index h, intValue_comparison h]
    exact .of_runs (runs_emitIcmp hs hf h ha (hb (.inr h)))
  · rw [h]
    simp only [emitInst, h, intValue]
    exact .of_runs (runs_emitSelect hs hf h (ht.select h))

end Ctx

end Mirage.X86
