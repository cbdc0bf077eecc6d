import Mirage.Mir.Aliases

/-!
# What an instruction on constants gives

* `isCopy_of_survivor`: the operand that survives is what the instruction gives;
* `value?_of_fold`: the constant that it folds to is;
* `knows_through`: both where the operands are read through aliases.
-/

namespace Mirage

open Dominators Peep

/-! ## Survivors -/

section

variable {module : Module} {sig : Signature} {fn : Function} {pb : Nat}

/-- The operations that `foldInst` folds. -/
def isArith (op : Op) : Bool := isIntBinary op || isIntComparison op || isIntConversion op

theorem isArith_of_binary {op : Op} (h : isIntBinary op = true) : isArith op = true := by
  rw [isArith, h]
  rfl

/-- An operation of one or two operands has them in its first fields. -/
theorem arith_operands {inst : Inst} (hop : isArith inst.op = true) :
    valueOperands inst = if inst.b ≠ noValue then [inst.a, inst.b] else [inst.a] := by
  unfold valueOperands
  revert hop
  cases inst.op <;> intro hop <;> first | rfl | cases hop

theorem arith_map (f : ValueId → ValueId) {inst : Inst} (hop : isArith inst.op = true) :
    mapValueOperands f inst = if inst.b ≠ noValue then { inst with a := f inst.a, b := f inst.b }
      else { inst with a := f inst.a } := by
  unfold mapValueOperands
  revert hop
  cases inst.op <;> intro hop <;> first | rfl | cases hop

theorem Inst.WellTyped.binary {inst : Inst} (h : inst.WellTyped module fn sig)
    (hop : isIntBinary inst.op = true) :
    fn.Has inst.a (· == inst.type) ∧ fn.Has inst.b (· == inst.type) ∧
      isInteger inst.type = true := by
  cases hcase : inst.op with
  | add | sub | mul | sdiv | udiv | srem | urem | and | or | xor | shl | lshr | ashr =>
    simp only [Inst.WellTyped, hcase] at h
    exact h
  | _ =>
    rw [hcase] at hop
    cases hop

theorem Inst.WellTyped.comparison {inst : Inst} (h : inst.WellTyped module fn sig)
    (hop : isIntComparison inst.op = true) :
    fn.Has inst.a isIntOrPtr ∧ fn.Has inst.b (· == fn.valueType inst.a) ∧ inst.type = .i1 := by
  cases hcase : inst.op with
  | icmpEq | icmpNe | icmpSlt | icmpSle | icmpSgt | icmpSge | icmpUlt | icmpUle | icmpUgt
  | icmpUge =>
    simp only [Inst.WellTyped, hcase] at h
    exact h
  | _ =>
    rw [hcase] at hop
    cases hop

theorem Inst.WellTyped.conversion {inst : Inst} (h : inst.WellTyped module fn sig)
    (hop : isIntConversion inst.op = true) :
    fn.Has inst.a isInteger ∧ isInteger inst.type = true := by
  cases hcase : inst.op with
  | trunc | zext | sext =>
    simp only [Inst.WellTyped, hcase] at h
    exact h.1
  | _ =>
    rw [hcase] at hop
    cases hop

theorem binary_operands {inst : Inst} (h : inst.WellTyped module fn sig)
    (hop : isIntBinary inst.op = true) : valueOperands inst = [inst.a, inst.b] := by
  rw [arith_operands (isArith_of_binary hop), if_pos (h.binary hop).2.1.ne]

theorem value?_binary {inst : Inst} (hop : isIntBinary inst.op = true) (t t' : Ty)
    (x y : BitVec 64) :
    inst.value? pb [(t, x), (t', y)] =
      (binaryAt inst.op (x.setWidth (typeBits inst.type pb))
        (y.setWidth (typeBits inst.type pb))).map (·.setWidth 64) := by
  have hother : isIntConversion inst.op = false ∧ inst.op ≠ .ptrAddConst ∧ inst.op ≠ .ptrAdd ∧
      isIntComparison inst.op = false := by
    revert hop
    cases inst.op <;> decide
  simp only [Inst.value?, hother.1, hother.2, Bool.false_eq_true, if_false]

/-- The registers hold words, and the constants where operands are known. -/
structure Function.Knows (fn : Function) (pb : Nat) (inst : Inst) (a b : Option (BitVec 64))
    (ρ : Regs) : Prop where
  words : ∀ u ∈ valueOperands inst, IsWordOf pb (fn.valueType u) (ρ u)
  first : ∀ k, a = some k → inst.a ∈ valueOperands inst →
    ρ inst.a = wordOf pb (fn.valueType inst.a) k
  second : inst.op ≠ .ptrAddConst → ∀ k, b = some k → inst.b ∈ valueOperands inst →
    ρ inst.b = wordOf pb (fn.valueType inst.b) k

/-- The value is an operand of the instruction, and what it gives. -/
structure Function.IsCopy (fn : Function) (pb : Nat) (inst : Inst) (a b : Option (BitVec 64))
    (s : ValueId) : Prop where
  mem : s ∈ valueOperands inst
  has : fn.Has s (· == inst.type)
  type : inst.type ≠ .void
  value : ∀ ρ, fn.Knows pb inst a b ρ → inst.value? pb (fn.operands inst ρ) = some (ρ s)

theorem isCopy_binary {inst : Inst} (htyped : inst.WellTyped module fn sig)
    (hop : isIntBinary inst.op = true) {a b : Option (BitVec 64)} {s : ValueId}
    (hs : s = inst.a ∨ s = inst.b)
    (hcopy : ∀ ρ, fn.Knows pb inst a b ρ →
      binaryAt inst.op ((ρ inst.a).setWidth (typeBits inst.type pb))
        ((ρ inst.b).setWidth (typeBits inst.type pb)) =
          some ((ρ s).setWidth (typeBits inst.type pb))) : fn.IsCopy pb inst a b s := by
  obtain ⟨ha, hb, hint⟩ := htyped.binary hop
  have hops := binary_operands htyped hop
  have hmem : s ∈ valueOperands inst := by
    rw [hops]
    rcases hs with rfl | rfl
    · exact List.mem_cons_self
    · exact List.mem_cons_of_mem _ List.mem_cons_self
  have hhas : fn.Has s (· == inst.type) := by
    rcases hs with rfl | rfl
    · exact ha
    · exact hb
  refine ⟨hmem, hhas, fun hvoid => ?_, fun ρ hknows => ?_⟩
  · rw [hvoid] at hint
    cases hint
  · have hws := hknows.words s hmem
    rw [beq_iff_eq.1 hhas.2] at hws
    rw [Function.operands, hops, List.map_cons, List.map_singleton, value?_binary hop,
      hcopy ρ hknows, Option.map_some, setWidth_setWidth_eq hws]

theorem binaryAt_zero {n : Nat} (hn : 0 < n) (x : BitVec n) :
    binaryAt .add x 0 = some x ∧ binaryAt .or x 0 = some x ∧ binaryAt .xor x 0 = some x ∧
      binaryAt .sub x 0 = some x ∧ binaryAt .shl x 0 = some x ∧ binaryAt .lshr x 0 = some x ∧
      binaryAt .ashr x 0 = some x ∧ binaryAt .add 0 x = some x := by
  simp [binaryAt, hn.ne']

theorem binaryAt_one {n : Nat} (x : BitVec n) :
    binaryAt .mul x ((1 : BitVec 64).setWidth n) = some x ∧
      binaryAt .mul ((1 : BitVec 64).setWidth n) x = some x := by
  have hone : (1#64).setWidth n = 1#n := by
    apply BitVec.eq_of_toNat_eq
    simp
  simp [binaryAt, hone]

/-- The operand that survives is what the instruction gives. -/
theorem isCopy_of_survivor {inst : Inst} (htyped : inst.WellTyped module fn sig)
    {a b : Option (BitVec 64)} {s : ValueId} (h : survivorOf inst a b = some s) :
    fn.IsCopy pb inst a b s := by
  -- the constant of an operand, at the width of the operation
  have hconst (hop : isIntBinary inst.op = true) : 0 < typeBits inst.type pb ∧
      ∀ ρ, fn.Knows pb inst a b ρ →
        (∀ k, a = some k → (ρ inst.a).setWidth (typeBits inst.type pb) =
          k.setWidth (typeBits inst.type pb)) ∧
        ∀ k, b = some k → (ρ inst.b).setWidth (typeBits inst.type pb) =
          k.setWidth (typeBits inst.type pb) := by
    obtain ⟨hta, htb, hint⟩ := htyped.binary hop
    have hops := binary_operands htyped hop
    have hne : inst.op ≠ .ptrAddConst := by
      intro heq
      rw [heq] at hop
      cases hop
    refine ⟨?_, fun ρ hknows => ⟨fun k hk => ?_, fun k hk => ?_⟩⟩
    · have hmem := typeBits_of_isInteger hint pb
      simp only [List.mem_cons, List.not_mem_nil, or_false] at hmem
      omega
    · rw [hknows.first k hk (by simp [hops]), beq_iff_eq.1 hta.2, setWidth_wordOf hint]
    · rw [hknows.second hne k hk (by simp [hops]), beq_iff_eq.1 htb.2, setWidth_wordOf hint]
  have hzero (n : Nat) : (0 : BitVec 64).setWidth n = 0 := BitVec.setWidth_zero n 64
  cases hop : inst.op with
  | add =>
    obtain ⟨hpos, hconst⟩ := hconst (by rw [hop]; rfl)
    simp only [survivorOf, hop] at h
    split_ifs at h with hb0 ha0
    · obtain rfl := Option.some.inj h
      refine isCopy_binary htyped (by rw [hop]; rfl) (.inl rfl) fun ρ hknows => ?_
      rw [hop, (hconst ρ hknows).2 0 hb0, hzero]
      exact (binaryAt_zero hpos _).1
    · obtain rfl := Option.some.inj h
      refine isCopy_binary htyped (by rw [hop]; rfl) (.inr rfl) fun ρ hknows => ?_
      rw [hop, (hconst ρ hknows).1 0 ha0.2, hzero]
      exact (binaryAt_zero hpos _).2.2.2.2.2.2.2
  | or | xor =>
    obtain ⟨hpos, hconst⟩ := hconst (by rw [hop]; rfl)
    simp only [survivorOf, hop, reduceCtorEq, false_and, if_false] at h
    split_ifs at h with hb0
    obtain rfl := Option.some.inj h
    refine isCopy_binary htyped (by rw [hop]; rfl) (.inl rfl) fun ρ hknows => ?_
    rw [hop, (hconst ρ hknows).2 0 hb0, hzero]
    first
      | exact (binaryAt_zero hpos _).2.1
      | exact (binaryAt_zero hpos _).2.2.1
  | sub | shl | lshr | ashr =>
    obtain ⟨hpos, hconst⟩ := hconst (by rw [hop]; rfl)
    simp only [survivorOf, hop] at h
    split_ifs at h with hb0
    obtain rfl := Option.some.inj h
    refine isCopy_binary htyped (by rw [hop]; rfl) (.inl rfl) fun ρ hknows => ?_
    rw [hop, (hconst ρ hknows).2 0 hb0, hzero]
    first
      | exact (binaryAt_zero hpos _).2.2.2.1
      | exact (binaryAt_zero hpos _).2.2.2.2.1
      | exact (binaryAt_zero hpos _).2.2.2.2.2.1
      | exact (binaryAt_zero hpos _).2.2.2.2.2.2.1
  | mul =>
    obtain ⟨-, hconst⟩ := hconst (by rw [hop]; rfl)
    simp only [survivorOf, hop] at h
    split_ifs at h with hb1 ha1
    · obtain rfl := Option.some.inj h
      refine isCopy_binary htyped (by rw [hop]; rfl) (.inl rfl) fun ρ hknows => ?_
      rw [hop, (hconst ρ hknows).2 1 hb1]
      exact (binaryAt_one _).1
    · obtain rfl := Option.some.inj h
      refine isCopy_binary htyped (by rw [hop]; rfl) (.inr rfl) fun ρ hknows => ?_
      rw [hop, (hconst ρ hknows).1 1 ha1]
      exact (binaryAt_one _).2
  | ptrAdd =>
    simp only [survivorOf, hop] at h
    split_ifs at h with hb0
    obtain rfl := Option.some.inj h
    simp only [Inst.WellTyped, hop] at htyped
    have hops : valueOperands inst = [inst.a, inst.b] := by simp only [valueOperands, hop]
    have hzero' : wordOf pb (fn.valueType inst.b) 0 = 0 := by
      rw [wordOf, hzero]
      exact BitVec.setWidth_zero 64 _
    refine ⟨by simp [hops], ⟨htyped.1.1, by rw [htyped.2.2]; exact htyped.1.2⟩,
      by rw [htyped.2.2]; decide, fun ρ hknows => ?_⟩
    have hws := hknows.words inst.a (by simp [hops])
    rw [beq_iff_eq.1 htyped.1.2, ← htyped.2.2] at hws
    rw [Function.operands, hops, List.map_cons, List.map_singleton,
      hknows.second (by rw [hop]; decide) 0 hb0 (by simp [hops]), hzero']
    simp only [Inst.value?, hop, isIntConversion, reduceCtorEq, if_false, if_true,
      add_zero, show ((Op.ptrAdd == Op.trunc || Op.ptrAdd == Op.zext ||
        Op.ptrAdd == Op.sext) = true) = False by decide]
    rw [setWidth_setWidth_eq hws]
  | ptrAddConst =>
    simp only [survivorOf, hop] at h
    split_ifs at h with himm
    obtain rfl := Option.some.inj h
    simp only [Inst.WellTyped, hop] at htyped
    have hops : valueOperands inst = [inst.a] := by simp only [valueOperands, hop]
    refine ⟨by simp [hops], ⟨htyped.1.1, by rw [htyped.2]; exact htyped.1.2⟩,
      by rw [htyped.2]; decide, fun ρ hknows => ?_⟩
    have hws := hknows.words inst.a (by simp [hops])
    rw [beq_iff_eq.1 htyped.1.2, ← htyped.2] at hws
    rw [Function.operands, hops, List.map_singleton]
    simp only [Inst.value?, hop, isIntConversion, if_true, if_false, himm, add_zero,
      show ((Op.ptrAddConst == Op.trunc || Op.ptrAddConst == Op.zext ||
        Op.ptrAddConst == Op.sext) = true) = False by decide]
    rw [setWidth_setWidth_eq hws]
  | _ =>
    simp only [survivorOf, hop] at h
    cases h

/-- Operands that can survive, or be constants, are renamed in their fields. -/
theorem mapValueOperands_fields {f : ValueId → ValueId} (hf : f noValue = noValue) {inst : Inst}
    (hop : isArith inst.op = true ∨ inst.op = .ptrAdd ∨ inst.op = .ptrAddConst) :
    (mapValueOperands f inst).a = f inst.a ∧
      (inst.op ≠ .ptrAddConst → (mapValueOperands f inst).b = f inst.b) := by
  rcases hop with hop | hop | hop
  · rw [arith_map f hop]
    split
    · exact ⟨rfl, fun _ => rfl⟩
    · rename_i hb
      exact ⟨rfl, fun _ => by rw [not_not.1 hb, hf]⟩
  · exact ⟨by simp only [mapValueOperands, hop], fun _ => by simp only [mapValueOperands, hop]⟩
  · exact ⟨by simp only [mapValueOperands, hop], fun hne => absurd hop hne⟩

theorem op_of_survivor {inst : Inst} {a b : Option (BitVec 64)} {s : ValueId}
    (h : survivorOf inst a b = some s) : definesValue inst.op = true ∧
      (isArith inst.op = true ∨ inst.op = .ptrAdd ∨ inst.op = .ptrAddConst) := by
  cases hop : inst.op with
  | add | or | xor | sub | shl | lshr | ashr | mul | ptrAdd | ptrAddConst => decide
  | _ =>
    simp only [survivorOf, hop] at h
    cases h

/-- It is renamed with the operands. -/
theorem survivorOf_map {f : ValueId → ValueId} (hf : f noValue = noValue) {inst : Inst}
    {a b : Option (BitVec 64)} {s : ValueId} (h : survivorOf inst a b = some s) :
    survivorOf (mapValueOperands f inst) a b = some (f s) := by
  obtain ⟨ha, hb⟩ := mapValueOperands_fields hf (op_of_survivor h).2
  have himm : inst.op = .ptrAddConst → (mapValueOperands f inst).imm = inst.imm := by
    intro hop
    simp only [mapValueOperands, hop]
  unfold survivorOf at h ⊢
  rw [mapValueOperands_op, ha]
  cases hop : inst.op with
  | add | or | xor | mul =>
    rw [hb (by rw [hop]; decide)]
    simp only [hop] at h ⊢
    split_ifs at h ⊢ <;> cases h <;> rfl
  | sub | shl | lshr | ashr | ptrAdd =>
    simp only [hop] at h ⊢
    split_ifs at h ⊢
    cases h
    rfl
  | ptrAddConst =>
    rw [himm hop]
    simp only [hop] at h ⊢
    split_ifs at h ⊢
    cases h
    rfl
  | _ =>
    simp only [hop] at h
    cases h

end

/-! ## Constants -/

/-- The constants that are known are the results of instructions of the blocks. -/
def ConstsOf (blocks : List Block) (consts : Consts) : Prop :=
  ∀ v c, consts.lookup v = some c → c.isInt = true →
    ∃ inst ∈ blocks.flatMap Block.insts, inst.result = v ∧ inst.op = .constInt ∧ inst.imm = c.value

section

variable {module : Module} {sig : Signature} {fn : Function} {pb : Nat}

theorem mem_insts_through {m : Remap} {inst : Inst} (hop : inst.op = .constInt)
    (h : inst ∈ fn.blocks.flatMap Block.insts) :
    ∃ block ∈ (fn.through m).blocks, inst ∈ block.insts := by
  obtain ⟨block, hblock, hinst⟩ := List.mem_flatMap.1 h
  refine ⟨_, List.mem_map_of_mem hblock, List.mem_map.2 ⟨inst, hinst, ?_⟩⟩
  simp only [mapValueOperands, hop]

theorem exists_of_intOf {consts : Consts} {m : Remap} {v : ValueId} {k : BitVec 64}
    (h : intOf consts m v = some k) :
    ∃ c, consts.lookup (resolve m v) = some c ∧ c.isInt = true ∧ c.value = k := by
  rw [intOf, constOf] at h
  split at h
  · rename_i c hc
    split_ifs at h with hint
    exact ⟨c, hc, hint, Option.some.inj h⟩
  · cases h

/-- A constant that is known is the word of the value. -/
theorem const_word {m : Remap} (h : (fn.through m).Ssa module sig) {consts : Consts}
    (hconsts : ConstsOf fn.blocks consts) {b : BlockId} {pre : List Inst} {ρ : Regs}
    (hholds : (fn.through m).Holds pb b pre ρ) {v : ValueId}
    (hv : (fn.through m).Avail b pre (resolve m v)) {k : BitVec 64}
    (hk : intOf consts m v = some k) :
    ρ (resolve m v) = wordOf pb (fn.valueType (resolve m v)) k := by
  obtain ⟨c, hc, hint, rfl⟩ := exists_of_intOf hk
  obtain ⟨inst, hinst, hresult, hop, himm⟩ := hconsts _ c hc hint
  -- a constant has no operands: it is the same instruction where it is read through aliases
  obtain ⟨block, hblock, hmem⟩ := mem_insts_through (m := m) hop hinst
  have hdef : (fn.through m).DefinedBy (resolve m v) inst :=
    ⟨hresult, hv.1, block, hblock, hmem⟩
  have htype := h.recorded block hblock inst hmem (hresult ▸ hv.1)
  rw [hresult] at htype
  have hvalue : inst.value? pb ((fn.through m).operands inst ρ) =
      some (wordOf pb inst.type inst.imm) := by
    have hnil : (fn.through m).operands inst ρ = [] := by
      rw [Function.operands, valueOperands.eq_def, hop]
      rfl
    rw [hnil]
    simp only [Inst.value?, hop]
  rw [hholds.value _ inst hv hdef _ hvalue, himm]
  exact congrArg (fun type => wordOf pb type c.value) htype.symm

theorem foldInst_map (f : ValueId → ValueId) (inst : Inst) (src : Ty)
    (a b : Option (BitVec 64)) :
    foldInst pb (mapValueOperands f inst) src a b = foldInst pb inst src a b := by
  simp only [foldInst, mapValueOperands_op, mapValueOperands_type]

theorem arith_of_foldInst {inst : Inst} {src : Ty} {a b : Option (BitVec 64)}
    {folded : Ty × BitVec 64} (h : foldInst pb inst src a b = some folded) :
    isArith inst.op = true := by
  rw [foldInst.eq_def] at h
  rw [isArith]
  split_ifs at h with hbinary hcompare hconvert
  · rw [(Bool.and_eq_true_iff.1 hbinary).1]
    rfl
  · rw [(Bool.and_eq_true_iff.1 hcompare).1, Bool.or_true]
    rfl
  · rw [hconvert, Bool.or_true]

/-- The operands of an arithmetic instruction have the types that its op needs. -/
theorem Inst.WellTyped.arith {inst : Inst} (h : inst.WellTyped module fn sig)
    (hop : isArith inst.op = true) :
    inst.a ≠ noValue ∧ isInteger inst.type = true ∧
      (isIntConversion inst.op = false →
        inst.b ≠ noValue ∧ fn.valueType inst.b = fn.valueType inst.a) := by
  rcases Bool.or_eq_true_iff.1 hop with hop | hop
  · rcases Bool.or_eq_true_iff.1 hop with hop | hop
    · obtain ⟨ha, hb, hint⟩ := h.binary hop
      exact ⟨ha.ne, hint, fun _ => ⟨hb.ne, by rw [beq_iff_eq.1 ha.2, beq_iff_eq.1 hb.2]⟩⟩
    · obtain ⟨ha, hb, htype⟩ := h.comparison hop
      exact ⟨ha.ne, by rw [htype]; rfl, fun _ => ⟨hb.ne, beq_iff_eq.1 hb.2⟩⟩
  · obtain ⟨ha, hint⟩ := h.conversion hop
    refine ⟨ha.ne, hint, fun hnot => ?_⟩
    rw [hop] at hnot
    cases hnot

theorem value?_conversion {inst : Inst} (hop : isIntConversion inst.op = true)
    (x : Ty × BitVec 64) (rest rest' : List (Ty × BitVec 64)) :
    inst.value? pb (x :: rest) = inst.value? pb (x :: rest') := by
  simp only [Inst.value?, hop, if_true]

theorem Inst.arith_ne {inst : Inst} (hop : isArith inst.op = true) :
    inst.op ≠ .ptrAddConst ∧ inst.op ≠ .constInt ∧ definesValue inst.op = true := by
  revert hop
  cases inst.op <;> decide

/-- An instruction on constants gives what it folds to. -/
theorem value?_of_fold {inst : Inst} (htyped : inst.WellTyped module fn sig)
    {a b : Option (BitVec 64)} {t : Ty} {v : BitVec 64}
    (h : foldInst pb inst (fn.valueType inst.a) a b = some (t, v)) :
    t = inst.type ∧ ∀ ρ, fn.Knows pb inst a b ρ →
      inst.value? pb (fn.operands inst ρ) = some (wordOf pb inst.type v) := by
  have hop := arith_of_foldInst h
  have hops := arith_operands hop
  obtain ⟨-, hint, hpair⟩ := htyped.arith hop
  have hcompare (hop : isIntComparison inst.op = true) := (htyped.comparison hop).2.2
  obtain ⟨rfl, ka, hka, hvalue⟩ := value?_of_foldInst h
    (fun hop => beq_iff_eq.1 (htyped.binary hop).1.2)
    (fun hop => ⟨(htyped.conversion hop).1.2, hint⟩) hcompare
  refine ⟨rfl, fun ρ hknows => ?_⟩
  have ha : ρ inst.a = wordOf pb (fn.valueType inst.a) ka := by
    refine hknows.first ka hka ?_
    rw [hops]
    split
    · exact List.mem_cons_self
    · exact List.mem_cons_self
  have hsome : inst.value? pb (fn.operands inst ρ) = some v := by
    -- a conversion reads its first operand only
    by_cases hconvert : isIntConversion inst.op = true
    · have hsome : inst.value? pb [(fn.valueType inst.a, ρ inst.a)] = some v := by
        rw [ha]
        rcases hvalue with ⟨-, hvalue⟩ | ⟨kb, -, hvalue⟩
        · exact hvalue []
        · rw [value?_conversion hconvert _ [] [(.void, wordOf pb (fn.valueType inst.a) kb)]]
          exact hvalue .void []
      rw [Function.operands, hops]
      split
      · rw [List.map_cons, value?_conversion hconvert _ _ []]
        exact hsome
      · exact hsome
    · obtain ⟨hbne, htype⟩ := hpair (by simpa using hconvert)
      obtain ⟨kb, hkb, hvalue⟩ := hvalue.resolve_left fun hleft => hconvert hleft.1
      rw [if_pos hbne] at hops
      have hb := hknows.second (Inst.arith_ne hop).1 kb hkb (by simp [hops])
      rw [htype] at hb
      rw [Function.operands, hops, List.map_cons, List.map_singleton, ha, hb]
      exact hvalue _ []
  rw [wordOf_of_isWordOf (Inst.isWordOf_of_value? hsome hcompare)]
  exact hsome

/-- What the pass knows of the operands of an instruction. -/
theorem knows_through {m : Remap} (h : (fn.through m).Ssa module sig) {consts : Consts}
    (hconsts : ConstsOf fn.blocks consts) {inst : Inst}
    (hop : isArith inst.op = true ∨ inst.op = .ptrAdd ∨ inst.op = .ptrAddConst)
    {b : BlockId} {pre : List Inst} {ρ : Regs} (hholds : (fn.through m).Holds pb b pre ρ)
    (havail : ∀ u ∈ valueOperands (mapValueOperands (resolveOperand m) inst),
      (fn.through m).Avail b pre u) :
    (fn.through m).Knows pb (mapValueOperands (resolveOperand m) inst) (intOf consts m inst.a)
      (intOf consts m inst.b) ρ := by
  obtain ⟨ha, hb⟩ := mapValueOperands_fields (resolveOperand_noValue m) hop
  have hword {v : ValueId} {k : BitVec 64} (hk : intOf consts m v = some k)
      (hmem : resolveOperand m v ∈ valueOperands (mapValueOperands (resolveOperand m) inst)) :
      ρ (resolveOperand m v) = wordOf pb (fn.valueType (resolveOperand m v)) k := by
    have hv := havail _ hmem
    have hne : v ≠ noValue := by
      rintro rfl
      exact hv.1 (resolveOperand_noValue m)
    rw [resolveOperand_of_ne m hne] at hv ⊢
    exact const_word h hconsts hholds hv hk
  refine ⟨fun u hu => hholds.word u (havail u hu), fun k hk hmem => ?_, fun hne k hk hmem => ?_⟩
  · rw [ha] at hmem ⊢
    exact hword hk hmem
  · rw [mapValueOperands_op] at hne
    rw [hb hne] at hmem ⊢
    exact hword hk hmem

end

end Mirage
