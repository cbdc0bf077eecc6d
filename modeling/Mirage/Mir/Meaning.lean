import Mirage.Lib.Width
import Mirage.Mir.Fold
import Mirage.Mir.Typing

/-!
# The meaning of MIR

What a function does, as far as the passes need it. The integers, the addresses and the
conversions between integers have the meaning that the op and the types give (`Inst.value?`).
Everything else is left to a `Host`: memory, floats, calls, and the results of what is undefined
for integers, such as a division by zero.

A run counts its blocks (`Function.run`): it ends with the values that are returned, goes on when
the count is used up, or goes wrong, which is what traps and malformed code do.
-/

namespace Mirage

/-! ## Values -/

/-- The word is one of the type. -/
def IsWordOf (pb : Nat) (type : Ty) (x : BitVec 64) : Prop := x.toNat < 2 ^ typeBits type pb

/-- The word of a type that a number stands for. -/
def wordOf (pb : Nat) (type : Ty) (k : BitVec 64) : BitVec 64 :=
  (k.setWidth (typeBits type pb)).setWidth 64

/-- The integer operations at a width. -/
def binaryAt {n : Nat} (op : Op) (x y : BitVec n) : Option (BitVec n) :=
  match op with
  | .add => some (x + y)
  | .sub => some (x - y)
  | .mul => some (x * y)
  | .udiv => if y = 0 then none else some (x / y)
  | .urem => if y = 0 then none else some (x % y)
  -- a narrow quotient out of range wraps, a wide one has no meaning
  | .sdiv => if y = 0 ∨ n = 64 ∧ x = BitVec.intMin n ∧ y = -1 then none else some (x.sdiv y)
  | .srem => if y = 0 ∨ n = 64 ∧ x = BitVec.intMin n ∧ y = -1 then none else some (x.srem y)
  | .and => some (x &&& y)
  | .or => some (x ||| y)
  | .xor => some (x ^^^ y)
  | .shl => if y.toNat ≥ n then none else some (x <<< y.toNat)
  | .lshr => if y.toNat ≥ n then none else some (x >>> y.toNat)
  | .ashr => if y.toNat ≥ n then none else some (x.sshiftRight y.toNat)
  | _ => none

/-- The comparisons at a width. -/
def compareAt {n : Nat} (op : Op) (x y : BitVec n) : Option Bool :=
  match op with
  | .icmpEq => some (x = y)
  | .icmpNe => some (x ≠ y)
  | .icmpUlt => some (x.ult y)
  | .icmpUle => some (x.ule y)
  | .icmpUgt => some (y.ult x)
  | .icmpUge => some (y.ule x)
  | .icmpSlt => some (x.slt y)
  | .icmpSle => some (x.sle y)
  | .icmpSgt => some (y.slt x)
  | .icmpSge => some (y.sle x)
  | _ => none

/-- The conversions between integers. -/
def convertAt {m n : Nat} (op : Op) (x : BitVec m) : Option (BitVec n) :=
  match op with
  | .trunc | .zext => some (x.setWidth n)
  | .sext => some (x.signExtend n)
  | _ => none

/-- The value of an instruction on operands of the types, where its op gives it one. -/
def Inst.value? (pb : Nat) (inst : Inst) (operands : List (Ty × BitVec 64)) :
    Option (BitVec 64) :=
  let n := typeBits inst.type pb
  match operands with
  | [] =>
    match inst.op with
    | .constInt => some (wordOf pb inst.type inst.imm)
    | .constNull => some 0
    | _ => none
  | (src, x) :: rest =>
    if isIntConversion inst.op then
      (convertAt inst.op (x.setWidth (typeBits src pb)) : Option (BitVec n)).map (·.setWidth 64)
    else if inst.op = .ptrAddConst then some (((x + inst.imm).setWidth n).setWidth 64)
    else
      match rest with
      | [] => none
      | (_, y) :: _ =>
        if inst.op = .ptrAdd then some (((x + y).setWidth n).setWidth 64)
        else if isIntComparison inst.op then
          (compareAt inst.op (x.setWidth (typeBits src pb)) (y.setWidth (typeBits src pb))).map
            fun b => if b then 1 else 0
        else (binaryAt inst.op (x.setWidth n) (y.setWidth n)).map (·.setWidth 64)

theorem isWordOf_setWidth {pb : Nat} {type : Ty} (x : BitVec (typeBits type pb)) :
    IsWordOf pb type (x.setWidth 64) := by
  rw [IsWordOf, BitVec.toNat_setWidth]
  exact (Nat.mod_le _ _).trans_lt x.isLt

theorem wordOf_of_isWordOf {pb : Nat} {type : Ty} {x : BitVec 64} (h : IsWordOf pb type x) :
    wordOf pb type x = x := setWidth_setWidth_eq h

/-- A value that an instruction has is one of its type. -/
theorem Inst.isWordOf_of_value? {pb : Nat} {inst : Inst} {operands : List (Ty × BitVec 64)}
    {x : BitVec 64} (h : inst.value? pb operands = some x)
    (hcompare : isIntComparison inst.op = true → inst.type = .i1) : IsWordOf pb inst.type x := by
  have hzero : IsWordOf pb inst.type 0 := Nat.two_pow_pos _
  rcases operands with _ | ⟨⟨src, y⟩, rest⟩
  · simp only [Inst.value?] at h
    split at h <;> cases h
    · exact isWordOf_setWidth _
    · exact hzero
  · simp only [Inst.value?] at h
    by_cases hconvert : isIntConversion inst.op = true
    · rw [if_pos hconvert] at h
      obtain ⟨z, -, rfl⟩ := Option.map_eq_some_iff.1 h
      exact isWordOf_setWidth z
    rw [if_neg hconvert] at h
    by_cases hconst : inst.op = .ptrAddConst
    · rw [if_pos hconst] at h
      cases h
      exact isWordOf_setWidth _
    rw [if_neg hconst] at h
    rcases rest with _ | ⟨⟨src', z⟩, rest⟩
    · cases h
    dsimp only at h
    split_ifs at h with _ hop
    · cases h
      exact isWordOf_setWidth _
    · obtain ⟨b, -, rfl⟩ := Option.map_eq_some_iff.1 h
      cases b
      · exact hzero
      · rw [hcompare hop]
        exact Nat.one_lt_two
    · obtain ⟨z, -, rfl⟩ := Option.map_eq_some_iff.1 h
      exact isWordOf_setWidth z

/-! ## Folds -/

section Folds

variable {op : Op} {type src : Ty} {a b v : BitVec 64} {pb : Nat}

theorem typeBits_le_of_isInteger (h : isInteger type = true) (pb : Nat) :
    typeBits type pb ≤ 64 := by
  have hmem := typeBits_of_isInteger h pb
  simp only [List.mem_cons, List.not_mem_nil, or_false] at hmem
  omega

/-- A binary operation folds to its value. -/
theorem binaryAt_of_foldBinary (hint : isInteger type = true)
    (h : foldBinary op type a b pb = some v) :
    (binaryAt op (a.setWidth (typeBits type pb)) (b.setWidth (typeBits type pb))).map
      (·.setWidth 64) = some v := by
  have hn := typeBits_le_of_isInteger hint pb
  simp only [foldBinary, normalize_unsigned hint, normalize_signed hint] at h
  generalize a.setWidth (typeBits type pb) = x at h ⊢
  generalize b.setWidth (typeBits type pb) = y at h ⊢
  generalize typeBits type pb = n at *
  have hx : (x.setWidth 64).setWidth n = x := by
    rw [setWidth_setWidth_of_ge x hn, BitVec.setWidth_eq]
  have hy : (y.setWidth 64).setWidth n = y := by
    rw [setWidth_setWidth_of_ge y hn, BitVec.setWidth_eq]
  have hdiv : ¬ (y.signExtend 64 = 0 ∨ x.signExtend 64 = BitVec.intMin 64 ∧
      y.signExtend 64 = -1) → ¬ (y = 0 ∨ n = 64 ∧ x = BitVec.intMin n ∧ y = -1) := by
    refine mt (Or.imp (signExtend_eq_zero hn).2 ?_)
    rintro ⟨rfl, hx, hy⟩
    rw [BitVec.signExtend_eq, BitVec.signExtend_eq]
    exact ⟨hx, hy⟩
  cases op with
  | add | sub | mul | and | or | xor =>
    simp only [binaryAt, Option.map_some]
    rw [← h]
    simp [BitVec.setWidth_add _ _ hn, BitVec.setWidth_mul _ _ hn, setWidth_sub _ _ hn, hx, hy,
      BitVec.setWidth_or, BitVec.setWidth_and, BitVec.setWidth_xor]
  | udiv =>
    simp only [setWidth_eq_zero hn, Option.ite_none_left_eq_some] at h
    rw [binaryAt, if_neg h.1, Option.map_some, ← udiv_setWidth _ _ hn, h.2]
  | urem =>
    simp only [setWidth_eq_zero hn, Option.ite_none_left_eq_some] at h
    rw [binaryAt, if_neg h.1, Option.map_some, ← umod_setWidth _ _ hn, h.2]
  | sdiv =>
    simp only [Option.ite_none_left_eq_some] at h
    rw [binaryAt, if_neg (hdiv h.1), Option.map_some, ← h.2, divSigned, setWidth_ofInt hn,
      BitVec.toInt_signExtend_of_le hn, BitVec.toInt_signExtend_of_le hn, sdiv_eq_ofInt]
  | srem =>
    simp only [Option.ite_none_left_eq_some] at h
    rw [binaryAt, if_neg (hdiv h.1), Option.map_some, ← h.2, remSigned, setWidth_ofInt hn,
      BitVec.toInt_signExtend_of_le hn, BitVec.toInt_signExtend_of_le hn, ← BitVec.toInt_srem,
      BitVec.ofInt_toInt]
  | shl =>
    simp only [toNat_setWidth_of_ge y hn, Option.ite_none_left_eq_some] at h
    rw [binaryAt, if_neg h.1, Option.map_some, ← h.2, shiftLeft_setWidth x hn]
  | lshr =>
    simp only [toNat_setWidth_of_ge y hn, Option.ite_none_left_eq_some] at h
    rw [binaryAt, if_neg h.1, Option.map_some, ← h.2, ushiftRight_setWidth x hn]
  | ashr =>
    simp only [toNat_setWidth_of_ge y hn, Option.ite_none_left_eq_some] at h
    rw [binaryAt, if_neg h.1, Option.map_some, ← h.2,
      signExtend_of_lt_width (x := y) (by omega),
      toNat_setWidth_of_ge y hn, sshiftRight_signExtend x hn]
  | _ => cases h

/-- A comparison folds to its value. -/
theorem compareAt_of_foldCompare (hint : isInteger src = true)
    (h : foldCompare op src a b pb = some v) :
    (compareAt op (a.setWidth (typeBits src pb)) (b.setWidth (typeBits src pb))).map
      (fun b => if b then (1 : BitVec 64) else 0) = some v := by
  have hn := typeBits_le_of_isInteger hint pb
  simp only [foldCompare, normalize_unsigned hint, normalize_signed hint] at h
  generalize a.setWidth (typeBits src pb) = x at h ⊢
  generalize b.setWidth (typeBits src pb) = y at h ⊢
  generalize typeBits src pb = n at *
  have heq : x.setWidth 64 = y.setWidth 64 ↔ x = y := by
    rw [BitVec.toNat_eq, BitVec.toNat_eq, toNat_setWidth_of_ge x hn, toNat_setWidth_of_ge y hn]
  cases op with
  | icmpEq | icmpNe =>
    simp only [ne_eq, heq] at h
    rw [← h]
    simp [compareAt]
  | icmpUlt | icmpUle | icmpUgt | icmpUge =>
    simp only [BitVec.ult, BitVec.ule, toNat_setWidth_of_ge x hn, toNat_setWidth_of_ge y hn] at h
    rw [← h]
    rfl
  | icmpSlt | icmpSle | icmpSgt | icmpSge =>
    simp only [BitVec.slt, BitVec.sle, BitVec.toInt_signExtend_of_le hn] at h
    rw [← h]
    rfl
  | _ => cases h

/-- A conversion folds to its value. -/
theorem convertAt_foldConvert (hop : isIntConversion op = true) (hsrc : isInteger src = true)
    (hint : isInteger type = true) :
    (convertAt op (a.setWidth (typeBits src pb)) : Option (BitVec (typeBits type pb))).map
      (·.setWidth 64) = some (foldConvert op type src a pb) := by
  have hm := typeBits_le_of_isInteger hsrc pb
  have hn := typeBits_le_of_isInteger hint pb
  cases op with
  | trunc | zext =>
    rw [foldConvert, normalize_unsigned hint]
    simp only [show (Op.trunc == Op.sext) = false from rfl, normalize_unsigned hsrc, convertAt,
      show (Op.zext == Op.sext) = false from rfl, Option.map_some, setWidth_setWidth_of_ge _ hm]
  | sext =>
    rw [foldConvert, normalize_unsigned hint]
    simp only [show (Op.sext == Op.sext) = true from rfl, normalize_signed hsrc, convertAt,
      Option.map_some, setWidth_signExtend _ hn]
  | _ => cases hop

theorem setWidth_wordOf (h : isInteger type = true) (k : BitVec 64) :
    (wordOf pb type k).setWidth (typeBits type pb) = k.setWidth (typeBits type pb) := by
  rw [wordOf, setWidth_setWidth_of_ge _ (typeBits_le_of_isInteger h pb), BitVec.setWidth_eq]

/-- The constant that an instruction on constants is replaced by is its value. -/
theorem value?_of_foldInst {inst : Inst} {a b : Option (BitVec 64)} {t : Ty}
    (h : foldInst pb inst src a b = some (t, v))
    (hbinary : isIntBinary inst.op = true → src = inst.type)
    (hconvert : isIntConversion inst.op = true → isInteger src = true ∧ isInteger inst.type = true)
    (hcompare : isIntComparison inst.op = true → inst.type = .i1) :
    t = inst.type ∧ ∃ ka, a = some ka ∧
      ((isIntConversion inst.op = true ∧
        ∀ rest, inst.value? pb ((src, wordOf pb src ka) :: rest) = some v) ∨
      ∃ kb, b = some kb ∧ ∀ t' rest,
        inst.value? pb ((src, wordOf pb src ka) :: (t', wordOf pb src kb) :: rest) = some v) := by
  by_cases hop : (isIntBinary inst.op && isInteger inst.type) = true
  · rw [foldInst.eq_def, if_pos hop] at h
    obtain ⟨hop, hint⟩ := Bool.and_eq_true_iff.1 hop
    obtain rfl := hbinary hop
    rcases a with _ | ka
    · cases h
    rcases b with _ | kb
    · cases h
    obtain ⟨v', hfold, heq⟩ := Option.map_eq_some_iff.1 h
    obtain ⟨rfl, rfl⟩ := Prod.mk.inj heq
    have hother : isIntConversion inst.op = false ∧ inst.op ≠ .ptrAddConst ∧ inst.op ≠ .ptrAdd ∧
        isIntComparison inst.op = false := by
      revert hop
      cases inst.op <;> decide
    refine ⟨rfl, ka, rfl, .inr ⟨kb, rfl, fun t' rest => ?_⟩⟩
    simp only [Inst.value?, hother.1, hother.2, Bool.false_eq_true, if_false, setWidth_wordOf hint]
    exact binaryAt_of_foldBinary hint hfold
  rw [foldInst.eq_def, if_neg hop] at h
  by_cases hop' : (isIntComparison inst.op && isInteger src) = true
  · rw [if_pos hop'] at h
    obtain ⟨hop, hint⟩ := Bool.and_eq_true_iff.1 hop'
    rcases a with _ | ka
    · cases h
    rcases b with _ | kb
    · cases h
    obtain ⟨v', hfold, heq⟩ := Option.map_eq_some_iff.1 h
    obtain ⟨rfl, rfl⟩ := Prod.mk.inj heq
    have hother : isIntConversion inst.op = false ∧ inst.op ≠ .ptrAddConst ∧
        inst.op ≠ .ptrAdd := by
      revert hop
      cases inst.op <;> decide
    refine ⟨(hcompare hop).symm, ka, rfl, .inr ⟨kb, rfl, fun t' rest => ?_⟩⟩
    simp only [Inst.value?, hother.1, hother.2, Bool.false_eq_true, if_false, hop, if_true,
      setWidth_wordOf hint]
    exact compareAt_of_foldCompare hint hfold
  rw [if_neg hop'] at h
  by_cases hop'' : isIntConversion inst.op = true
  · rw [if_pos hop''] at h
    obtain ⟨ka, rfl, heq⟩ := Option.map_eq_some_iff.1 h
    obtain ⟨rfl, rfl⟩ := Prod.mk.inj heq
    obtain ⟨hsrc, hint⟩ := hconvert hop''
    refine ⟨rfl, ka, rfl, .inl ⟨hop'', fun rest => ?_⟩⟩
    simp only [Inst.value?, hop'', if_true, setWidth_wordOf hsrc]
    exact convertAt_foldConvert hop'' hsrc hint
  · rw [if_neg hop''] at h
    cases h

end Folds

/-! ## Hosts -/

/-- How something ends: with a result; somewhere on the way, when the count is used up; or
    wrong. -/
inductive RunOutcome (W α : Type)
  | done (a : α) (w : W)
  | running (w : W)
  | wrong

/-- What is left to the machine: the result of an instruction on operands, without the names of
    its values. -/
structure Host (W : Type) where
  exec : Inst → List (Ty × BitVec 64) → W → RunOutcome W (BitVec 64)

/-- The instruction without the names of its values. -/
def Inst.shape (inst : Inst) : Inst :=
  { mapValueOperands (fun _ => noValue) inst with result := noValue }

/-- An instruction that is no terminator. -/
def Host.step {W : Type} (H : Host W) (pb : Nat) (shape : Inst) (operands : List (Ty × BitVec 64))
    (w : W) : RunOutcome W (BitVec 64) :=
  match shape.value? pb operands with
  | some x => .done x w
  | none => H.exec shape operands w

/-! ## Runs -/

abbrev Regs := ValueId → BitVec 64

/-- The operands of an instruction with their types. -/
def Function.operands (fn : Function) (inst : Inst) (ρ : Regs) : List (Ty × BitVec 64) :=
  (valueOperands inst).map fun v => (fn.valueType v, ρ v)

/-- What both backends compare the scrutinee of a switch with. -/
def caseWord (type : Ty) (value : Nat) : BitVec 64 :=
  if type = .i64 then (BitVec.ofNat 32 value).signExtend 64 else (BitVec.ofNat 32 value).setWidth 64

/-- The target of a switch: that of the first case with the scrutinee's value. -/
def switchTarget (type : Ty) (x : BitVec 64) (default : BlockId) : List Nat → BlockId
  | value :: target :: rest =>
    if x = caseWord type value then target else switchTarget type x default rest
  | _ => default

/-- What is behind a block. -/
inductive BlockExit
  | goto (target : BlockId) (args : List (BitVec 64))
  | ret (values : List (BitVec 64))

/-- What a terminator does. -/
def Function.exit (fn : Function) (term : Inst) (ρ : Regs) : Option BlockExit :=
  match term.op with
  | .jump => some (.goto term.a (term.args.map ρ))
  | .branch => some (.goto (if ρ term.a = 0 then term.c else term.b) [])
  | .switch => some (.goto (switchTarget (fn.valueType term.a) (ρ term.a) term.b term.args) [])
  | .ret => some (.ret (term.args.map ρ))
  | _ => none

variable {W : Type} (H : Host W) (pb : Nat)

/-- The instructions of a block. -/
def Function.runInsts (fn : Function) : List Inst → Regs → W → RunOutcome W (Regs × BlockExit)
  | [], _, _ => .wrong
  | inst :: rest, ρ, w =>
    if isTerminator inst.op then
      match fn.exit inst ρ with
      | some exit => .done (ρ, exit) w
      | none => .wrong
    else
      match H.step pb inst.shape (fn.operands inst ρ) w with
      | .done x w' => fn.runInsts rest (Function.update ρ inst.result x) w'
      | .running w' => .running w'
      | .wrong => .wrong

/-- The parameters of a block get their arguments at once. -/
def bindParams (params : List ValueId) (args : List (BitVec 64)) (ρ : Regs) : Regs :=
  fun v => ((params.zip args).lookup v).getD (ρ v)

/-- The registers behind the entry of a block. -/
def Function.enter (fn : Function) (b : BlockId) (args : List (BitVec 64)) (ρ : Regs) : Regs :=
  bindParams (fn.blocks.getD b {}).params args ρ

/-- A run from the start of a block, for a number of blocks. -/
def Function.run (fn : Function) : Nat → BlockId → Regs → W → RunOutcome W (List (BitVec 64))
  | 0, _, _, w => .running w
  | fuel + 1, b, ρ, w =>
    match fn.blocks[b]? with
    | none => .wrong
    | some block =>
      match fn.runInsts H pb block.insts ρ w with
      | .done (_, .ret values) w' => .done values w'
      | .done (ρ', .goto target args) w' => fn.run fuel target (fn.enter target args ρ') w'
      | .running w' => .running w'
      | .wrong => .wrong

/-- A call of the function. -/
def Function.call (fn : Function) (fuel : Nat) (args : List (BitVec 64)) (w : W) :
    RunOutcome W (List (BitVec 64)) :=
  fn.run H pb fuel 0 (fn.enter 0 args fun _ => 0) w

end Mirage
