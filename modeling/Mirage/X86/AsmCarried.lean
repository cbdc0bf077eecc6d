import Mirage.Lib.Width
import Mirage.X86.AsmMeaning
import Mirage.Lib.Table
import Mathlib.Tactic.IntervalCases
import Mathlib.Tactic.SplitIfs

/-!
# Which asm instructions are carried over

`renders_iff`: what the encoder emits for an asm instruction does what the instruction means,
on every machine, exactly when the form of the instruction is `Carried`. One direction runs
both sides; for the other, a machine is found on which they differ (`aluAt_inj`, `write_inj`
and the machines whose registers all hold one value).
-/

namespace Mirage.X86

/-! ## Reading back -/

/-- A write at a width leaves the low bits of what was written. -/
theorem mergeWidth_low (w : Width) (old v : BitVec 64) :
    (mergeWidth w old v).setWidth w.bits = v.setWidth w.bits := by
  cases w with
  | w8 =>
    have hmask : ∀ i (hi : i < 8), (255#8)[i] = true := by decide
    simp only [mergeWidth, Width.bits]
    ext i hi
    simp [hmask i hi]
  | w16 =>
    have hmask : ∀ i (hi : i < 16), (65535#16)[i] = true := by decide
    simp only [mergeWidth, Width.bits]
    ext i hi
    simp [hmask i hi]
  | w32 => simp [mergeWidth, Width.bits]
  | w64 => rfl

theorem setWidth_back {w : Width} (v : BitVec w.bits) : (v.setWidth 64).setWidth w.bits = v := by
  have hw : w.bits ≤ 64 := by cases w <;> decide
  rw [BitVec.setWidth_setWidth_of_le _ hw, BitVec.setWidth_eq]

theorem Place.read_write {p : Place} {w : Width} (hw : p.width = some w) (m : Machine)
    (v : BitVec 64) : (p.read (p.write m v)).setWidth w.bits = v.setWidth w.bits := by
  cases p with
  | reg r w' =>
    cases hw
    simp [Place.read, Place.write, mergeWidth_low]
  | mem d w' =>
    cases hw
    have hread : (Place.mem d w).read (Place.write m v (.mem d w)) =
        (m.mem.write (m.addr .rbp d) w.bytes v).read (m.addr .rbp d) w.bytes := rfl
    have hw : w.bytes ≤ 8 := by cases w <;> decide
    rw [hread, Mem.read_write_same hw]
    refine BitVec.eq_of_toNat_eq ?_
    simp only [BitVec.toNat_setWidth, BitVec.toNat_ofNat]
    cases w <;> simp only [Width.bytes, Width.bits] <;> omega
  | imm v s => cases hw

@[simp] theorem Place.read_setFlags (p : Place) (m : Machine) (f : Flags) :
    p.read (m.setFlags f) = p.read m := by
  cases p <;> rfl

@[simp] theorem Place.write_setFlags (p : Place) (m : Machine) (f : Flags) (v : BitVec 64) :
    p.write (m.setFlags f) v = (p.write m v).setFlags f := by
  cases p <;> rfl

/-! ## Machines that tell writes apart -/

/-- The machine whose registers all hold one value. -/
def uniform (x : BitVec 64) : Machine :=
  ⟨fun _ => x, fun _ => 0, ⟨false, false, false, false, false⟩, fun _ => 0⟩

/-- Nothing happens outside. -/
def Env.quiet : Env where
  call _ m := m
  syscall m := m
  cpuid m := m
  undefFlags m := m.flags
  symbol _ := 0
  sse _ _ _ _ := 0
  ucomis _ _ _ := ⟨false, false, false, false, false⟩
  i2f _ _ _ := 0
  f2i _ _ := 0
  f2f _ _ _ := 0

theorem write_inj (dst : Place) {w : Width} {v v' : BitVec 64} (hw : dst.width = some w)
    (h : ∀ m, dst.write m v = dst.write m v') : v.setWidth w.bits = v'.setWidth w.bits := by
  rw [← dst.read_write hw (uniform 0) v, ← dst.read_write hw (uniform 0) v', h]

/-- A write depends on the low bits of what is written. -/
theorem write_congr (dst : Place) {w : Width} {v v' : BitVec 64} (hw : dst.width = some w)
    (h : v.setWidth w.bits = v'.setWidth w.bits) (m : Machine) :
    dst.write m v = dst.write m v' := by
  have hlow : v.toNat % 2 ^ w.bits = v'.toNat % 2 ^ w.bits := by
    simpa using congrArg BitVec.toNat h
  cases dst with
  | reg r w' =>
    cases hw
    refine congrArg (m.setGpr r) ?_
    cases w with
    | w64 => simpa [mergeWidth, Width.bits] using h
    | w32 => exact congrArg (BitVec.setWidth 64) h
    | w16 =>
      have hand : ∀ x : Nat, x &&& 0xFFFF = x % 2 ^ 16 := fun x =>
        Nat.and_two_pow_sub_one_eq_mod x 16
      have hv : v &&& 0xFFFF#64 = v' &&& 0xFFFF#64 := by
        refine BitVec.eq_of_toNat_eq ?_
        simpa [Width.bits, hand] using hlow
      simp only [mergeWidth, hv]
    | w8 =>
      have hand : ∀ x : Nat, x &&& 0xFF = x % 2 ^ 8 := fun x =>
        Nat.and_two_pow_sub_one_eq_mod x 8
      have hv : v &&& 0xFF#64 = v' &&& 0xFF#64 := by
        refine BitVec.eq_of_toNat_eq ?_
        simpa [Width.bits, hand] using hlow
      simp only [mergeWidth, hv]
  | mem d w' =>
    cases hw
    refine congrArg m.setMem (funext fun x => ?_)
    simp only [Mem.write]
    split_ifs with hx
    · refine BitVec.eq_of_toNat_eq ?_
      simp only [BitVec.toNat_ofNat]
      generalize (x - m.addr .rbp d).toNat = k at hx ⊢
      cases w <;> simp only [Width.bytes, Width.bits] at hx hlow <;> interval_cases k <;> omega
    · rfl
  | imm v s => cases hw

/-- An arithmetic operation that does the same with two operands has them equal at its
    width. -/
theorem aluAt_inj {op : Alu} {dst : Place} {w : Width} {y y' : BitVec 64}
    (hw : dst.width = some w) (h : ∀ m, aluAt op w dst y m = aluAt op w dst y' m) :
    y.setWidth w.bits = y'.setWidth w.bits := by
  -- the result, when the destination holds `x`
  have hres : op ≠ .cmp → ∀ x : BitVec 64, op.apply (x.setWidth w.bits) (y.setWidth w.bits) =
      op.apply (x.setWidth w.bits) (y'.setWidth w.bits) := by
    intro hop x
    have := congrArg (fun m => (dst.read m).setWidth w.bits) (h (dst.write (uniform 0) x))
    simp only [aluAt, if_neg hop, dst.read_write hw, Place.write_setFlags, Place.read_setFlags]
      at this
    rwa [setWidth_back, setWidth_back] at this
  have hflags : op = .cmp → ∀ x : BitVec 64,
      op.flags (x.setWidth w.bits) (y.setWidth w.bits) =
        op.flags (x.setWidth w.bits) (y'.setWidth w.bits) := by
    intro hop x
    have := congrArg Machine.flags (h (dst.write (uniform 0) x))
    simpa only [aluAt, if_pos hop, dst.read_write hw, Machine.setFlags_flags] using this
  have hzero : (0 : BitVec 64).setWidth w.bits = 0 := by simp
  cases op with
  | add => simpa [Alu.apply, hzero] using hres (by decide) 0
  | or => simpa [Alu.apply, hzero] using hres (by decide) 0
  | xor => simpa [Alu.apply, hzero] using hres (by decide) 0
  | sub => simpa [Alu.apply, hzero] using hres (by decide) 0
  | and =>
    have hones : (BitVec.allOnes 64).setWidth w.bits = BitVec.allOnes w.bits := by
      cases w <;> decide
    have := hres (by decide) (BitVec.allOnes 64)
    rw [hones] at this
    simpa only [Alu.apply, BitVec.allOnes_and] using this
  | cmp =>
    have hzf := congrArg Flags.zf (hflags rfl y)
    simp only [Alu.flags, Alu.apply, BitVec.sub_self] at hzf
    have hsub := beq_iff_eq.1 (hzf.symm.trans (beq_self_eq_true _))
    exact sub_eq_zero.1 hsub

/-! ## Immediates -/

/-- A 32-bit field, sign-extended. -/
theorem field_ofInt (stored : Int) :
    ((BitVec.ofInt 64 stored).setWidth 32).signExtend 64 =
      BitVec.ofInt 64 (stored.bmod (2 ^ 32)) := by
  rw [setWidth_ofInt (by decide), BitVec.signExtend, BitVec.toInt_ofInt]

/-- A move that leaves the whole register the same whatever it held before. -/
theorem forall_mergeWidth_iff (w : Width) (b x : BitVec 64) :
    (∀ old, b = mergeWidth w old x) ↔
      w = .w64 ∧ b = x ∨ w = .w32 ∧ b = (x.setWidth 32).setWidth 64 := by
  cases w with
  | w64 => simp [mergeWidth]
  | w32 => simp [mergeWidth]
  | w8 | w16 =>
    simp only [reduceCtorEq, false_and, or_self, iff_false, not_forall]
    -- the upper bits are those of the old value
    by_contra hall
    simp only [not_exists, not_not] at hall
    have h := (hall 0).symm.trans (hall (BitVec.allOnes 64))
    have := congrArg (BitVec.getLsbD · 63) h
    simp [mergeWidth] at this

/-! ## Moves -/

/-- An instruction that means something at the common width of its operands. -/
theorem renders_common_iff {m : String} {dst src : Place} {g : Width → Meaning} {i : Instr}
    (hg : meaning m [dst, src] = (commonWidth dst src).map g) :
    Renders m [dst, src] i ↔
      ∃ w, commonWidth dst src = some w ∧ ∀ env mach, exec env [i] mach = g w env mach := by
  simp only [Renders, hg, Option.map_eq_some_iff]
  constructor
  · rintro ⟨f, ⟨w, hw, rfl⟩, h⟩
    exact ⟨w, hw, h⟩
  · rintro ⟨w, hw, h⟩
    exact ⟨_, ⟨w, hw, rfl⟩, h⟩

/-- Operands that go together when their widths are equal, and are then encoded as they
    are. -/
theorem renders_same_iff {m : String} {dst src : Place} {g : Width → Meaning} {i : Instr}
    {w w' : Width} (hg : meaning m [dst, src] = (commonWidth dst src).map g)
    (hc : commonWidth dst src = if w = w' then some w else none)
    (h : w = w' → ∀ env mach, exec env [i] mach = g w env mach) :
    Renders m [dst, src] i ↔ w = w' := by
  rw [renders_common_iff hg, hc]
  constructor
  · rintro ⟨w'', hw, -⟩
    exact (Option.ite_none_right_eq_some.1 hw).1
  · intro hw
    exact ⟨w, if_pos hw, h hw⟩

/-- What a move means. -/
def movAt (dst src : Place) (_ : Width) : Meaning := fun _ m => .next (dst.write m (src.read m))

theorem meaning_mov (dst src : Place) :
    meaning "mov" [dst, src] = (commonWidth dst src).map (movAt dst src) := rfl

theorem setGpr_inj {r : Reg} {m : Machine} {v v' : BitVec 64} (h : m.setGpr r v = m.setGpr r v') :
    v = v' := by
  have := congrArg (fun m => m.gpr r) h
  simpa using this

/-- A number moved into a register. -/
theorem renders_movRi_iff {r : Reg} {w : Width} {v s : Int} :
    Renders "mov" [.reg r w, .imm v s] (.movRi r (BitVec.ofInt 64 s)) ↔ MovImm w v s := by
  have hrun : (∀ env m, exec env [.movRi r (BitVec.ofInt 64 s)] m =
      .next ((Place.reg r w).write m ((Place.imm v s).read m))) ↔
      ∀ old, BitVec.ofInt 64 s = mergeWidth w old (BitVec.ofInt 64 v) := by
    constructor
    · intro h old
      exact setGpr_inj (Outcome.next.inj (h .quiet (uniform old)))
    · intro h env m
      exact congrArg (fun v => Outcome.next (m.setGpr r v)) (h (m.gpr r))
  simp only [renders_common_iff (meaning_mov _ _), movAt, hrun, forall_mergeWidth_iff,
    setWidth_ofInt (show 32 ≤ 64 by decide)]
  simp [commonWidth, MovImm]

/-- A number stored. -/
theorem renders_movMi_iff {d : Int} {w : Width} {v s : Int} :
    Renders "mov" [.mem d w, .imm v s] (.movMi w .rbp d ((BitVec.ofInt 64 s).setWidth 32)) ↔
      FieldImm w v s := by
  have hw : w.bits ≤ 64 := by cases w <;> decide
  have hrun : (∀ env m, exec env [.movMi w .rbp d ((BitVec.ofInt 64 s).setWidth 32)] m =
      .next ((Place.mem d w).write m ((Place.imm v s).read m))) ↔
      BitVec.ofInt w.bits (s.bmod (2 ^ 32)) = BitVec.ofInt w.bits v := by
    rw [← setWidth_ofInt hw, ← setWidth_ofInt hw v, ← field_ofInt]
    constructor
    · intro h
      exact write_inj (.mem d w) rfl fun m => Outcome.next.inj (h .quiet m)
    · intro h env m
      exact congrArg Outcome.next (write_congr (.mem d w) rfl h m)
  simp only [renders_common_iff (meaning_mov _ _), movAt, hrun]
  simp [commonWidth, FieldImm]

/-- A move that is encoded is carried over exactly in the forms of `CarriedMov`. -/
theorem renders_mov {dst src : Place} {i : Instr}
    (h : emitAsmInstruction "mov" [dst.arg, src.arg] = some i) :
    Renders "mov" [dst, src] i ↔ CarriedMov dst src := by
  cases dst with
  | imm v s =>
    refine iff_of_false ?_ id
    rintro ⟨f, hf, -⟩
    cases hf
  | reg r w =>
    cases src with
    | imm v s =>
      obtain rfl : Instr.movRi r (BitVec.ofInt 64 s) = i := by
        simpa [emitAsmInstruction, emitAsmTwo, Place.arg, asmWidth] using h
      exact renders_movRi_iff
    | reg r' w' =>
      obtain rfl : Instr.movRr w r r' = i := by
        simpa [emitAsmInstruction, emitAsmTwo, Place.arg, asmWidth] using h
      exact renders_same_iff (meaning_mov _ _) rfl fun _ _ _ => rfl
    | mem d w' =>
      obtain rfl : Instr.load w r .rbp d = i := by
        simpa [emitAsmInstruction, emitAsmTwo, Place.arg, asmWidth] using h
      exact renders_same_iff (meaning_mov _ _) rfl fun hw _ _ => by subst hw; rfl
  | mem d w =>
    cases src with
    | imm v s =>
      obtain rfl : Instr.movMi w .rbp d ((BitVec.ofInt 64 s).setWidth 32) = i := by
        simpa [emitAsmInstruction, emitAsmTwo, Place.arg, asmWidth] using h
      exact renders_movMi_iff
    | reg r' w' =>
      obtain rfl : Instr.store w' .rbp d r' = i := by
        simpa [emitAsmInstruction, emitAsmTwo, Place.arg, asmWidth] using h
      exact renders_same_iff (meaning_mov _ _) rfl fun hw _ _ => by subst hw; rfl
    | mem d' w' =>
      have halu : aluOps "mov" = none := rfl
      simp [emitAsmInstruction, emitAsmTwo, Place.arg, halu] at h

/-! ## Arithmetic -/

/-- The mnemonics of the arithmetic operations. -/
theorem aluOps_cases {m : String} {op : Alu} (h : aluOps m = some op) :
    m = "add" ∧ op = .add ∨ m = "sub" ∧ op = .sub ∨ m = "and" ∧ op = .and ∨ m = "or" ∧ op = .or ∨
      m = "xor" ∧ op = .xor ∨ m = "cmp" ∧ op = .cmp := by
  have hmem := mem_of_lookup h
  simpa only [List.mem_cons, Prod.mk.injEq, List.not_mem_nil, or_false] using hmem

theorem meaning_alu {m : String} {op : Alu} (hm : aluOps m = some op) (dst src : Place) :
    meaning m [dst, src] =
      (commonWidth dst src).map fun w _ mach => .next (aluAt op w dst (src.read mach) mach) := by
  rcases aluOps_cases hm with ⟨rfl, rfl⟩ | ⟨rfl, rfl⟩ | ⟨rfl, rfl⟩ | ⟨rfl, rfl⟩ | ⟨rfl, rfl⟩ | ⟨rfl, rfl⟩ <;>
    rfl

/-- A number as operand is a 32-bit field. -/
theorem renders_aluImm_iff {m : String} {op : Alu} {dst : Place} {w : Width} {v s : Int} {i : Instr}
    (hm : aluOps m = some op) (hw : dst.width = some w)
    (hrun : ∀ env mach, exec env [i] mach =
      .next (aluAt op w dst (((BitVec.ofInt 64 s).setWidth 32).signExtend 64) mach)) :
    Renders m [dst, .imm v s] i ↔ FieldImm w v s := by
  have hle : w.bits ≤ 64 := by cases w <;> decide
  have hc : commonWidth dst (.imm v s) = if Fits w v then some w else none := by
    cases dst <;> cases hw <;> rfl
  have hinj : (∀ (env : Env) mach, Outcome.next (aluAt op w dst
      (((BitVec.ofInt 64 s).setWidth 32).signExtend 64) mach) =
        .next (aluAt op w dst (BitVec.ofInt 64 v) mach)) ↔
      BitVec.ofInt w.bits (s.bmod (2 ^ 32)) = BitVec.ofInt w.bits v := by
    rw [← setWidth_ofInt hle, ← setWidth_ofInt hle v, ← field_ofInt]
    constructor
    · intro h
      exact aluAt_inj hw fun mach => Outcome.next.inj (h .quiet mach)
    · intro h env mach
      simp only [aluAt, h]
  rw [renders_common_iff (meaning_alu hm _ _), hc]
  simp only [hrun, Place.read, Option.ite_none_right_eq_some, Option.some.injEq, FieldImm]
  constructor
  · rintro ⟨w', ⟨hfit, rfl⟩, h⟩
    exact ⟨hfit, hinj.1 h⟩
  · rintro ⟨hfit, h⟩
    exact ⟨w, ⟨hfit, rfl⟩, hinj.2 h⟩

/-- How an arithmetic operation is encoded. -/
theorem emit_alu {m : String} {op : Alu} (hm : aluOps m = some op) (dst src : AsmArg) :
    emitAsmInstruction m [dst, src] =
      let w := asmWidth [dst, src]
      let imm := src.imm.setWidth 32
      if !dst.isMemory && src.isImm then some (.aluRi op w dst.reg imm)
      else if !dst.isMemory && !src.isMemory then some (.aluRr op w dst.reg src.reg)
      else if !dst.isMemory then some (.aluRm op w dst.reg .rbp src.disp)
      else if src.isImm then some (.aluMi op w .rbp dst.disp imm)
      else if !src.isMemory then some (.aluMr op w .rbp dst.disp src.reg)
      else none := by
  rcases aluOps_cases hm with ⟨rfl, rfl⟩ | ⟨rfl, rfl⟩ | ⟨rfl, rfl⟩ | ⟨rfl, rfl⟩ | ⟨rfl, rfl⟩ |
    ⟨rfl, rfl⟩ <;> simp [emitAsmInstruction, emitAsmTwo, hm]

theorem renders_alu {m : String} {op : Alu} {dst src : Place} {i : Instr} (hm : aluOps m = some op)
    (h : emitAsmInstruction m [dst.arg, src.arg] = some i) :
    Renders m [dst, src] i ↔ CarriedAlu dst src := by
  rw [emit_alu hm] at h
  cases dst with
  | imm v s =>
    refine iff_of_false ?_ id
    rintro ⟨f, hf, -⟩
    rw [meaning_alu hm] at hf
    cases hf
  | reg r w =>
    cases src with
    | imm v s =>
      obtain rfl : Instr.aluRi op w r ((BitVec.ofInt 64 s).setWidth 32) = i := by
        simpa [Place.arg, asmWidth] using h
      exact renders_aluImm_iff hm rfl fun _ _ => rfl
    | reg r' w' =>
      obtain rfl : Instr.aluRr op w r r' = i := by simpa [Place.arg, asmWidth] using h
      exact renders_same_iff (meaning_alu hm _ _) rfl fun _ _ _ => rfl
    | mem d w' =>
      obtain rfl : Instr.aluRm op w r .rbp d = i := by simpa [Place.arg, asmWidth] using h
      exact renders_same_iff (meaning_alu hm _ _) rfl fun hw _ _ => by subst hw; rfl
  | mem d w =>
    cases src with
    | imm v s =>
      obtain rfl : Instr.aluMi op w .rbp d ((BitVec.ofInt 64 s).setWidth 32) = i := by
        simpa [Place.arg, asmWidth] using h
      exact renders_aluImm_iff hm rfl fun _ _ => rfl
    | reg r' w' =>
      obtain rfl : Instr.aluMr op w' .rbp d r' = i := by simpa [Place.arg, asmWidth] using h
      exact renders_same_iff (meaning_alu hm _ _) rfl fun hw _ _ => by subst hw; rfl
    | mem d' w' => simp [Place.arg] at h

/-! ## The other operations on two operands -/

theorem meaning_movzx (dst src : Place) :
    meaning "movzx" [dst, src] = meaningMovzx dst src.width src := rfl

theorem mergeWidth_msb (old v : BitVec 64) : (mergeWidth .w16 old v).msb = old.msb := by
  have hkeep : (~~~0xFFFF#64).msb = true := by decide
  have hdrop : (0xFFFF#64).msb = false := by decide
  rw [mergeWidth, BitVec.msb_or, BitVec.msb_and, BitVec.msb_and, hkeep, hdrop, Bool.and_true,
    Bool.and_false, Bool.or_false]

theorem zeroExtend_msb {w : Width} (hw : w = .w8 ∨ w = .w16) (v : BitVec 64) :
    (zeroExtend w v).msb = false := by
  rw [zeroExtend, BitVec.msb_setWidth]
  rcases hw with rfl | rfl <;> simp [Width.bits]

/-- Zero-extended bits fill a register of 32 or 64 bits, but not one of 16 bits. -/
theorem renders_movzx_iff {r : Reg} {w w' : Width} {src : Place} {i : Instr}
    (hsrc : src.width = some w')
    (hrun : w' = .w8 ∨ w' = .w16 → ∀ env m,
      exec env [i] m = .next (m.setGpr r (zeroExtend w' (src.read m)))) :
    Renders "movzx" [.reg r w, src] i ↔ CarriedMovzx (.reg r w) src := by
  have hmeaning : meaning "movzx" [.reg r w, src] =
      if (w' = .w8 ∨ w' = .w16) ∧ w'.bits < w.bits then
        some fun _ m => .next ((Place.reg r w).write m (zeroExtend w' (src.read m)))
      else none := by
    rw [meaning_movzx, hsrc]
    rfl
  simp only [CarriedMovzx, hsrc, Option.some.injEq]
  constructor
  · rintro ⟨f, hf, h⟩
    rw [hmeaning] at hf
    obtain ⟨⟨hw', hlt⟩, hf⟩ := Option.ite_none_right_eq_some.1 hf
    obtain rfl := Option.some.inj hf
    refine ⟨hw', ?_⟩
    cases w with
    | w32 => exact .inl rfl
    | w64 => exact .inr rfl
    | w8 => rcases hw' with rfl | rfl <;> exact absurd hlt (by decide)
    | w16 =>
      -- the upper bits are kept at 16 bits
      have hbit := hrun hw' .quiet (uniform (BitVec.allOnes 64))
      rw [h] at hbit
      have hmsb := congrArg BitVec.msb (setGpr_inj (Outcome.next.inj hbit))
      have hones : ((uniform (BitVec.allOnes 64)).gpr r).msb = true := by
        show (BitVec.allOnes 64).msb = true
        decide
      rw [mergeWidth_msb, zeroExtend_msb hw', hones] at hmsb
      cases hmsb
  · rintro ⟨hw', hw⟩
    have hlt : w'.bits < w.bits := by
      rcases hw' with rfl | rfl <;> rcases hw with rfl | rfl <;> decide
    refine ⟨_, hmeaning.trans (if_pos ⟨hw', hlt⟩), fun env m => ?_⟩
    rw [hrun hw']
    refine congrArg (fun v => Outcome.next (m.setGpr r v)) ?_
    rcases hw with rfl | rfl
    · show zeroExtend w' _ = ((zeroExtend w' _).setWidth 32).setWidth 64
      rcases hw' with rfl | rfl <;> simp [zeroExtend, Width.bits]
    · rfl

/-- Bytes of the memory are zero-extended as they are read. -/
theorem zeroExtend_read (m : Mem) (a : BitVec 64) (w : Width) :
    zeroExtend w (m.read a w.bytes) = m.read a w.bytes := by
  refine BitVec.eq_of_toNat_eq ?_
  have hlt := m.readNat_lt a w.bytes
  simp only [zeroExtend, Mem.read, BitVec.toNat_setWidth, BitVec.toNat_ofNat]
  cases w <;> simp only [Width.bytes, Width.bits] at hlt ⊢ <;> omega

theorem renders_movzx {dst src : Place} {i : Instr}
    (h : emitAsmInstruction "movzx" [dst.arg, src.arg] = some i) :
    Renders "movzx" [dst, src] i ↔ CarriedMovzx dst src := by
  cases dst with
  | imm _ _ | mem _ _ =>
    refine iff_of_false ?_ id
    rintro ⟨f, hf, -⟩
    cases hf
  | reg r w =>
    cases src with
    | imm v s =>
      refine iff_of_false ?_ fun h => by simp [CarriedMovzx, Place.width] at h
      rintro ⟨f, hf, -⟩
      cases hf
    | reg r' w' =>
      obtain rfl : Instr.movzx w' r r' = i := by
        simpa [emitAsmInstruction, emitAsmTwo, Place.arg, asmWidth] using h
      refine renders_movzx_iff rfl fun hw' env m => ?_
      rcases hw' with rfl | rfl <;> rfl
    | mem d w' =>
      obtain rfl : Instr.movzxM w' r .rbp d = i := by
        simpa [emitAsmInstruction, emitAsmTwo, Place.arg, asmWidth] using h
      refine renders_movzx_iff rfl fun hw' env m => ?_
      rw [Place.read, zeroExtend_read]
      rcases hw' with rfl | rfl <;> rfl

/-- An address is moved at 64 bits. -/
theorem renders_lea {dst src : Place} {i : Instr}
    (h : emitAsmInstruction "lea" [dst.arg, src.arg] = some i) :
    Renders "lea" [dst, src] i ↔ CarriedLea dst src := by
  cases dst with
  | imm _ _ | mem _ _ =>
    refine iff_of_false ?_ id
    rintro ⟨f, hf, -⟩
    cases hf
  | reg r w =>
    cases src with
    | imm _ _ | reg _ _ =>
      refine iff_of_false ?_ id
      rintro ⟨f, hf, -⟩
      cases hf
    | mem d w' =>
      obtain rfl : Instr.lea r .rbp d = i := by
        simpa [emitAsmInstruction, emitAsmTwo, Place.arg, asmWidth] using h
      have hmeaning : meaning "lea" [.reg r w, .mem d w'] =
          if w = .w32 ∨ w = .w64 then
            some fun _ m => .next ((Place.reg r w).write m (m.addr .rbp d))
          else none := rfl
      constructor
      · rintro ⟨f, hf, h⟩
        rw [hmeaning] at hf
        obtain ⟨hw, hf⟩ := Option.ite_none_right_eq_some.1 hf
        obtain rfl := Option.some.inj hf
        refine hw.resolve_left ?_
        rintro rfl
        -- an address with upper bits
        let m := uniform (BitVec.ofInt 64 (-1 - d))
        have haddr : m.addr .rbp d = BitVec.allOnes 64 := by
          show BitVec.ofInt 64 (-1 - d) + BitVec.ofInt 64 d = _
          rw [← BitVec.ofInt_add, Int.sub_add_cancel]
          rfl
        have hset := setGpr_inj (Outcome.next.inj (h .quiet m))
        rw [haddr] at hset
        exact absurd hset (by simp [mergeWidth])
      · rintro rfl
        exact ⟨_, hmeaning.trans (if_pos (.inr rfl)), fun _ _ => rfl⟩

theorem renders_test {dst src : Place} {i : Instr}
    (h : emitAsmInstruction "test" [dst.arg, src.arg] = some i) :
    Renders "test" [dst, src] i ↔ CarriedTest dst src := by
  have halu : aluOps "test" = none := rfl
  cases dst with
  | imm v s =>
    refine iff_of_false ?_ id
    rintro ⟨f, hf, -⟩
    cases hf
  | mem d w => simp [emitAsmInstruction, emitAsmTwo, Place.arg, halu] at h
  | reg r w =>
    cases src with
    | imm _ _ | mem _ _ => simp [emitAsmInstruction, emitAsmTwo, Place.arg, halu] at h
    | reg r' w' =>
      obtain rfl : Instr.testRr w r r' = i := by
        simpa [emitAsmInstruction, emitAsmTwo, Place.arg, asmWidth, halu] using h
      have hmeaning : meaning "test" [.reg r w, .reg r' w'] =
          (commonWidth (.reg r w) (.reg r' w')).map fun w _ m => .next (m.setFlags
            (Alu.flags .and ((m.gpr r).setWidth w.bits) ((m.gpr r').setWidth w.bits))) := rfl
      by_cases hw : w = .w16
      · subst hw
        refine iff_of_false (fun hr => ?_) fun hc => hc.2 rfl
        obtain ⟨w, hc, h⟩ := (renders_common_iff hmeaning).1 hr
        obtain ⟨-, hw⟩ := Option.ite_none_right_eq_some.1 hc
        obtain rfl := Option.some.inj hw
        -- registers whose low 16 bits are zero
        have hflags := congrArg (fun m => m.flags.zf) (Outcome.next.inj (h .quiet (uniform 0x10000)))
        have hzf : (Alu.flags .and (0x10000#64 |>.setWidth 32) (0x10000#64 |>.setWidth 32)).zf =
            (Alu.flags .and (0x10000#64 |>.setWidth 16) (0x10000#64 |>.setWidth 16)).zf := hflags
        exact absurd hzf (by decide)
      · have hsame : Renders "test" [.reg r w, .reg r' w'] (.testRr w r r') ↔ w = w' := by
          refine renders_same_iff hmeaning rfl fun _ _ _ => ?_
          cases w <;> first | rfl | exact absurd rfl hw
        rw [hsame]
        exact ⟨fun h => ⟨h, hw⟩, And.left⟩

/-! ## Operations on one operand -/

theorem unarySlots_cases {m : String} {slot : Nat} (h : unarySlots m = some slot) :
    m = "inc" ∧ slot = 0 ∨ m = "dec" ∧ slot = 1 ∨ m = "not" ∧ slot = 2 ∨ m = "neg" ∧ slot = 3 := by
  have hmem := mem_of_lookup h
  simpa only [List.mem_cons, Prod.mk.injEq, List.not_mem_nil, or_false] using hmem

theorem renders_unary {m : String} {slot : Nat} {arg : Place} {i : Instr}
    (hm : unarySlots m = some slot) (h : emitAsmInstruction m [arg.arg] = some i) :
    Renders m [arg] i ↔ arg.width.isSome := by
  have hmeaning : meaning m [arg] = arg.width.map fun _ env m =>
      .next ((arg.write m (unaryOp slot (arg.read m))).setFlags (env.undefFlags m)) := by
    simp only [meaning, meaningOne, hm]
  have hemit : some i = some (if arg.arg.isMemory then
      .unaryM slot (asmWidth [arg.arg]) .rbp arg.arg.disp
      else .unaryR slot (asmWidth [arg.arg]) arg.arg.reg) := by
    rw [← h]
    rcases unarySlots_cases hm with ⟨rfl, rfl⟩ | ⟨rfl, rfl⟩ | ⟨rfl, rfl⟩ | ⟨rfl, rfl⟩ <;>
      simp [emitAsmInstruction, emitAsmOne, hm]
  obtain rfl := Option.some.inj hemit
  cases arg with
  | imm v s =>
    refine iff_of_false ?_ (by simp [Place.width])
    rintro ⟨f, hf, -⟩
    rw [hmeaning] at hf
    cases hf
  | reg _ _ | mem _ _ => exact iff_of_true ⟨_, hmeaning, fun _ _ => rfl⟩ rfl

/-- A push moves the stack pointer by eight bytes, and pushes a register where it should
    push a number. -/
theorem renders_push {arg : Place} {i : Instr} (h : emitAsmInstruction "push" [arg.arg] = some i) :
    Renders "push" [arg] i ↔ arg.width = some .w64 := by
  have hslot : unarySlots "push" = none := rfl
  have hmeaning : meaning "push" [arg] = meaningPush arg := rfl
  have hemit : (if arg.arg.isMemory then Instr.pushM .rbp arg.arg.disp else .pushR arg.arg.reg) = i := by
    simpa [emitAsmInstruction, emitAsmOne, hslot] using h
  subst hemit
  have hsp : ∀ {w : Width} {v : BitVec 64}, (w = .w16 ∨ w = .w64) →
      (pushAt w v (uniform 0)).gpr .rsp = ((uniform 0).push v).gpr .rsp → w = .w64 := by
    rintro w v (rfl | rfl) hrsp
    · simp [pushAt, Machine.push, uniform, Width.bytes] at hrsp
    · rfl
  cases arg with
  | imm v s =>
    refine iff_of_false ?_ (by simp [Place.width])
    rintro ⟨f, hf, h⟩
    rw [hmeaning] at hf
    obtain ⟨-, hf⟩ := Option.ite_none_right_eq_some.1 hf
    obtain rfl := Option.some.inj hf
    -- `rax` holds another number
    let m := uniform (BitVec.ofInt 64 v + 1)
    have hmem := congrArg (fun mach => mach.mem.read (m.gpr .rsp - 8) 8)
      (Outcome.next.inj (h .quiet m))
    have hread : BitVec.ofInt 64 v + 1 = BitVec.ofInt 64 v :=
      (Mem.read_write_word.symm.trans hmem).trans Mem.read_write_word
    simp at hread
  | reg r w =>
    simp only [Place.width, Option.some.injEq]
    constructor
    · rintro ⟨f, hf, h⟩
      rw [hmeaning] at hf
      obtain ⟨hw, hf⟩ := Option.ite_none_right_eq_some.1 hf
      obtain rfl := Option.some.inj hf
      exact hsp hw (congrArg (fun m => m.gpr .rsp) (Outcome.next.inj (h .quiet (uniform 0)))).symm
    · rintro rfl
      exact ⟨_, rfl, fun _ _ => rfl⟩
  | mem d w =>
    simp only [Place.width, Option.some.injEq]
    constructor
    · rintro ⟨f, hf, h⟩
      rw [hmeaning] at hf
      obtain ⟨hw, hf⟩ := Option.ite_none_right_eq_some.1 hf
      obtain rfl := Option.some.inj hf
      exact hsp hw (congrArg (fun m => m.gpr .rsp) (Outcome.next.inj (h .quiet (uniform 0)))).symm
    · rintro rfl
      exact ⟨_, rfl, fun _ _ => rfl⟩

theorem read_empty (a : BitVec 64) (n : Nat) : Mem.read (fun _ => 0#8) a n = 0#64 := by
  have hzero : ∀ a, Mem.readNat (fun _ => 0#8) a n = 0 := by
    induction n with
    | zero => exact fun _ => rfl
    | succ n ih => exact fun a => by rw [Mem.readNat, ih]; rfl
  rw [Mem.read, hzero]

/-- A pop moves the stack pointer by eight bytes. -/
theorem renders_pop {arg : Place} {i : Instr} (h : emitAsmInstruction "pop" [arg.arg] = some i) :
    Renders "pop" [arg] i ↔ arg.width = some .w64 := by
  have hslot : unarySlots "pop" = none := rfl
  have hmeaning : meaning "pop" [arg] = meaningPop arg := rfl
  have hemit : (if arg.arg.isMemory then Instr.popM .rbp arg.arg.disp else .popR arg.arg.reg) = i := by
    simpa [emitAsmInstruction, emitAsmOne, hslot] using h
  subst hemit
  cases arg with
  | imm v s =>
    refine iff_of_false ?_ (by simp [Place.width])
    rintro ⟨f, hf, -⟩
    cases hf
  | reg r w =>
    have hpop : meaningPop (.reg r w) =
        if w = .w16 ∨ w = .w64 then some fun _ m => .next (popAt w (.reg r w) m) else none := rfl
    simp only [Place.width, Option.some.injEq]
    constructor
    · rintro ⟨f, hf, h⟩
      rw [hmeaning, hpop] at hf
      obtain ⟨hw, hf⟩ := Option.ite_none_right_eq_some.1 hf
      obtain rfl := Option.some.inj hf
      refine hw.resolve_left ?_
      rintro rfl
      -- the stack pointer of a machine with an empty memory
      have hsp := congrArg (fun m => m.gpr .rsp) (Outcome.next.inj (h .quiet (uniform 0x10000)))
      by_cases hr : Reg.rsp = r
      · subst hr
        simp [popAt, Place.write, Place.arg, uniform, read_empty, mergeWidth] at hsp
        exact absurd hsp (by decide)
      · simp [popAt, Place.write, Place.arg, uniform, Width.bytes, hr] at hsp
    · rintro rfl
      exact ⟨_, rfl, fun _ _ => rfl⟩
  | mem d w =>
    have hpop : meaningPop (.mem d w) =
        if w = .w16 ∨ w = .w64 then some fun _ m => .next (popAt w (.mem d w) m) else none := rfl
    simp only [Place.width, Option.some.injEq]
    constructor
    · rintro ⟨f, hf, h⟩
      rw [hmeaning, hpop] at hf
      obtain ⟨hw, hf⟩ := Option.ite_none_right_eq_some.1 hf
      obtain rfl := Option.some.inj hf
      refine hw.resolve_left ?_
      rintro rfl
      have hsp := congrArg (fun m => m.gpr .rsp) (Outcome.next.inj (h .quiet (uniform 0)))
      simp [popAt, Place.write, uniform, Width.bytes] at hsp
    · rintro rfl
      exact ⟨_, rfl, fun _ _ => rfl⟩

/-! ## All instructions -/

/-- An instruction without operands. -/
theorem renders_zero {m : String} {i : Instr} (h : emitAsmInstruction m [] = some i) :
    Renders m [] i ↔ m ∈ bare := by
  simp only [emitAsmInstruction, beq_iff_eq] at h
  split at h
  next hm => cases h; subst hm; exact iff_of_true ⟨_, rfl, fun _ _ => rfl⟩ (by simp [bare])
  split at h
  next hm => cases h; subst hm; exact iff_of_true ⟨_, rfl, fun _ _ => rfl⟩ (by simp [bare])
  split at h
  next hm => cases h; subst hm; exact iff_of_true ⟨_, rfl, fun _ _ => rfl⟩ (by simp [bare])
  split at h
  next hm => cases h; subst hm; exact iff_of_true ⟨_, rfl, fun _ _ => rfl⟩ (by simp [bare])
  cases h

theorem emit_of_not_bare {m : String} (hm : m ∉ bare) :
    (∀ arg, emitAsmInstruction m [arg] = emitAsmOne m (asmWidth [arg]) arg) ∧
      ∀ dst src, emitAsmInstruction m [dst, src] = emitAsmTwo m (asmWidth [dst, src]) dst src := by
  simp only [bare, List.mem_cons, List.not_mem_nil, or_false, not_or] at hm
  obtain ⟨h1, h2, h3, h4⟩ := hm
  simp [emitAsmInstruction, h1, h2, h3, h4]

theorem bare_cases {m : String} (hm : m ∈ bare) :
    m = "nop" ∨ m = "syscall" ∨ m = "cpuid" ∨ m = "ret" := by
  simpa [bare] using hm

/-- An instruction with one operand. -/
theorem renders_one {m : String} {arg : Place} {i : Instr}
    (h : emitAsmInstruction m [arg.arg] = some i) : Renders m [arg] i ↔ CarriedOne m arg := by
  by_cases hbare : m ∈ bare
  · rcases bare_cases hbare with rfl | rfl | rfl | rfl <;>
      refine iff_of_false (by rintro ⟨_, hf, -⟩; cases hf) fun hc => by
        simp [CarriedOne, unarySlots, List.lookup_cons] at hc
  · cases hs : unarySlots m with
    | some slot =>
      rw [renders_unary hs h, CarriedOne, hs]
      rfl
    | none =>
      have hone := h
      rw [(emit_of_not_bare hbare).1] at hone
      simp only [emitAsmOne, hs, beq_iff_eq] at hone
      simp only [CarriedOne, hs, Option.isSome_none, Bool.false_eq_true, if_false]
      by_cases hpush : m = "push"
      · subst hpush
        rw [renders_push h]
        simp
      · by_cases hpop : m = "pop"
        · subst hpop
          rw [renders_pop h]
          simp
        · simp [hpush, hpop] at hone

/-- An instruction with two operands. -/
theorem renders_two {m : String} {dst src : Place} {i : Instr}
    (h : emitAsmInstruction m [dst.arg, src.arg] = some i) :
    Renders m [dst, src] i ↔ CarriedTwo m dst src := by
  by_cases hbare : m ∈ bare
  · rcases bare_cases hbare with rfl | rfl | rfl | rfl <;>
      refine iff_of_false (by rintro ⟨_, hf, -⟩; cases hf) fun hc => by
        simp [CarriedTwo, aluOps, List.lookup_cons] at hc
  · have htwo := h
    rw [(emit_of_not_bare hbare).2] at htwo
    by_cases hmov : m = "mov"
    · subst hmov
      exact renders_mov h
    by_cases hmovzx : m = "movzx"
    · subst hmovzx
      exact renders_movzx h
    by_cases hlea : m = "lea"
    · subst hlea
      exact renders_lea h
    have hcarried : CarriedTwo m dst src =
        if (aluOps m).isSome then CarriedAlu dst src else m = "test" ∧ CarriedTest dst src := by
      simp [CarriedTwo, hmov, hmovzx, hlea]
    rw [hcarried]
    cases halu : aluOps m with
    | some op => exact renders_alu halu h
    | none =>
      by_cases htest : m = "test"
      · subst htest
        simpa using renders_test h
      · simp [emitAsmTwo, hmov, hmovzx, hlea, halu, htest] at htwo

/-- What is emitted for an asm instruction renders it exactly when the form of the
    instruction is carried over. -/
theorem renders_iff {m : String} {places : List Place} {i : Instr}
    (h : emitAsmInstruction m (places.map Place.arg) = some i) :
    Renders m places i ↔ Carried m places := by
  match places, h with
  | [], h => exact renders_zero h
  | [arg], h => exact renders_one h
  | [dst, src], h => exact renders_two h
  | _ :: _ :: _ :: _, _ =>
    refine iff_of_false ?_ id
    rintro ⟨f, hf, -⟩
    cases hf

end Mirage.X86
