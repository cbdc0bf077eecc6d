import Mirage.X86.Encoder

/-!
# What the encoder writes is decoded

One lemma for each emitter: its bytes are decoded as the instruction it is for, whatever
follows them.

* `prefixes_rex`: the optional REX prefix the encoder writes, as the decoder reads it;
  `gprOperand_withRex`: a forced one keeps a byte register from being read as a high one.
* `modrm_encodes`: the ModRM byte and the SIB byte, for a register or for `[base + disp32]`.
* `decode_modrm`, `decode_modrmImm`, `decode_form`: an instruction by its opcode, given what
  follows it.
* `decode_sized`, `decode_sizedImm`: the operations that have an opcode for bytes and another
  one for the other widths.
* `decode_movRr` and so on: the emitters.
-/

namespace Mirage.X86

/-! ## Registers -/

/-- The number of a register as the encoder passes it on. -/
def byteOf (n : Fin 16) : Byte := BitVec.ofNat 8 n.val

def Reg.code : Reg → Fin 16
  | .rax => 0
  | .rcx => 1
  | .rdx => 2
  | .rbx => 3
  | .rsp => 4
  | .rbp => 5
  | .rsi => 6
  | .rdi => 7
  | .r8 => 8
  | .r9 => 9
  | .r10 => 10
  | .r11 => 11
  | .r12 => 12
  | .r13 => 13
  | .r14 => 14
  | .r15 => 15

theorem ofFin_code (r : Reg) : Reg.ofFin r.code = r := by cases r <;> rfl

theorem number_eq (r : Reg) : r.number = byteOf r.code := by cases r <;> rfl

/-! ## Little-endian fields -/

theorem imm16_bytes (d : BitVec 32) (bs : List Byte) :
    imm16 (d.setWidth 8 :: (d.sshiftRight 8).setWidth 8 :: bs) =
      some ((d.setWidth 16).signExtend 64, bs) := by
  have h : (d.sshiftRight 8).setWidth 8 ++ d.setWidth 8 = d.setWidth 16 := by
    refine BitVec.eq_of_getLsbD_eq fun i hi => ?_
    simp only [BitVec.getLsbD_append, BitVec.getLsbD_setWidth, BitVec.getLsbD_sshiftRight]
    grind
  rw [imm16, h]

theorem disp32_imm32 (d : BitVec 32) (bs : List Byte) :
    disp32 (Enc.imm32 d ++ bs) = some (d, bs) := by
  have h : (d.sshiftRight 24).setWidth 8 ++ (d.sshiftRight 16).setWidth 8 ++
      (d.sshiftRight 8).setWidth 8 ++ (d.sshiftRight 0).setWidth 8 = d := by
    refine BitVec.eq_of_getLsbD_eq fun i hi => ?_
    simp only [BitVec.getLsbD_append, BitVec.getLsbD_setWidth, BitVec.getLsbD_sshiftRight]
    grind
  exact congrArg (fun d => some (d, bs)) h

theorem imm64_imm64 (v : BitVec 64) (bs : List Byte) :
    imm64 (Enc.imm64 v ++ bs) = some (v, bs) := by
  have h : (v.sshiftRight 56).setWidth 8 ++ (v.sshiftRight 48).setWidth 8 ++
      (v.sshiftRight 40).setWidth 8 ++ (v.sshiftRight 32).setWidth 8 ++
      (v.sshiftRight 24).setWidth 8 ++ (v.sshiftRight 16).setWidth 8 ++
      (v.sshiftRight 8).setWidth 8 ++ (v.sshiftRight 0).setWidth 8 = v := by
    refine BitVec.eq_of_getLsbD_eq fun i hi => ?_
    simp only [BitVec.getLsbD_append, BitVec.getLsbD_setWidth, BitVec.getLsbD_sshiftRight]
    grind
  exact congrArg (fun v => some (v, bs)) h

theorem imm32_imm32 (d : BitVec 32) (bs : List Byte) :
    imm32 (Enc.imm32 d ++ bs) = some (d.signExtend 64, bs) := by
  rw [imm32, disp32_imm32]
  rfl

/-! ## Prefixes -/

/-- The REX prefix the encoder writes. -/
def rexState (w : Bool) (reg rm : Fin 16) (force : Bool) : Option Rex :=
  if w ∨ 8 ≤ reg.val ∨ 8 ≤ rm.val ∨ force then
    some { w := w, r := decide (8 ≤ reg.val), b := decide (8 ≤ rm.val) }
  else none

def rexByte (w r b : Bool) : Byte :=
  0x40 ||| (if w then 0x08 else 0) ||| (if r then 0x04 else 0) ||| if b then 0x01 else 0

theorem rex_eq : ∀ (w force : Bool) (reg rm : Fin 16),
    Enc.rex w (byteOf reg) (byteOf rm) force = match rexState w reg rm force with
      | none => []
      | some r => [rexByte r.w r.r r.b] := by
  decide

theorem rexByte_spec : ∀ w r b : Bool, rexByte w r b ≠ 0x66 ∧ rexByte w r b ≠ 0xF2 ∧
    rexByte w r b ≠ 0xF3 ∧ isRex (rexByte w r b) = true ∧
    rexOf (rexByte w r b) = { w := w, r := r, b := b } := by
  decide

theorem rexState_getD : ∀ (w force : Bool) (reg rm : Fin 16),
    (rexState w reg rm force).getD {} =
      { w := w, r := decide (8 ≤ reg.val), b := decide (8 ≤ rm.val) } := by
  decide

/-- An opcode is no prefix. -/
def IsOpcode (b : Byte) : Prop := b ≠ 0x66 ∧ b ≠ 0xF2 ∧ b ≠ 0xF3 ∧ isRex b = false

instance (b : Byte) : Decidable (IsOpcode b) := inferInstanceAs (Decidable (_ ∧ _))

theorem prefixes_opcode {p : Prefixes} {b : Byte} (hb : IsOpcode b) (bs : List Byte) :
    prefixes p (b :: bs) = (p, b :: bs) := by
  rw [prefixes, if_neg hb.1, if_neg hb.2.1, if_neg hb.2.2.1, if_neg (by simp [hb.2.2.2])]

/-- The prefixes after an optional REX prefix. -/
theorem prefixes_rex {p : Prefixes} (hp : p.rex = none) {b : Byte} (hb : IsOpcode b)
    (w force : Bool) (reg rm : Fin 16) (bs : List Byte) :
    prefixes p (Enc.rex w (byteOf reg) (byteOf rm) force ++ b :: bs) =
      ({ p with rex := rexState w reg rm force }, b :: bs) := by
  rw [rex_eq]
  cases hstate : rexState w reg rm force with
  | none =>
    have heq : { p with rex := none } = p := by rw [← hp]
    rw [heq]
    exact prefixes_opcode hb bs
  | some r =>
    have hr : r = { w := w, r := decide (8 ≤ reg.val), b := decide (8 ≤ rm.val) } := by
      have := rexState_getD w force reg rm
      rwa [hstate, Option.getD_some] at this
    obtain ⟨h66, hF2, hF3, hrex, hof⟩ := rexByte_spec r.w r.r r.b
    show prefixes p (rexByte r.w r.r r.b :: b :: bs) = _
    rw [prefixes, if_neg h66, if_neg hF2, if_neg hF3, if_pos hrex, hof, hr]

/-- Legacy prefixes. -/
structure Legacy (pre : List Byte) (p : Prefixes) : Prop where
  rex : p.rex = none
  read : ∀ bs, prefixes {} (pre ++ bs) = prefixes p bs

theorem legacy_nil : Legacy [] {} := ⟨rfl, fun _ => rfl⟩

theorem legacy_66 : Legacy [0x66] { size16 := true } := ⟨rfl, fun _ => rfl⟩

theorem legacy_size16 (w : Width) : Legacy (Enc.size16 w) { size16 := decide (w = .w16) } := by
  cases w
  · exact legacy_nil
  · exact legacy_66
  · exact legacy_nil
  · exact legacy_nil

theorem legacy_scalar (double : Bool) : Legacy (Enc.scalar double) { rep := some double } := by
  cases double <;> exact ⟨rfl, fun _ => rfl⟩

/-! ## Opcodes -/

/-- What an opcode of one byte or of two bytes means. -/
def formOf (p : Prefixes) : List Byte → Option Form
  | [opcode] => oneByte p opcode
  | [_, opcode] => twoByte p opcode
  | _ => none

/-- An opcode: one byte, or two of which the first is `0F`. -/
def IsOpcodes : List Byte → Prop
  | [opcode] => IsOpcode opcode ∧ opcode ≠ 0x0F
  | [escape, _] => escape = 0x0F
  | _ => False

instance : (bs : List Byte) → Decidable (IsOpcodes bs)
  | [] => inferInstanceAs (Decidable False)
  | [_] => inferInstanceAs (Decidable (_ ∧ _))
  | [_, _] => inferInstanceAs (Decidable (_ = _))
  | _ :: _ :: _ :: _ => inferInstanceAs (Decidable False)

variable {pre opcodes tail bs : List Byte} {p : Prefixes} {w force : Bool} {reg rm n k : Fin 16}

theorem decode_opcodes (hpre : Legacy pre p) (hop : IsOpcodes opcodes) :
    decode (pre ++ (Enc.rex w (byteOf reg) (byteOf rm) force ++ (opcodes ++ tail))) =
      (formOf { p with rex := rexState w reg rm force } opcodes).bind fun form =>
        form.decode { p with rex := rexState w reg rm force } tail := by
  rw [decode, hpre.read]
  rcases opcodes with _ | ⟨a, _ | ⟨b, _ | ⟨c, l⟩⟩⟩
  · exact hop.elim
  · obtain ⟨ha, hne⟩ := hop
    rw [List.cons_append, List.nil_append, prefixes_rex hpre.rex ha]
    exact if_neg hne
  · obtain rfl : a = 0x0F := hop
    rw [List.cons_append, List.cons_append, List.nil_append,
      prefixes_rex hpre.rex (by decide)]
    rfl
  · exact hop.elim

/-! ## ModRM -/

theorem modrmReg_spec : ∀ n k : Fin 16, ∃ b, Enc.modrmReg (byteOf n) (byteOf k) = [b] ∧
    b.extractLsb' 6 2 = 3 ∧ extend4 (decide (8 ≤ n.val)) (b.extractLsb' 3 3) = n ∧
    extend4 (decide (8 ≤ k.val)) (b.extractLsb' 0 3) = k := by
  have h : ∀ n k : Fin 16,
      let b : Byte := 0xC0 ||| (Enc.low3 (byteOf n) <<< 3) ||| Enc.low3 (byteOf k)
      b.extractLsb' 6 2 = 3 ∧ extend4 (decide (8 ≤ n.val)) (b.extractLsb' 3 3) = n ∧
        extend4 (decide (8 ≤ k.val)) (b.extractLsb' 0 3) = k := by
    decide +kernel
  exact fun n k => ⟨_, rfl, h n k⟩

/-- Register operands. -/
theorem modrm_reg (hr : p.r = decide (8 ≤ n.val)) (hb : p.b = decide (8 ≤ k.val)) :
    modrm p (Enc.modrmReg (byteOf n) (byteOf k) ++ bs) = some (n, .reg k, bs) := by
  obtain ⟨b, hbyte, hmod, hreg, hrm⟩ := modrmReg_spec n k
  rw [hbyte, List.cons_append, List.nil_append, modrm]
  simp only [hmod, hr, hb, hreg, hrm, if_true]

theorem modrmMem_spec : ∀ n k : Fin 16,
    let b : Byte := 0x80 ||| (Enc.low3 (byteOf n) <<< 3) ||| Enc.low3 (byteOf k)
    b.extractLsb' 6 2 = 2 ∧ extend4 (decide (8 ≤ n.val)) (b.extractLsb' 3 3) = n ∧
      extend4 (decide (8 ≤ k.val)) (b.extractLsb' 0 3) = k ∧
      (b.extractLsb' 0 3 = 4 ↔ Enc.low3 (byteOf k) = 4) := by
  decide +kernel

theorem sib_spec : ∀ k : Fin 16, Enc.low3 (byteOf k) = 4 →
    extend4 (decide (8 ≤ k.val)) ((0x24 : Byte).extractLsb' 0 3) = k := by
  decide +kernel

/-- A register and `[base + disp32]`. -/
theorem modrm_mem {base : Reg} {disp : BitVec 32} (hr : p.r = decide (8 ≤ n.val))
    (hx : p.x = false) (hb : p.b = decide (8 ≤ base.code.val)) :
    modrm p (Enc.modrmMem (byteOf n) base disp ++ bs) =
      some (n, .mem ⟨.reg base, none, disp⟩, bs) := by
  obtain ⟨hmod, hreg, hrm, hsib⟩ := modrmMem_spec n base.code
  rw [Enc.modrmMem, number_eq]
  generalize (0x80 ||| (Enc.low3 (byteOf n) <<< 3) ||| Enc.low3 (byteOf base.code) : Byte) = b at *
  rw [List.append_assoc, List.append_assoc, List.cons_append, List.nil_append, modrm]
  have hdisp : displacement 2 (Enc.imm32 disp ++ bs) = some (disp, bs) := by
    rw [displacement, if_neg (by decide), if_pos rfl, disp32_imm32]
  by_cases h4 : Enc.low3 (byteOf base.code) = 4
  · have hindex : extend4 false ((0x24 : Byte).extractLsb' 3 3) = 4 := by decide
    simp only [hmod, hr, hb, hx, hreg, hsib.mpr h4, h4, if_true, List.cons_append, List.nil_append,
      sib, hindex, sib_spec base.code h4, addressOf, hdisp, ofFin_code, Option.map_some]
    rfl
  · simp only [hmod, hr, hb, hreg, hrm, mt hsib.mp h4, h4, if_false, List.nil_append, addressOf,
      ofFin_code]
    rw [if_neg (by decide), if_neg fun h => absurd h.1 (by decide), hdisp]
    rfl

/-! ## Operands -/

/-- The bytes of an operand besides the register `reg`; `rm` is the register a REX prefix
    may extend. -/
inductive EncodesRm (reg : Fin 16) : Fin 16 → List Byte → Rm → Prop
  | reg (n : Fin 16) : EncodesRm reg n (Enc.modrmReg (byteOf reg) (byteOf n)) (.reg n)
  | mem (base : Reg) (disp : BitVec 32) : EncodesRm reg base.code
      (Enc.modrmMem (byteOf reg) base disp) (.mem ⟨.reg base, none, disp⟩)

/-- The prefixes with the REX prefix the encoder adds. -/
def withRex (p : Prefixes) (w : Bool) (reg rm : Fin 16) (force : Bool) : Prefixes :=
  { p with rex := rexState w reg rm force }

theorem withRex_getD : (withRex p w reg rm force).rex.getD {} =
    { w := w, r := decide (8 ≤ reg.val), b := decide (8 ≤ rm.val) } :=
  rexState_getD w force reg rm

theorem withRex_w : (withRex p w reg rm force).w = w := by
  rw [Prefixes.w, withRex_getD]

theorem modrm_encodes {bytes : List Byte} {operand : Rm} (h : EncodesRm reg rm bytes operand) :
    modrm (withRex p w reg rm force) (bytes ++ bs) = some (reg, operand, bs) := by
  have hr : (withRex p w reg rm force).r = decide (8 ≤ reg.val) := by
    rw [Prefixes.r, withRex_getD]
  have hx : (withRex p w reg rm force).x = false := by rw [Prefixes.x, withRex_getD]
  have hb : (withRex p w reg rm force).b = decide (8 ≤ rm.val) := by
    rw [Prefixes.b, withRex_getD]
  cases h with
  | reg => exact modrm_reg hr hb
  | mem => exact modrm_mem hr hx hb

/-- A byte register is not one of the high ones when the encoder forced a prefix. -/
theorem gprOperand_withRex {w' : Width}
    (h : w' = .w8 → Enc.needsByteRex (byteOf n) = true → force = true) :
    gprOperand (withRex p w reg rm force) w' n = .gpr w' (Reg.ofFin n) := by
  have hneeds : ∀ n : Fin 16, 4 ≤ n.val ∧ n.val < 8 → Enc.needsByteRex (byteOf n) = true := by
    decide
  rw [gprOperand, if_neg]
  rintro ⟨hw, hrex, hn⟩
  rw [withRex, rexState, h hw (hneeds n hn)] at hrex
  exact absurd hrex (by simp)

/-! ## One instruction -/

variable {bytes : List Byte} {operand : Rm} {i : Decoded} {f : Fin 16 → Rm → Option Decoded}

/-- An instruction with a ModRM byte. -/
theorem decode_modrm (hpre : Legacy pre p) (hop : IsOpcodes opcodes)
    (hrm : EncodesRm reg rm bytes operand)
    (hform : formOf (withRex p w reg rm force) opcodes = some (.modrm f))
    (hf : f reg operand = some i) :
    decode (pre ++ (Enc.rex w (byteOf reg) (byteOf rm) force ++ (opcodes ++ (bytes ++ bs)))) =
      some (i, bs) := by
  rw [decode_opcodes hpre hop]
  refine (congrArg (Option.bind · _) hform).trans ?_
  rw [Option.bind_some, Form.decode]
  refine (congrArg (Option.bind · _) (modrm_encodes hrm)).trans ?_
  simp only [Option.bind_some, hf, Option.map_some]

/-- An instruction with a ModRM byte and an immediate. -/
theorem decode_modrmImm {read : List Byte → Option (BitVec 64 × List Byte)}
    {f : Fin 16 → Rm → BitVec 64 → Option Decoded} {v : BitVec 64} (hpre : Legacy pre p)
    (hop : IsOpcodes opcodes) (hrm : EncodesRm reg rm bytes operand)
    (hform : formOf (withRex p w reg rm force) opcodes = some (.modrmImm read f))
    (hread : read tail = some (v, bs)) (hf : f reg operand v = some i) :
    decode (pre ++ (Enc.rex w (byteOf reg) (byteOf rm) force ++ (opcodes ++ (bytes ++ tail)))) =
      some (i, bs) := by
  rw [decode_opcodes hpre hop]
  refine (congrArg (Option.bind · _) hform).trans ?_
  rw [Option.bind_some, Form.decode]
  refine (congrArg (Option.bind · _) (modrm_encodes hrm)).trans ?_
  simp only [Option.bind_some, hread, hf, Option.map_some]

/-- An instruction without a ModRM byte. -/
theorem decode_form {form : Form} (hpre : Legacy pre p) (hop : IsOpcodes opcodes)
    (hform : formOf (withRex p w reg rm force) opcodes = some form)
    (hdecode : form.decode (withRex p w reg rm force) tail = some (i, bs)) :
    decode (pre ++ (Enc.rex w (byteOf reg) (byteOf rm) force ++ (opcodes ++ tail))) =
      some (i, bs) := by
  rw [decode_opcodes hpre hop]
  refine (congrArg (Option.bind · _) hform).trans ?_
  rw [Option.bind_some]
  exact hdecode

/-- The same without a legacy prefix. -/
theorem decode_modrm_nil (hop : IsOpcodes opcodes) (hrm : EncodesRm reg rm bytes operand)
    (hform : formOf (withRex {} w reg rm force) opcodes = some (.modrm f))
    (hf : f reg operand = some i) :
    decode (Enc.rex w (byteOf reg) (byteOf rm) force ++ (opcodes ++ (bytes ++ bs))) =
      some (i, bs) := by
  simpa only [List.nil_append] using decode_modrm legacy_nil hop hrm hform hf

theorem decode_form_nil {form : Form} (hop : IsOpcodes opcodes)
    (hform : formOf (withRex {} w reg rm force) opcodes = some form)
    (hdecode : form.decode (withRex {} w reg rm force) tail = some (i, bs)) :
    decode (Enc.rex w (byteOf reg) (byteOf rm) force ++ (opcodes ++ tail)) = some (i, bs) := by
  simpa only [List.nil_append] using decode_form legacy_nil hop hform hdecode

/-- A slot in the register field does not extend it. -/
theorem rex_digit {d : Fin 16} (hd : d.val < 8) (rm : Byte) :
    Enc.rex w 0 rm force = Enc.rex w (byteOf d) rm force := by
  have hext : ∀ d : Fin 16, d.val < 8 → Enc.ext (byteOf d) = Enc.ext 0 := by decide
  rw [Enc.rex, Enc.rex, hext d hd]

/-! ## Widths -/

/-- The prefixes of an operation at a width. -/
def sized (w : Width) (reg rm : Fin 16) (force : Bool) : Prefixes :=
  withRex { size16 := decide (w = .w16) } (decide (w = .w64)) reg rm force

theorem sized_width {w : Width} (h : w ≠ .w8) : (sized w reg rm force).width = w := by
  rw [Prefixes.width, sized, withRex_w]
  cases w with
  | w8 => exact absurd rfl h
  | _ => rfl

/-- An operation with an opcode for bytes and another one for the other widths. -/
theorem formOf_sized (F : Prefixes → Width → Form) {byte wide : Byte}
    (hform : ∀ p, oneByte p byte = some (F p .w8) ∧ oneByte p wide = some (F p p.width))
    (w : Width) :
    formOf (sized w reg rm force) [if w = .w8 then byte else wide] =
      some (F (sized w reg rm force) w) := by
  rw [formOf]
  split_ifs with h
  · rw [(hform _).1, h]
  · rw [(hform _).2, sized_width h]

theorem isOpcodes_ite {w : Width} {byte wide : Byte} (hbyte : IsOpcodes [byte])
    (hwide : IsOpcodes [wide]) : IsOpcodes [if w = .w8 then byte else wide] := by
  split_ifs
  · exact hbyte
  · exact hwide

/-- The immediate of an operation, cut to its width. -/
def immAt (w : Width) (imm : BitVec 32) : BitVec 64 :=
  match w with
  | .w8 => (imm.setWidth 8).signExtend 64
  | .w16 => (imm.setWidth 16).signExtend 64
  | .w32 | .w64 => imm.signExtend 64

theorem immOf_immOf (w : Width) (imm : BitVec 32) (bs : List Byte) :
    immOf w (Enc.immOf w imm ++ bs) = some (immAt w imm, bs) := by
  cases w with
  | w8 => rfl
  | w16 => exact imm16_bytes imm bs
  | w32 => exact imm32_imm32 imm bs
  | w64 => exact imm32_imm32 imm bs

/-- An operation at a width, with a ModRM byte. -/
theorem decode_sized (F : Prefixes → Width → Fin 16 → Rm → Option Decoded) {byte wide : Byte}
    {w : Width} (hop : IsOpcodes [byte] ∧ IsOpcodes [wide])
    (hform : ∀ p, oneByte p byte = some (.modrm (F p .w8)) ∧
      oneByte p wide = some (.modrm (F p p.width)))
    (hrm : EncodesRm reg rm bytes operand)
    (hf : F (sized w reg rm force) w reg operand = some i) :
    decode (Enc.size16 w ++ (Enc.rex (w = .w64) (byteOf reg) (byteOf rm) force ++
      ([if w = .w8 then byte else wide] ++ (bytes ++ bs)))) = some (i, bs) :=
  decode_modrm (legacy_size16 w) (isOpcodes_ite hop.1 hop.2) hrm
    (formOf_sized (fun p w => .modrm (F p w)) hform w) hf

/-- The same with an immediate. -/
theorem decode_sizedImm (F : Prefixes → Width → Fin 16 → Rm → BitVec 64 → Option Decoded)
    {byte wide : Byte} {w : Width} {imm : BitVec 32} (hop : IsOpcodes [byte] ∧ IsOpcodes [wide])
    (hform : ∀ p, oneByte p byte = some (.modrmImm (immOf .w8) (F p .w8)) ∧
      oneByte p wide = some (.modrmImm (immOf p.width) (F p p.width)))
    (hrm : EncodesRm reg rm bytes operand)
    (hf : F (sized w reg rm force) w reg operand (immAt w imm) = some i) :
    decode (Enc.size16 w ++ (Enc.rex (w = .w64) (byteOf reg) (byteOf rm) force ++
      ([if w = .w8 then byte else wide] ++ (bytes ++ (Enc.immOf w imm ++ bs))))) = some (i, bs) :=
  decode_modrmImm (legacy_size16 w) (isOpcodes_ite hop.1 hop.2) hrm
    (formOf_sized (fun p w => .modrmImm (immOf w) (F p w)) hform w) (immOf_immOf w imm bs) hf

/-! ## Moves -/

/-- A value in memory. -/
def memAt (w : Width) (base : Reg) (disp : BitVec 32) : InstOperand :=
  .mem w ⟨.reg base, none, disp⟩

theorem decode_movRr (w : Width) (dst src : Reg) (bs : List Byte) :
    decode (Enc.movRr w dst src ++ bs) = some (⟨.mov, [.gpr w dst, .gpr w src]⟩, bs) := by
  rw [Enc.movRr, number_eq, number_eq]
  simp only [List.append_assoc]
  refine decode_sized (fun p w reg rm => some ⟨.mov, [rm.gpr p w, gprOperand p w reg]⟩)
    (by decide) (fun p => ⟨rfl, rfl⟩) (.reg _) ?_
  rw [Rm.gpr, sized, gprOperand_withRex (by grind), gprOperand_withRex (by grind), ofFin_code,
    ofFin_code]

theorem decode_load (w : Width) (dst base : Reg) (disp : BitVec 32) (bs : List Byte) :
    decode (Enc.load w dst base disp ++ bs) = some (⟨.mov, [.gpr w dst, memAt w base disp]⟩, bs) := by
  rw [Enc.load, number_eq, number_eq]
  simp only [List.append_assoc]
  refine decode_sized (fun p w reg rm => some ⟨.mov, [gprOperand p w reg, rm.gpr p w]⟩)
    (by decide) (fun p => ⟨rfl, rfl⟩) (.mem _ _) ?_
  rw [Rm.gpr, sized, gprOperand_withRex (by grind), ofFin_code, memAt]

theorem decode_store (w : Width) (base : Reg) (disp : BitVec 32) (src : Reg) (bs : List Byte) :
    decode (Enc.store w base disp src ++ bs) =
      some (⟨.mov, [memAt w base disp, .gpr w src]⟩, bs) := by
  rw [Enc.store, number_eq, number_eq]
  simp only [List.append_assoc]
  refine decode_sized (fun p w reg rm => some ⟨.mov, [rm.gpr p w, gprOperand p w reg]⟩)
    (by decide) (fun p => ⟨rfl, rfl⟩) (.mem _ _) ?_
  rw [Rm.gpr, sized, gprOperand_withRex (by grind), ofFin_code, memAt]

/-- A 64-bit result. -/
theorem width_w64 : (withRex {} true reg rm force).width = .w64 := by
  rw [Prefixes.width, withRex_w]
  rfl

theorem width_w32 : (withRex {} false reg rm force).width = .w32 := by
  rw [Prefixes.width, withRex_w]
  rfl

/-- There is no `movzx` from 32 bits, but a `mov`. -/
theorem decode_movzx {src : Width} (h : src ≠ .w64) (dst reg : Reg) (bs : List Byte) :
    decode (Enc.movzx src dst reg ++ bs) = some
      (if src = .w32 then ⟨.mov, [.gpr .w32 dst, .gpr .w32 reg]⟩
        else ⟨.movzx, [.gpr .w64 dst, .gpr src reg]⟩, bs) := by
  rw [Enc.movzx, number_eq, number_eq]
  cases src with
  | w8 =>
    simp only [List.append_assoc, reduceCtorEq, if_false, if_true]
    refine decode_modrm_nil (by decide) (.reg _) rfl ?_
    rw [width_w64, Rm.gpr, gprOperand_withRex (by simp), gprOperand_withRex (by simp), ofFin_code,
      ofFin_code]
  | w16 =>
    simp only [List.append_assoc, reduceCtorEq, if_false]
    refine decode_modrm_nil (by decide) (.reg _) rfl ?_
    rw [width_w64, Rm.gpr, gprOperand_withRex (by simp), gprOperand_withRex (by simp), ofFin_code,
      ofFin_code]
  | w32 =>
    rw [if_pos rfl, if_pos rfl]
    simp only [List.append_assoc]
    refine decode_modrm_nil (by decide) (.reg _) rfl ?_
    rw [width_w32, Rm.gpr, gprOperand_withRex (by simp), gprOperand_withRex (by simp), ofFin_code,
      ofFin_code]
  | w64 => exact absurd rfl h

theorem decode_movsx {src : Width} (h : src ≠ .w64) (dst reg : Reg) (bs : List Byte) :
    decode (Enc.movsx src dst reg ++ bs) = some (⟨.movsx, [.gpr .w64 dst, .gpr src reg]⟩, bs) := by
  rw [Enc.movsx, number_eq, number_eq]
  simp only [List.append_assoc]
  cases src with
  | w64 => exact absurd rfl h
  | _ =>
    refine decode_modrm_nil (by decide) (.reg _) rfl ?_
    rw [width_w64, Rm.gpr, gprOperand_withRex (by simp), gprOperand_withRex (by simp), ofFin_code,
      ofFin_code]

theorem decode_lea (dst base : Reg) (disp : BitVec 32) (bs : List Byte) :
    decode (Enc.lea dst base disp ++ bs) =
      some (⟨.lea, [.gpr .w64 dst, .addr ⟨.reg base, none, disp⟩]⟩, bs) := by
  rw [Enc.lea, number_eq, number_eq]
  simp only [List.append_assoc]
  refine decode_modrm_nil (by decide) (.mem _ _) rfl ?_
  simp only [width_w64]
  rw [gprOperand_withRex (by simp), ofFin_code]

theorem decode_leaRip (dst : Reg) (bs : List Byte) :
    decode (Enc.leaRip dst ++ bs) = some (⟨.lea, [.gpr .w64 dst, .addr ⟨.rip, none, 0⟩]⟩, bs) := by
  cases dst <;> rfl

/-- The opcodes that have a register in their low bits. -/
theorem opcodeReg_spec (dst : Reg) :
    (IsOpcodes [0xB8 ||| Enc.low3 dst.number] ∧ IsOpcodes [0x50 ||| Enc.low3 dst.number] ∧
      IsOpcodes [0x58 ||| Enc.low3 dst.number]) ∧
    formOf (withRex {} true 0 dst.code false) [0xB8 ||| Enc.low3 dst.number] =
      some (.imm imm64 fun v => ⟨.mov, [.gpr .w64 dst, .imm v]⟩) ∧
    formOf (withRex {} false 0 dst.code false) [0xB8 ||| Enc.low3 dst.number] =
      some (.imm imm32 fun v => ⟨.mov, [.gpr .w32 dst, .imm v]⟩) ∧
    formOf (withRex {} false 0 dst.code false) [0x50 ||| Enc.low3 dst.number] =
      some (.plain ⟨.push, [.gpr .w64 dst]⟩) ∧
    formOf (withRex {} false 0 dst.code false) [0x58 ||| Enc.low3 dst.number] =
      some (.plain ⟨.pop, [.gpr .w64 dst]⟩) := by
  cases dst <;> exact ⟨by decide, rfl, rfl, rfl, rfl⟩

/-- A small number is its low half, extended. -/
theorem signExtend_low {imm : BitVec 64} (h : 0 ≤ imm.toInt ∧ imm.toInt ≤ 2147483647) :
    (imm.setWidth 32).signExtend 64 = imm := by
  have hlt : imm.toNat < 2 ^ 31 := by
    have hcond := BitVec.toInt_eq_toNat_cond imm
    split_ifs at hcond <;> omega
  have hlow : (imm.setWidth 32).toNat = imm.toNat := by
    rw [BitVec.toNat_setWidth]
    exact Nat.mod_eq_of_lt (by omega)
  have hmsb : (imm.setWidth 32).msb = false := by
    rw [BitVec.msb_eq_false_iff_two_mul_lt, hlow]
    omega
  rw [BitVec.signExtend_eq_setWidth_of_msb_false hmsb]
  refine BitVec.eq_of_toNat_eq ?_
  rw [BitVec.toNat_setWidth, hlow]
  exact Nat.mod_eq_of_lt (by omega)

/-- The 32-bit form extends with zeros, and is taken where that gives the immediate. -/
theorem decode_movRi (dst : Reg) (imm : BitVec 64) (bs : List Byte) :
    decode (Enc.movRi dst imm ++ bs) = some
      (⟨.mov, [.gpr (if 0 ≤ imm.toInt ∧ imm.toInt ≤ 2147483647 then .w32 else .w64) dst,
        .imm imm]⟩, bs) := by
  obtain ⟨⟨hop, -, -⟩, hwide, hnarrow, -, -⟩ := opcodeReg_spec dst
  by_cases h : 0 ≤ imm.toInt ∧ imm.toInt ≤ 2147483647
  · have hdecode : (Form.imm imm32 fun v => ⟨.mov, [.gpr .w32 dst, .imm v]⟩).decode
        (withRex {} false 0 dst.code false) (Enc.imm32 (imm.setWidth 32) ++ bs) =
        some (⟨.mov, [.gpr .w32 dst, .imm imm]⟩, bs) := by
      rw [Form.decode, imm32_imm32, signExtend_low h]
      rfl
    rw [Enc.movRi, if_pos h, if_pos h, List.append_assoc, List.append_assoc]
    rw [number_eq] at hop hnarrow ⊢
    rw [@rex_digit _ _ 0 (by decide)]
    exact decode_form_nil hop hnarrow hdecode
  · have hdecode : (Form.imm imm64 fun v => ⟨.mov, [.gpr .w64 dst, .imm v]⟩).decode
        (withRex {} true 0 dst.code false) (Enc.imm64 imm ++ bs) =
        some (⟨.mov, [.gpr .w64 dst, .imm imm]⟩, bs) := by
      rw [Form.decode, imm64_imm64]
      rfl
    rw [Enc.movRi, if_neg h, if_neg h, List.append_assoc, List.append_assoc]
    rw [number_eq] at hop hwide ⊢
    rw [@rex_digit _ _ 0 (by decide)]
    exact decode_form_nil hop hwide hdecode

/-! ## Integer arithmetic -/

theorem decode_aluRr (op : Alu) (w : Width) (dst src : Reg) (bs : List Byte) :
    decode (Enc.aluRr op w dst src ++ bs) = some (⟨.alu op, [.gpr w dst, .gpr w src]⟩, bs) := by
  have hop : ((op.number * 8) ||| if w = .w8 then (0x00 : Byte) else 0x01) =
      if w = .w8 then op.number * 8 else op.number * 8 + 1 := by
    split_ifs <;> cases op <;> rfl
  rw [Enc.aluRr, number_eq, number_eq, hop]
  simp only [List.append_assoc]
  refine decode_sized (fun p w reg rm => some ⟨.alu op, [rm.gpr p w, gprOperand p w reg]⟩)
    (by cases op <;> decide) (fun p => ?_) (.reg _) ?_
  · cases op <;> exact ⟨rfl, rfl⟩
  · rw [Rm.gpr, sized, gprOperand_withRex (by grind), gprOperand_withRex (by grind), ofFin_code,
      ofFin_code]

/-- The slot of an operation, as a register number. -/
def Alu.slot : Alu → Fin 16
  | .add => 0
  | .or => 1
  | .and => 4
  | .sub => 5
  | .xor => 6
  | .cmp => 7

theorem alu_number_eq (op : Alu) : op.number = byteOf op.slot := by cases op <;> rfl

theorem slot_lt (op : Alu) : op.slot.val < 8 := by cases op <;> decide

theorem aluOf_slot (op : Alu) : aluOf (BitVec.ofNat 3 op.slot.val) = some op := by
  cases op <;> rfl

theorem decode_aluRi (op : Alu) (w : Width) (dst : Reg) (imm : BitVec 32) (bs : List Byte) :
    decode (Enc.aluRi op w dst imm ++ bs) =
      some (⟨.alu op, [.gpr w dst, .imm (immAt w imm)]⟩, bs) := by
  rw [Enc.aluRi, number_eq, alu_number_eq, rex_digit (slot_lt op)]
  simp only [List.append_assoc]
  refine decode_sizedImm (fun p w reg rm v => (aluOf (BitVec.ofNat 3 reg.val)).map fun op =>
    ⟨.alu op, [rm.gpr p w, .imm v]⟩) (by decide) (fun p => ⟨rfl, rfl⟩) (.reg _) ?_
  rw [aluOf_slot, Rm.gpr, sized, gprOperand_withRex (by grind), ofFin_code]
  rfl

theorem decode_imulRr (dst src : Reg) (bs : List Byte) :
    decode (Enc.imulRr dst src ++ bs) = some (⟨.imul, [.gpr .w64 dst, .gpr .w64 src]⟩, bs) := by
  rw [Enc.imulRr, number_eq, number_eq]
  simp only [List.append_assoc]
  refine decode_modrm_nil (by decide) (.reg _) rfl ?_
  rw [width_w64, Rm.gpr, gprOperand_withRex (by simp), gprOperand_withRex (by simp), ofFin_code,
    ofFin_code]

theorem decode_zero (reg : Reg) (bs : List Byte) :
    decode (Enc.zero reg ++ bs) = some (⟨.alu .xor, [.gpr .w32 reg, .gpr .w32 reg]⟩, bs) := by
  rw [Enc.zero, number_eq]
  simp only [List.append_assoc]
  refine decode_modrm_nil (by decide) (.reg _) rfl ?_
  simp only [width_w32, Bool.false_eq_true, if_false]
  rw [Rm.gpr, gprOperand_withRex (by simp), ofFin_code]

/-- One of the operations that share an opcode. -/
theorem decode_unary {w : Width} (hw : w = .w32 ∨ w = .w64) {opcode : Byte} {d : Fin 16}
    (hd : d.val < 8) {g : Nat → Option Mnemonic} {mnemonic : Mnemonic} (hop : IsOpcodes [opcode])
    (hform : ∀ p, oneByte p opcode = some (unaryForm p p.width g)) (hg : g d.val = some mnemonic)
    (reg : Reg) (bs : List Byte) :
    decode (Enc.unary w opcode (byteOf d) reg ++ bs) = some (⟨mnemonic, [.gpr w reg]⟩, bs) := by
  have hwidth : (withRex {} (decide (w = .w64)) d reg.code false).width = w := by
    rcases hw with rfl | rfl
    · exact width_w32
    · exact width_w64
  have hne : w ≠ .w8 := by rcases hw with rfl | rfl <;> decide
  rw [Enc.unary, number_eq, rex_digit hd]
  simp only [List.append_assoc]
  refine decode_modrm_nil hop (.reg _) (hform _) ?_
  rw [hwidth, Nat.mod_eq_of_lt hd, hg, Option.map_some, Rm.gpr,
    gprOperand_withRex (fun h => absurd h hne), ofFin_code]

theorem decode_test {w : Width} (h : w ≠ .w16) (a b : Reg) (bs : List Byte) :
    decode (Enc.testRr w a b ++ bs) = some (⟨.test, [.gpr w a, .gpr w b]⟩, bs) := by
  have hpre : Enc.testRr w a b = Enc.size16 w ++ Enc.testRr w a b := by
    rw [Enc.size16, if_neg h, List.nil_append]
  rw [hpre, Enc.testRr, number_eq, number_eq]
  simp only [List.append_assoc]
  refine decode_sized (fun p w reg rm => some ⟨.test, [rm.gpr p w, gprOperand p w reg]⟩)
    (by decide) (fun p => ⟨rfl, rfl⟩) (.reg _) ?_
  rw [Rm.gpr, sized, gprOperand_withRex (by grind), gprOperand_withRex (by grind), ofFin_code,
    ofFin_code]

theorem cond_number (cond : Cond) :
    (∀ p, twoByte p (0x90 ||| cond.number) =
      some (.modrm fun _ rm => some ⟨.set cond, [rm.gpr p .w8]⟩)) ∧
    ∀ p, twoByte p (0x80 ||| cond.number) = some (.imm imm32 fun d => ⟨.jcc cond, [.rel d]⟩) := by
  cases cond <;> exact ⟨fun _ => rfl, fun _ => rfl⟩

theorem decode_setcc (cond : Cond) (dst : Reg) (bs : List Byte) :
    decode (Enc.setcc cond dst ++ bs) = some (⟨.set cond, [.gpr .w8 dst]⟩, bs) := by
  rw [Enc.setcc, number_eq, @rex_digit _ _ 0 (by decide)]
  simp only [List.append_assoc]
  refine decode_modrm_nil rfl (@EncodesRm.reg 0 dst.code) ((cond_number cond).1 _) ?_
  rw [Rm.gpr, gprOperand_withRex (fun _ h => h), ofFin_code]

/-! ## Scalar floats -/

theorem decode_floatRr (hpre : Legacy pre p) {opcode : Byte}
    (hform : twoByte (withRex p w reg rm false) opcode = some (.modrm f))
    (hf : f reg (.reg rm) = some i) :
    decode (Enc.floatRr pre w opcode (byteOf reg) (byteOf rm) ++ bs) = some (i, bs) := by
  rw [Enc.floatRr]
  simp only [List.append_assoc]
  exact decode_modrm hpre rfl (.reg rm) hform hf

theorem decode_floatRm (hpre : Legacy pre p) {opcode : Byte} {base : Reg} {disp : BitVec 32}
    (hform : twoByte (withRex p false reg base.code false) opcode = some (.modrm f))
    (hf : f reg (.mem ⟨.reg base, none, disp⟩) = some i) :
    decode (Enc.floatRm pre opcode (byteOf reg) base disp ++ bs) = some (i, bs) := by
  rw [Enc.floatRm, number_eq]
  simp only [List.append_assoc]
  exact decode_modrm hpre rfl (.mem base disp) hform hf

theorem legacy_double (double : Bool) :
    Legacy (if double then [0x66] else []) { size16 := double } := by
  cases double
  · exact legacy_nil
  · exact legacy_66

/-- The opcodes of the scalar arithmetic: `add`, `mul`, `sub` and `div`. -/
def IsSseOpcode (opcode : Byte) : Prop :=
  opcode = 0x58 ∨ opcode = 0x59 ∨ opcode = 0x5C ∨ opcode = 0x5E

theorem decode_sseArith {opcode : Byte} (h : IsSseOpcode opcode) (double : Bool) (dst src : XReg)
    (bs : List Byte) : decode (Enc.sseArith opcode double dst src ++ bs) =
      some (⟨.sse opcode double, [.xmm dst, .xmm src]⟩, bs) := by
  rcases h with rfl | rfl | rfl | rfl <;>
    exact decode_floatRr (legacy_scalar double) rfl rfl

theorem decode_sseArithM {opcode : Byte} (h : IsSseOpcode opcode) (double : Bool) (dst : XReg)
    (base : Reg) (disp : BitVec 32) (bs : List Byte) :
    decode (Enc.sseArithM opcode double dst base disp ++ bs) =
      some (⟨.sse opcode double, [.xmm dst, memAt (floatWidth double) base disp]⟩, bs) := by
  rcases h with rfl | rfl | rfl | rfl <;>
    exact decode_floatRm (legacy_scalar double) rfl rfl

theorem decode_movaps (dst src : XReg) (bs : List Byte) :
    decode (Enc.movaps dst src ++ bs) = some (⟨.movaps, [.xmm dst, .xmm src]⟩, bs) :=
  decode_floatRr legacy_nil rfl rfl

theorem decode_ucomis (double : Bool) (a b : XReg) (bs : List Byte) :
    decode (Enc.ucomis double a b ++ bs) = some (⟨.ucomis double, [.xmm a, .xmm b]⟩, bs) :=
  decode_floatRr (legacy_double double) rfl rfl

theorem decode_ucomisM (double : Bool) (a : XReg) (base : Reg) (disp : BitVec 32)
    (bs : List Byte) : decode (Enc.ucomisM double a base disp ++ bs) =
      some (⟨.ucomis double, [.xmm a, memAt (floatWidth double) base disp]⟩, bs) :=
  decode_floatRm (legacy_double double) rfl rfl

theorem decode_cvtI2f (toDouble : Bool) {src : Width} (h : src = .w32 ∨ src = .w64) (dst : XReg)
    (reg : Reg) (bs : List Byte) : decode (Enc.cvtI2f toDouble src dst reg ++ bs) =
      some (⟨.cvtI2f toDouble, [.xmm dst, .gpr src reg]⟩, bs) := by
  rw [Enc.cvtI2f, number_eq]
  refine decode_floatRr (legacy_scalar toDouble) rfl ?_
  rcases h with rfl | rfl
  · rw [withRex_w, Rm.gpr, gprOperand_withRex (by simp), ofFin_code]
    rfl
  · rw [withRex_w, Rm.gpr, gprOperand_withRex (by simp), ofFin_code]
    rfl

theorem decode_cvtF2i (fromDouble : Bool) {w : Width} (h : w = .w32 ∨ w = .w64) (dst : Reg)
    (src : XReg) (bs : List Byte) : decode (Enc.cvtF2i fromDouble w dst src ++ bs) =
      some (⟨.cvtF2i fromDouble, [.gpr w dst, .xmm src]⟩, bs) := by
  rw [Enc.cvtF2i, number_eq]
  refine decode_floatRr (legacy_scalar fromDouble) rfl ?_
  rcases h with rfl | rfl
  · rw [withRex_w, gprOperand_withRex (by simp), ofFin_code]
    rfl
  · rw [withRex_w, gprOperand_withRex (by simp), ofFin_code]
    rfl

theorem decode_cvtF2f (toDouble : Bool) (dst src : XReg) (bs : List Byte) :
    decode (Enc.cvtF2f toDouble dst src ++ bs) =
      some (⟨.cvtF2f toDouble, [.xmm dst, .xmm src]⟩, bs) := by
  cases toDouble
  · exact decode_floatRr (legacy_scalar true) rfl rfl
  · exact decode_floatRr (legacy_scalar false) rfl rfl

theorem twoByte_movq (p : Prefixes) (h : p.size16 ∧ p.rep = none ∧ p.w) :
    twoByte p 0x6E = some (.modrm fun reg rm => some ⟨.movq, [.xmm reg, rm.gpr p .w64]⟩) ∧
      twoByte p 0x7E = some (.modrm fun reg rm => some ⟨.movq, [rm.gpr p .w64, .xmm reg]⟩) := by
  exact ⟨Eq.trans (b := if p.size16 ∧ p.rep = none ∧ p.w then _ else none) rfl (if_pos h),
    Eq.trans (b := if p.size16 ∧ p.rep = none ∧ p.w then _ else none) rfl (if_pos h)⟩

theorem decode_movRX (dst : XReg) (src : Reg) (bs : List Byte) :
    decode (Enc.movRX dst src ++ bs) = some (⟨.movq, [.xmm dst, .gpr .w64 src]⟩, bs) := by
  rw [Enc.movRX, number_eq]
  refine decode_floatRr legacy_66 (twoByte_movq _ ⟨rfl, rfl, withRex_w⟩).1 ?_
  rw [Rm.gpr, gprOperand_withRex (by simp), ofFin_code]

theorem decode_movXR (dst : Reg) (src : XReg) (bs : List Byte) :
    decode (Enc.movXR dst src ++ bs) = some (⟨.movq, [.gpr .w64 dst, .xmm src]⟩, bs) := by
  rw [Enc.movXR, number_eq]
  refine decode_floatRr legacy_66 (twoByte_movq _ ⟨rfl, rfl, withRex_w⟩).2 ?_
  rw [Rm.gpr, gprOperand_withRex (by simp), ofFin_code]

/-- A load of a scalar; the prefix tells its width. -/
theorem decode_movsLoad (double : Bool) (dst : XReg) (base : Reg) (disp : BitVec 32)
    (bs : List Byte) :
    decode (Enc.floatRm (Enc.scalar double) 0x10 (XReg.number dst) base disp ++ bs) =
      some (⟨.movs double, [.xmm dst, memAt (floatWidth double) base disp]⟩, bs) :=
  decode_floatRm (legacy_scalar double) rfl rfl

theorem decode_movsStore (double : Bool) (src : XReg) (base : Reg) (disp : BitVec 32)
    (bs : List Byte) :
    decode (Enc.floatRm (Enc.scalar double) 0x11 (XReg.number src) base disp ++ bs) =
      some (⟨.movs double, [memAt (floatWidth double) base disp, .xmm src]⟩, bs) :=
  decode_floatRm (legacy_scalar double) rfl rfl

/-! ## Control flow -/

theorem decode_jmp (rel : BitVec 32) (bs : List Byte) :
    decode (Enc.jmp rel ++ bs) = some (⟨.jmp, [.rel (rel.signExtend 64)]⟩, bs) := by
  have hdecode : (Form.imm imm32 fun d => ⟨.jmp, [.rel d]⟩).decode {} (Enc.imm32 rel ++ bs) =
      some (⟨.jmp, [.rel (rel.signExtend 64)]⟩, bs) := by
    rw [Form.decode, imm32_imm32]
    rfl
  exact hdecode

theorem decode_jcc (cond : Cond) (rel : BitVec 32) (bs : List Byte) :
    decode (Enc.jcc cond rel ++ bs) = some (⟨.jcc cond, [.rel (rel.signExtend 64)]⟩, bs) := by
  have hdecode : (Form.imm imm32 fun d => ⟨.jcc cond, [.rel d]⟩).decode {}
      (Enc.imm32 rel ++ bs) = some (⟨.jcc cond, [.rel (rel.signExtend 64)]⟩, bs) := by
    rw [Form.decode, imm32_imm32]
    rfl
  refine Eq.trans ?_ hdecode
  exact congrArg (Option.bind · _) ((cond_number cond).2 {})

theorem decode_callSym (bs : List Byte) :
    decode (Enc.callSym ++ bs) = some (⟨.call, [.rel 0]⟩, bs) := rfl

theorem decode_callR (target : Reg) (bs : List Byte) :
    decode (Enc.callR target ++ bs) = some (⟨.call, [.gpr .w64 target]⟩, bs) := by
  cases target <;> rfl

theorem decode_pushR (reg : Reg) (bs : List Byte) :
    decode (Enc.pushR reg ++ bs) = some (⟨.push, [.gpr .w64 reg]⟩, bs) := by
  cases reg <;> rfl

theorem decode_popR (reg : Reg) (bs : List Byte) :
    decode (Enc.popR reg ++ bs) = some (⟨.pop, [.gpr .w64 reg]⟩, bs) := by
  cases reg <;> rfl

/-! ## Operands in memory -/

theorem decode_aluRm (op : Alu) (w : Width) (dst base : Reg) (disp : BitVec 32)
    (bs : List Byte) : decode (Enc.aluRm op w dst base disp ++ bs) =
      some (⟨.alu op, [.gpr w dst, memAt w base disp]⟩, bs) := by
  have hop : ((op.number * 8) ||| if w = .w8 then (0x02 : Byte) else 0x03) =
      if w = .w8 then op.number * 8 + 2 else op.number * 8 + 3 := by
    split_ifs <;> cases op <;> rfl
  rw [Enc.aluRm, number_eq, number_eq, hop]
  simp only [List.append_assoc]
  refine decode_sized (fun p w reg rm => some ⟨.alu op, [gprOperand p w reg, rm.gpr p w]⟩)
    (by cases op <;> decide) (fun p => ?_) (.mem _ _) ?_
  · cases op <;> exact ⟨rfl, rfl⟩
  · rw [Rm.gpr, sized, gprOperand_withRex (by grind), ofFin_code, memAt]

theorem decode_aluMr (op : Alu) (w : Width) (base : Reg) (disp : BitVec 32) (src : Reg)
    (bs : List Byte) : decode (Enc.aluMr op w base disp src ++ bs) =
      some (⟨.alu op, [memAt w base disp, .gpr w src]⟩, bs) := by
  have hop : ((op.number * 8) ||| if w = .w8 then (0x00 : Byte) else 0x01) =
      if w = .w8 then op.number * 8 else op.number * 8 + 1 := by
    split_ifs <;> cases op <;> rfl
  rw [Enc.aluMr, number_eq, number_eq, hop]
  simp only [List.append_assoc]
  refine decode_sized (fun p w reg rm => some ⟨.alu op, [rm.gpr p w, gprOperand p w reg]⟩)
    (by cases op <;> decide) (fun p => ?_) (.mem _ _) ?_
  · cases op <;> exact ⟨rfl, rfl⟩
  · rw [Rm.gpr, sized, gprOperand_withRex (by grind), ofFin_code, memAt]

theorem decode_aluMi (op : Alu) (w : Width) (base : Reg) (disp imm : BitVec 32)
    (bs : List Byte) : decode (Enc.aluMi op w base disp imm ++ bs) =
      some (⟨.alu op, [memAt w base disp, .imm (immAt w imm)]⟩, bs) := by
  rw [Enc.aluMi, number_eq, alu_number_eq, rex_digit (slot_lt op)]
  simp only [List.append_assoc]
  refine decode_sizedImm (fun p w reg rm v => (aluOf (BitVec.ofNat 3 reg.val)).map fun op =>
    ⟨.alu op, [rm.gpr p w, .imm v]⟩) (by decide) (fun p => ⟨rfl, rfl⟩) (.mem _ _) ?_
  rw [aluOf_slot]
  rfl

theorem decode_movMi (w : Width) (base : Reg) (disp imm : BitVec 32) (bs : List Byte) :
    decode (Enc.movMi w base disp imm ++ bs) =
      some (⟨.mov, [memAt w base disp, .imm (immAt w imm)]⟩, bs) := by
  rw [Enc.movMi, number_eq, @rex_digit _ _ 0 (by decide)]
  simp only [List.append_assoc]
  exact decode_sizedImm (fun p w reg rm v =>
    if reg.val % 8 = 0 then some ⟨.mov, [rm.gpr p w, .imm v]⟩ else none) (by decide)
    (fun p => ⟨rfl, rfl⟩) (@EncodesRm.mem 0 _ _) rfl

/-- From 32 bits it is a `mov`, which extends with zeros. -/
theorem decode_movzxM {src : Width} (h : src ≠ .w64) (dst base : Reg) (disp : BitVec 32)
    (bs : List Byte) : decode (Enc.movzxM src dst base disp ++ bs) = some
      (if src = .w32 then ⟨.mov, [.gpr .w32 dst, memAt .w32 base disp]⟩
        else ⟨.movzx, [.gpr .w64 dst, memAt src base disp]⟩, bs) := by
  rw [Enc.movzxM, number_eq, number_eq]
  cases src with
  | w32 =>
    rw [if_pos (Or.inl rfl), if_pos rfl]
    simp only [List.append_assoc]
    refine decode_modrm_nil (by decide) (.mem _ _) rfl ?_
    rw [width_w32, gprOperand_withRex (by simp), ofFin_code]
    rfl
  | w64 => exact absurd rfl h
  | _ =>
    simp only [List.append_assoc, reduceCtorEq, or_self, if_false, if_true]
    refine decode_modrm_nil (by decide) (.mem _ _) rfl ?_
    rw [width_w64, gprOperand_withRex (by simp), ofFin_code]
    rfl

/-- The slots of `unaryM` and `unaryR`. -/
def unaryMnemonic (slot : Byte) : Mnemonic :=
  if slot = 0 then .inc else if slot = 1 then .dec else if slot = 2 then .not else .neg

theorem unary_slot {slot : Byte} (h : slot ≤ 3) :
    ∃ d : Fin 16, slot = byteOf d ∧ (d = 0 ∨ d = 1 ∨ d = 2 ∨ d = 3) := by
  have hlt : slot.toNat ≤ 3 := h
  refine ⟨Fin.ofNat 16 slot.toNat, ?_, ?_⟩
  · refine BitVec.eq_of_toNat_eq ?_
    rw [byteOf, BitVec.toNat_ofNat, Fin.val_ofNat]
    omega
  · rcases (by omega : slot.toNat = 0 ∨ slot.toNat = 1 ∨ slot.toNat = 2 ∨ slot.toNat = 3)
      with h | h | h | h <;> rw [h] <;> decide

/-- The two opcodes of an operation in memory or in a register. -/
theorem decode_unaryRm {w : Width} (hd : reg = 0 ∨ reg = 1 ∨ reg = 2 ∨ reg = 3)
    (hrm : EncodesRm reg rm bytes operand) :
    decode (Enc.size16 w ++ (Enc.rex (w = .w64) (byteOf reg) (byteOf rm) force ++
      ([Enc.unaryOpcode (byteOf reg) w] ++ (bytes ++ bs)))) =
      some (⟨unaryMnemonic (byteOf reg), [operand.gpr (sized w reg rm force) w]⟩, bs) := by
  have hform : ∃ f, IsOpcodes [Enc.unaryOpcode (byteOf reg) w] ∧
      formOf (sized w reg rm force) [Enc.unaryOpcode (byteOf reg) w] = some (.modrm f) ∧
      f reg operand =
        some ⟨unaryMnemonic (byteOf reg), [operand.gpr (sized w reg rm force) w]⟩ := by
    by_cases hw : w = .w8
    · subst hw
      rcases hd with rfl | rfl | rfl | rfl <;> exact ⟨_, by decide, rfl, rfl⟩
    · have hwidth : (sized w reg rm force).width = w := sized_width hw
      have hopcode : Enc.unaryOpcode (byteOf reg) w = if byteOf reg ≤ 1 then 0xFF else 0xF7 := by
        rw [Enc.unaryOpcode, if_neg hw, if_neg hw]
      generalize sized w reg rm force = p at hwidth ⊢
      subst hwidth
      rw [hopcode]
      rcases hd with rfl | rfl | rfl | rfl <;> exact ⟨_, by decide, rfl, rfl⟩
  obtain ⟨f, hop, hform, hf⟩ := hform
  exact decode_modrm (legacy_size16 w) hop hrm hform hf

theorem decode_unaryM {slot : Byte} (h : slot ≤ 3) (w : Width) (base : Reg) (disp : BitVec 32)
    (bs : List Byte) : decode (Enc.unaryM slot w base disp ++ bs) =
      some (⟨unaryMnemonic slot, [memAt w base disp]⟩, bs) := by
  obtain ⟨d, rfl, hd⟩ := unary_slot h
  rw [Enc.unaryM, number_eq, @rex_digit _ _ d (by rcases hd with rfl | rfl | rfl | rfl <;> decide)]
  simp only [List.append_assoc]
  exact decode_unaryRm hd (.mem base disp)

theorem decode_unaryR {slot : Byte} (h : slot ≤ 3) (w : Width) (reg : Reg) (bs : List Byte) :
    decode (Enc.unaryR slot w reg ++ bs) = some (⟨unaryMnemonic slot, [.gpr w reg]⟩, bs) := by
  obtain ⟨d, rfl, hd⟩ := unary_slot h
  rw [Enc.unaryR, number_eq, @rex_digit _ _ d (by rcases hd with rfl | rfl | rfl | rfl <;> decide)]
  simp only [List.append_assoc]
  refine (decode_unaryRm hd (.reg reg.code)).trans ?_
  rw [Rm.gpr, sized, gprOperand_withRex (by grind), ofFin_code]

theorem decode_pushM (base : Reg) (disp : BitVec 32) (bs : List Byte) :
    decode (Enc.pushM base disp ++ bs) = some (⟨.push, [memAt .w64 base disp]⟩, bs) := by
  rw [Enc.pushM, number_eq, @rex_digit _ _ 6 (by decide)]
  simp only [List.append_assoc]
  exact decode_modrm_nil (by decide) (@EncodesRm.mem 6 _ _) rfl rfl

theorem decode_popM (base : Reg) (disp : BitVec 32) (bs : List Byte) :
    decode (Enc.popM base disp ++ bs) = some (⟨.pop, [memAt .w64 base disp]⟩, bs) := by
  rw [Enc.popM, number_eq, @rex_digit _ _ 0 (by decide)]
  simp only [List.append_assoc]
  exact decode_modrm_nil (by decide) (@EncodesRm.mem 0 _ _) rfl rfl

theorem decode_divM (base : Reg) (disp : BitVec 32) (bs : List Byte) :
    decode (Enc.divM base disp ++ bs) = some (⟨.div, [memAt .w64 base disp]⟩, bs) := by
  rw [Enc.divM, number_eq, @rex_digit _ _ 6 (by decide)]
  simp only [List.append_assoc]
  refine decode_modrm_nil (by decide) (@EncodesRm.mem 6 _ _) rfl ?_
  rw [width_w64]
  rfl

theorem decode_idivM (base : Reg) (disp : BitVec 32) (bs : List Byte) :
    decode (Enc.idivM base disp ++ bs) = some (⟨.idiv, [memAt .w64 base disp]⟩, bs) := by
  rw [Enc.idivM, number_eq, @rex_digit _ _ 7 (by decide)]
  simp only [List.append_assoc]
  refine decode_modrm_nil (by decide) (@EncodesRm.mem 7 _ _) rfl ?_
  rw [width_w64]
  rfl

theorem decode_imulRm (dst base : Reg) (disp : BitVec 32) (bs : List Byte) :
    decode (Enc.imulRm dst base disp ++ bs) =
      some (⟨.imul, [.gpr .w64 dst, memAt .w64 base disp]⟩, bs) := by
  rw [Enc.imulRm, number_eq, number_eq]
  simp only [List.append_assoc]
  refine decode_modrm_nil (by decide) (.mem _ _) rfl ?_
  rw [width_w64, gprOperand_withRex (by simp), ofFin_code]
  rfl

end Mirage.X86
