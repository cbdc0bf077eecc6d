import Mirage.X86.EncoderDecode

/-!
# The encoder is faithful

Every sequence of calls is decoded as the instructions the calls name, and every jump
goes to where its label was bound.

* `Call.named`: the instruction a call names, the operand of a jump or of a direct call
  given; `Call.Supported`: the widths and opcodes an emitter is for.
* `decode_call`: the bytes of one call are decoded as its instruction, whatever follows.
* `run_code`, `run_labels`, `run_pending`: what a sequence of calls leaves in the encoder.
* `patchAll_pending`: patching the jumps of a sequence of calls gives the bytes of the calls
  with the distances in place.
* `decodeFrom_resolved`: these bytes are decoded as the instructions, by induction on the calls.
* `encoder_faithful`: the instructions of a sequence of calls.
* `calls_unfaithful`: a width that has no `movzx`, an immediate wider than its operation, and a
  distance that does not fit its field.
-/

namespace Mirage.X86

/-! ## What a call names -/

/-- The instruction of a call; `jump` and `direct` are the operands of a jump and of a direct
    call. There is no `movzx` from 32 bits, but a `mov` extends with zeros; so does the short
    form of `movRi`. Immediates are of the width of the operation. -/
def Call.named (jump direct : InstOperand) : Call → Option Decoded
  | .makeLabel => none
  | .bind _ => none
  | .movRi dst imm =>
    some ⟨.mov, [.gpr (if 0 ≤ imm.toInt ∧ imm.toInt ≤ 2147483647 then .w32 else .w64) dst,
      .imm imm]⟩
  | .movRr w dst src => some ⟨.mov, [.gpr w dst, .gpr w src]⟩
  | .load w dst base disp => some ⟨.mov, [.gpr w dst, memAt w base disp]⟩
  | .store w base disp src => some ⟨.mov, [memAt w base disp, .gpr w src]⟩
  | .movzx src dst reg => some (if src = .w32 then ⟨.mov, [.gpr .w32 dst, .gpr .w32 reg]⟩
      else ⟨.movzx, [.gpr .w64 dst, .gpr src reg]⟩)
  | .movsx src dst reg => some ⟨.movsx, [.gpr .w64 dst, .gpr src reg]⟩
  | .lea dst base disp => some ⟨.lea, [.gpr .w64 dst, .addr ⟨.reg base, none, disp⟩]⟩
  | .leaRip dst _ _ => some ⟨.lea, [.gpr .w64 dst, .addr ⟨.rip, none, 0⟩]⟩
  | .aluRr op w dst src => some ⟨.alu op, [.gpr w dst, .gpr w src]⟩
  | .aluRi op w dst imm => some ⟨.alu op, [.gpr w dst, .imm (immAt w imm)]⟩
  | .imulRr dst src => some ⟨.imul, [.gpr .w64 dst, .gpr .w64 src]⟩
  | .cqo => some ⟨.cqo, []⟩
  | .zero reg => some ⟨.alu .xor, [.gpr .w32 reg, .gpr .w32 reg]⟩
  | .divR src => some ⟨.div, [.gpr .w64 src]⟩
  | .idivR src => some ⟨.idiv, [.gpr .w64 src]⟩
  | .negR w reg => some ⟨.neg, [.gpr w reg]⟩
  | .notR w reg => some ⟨.not, [.gpr w reg]⟩
  | .shlCl w reg => some ⟨.shl, [.gpr w reg]⟩
  | .shrCl w reg => some ⟨.shr, [.gpr w reg]⟩
  | .sarCl w reg => some ⟨.sar, [.gpr w reg]⟩
  | .testRr w a b => some ⟨.test, [.gpr w a, .gpr w b]⟩
  | .setcc cond dst => some ⟨.set cond, [.gpr .w8 dst]⟩
  | .movssLoad dst base disp => some ⟨.movs false, [.xmm dst, memAt .w32 base disp]⟩
  | .movssStore base disp src => some ⟨.movs false, [memAt .w32 base disp, .xmm src]⟩
  | .movsdLoad dst base disp => some ⟨.movs true, [.xmm dst, memAt .w64 base disp]⟩
  | .movsdStore base disp src => some ⟨.movs true, [memAt .w64 base disp, .xmm src]⟩
  | .sseArith opcode double dst src => some ⟨.sse opcode double, [.xmm dst, .xmm src]⟩
  | .ucomis double a b => some ⟨.ucomis double, [.xmm a, .xmm b]⟩
  | .movaps dst src => some ⟨.movaps, [.xmm dst, .xmm src]⟩
  | .cvtI2f toDouble src dst reg => some ⟨.cvtI2f toDouble, [.xmm dst, .gpr src reg]⟩
  | .cvtF2i fromDouble w dst src => some ⟨.cvtF2i fromDouble, [.gpr w dst, .xmm src]⟩
  | .cvtF2f toDouble dst src => some ⟨.cvtF2f toDouble, [.xmm dst, .xmm src]⟩
  | .movRX dst src => some ⟨.movq, [.xmm dst, .gpr .w64 src]⟩
  | .movXR dst src => some ⟨.movq, [.gpr .w64 dst, .xmm src]⟩
  | .jmp _ => some ⟨.jmp, [jump]⟩
  | .jcc cond _ => some ⟨.jcc cond, [jump]⟩
  | .callSym _ => some ⟨.call, [direct]⟩
  | .callR target => some ⟨.call, [.gpr .w64 target]⟩
  | .ret => some ⟨.ret, []⟩
  | .pushR reg => some ⟨.push, [.gpr .w64 reg]⟩
  | .popR reg => some ⟨.pop, [.gpr .w64 reg]⟩
  | .subRsp n => some ⟨.alu .sub, [.gpr .w64 .rsp, .imm (immAt .w64 n)]⟩
  | .addRsp n => some ⟨.alu .add, [.gpr .w64 .rsp, .imm (immAt .w64 n)]⟩
  | .ud2 => some ⟨.ud2, []⟩
  | .nop => some ⟨.nop, []⟩
  | .syscall => some ⟨.syscall, []⟩
  | .cpuid => some ⟨.cpuid, []⟩
  | .aluRm op w dst base disp => some ⟨.alu op, [.gpr w dst, memAt w base disp]⟩
  | .aluMr op w base disp src => some ⟨.alu op, [memAt w base disp, .gpr w src]⟩
  | .aluMi op w base disp imm => some ⟨.alu op, [memAt w base disp, .imm (immAt w imm)]⟩
  | .movMi w base disp imm => some ⟨.mov, [memAt w base disp, .imm (immAt w imm)]⟩
  | .movzxM src dst base disp =>
    some (if src = .w32 then ⟨.mov, [.gpr .w32 dst, memAt .w32 base disp]⟩
      else ⟨.movzx, [.gpr .w64 dst, memAt src base disp]⟩)
  | .unaryM slot w base disp => some ⟨unaryMnemonic slot, [memAt w base disp]⟩
  | .unaryR slot w reg => some ⟨unaryMnemonic slot, [.gpr w reg]⟩
  | .pushM base disp => some ⟨.push, [memAt .w64 base disp]⟩
  | .popM base disp => some ⟨.pop, [memAt .w64 base disp]⟩
  | .divM base disp => some ⟨.div, [memAt .w64 base disp]⟩
  | .idivM base disp => some ⟨.idiv, [memAt .w64 base disp]⟩
  | .imulRm dst base disp => some ⟨.imul, [.gpr .w64 dst, memAt .w64 base disp]⟩
  | .sseArithM opcode double dst base disp =>
    some ⟨.sse opcode double, [.xmm dst, memAt (floatWidth double) base disp]⟩
  | .ucomisM double a base disp =>
    some ⟨.ucomis double, [.xmm a, memAt (floatWidth double) base disp]⟩

/-- The widths that `neg`, `not`, the shifts and the conversions of integers are for. -/
def IsWide (w : Width) : Prop := w = .w32 ∨ w = .w64

instance (w : Width) : Decidable (IsWide w) := inferInstanceAs (Decidable (_ ∨ _))

/-- The arguments an emitter is for. Extensions are from 8, 16 or 32 bits. -/
def Call.Supported : Call → Prop
  | .movzx src _ _ => src ≠ .w64
  | .movsx src _ _ => src ≠ .w64
  | .movzxM src _ _ _ => src ≠ .w64
  | .negR w _ => IsWide w
  | .notR w _ => IsWide w
  | .shlCl w _ => IsWide w
  | .shrCl w _ => IsWide w
  | .sarCl w _ => IsWide w
  | .testRr w _ _ => w ≠ .w16
  | .cvtI2f _ src _ _ => IsWide src
  | .cvtF2i _ w _ _ => IsWide w
  | .sseArith opcode _ _ _ => IsSseOpcode opcode
  | .sseArithM opcode _ _ _ _ => IsSseOpcode opcode
  | .unaryM slot _ _ _ => slot ≤ 3
  | .unaryR slot _ _ => slot ≤ 3
  | _ => True

/-- The label of a jump. -/
def Call.jumpTarget : Call → Option EncLabel
  | .jmp target => some target
  | .jcc _ target => some target
  | _ => none

/-! ## One call -/

/-- The instruction of a call, decoded. The field of a jump holds `rel`. -/
theorem decode_call {call : Call} (h : call.Supported) (rel : BitVec 32) :
    (call.named (.rel (rel.signExtend 64)) (.rel 0) = none ∧ call.bytes rel = []) ∨
      ∃ i, call.named (.rel (rel.signExtend 64)) (.rel 0) = some i ∧
        ∀ bs, decode (call.bytes rel ++ bs) = some (i, bs) := by
  cases call with
  | makeLabel => exact .inl ⟨rfl, rfl⟩
  | bind => exact .inl ⟨rfl, rfl⟩
  | movRi dst imm => exact .inr ⟨_, rfl, decode_movRi dst imm⟩
  | movRr w dst src => exact .inr ⟨_, rfl, decode_movRr w dst src⟩
  | load w dst base disp => exact .inr ⟨_, rfl, decode_load w dst base disp⟩
  | store w base disp src => exact .inr ⟨_, rfl, decode_store w base disp src⟩
  | movzx src dst reg => exact .inr ⟨_, rfl, decode_movzx h dst reg⟩
  | movsx src dst reg => exact .inr ⟨_, rfl, decode_movsx h dst reg⟩
  | lea dst base disp => exact .inr ⟨_, rfl, decode_lea dst base disp⟩
  | leaRip dst symbol addend => exact .inr ⟨_, rfl, decode_leaRip dst⟩
  | aluRr op w dst src => exact .inr ⟨_, rfl, decode_aluRr op w dst src⟩
  | aluRi op w dst imm => exact .inr ⟨_, rfl, decode_aluRi op w dst imm⟩
  | imulRr dst src => exact .inr ⟨_, rfl, decode_imulRr dst src⟩
  | cqo => exact .inr ⟨_, rfl, fun _ => rfl⟩
  | zero reg => exact .inr ⟨_, rfl, decode_zero reg⟩
  | divR src =>
    exact .inr ⟨_, rfl, @decode_unary _ (.inr rfl) _ 6 (by decide) _ _ (by decide)
      (fun _ => rfl) rfl src⟩
  | idivR src =>
    exact .inr ⟨_, rfl, @decode_unary _ (.inr rfl) _ 7 (by decide) _ _ (by decide)
      (fun _ => rfl) rfl src⟩
  | negR w reg =>
    exact .inr ⟨_, rfl, @decode_unary _ h _ 3 (by decide) _ _ (by decide) (fun _ => rfl) rfl reg⟩
  | notR w reg =>
    exact .inr ⟨_, rfl, @decode_unary _ h _ 2 (by decide) _ _ (by decide) (fun _ => rfl) rfl reg⟩
  | shlCl w reg =>
    exact .inr ⟨_, rfl, @decode_unary _ h _ 4 (by decide) _ _ (by decide) (fun _ => rfl) rfl reg⟩
  | shrCl w reg =>
    exact .inr ⟨_, rfl, @decode_unary _ h _ 5 (by decide) _ _ (by decide) (fun _ => rfl) rfl reg⟩
  | sarCl w reg =>
    exact .inr ⟨_, rfl, @decode_unary _ h _ 7 (by decide) _ _ (by decide) (fun _ => rfl) rfl reg⟩
  | testRr w a b => exact .inr ⟨_, rfl, decode_test h a b⟩
  | setcc cond dst => exact .inr ⟨_, rfl, decode_setcc cond dst⟩
  | movssLoad dst base disp => exact .inr ⟨_, rfl, decode_movsLoad false dst base disp⟩
  | movssStore base disp src => exact .inr ⟨_, rfl, decode_movsStore false src base disp⟩
  | movsdLoad dst base disp => exact .inr ⟨_, rfl, decode_movsLoad true dst base disp⟩
  | movsdStore base disp src => exact .inr ⟨_, rfl, decode_movsStore true src base disp⟩
  | sseArith opcode double dst src => exact .inr ⟨_, rfl, decode_sseArith h double dst src⟩
  | ucomis double a b => exact .inr ⟨_, rfl, decode_ucomis double a b⟩
  | movaps dst src => exact .inr ⟨_, rfl, decode_movaps dst src⟩
  | cvtI2f toDouble src dst reg => exact .inr ⟨_, rfl, decode_cvtI2f toDouble h dst reg⟩
  | cvtF2i fromDouble w dst src => exact .inr ⟨_, rfl, decode_cvtF2i fromDouble h dst src⟩
  | cvtF2f toDouble dst src => exact .inr ⟨_, rfl, decode_cvtF2f toDouble dst src⟩
  | movRX dst src => exact .inr ⟨_, rfl, decode_movRX dst src⟩
  | movXR dst src => exact .inr ⟨_, rfl, decode_movXR dst src⟩
  | jmp target => exact .inr ⟨_, rfl, decode_jmp rel⟩
  | jcc cond target => exact .inr ⟨_, rfl, decode_jcc cond rel⟩
  | callSym symbol => exact .inr ⟨_, rfl, decode_callSym⟩
  | callR target => exact .inr ⟨_, rfl, decode_callR target⟩
  | ret => exact .inr ⟨_, rfl, fun _ => rfl⟩
  | pushR reg => exact .inr ⟨_, rfl, decode_pushR reg⟩
  | popR reg => exact .inr ⟨_, rfl, decode_popR reg⟩
  | subRsp n => exact .inr ⟨_, rfl, decode_aluRi .sub .w64 .rsp n⟩
  | addRsp n => exact .inr ⟨_, rfl, decode_aluRi .add .w64 .rsp n⟩
  | ud2 => exact .inr ⟨_, rfl, fun _ => rfl⟩
  | nop => exact .inr ⟨_, rfl, fun _ => rfl⟩
  | syscall => exact .inr ⟨_, rfl, fun _ => rfl⟩
  | cpuid => exact .inr ⟨_, rfl, fun _ => rfl⟩
  | aluRm op w dst base disp => exact .inr ⟨_, rfl, decode_aluRm op w dst base disp⟩
  | aluMr op w base disp src => exact .inr ⟨_, rfl, decode_aluMr op w base disp src⟩
  | aluMi op w base disp imm => exact .inr ⟨_, rfl, decode_aluMi op w base disp imm⟩
  | movMi w base disp imm => exact .inr ⟨_, rfl, decode_movMi w base disp imm⟩
  | movzxM src dst base disp => exact .inr ⟨_, rfl, decode_movzxM h dst base disp⟩
  | unaryM slot w base disp => exact .inr ⟨_, rfl, decode_unaryM h w base disp⟩
  | unaryR slot w reg => exact .inr ⟨_, rfl, decode_unaryR h w reg⟩
  | pushM base disp => exact .inr ⟨_, rfl, decode_pushM base disp⟩
  | popM base disp => exact .inr ⟨_, rfl, decode_popM base disp⟩
  | divM base disp => exact .inr ⟨_, rfl, decode_divM base disp⟩
  | idivM base disp => exact .inr ⟨_, rfl, decode_idivM base disp⟩
  | imulRm dst base disp => exact .inr ⟨_, rfl, decode_imulRm dst base disp⟩
  | sseArithM opcode double dst base disp =>
    exact .inr ⟨_, rfl, decode_sseArithM h double dst base disp⟩
  | ucomisM double a base disp => exact .inr ⟨_, rfl, decode_ucomisM double a base disp⟩

/-- Distances become offsets. -/
theorem named_absolute (call : Call) (d : BitVec 64) (next : Nat) :
    (call.named (.rel d) (.rel 0)).map (Decoded.absolute next) =
      call.named (.target (next + d.toInt)) (.target next) := by
  cases call with
  | movzx src dst reg => cases src <;> rfl
  | movzxM src dst base disp => cases src <;> rfl
  | callSym symbol => simp [Call.named, Decoded.absolute]
  | _ => rfl

theorem length_imm32 (d : BitVec 32) : (Enc.imm32 d).length = 4 := rfl

/-- A jump is its opcode and its field; the other calls do not depend on the distance. -/
theorem bytes_jump (call : Call) :
    (call.jumpTarget = none ∧ ∀ rel, call.bytes rel = call.bytes 0) ∨
      ∃ label opcodes, call.jumpTarget = some label ∧
        ∀ rel, call.bytes rel = opcodes ++ Enc.imm32 rel := by
  cases call with
  | jmp target => exact .inr ⟨target, [0xE9], rfl, fun _ => rfl⟩
  | jcc cond target => exact .inr ⟨target, [0x0F, 0x80 ||| cond.number], rfl, fun _ => rfl⟩
  | _ => exact .inl ⟨rfl, fun _ => rfl⟩

theorem length_bytes (call : Call) (rel : BitVec 32) :
    (call.bytes rel).length = (call.bytes 0).length := by
  rcases bytes_jump call with ⟨-, h⟩ | ⟨label, opcodes, -, h⟩
  · rw [h]
  · rw [h, h 0, List.length_append, List.length_append, length_imm32, length_imm32]

/-! ## A sequence of calls -/

/-- The bytes of a sequence of calls, the jumps not yet patched. -/
def bytesOf (calls : List Call) : List Byte := calls.flatMap (Call.bytes 0)

/-- The offset after a call. -/
def nextOffset (offset : Nat) (call : Call) : Nat := offset + (call.bytes 0).length

/-- Where a label is bound; the last time counts. -/
def boundAt (label : EncLabel) : Nat → List Call → Option Nat
  | _, [] => none
  | offset, call :: calls =>
    (boundAt label (nextOffset offset call) calls).or
      (if call = .bind label then some offset else none)

/-- The instructions of a sequence of calls. A jump goes to where its label is bound. -/
def namedFrom (dest : EncLabel → Option Nat) : Nat → List Call → List Decoded
  | _, [] => []
  | offset, call :: calls =>
    let next := nextOffset offset call
    (call.named (.target (((call.jumpTarget.bind dest).getD 0 : Nat) : Int))
      (.target next)).toList ++ namedFrom dest next calls

/-- Labels are made before they are bound. -/
def BindsMade : Nat → List Call → Prop
  | _, [] => True
  | made, .makeLabel :: calls => BindsMade (made + 1) calls
  | made, .bind label :: calls => label < made ∧ BindsMade made calls
  | made, _ :: calls => BindsMade made calls

/-- Every jump is to a label that is bound, at a distance that fits 32 bits. -/
def JumpsReach (dest : EncLabel → Option Nat) : Nat → List Call → Prop
  | _, [] => True
  | offset, call :: calls =>
    (∀ label ∈ call.jumpTarget, ∃ target ∈ dest label,
      -2147483648 ≤ (target : Int) - nextOffset offset call ∧
        (target : Int) - nextOffset offset call < 2147483648) ∧
    JumpsReach dest (nextOffset offset call) calls

instance (dest : EncLabel → Option Nat) :
    (offset : Nat) → (calls : List Call) → Decidable (JumpsReach dest offset calls)
  | _, [] => inferInstanceAs (Decidable True)
  | offset, call :: calls =>
    have := instDecidableJumpsReach dest (nextOffset offset call) calls
    inferInstanceAs (Decidable (_ ∧ _))

/-- The jumps of a sequence of calls. -/
def pendingFrom : Nat → List Call → List PendingJump
  | _, [] => []
  | offset, call :: calls =>
    (call.jumpTarget.map (PendingJump.mk (fieldOffset offset call))).toList ++
      pendingFrom (nextOffset offset call) calls

theorem call_code (e : Encoder) (call : Call) : (e.call call).code = e.code ++ call.bytes 0 := rfl

theorem call_length (e : Encoder) (call : Call) :
    (e.call call).code.length = nextOffset e.code.length call := by
  rw [call_code, List.length_append, nextOffset]

theorem call_pending (e : Encoder) (call : Call) : (e.call call).pending =
    e.pending ++ (call.jumpTarget.map (PendingJump.mk (fieldOffset e.code.length call))).toList := by
  cases call <;> first | rfl | exact (List.append_nil _).symm

theorem run_code (calls : List Call) (e : Encoder) : (e.run calls).code = e.code ++ bytesOf calls := by
  induction calls generalizing e with
  | nil => exact (List.append_nil _).symm
  | cons call calls ih =>
    rw [Encoder.run, List.foldl_cons]
    refine (ih (e.call call)).trans ?_
    rw [call_code, List.append_assoc]
    rfl

theorem run_pending (calls : List Call) (e : Encoder) :
    (e.run calls).pending = e.pending ++ pendingFrom e.code.length calls := by
  induction calls generalizing e with
  | nil => exact (List.append_nil _).symm
  | cons call calls ih =>
    rw [Encoder.run, List.foldl_cons]
    refine (ih (e.call call)).trans ?_
    rw [call_pending, call_length, List.append_assoc]
    rfl

/-- The offset of a label after one call. -/
theorem call_labels (e : Encoder) (call : Call) (label : EncLabel)
    (h : ∀ l, call = .bind l → l < e.labels.length) :
    (e.call call).labels.getD label unbound =
      if call = .bind label then BitVec.ofNat 32 e.code.length
      else e.labels.getD label unbound := by
  cases call with
  | makeLabel =>
    rw [if_neg (by simp)]
    show (e.labels ++ [unbound]).getD label unbound = _
    simp only [List.getD_eq_getElem?_getD, List.getElem?_append]
    split_ifs with hlt
    · rfl
    · rw [List.getElem?_eq_none (by omega : e.labels.length ≤ label)]
      cases label - e.labels.length <;> rfl
  | bind l =>
    show (e.labels.set l _).getD label unbound = _
    have hl := h l rfl
    simp only [List.getD_eq_getElem?_getD, Call.bind.injEq]
    split_ifs with heq
    · subst heq
      rw [List.getElem?_set_self hl]
      rfl
    · rw [List.getElem?_set_ne heq]
  | _ => exact (if_neg (by simp)).symm

theorem call_labels_length (e : Encoder) (call : Call) : (e.call call).labels.length =
    e.labels.length + if call = .makeLabel then 1 else 0 := by
  cases call with
  | makeLabel => exact List.length_append
  | bind l => exact List.length_set
  | _ => rfl

/-- What a label is at the end: where it is bound last. -/
theorem run_labels (calls : List Call) (e : Encoder) (label : EncLabel)
    (h : BindsMade e.labels.length calls) :
    (e.run calls).labels.getD label unbound =
      ((boundAt label e.code.length calls).map (BitVec.ofNat 32)).getD
        (e.labels.getD label unbound) := by
  induction calls generalizing e with
  | nil => rfl
  | cons call calls ih =>
    have hcall : (∀ l, call = .bind l → l < e.labels.length) ∧
        BindsMade (e.call call).labels.length calls := by
      rw [call_labels_length]
      cases call with
      | makeLabel => exact ⟨by simp, h⟩
      | bind l => exact ⟨fun l' hl => (Call.bind.inj hl) ▸ h.1, h.2⟩
      | _ => exact ⟨by simp, h⟩
    rw [Encoder.run, List.foldl_cons]
    refine (ih (e.call call) hcall.2).trans ?_
    rw [call_length, call_labels e call label hcall.1, boundAt]
    cases boundAt label (nextOffset e.code.length call) calls with
    | some o => rfl
    | none =>
      rw [Option.none_or]
      split_ifs <;> rfl

/-! ## Patching -/

/-- The patching of jumps to labels at the given offsets. -/
def patchAll (dest : EncLabel → BitVec 32) (code : List Byte) (pending : List PendingJump) :
    List Byte :=
  pending.foldl (fun code jump =>
    patch code jump.patchOffset.toNat (dest jump.target - (jump.patchOffset + 4))) code

/-- The distance in the field of a call. -/
def distance (dest : EncLabel → BitVec 32) (offset : Nat) (call : Call) : BitVec 32 :=
  (call.jumpTarget.map fun label => dest label - BitVec.ofNat 32 (nextOffset offset call)).getD 0

/-- The bytes of a sequence of calls, the distances in place. -/
def resolvedFrom (dest : EncLabel → BitVec 32) : Nat → List Call → List Byte
  | _, [] => []
  | offset, call :: calls =>
    call.bytes (distance dest offset call) ++ resolvedFrom dest (nextOffset offset call) calls

theorem patch_imm32 (before after : List Byte) (old new : BitVec 32) :
    patch (before ++ (Enc.imm32 old ++ after)) before.length new =
      before ++ (Enc.imm32 new ++ after) := by
  have hset : ∀ (l : List Byte) (i : Nat) (b : Byte),
      (before ++ l).set (before.length + i) b = before ++ l.set i b := by
    intro l i b
    rw [List.set_append_right _ _ (by omega), Nat.add_sub_cancel_left]
  show ((((before ++ _).set (before.length + 0) _).set (before.length + 1) _).set
    (before.length + 2) _).set (before.length + 3) _ = _
  rw [hset, hset, hset, hset]
  rfl

/-- The field of a jump is behind its opcode. -/
theorem fieldOffset_spec {call : Call} {opcodes : List Byte} {offset : Nat}
    (h : call.bytes 0 = opcodes ++ Enc.imm32 0) (hlt : nextOffset offset call < 2 ^ 32) :
    (fieldOffset offset call).toNat = offset + opcodes.length ∧
      fieldOffset offset call + 4 = BitVec.ofNat 32 (nextOffset offset call) := by
  have hnext : nextOffset offset call = offset + opcodes.length + 4 := by
    rw [nextOffset, h, List.length_append, length_imm32]
    omega
  have hfield : fieldOffset offset call = BitVec.ofNat 32 (offset + opcodes.length) := by
    rw [fieldOffset, h, List.length_append, length_imm32]
    congr 1
  rw [hfield, hnext, BitVec.toNat_ofNat]
  exact ⟨Nat.mod_eq_of_lt (by omega), (BitVec.ofNat_add _ _).symm⟩

theorem patchAll_cons (dest : EncLabel → BitVec 32) (code : List Byte) (jump : PendingJump)
    (pending : List PendingJump) : patchAll dest code (jump :: pending) =
      patchAll dest
        (patch code jump.patchOffset.toNat (dest jump.target - (jump.patchOffset + 4))) pending :=
  rfl

theorem length_bytesOf_cons (call : Call) (calls : List Call) (offset : Nat) :
    offset + (bytesOf (call :: calls)).length =
      nextOffset offset call + (bytesOf calls).length := by
  rw [bytesOf, List.flatMap_cons, List.length_append, nextOffset, bytesOf]
  omega

/-- Patching the jumps of a sequence of calls puts their distances in place. The calls
    before keep their bytes. -/
theorem patchAll_pending (dest : EncLabel → BitVec 32) (calls : List Call) (before : List Byte)
    (hlt : before.length + (bytesOf calls).length < 2 ^ 32) :
    patchAll dest (before ++ bytesOf calls) (pendingFrom before.length calls) =
      before ++ resolvedFrom dest before.length calls := by
  induction calls generalizing before with
  | nil => rfl
  | cons call calls ih =>
    rw [length_bytesOf_cons] at hlt
    have hlength : ∀ rel, (before ++ call.bytes rel).length = nextOffset before.length call := by
      intro rel
      rw [List.length_append, length_bytes, nextOffset]
    have hrest := ih (before ++ call.bytes (distance dest before.length call))
      (by rw [hlength]; exact hlt)
    rw [hlength, List.append_assoc, List.append_assoc] at hrest
    refine Eq.trans ?_ hrest
    rcases bytes_jump call with ⟨hjump, hbytes⟩ | ⟨label, opcodes, hjump, hbytes⟩
    · rw [pendingFrom, hjump, hbytes (distance _ _ _)]
      rfl
    · obtain ⟨hfield, hnext⟩ := @fieldOffset_spec call opcodes before.length (hbytes 0) (by omega)
      rw [pendingFrom, hjump, Option.map_some, Option.toList_some, List.singleton_append,
        patchAll_cons]
      refine congrArg (patchAll dest · _) ?_
      simp only [hfield, hnext, distance, hjump, Option.map_some, Option.getD_some]
      have hpatch := patch_imm32 (before ++ opcodes) (bytesOf calls) 0
        (dest label - BitVec.ofNat 32 (nextOffset before.length call))
      rw [List.length_append] at hpatch
      rw [bytesOf, List.flatMap_cons, hbytes 0, hbytes (dest label - _)]
      simp only [List.append_assoc] at hpatch ⊢
      exact hpatch

/-! ## Decoding -/

/-- The instructions of a sequence of calls, each jump by the distance in its field. -/
def decodedFrom (dest : EncLabel → BitVec 32) : Nat → List Call → List Decoded
  | _, [] => []
  | offset, call :: calls =>
    let next := nextOffset offset call
    (call.named (.target (next + (distance dest offset call).toInt)) (.target next)).toList ++
      decodedFrom dest next calls

theorem decodeFrom_append {bytes bs : List Byte} {i : Decoded} {count offset : Nat}
    (h : decode (bytes ++ bs) = some (i, bs)) (hne : bytes ≠ []) :
    decodeFrom (count + 1) offset (bytes ++ bs) =
      (decodeFrom count (offset + bytes.length) bs).map
        (i.absolute (offset + bytes.length) :: ·) := by
  have hnext : offset + ((bytes ++ bs).length - bs.length) = offset + bytes.length := by
    rw [List.length_append, Nat.add_sub_cancel]
  obtain ⟨b, tail, htail⟩ := List.exists_cons_of_ne_nil hne
  have hcons : bytes ++ bs = b :: (tail ++ bs) := by rw [htail, List.cons_append]
  rw [hcons] at h hnext ⊢
  rw [decodeFrom, h, Option.bind_some]
  simp only [hnext]

/-- The bytes of the calls are decoded call by call. -/
theorem decodeFrom_resolved (dest : EncLabel → BitVec 32) (calls : List Call)
    (h : ∀ call ∈ calls, call.Supported) (offset count : Nat)
    (hcount : (resolvedFrom dest offset calls).length ≤ count) :
    decodeFrom count offset (resolvedFrom dest offset calls) =
      some (decodedFrom dest offset calls) := by
  induction calls generalizing offset count with
  | nil => cases count <;> rfl
  | cons call calls ih =>
    have hsupported := h call (List.mem_cons_self ..)
    have hrest := ih (fun c hc => h c (List.mem_cons_of_mem _ hc)) (nextOffset offset call)
    have hnext : nextOffset offset call =
        offset + (call.bytes (distance dest offset call)).length := by
      rw [nextOffset, length_bytes call (distance _ _ _)]
    have habsolute := named_absolute call ((distance dest offset call).signExtend 64)
      (nextOffset offset call)
    rw [BitVec.toInt_signExtend_of_le (by omega)] at habsolute
    rw [resolvedFrom, List.length_append] at hcount
    rw [resolvedFrom, decodedFrom]
    rcases decode_call hsupported (distance dest offset call) with
      ⟨hnamed, hbytes⟩ | ⟨i, hnamed, hdecode⟩
    · rw [hbytes] at hnext hcount
      rw [List.length_nil, Nat.add_zero] at hnext
      rw [List.length_nil, Nat.zero_add] at hcount
      rw [← habsolute, hnamed, hbytes, List.nil_append]
      rw [hnext] at hrest hcount ⊢
      exact hrest count hcount
    · have hne : call.bytes (distance dest offset call) ≠ [] := by
        intro hnil
        have hnone := hdecode []
        rw [hnil, List.append_nil] at hnone
        exact absurd hnone (by simp [decode, prefixes])
      have hpos := List.length_pos_of_ne_nil hne
      obtain ⟨count, rfl⟩ : ∃ c, count = c + 1 := ⟨count - 1, by omega⟩
      rw [← habsolute, hnamed, decodeFrom_append (hdecode _) hne, ← hnext,
        hrest count (by omega)]
      rfl

/-! ## The encoder -/

/-- Where the encoder has its labels. -/
def labelsOf (calls : List Call) (label : EncLabel) : BitVec 32 :=
  ((boundAt label 0 calls).map (BitVec.ofNat 32)).getD unbound

/-- The code of a sequence of calls is decoded as their instructions. -/
theorem decodeAll_resolveLabels {calls : List Call} (h : ∀ call ∈ calls, call.Supported)
    (hbinds : BindsMade 0 calls) (hlt : (bytesOf calls).length < 2 ^ 32) :
    decodeAll (({} : Encoder).run calls).resolveLabels.code =
      some (decodedFrom (labelsOf calls) 0 calls) := by
  have hlabels : (fun label => (({} : Encoder).run calls).labels.getD label unbound) =
      labelsOf calls := by
    funext label
    exact run_labels calls {} label hbinds
  have hcode : (({} : Encoder).run calls).resolveLabels.code =
      resolvedFrom (labelsOf calls) 0 calls := by
    have hpatch := patchAll_pending (labelsOf calls) calls [] (by simpa using hlt)
    rw [List.nil_append, List.nil_append, List.length_nil] at hpatch
    rw [← hpatch, ← hlabels, Encoder.resolveLabels, run_code, run_pending]
    rfl
  rw [hcode]
  exact decodeFrom_resolved _ _ h 0 _ (Nat.le_refl _)

/-- A distance that fits its field leads to the label. -/
theorem distance_toInt {target next : Nat}
    (h : -2147483648 ≤ (target : Int) - next ∧ (target : Int) - next < 2147483648) :
    (next : Int) + (BitVec.ofNat 32 target - BitVec.ofNat 32 next).toInt = target := by
  rw [BitVec.toInt_sub, BitVec.toInt_ofNat', BitVec.toInt_ofNat', Int.bmod_sub_bmod,
    Int.sub_bmod_bmod, Int.bmod_eq_of_le (by omega) (by omega)]
  omega

/-- Jumps whose distances fit their fields go to where their labels are bound. -/
theorem decodedFrom_eq {all : List Call} (calls : List Call) (offset : Nat)
    (h : JumpsReach (boundAt · 0 all) offset calls) :
    decodedFrom (labelsOf all) offset calls = namedFrom (boundAt · 0 all) offset calls := by
  induction calls generalizing offset with
  | nil => rfl
  | cons call calls ih =>
    obtain ⟨hcall, hcalls⟩ := h
    rw [decodedFrom, namedFrom, ih _ hcalls]
    refine congrArg (fun i : Option Decoded => i.toList ++ _) ?_
    rcases bytes_jump call with ⟨hjump, -⟩ | ⟨label, opcodes, hjump, -⟩
    · cases call with
      | jmp => cases hjump
      | jcc => cases hjump
      | _ => rfl
    · obtain ⟨target, hmem, hfits⟩ := hcall label hjump
      have htarget : boundAt label 0 all = some target := hmem
      have hdest : (nextOffset offset call : Int) +
          (distance (labelsOf all) offset call).toInt = target := by
        rw [distance, hjump, Option.map_some, Option.getD_some, labelsOf, htarget]
        exact distance_toInt hfits
      rw [hdest, hjump, Option.bind_some, htarget, Option.getD_some]

/-- Every sequence of calls is decoded as the instructions it names, for labels that are
    made before they are bound, jumps to bound labels at distances that fit 32 bits, and
    code that leaves the largest 32-bit number for a label without an offset. -/
theorem encoder_faithful (calls : List Call) (h : ∀ call ∈ calls, call.Supported)
    (hbinds : BindsMade 0 calls) (hjumps : JumpsReach (boundAt · 0 calls) 0 calls)
    (hlt : (({} : Encoder).run calls).code.length < unbound.toNat) :
    decodeAll (({} : Encoder).run calls).resolveLabels.code =
      some (namedFrom (boundAt · 0 calls) 0 calls) := by
  have hlt : (bytesOf calls).length < 2 ^ 32 := by
    rw [run_code] at hlt
    exact Nat.lt_trans hlt (by decide)
  rw [decodeAll_resolveLabels h hbinds hlt,
    decodedFrom_eq calls 0 hjumps]

/-- A loop that is left by the jump over its end, with a load from a base that needs a SIB
    byte and a byte register that needs a REX prefix. -/
def sampleCalls : List Call :=
  [.makeLabel, .makeLabel, .bind 0, .load .w16 .rax .r12 0x80, .movRr .w8 .rsi .rbx,
    .jcc .e 1, .jmp 0, .bind 1, .ret]

theorem encoder_faithful_sample :
    decodeAll (({} : Encoder).run sampleCalls).resolveLabels.code =
      some [⟨.mov, [.gpr .w16 .rax, memAt .w16 .r12 0x80]⟩, ⟨.mov, [.gpr .w8 .rsi, .gpr .w8 .rbx]⟩,
        ⟨.jcc .e, [.target 23]⟩, ⟨.jmp, [.target 0]⟩, ⟨.ret, []⟩] :=
  encoder_faithful sampleCalls (by simp [sampleCalls, Call.Supported])
    (by simp [sampleCalls, BindsMade])
    (by decide) (by decide)

/-! ## Calls that are not faithful -/

/-- A jump over `n` instructions of one byte. -/
def jumpOver (n : Nat) : List Call :=
  .makeLabel :: .jmp 0 :: (List.replicate n .nop ++ [.bind 0])

theorem boundAt_nops (n offset : Nat) :
    boundAt 0 offset (List.replicate n .nop ++ [.bind 0]) = some (offset + n) := by
  induction n generalizing offset with
  | zero => rfl
  | succ n ih =>
    rw [List.replicate_succ, List.cons_append, boundAt, ih]
    exact congrArg some (by rw [nextOffset]; show offset + 1 + n = _; omega)

theorem bindsMade_nops (n : Nat) : BindsMade 1 (List.replicate n .nop ++ [.bind 0]) := by
  induction n with
  | zero => exact ⟨Nat.one_pos, trivial⟩
  | succ n ih => exact ih

theorem length_nops (n : Nat) : (bytesOf (List.replicate n .nop ++ [.bind 0])).length = n := by
  induction n with
  | zero => rfl
  | succ n ih =>
    rw [bytesOf] at ih
    rw [List.replicate_succ, List.cons_append, bytesOf, List.flatMap_cons, List.length_append, ih]
    exact Nat.add_comm 1 n

theorem supported_jumpOver (n : Nat) : ∀ call ∈ jumpOver n, call.Supported := by
  intro call hcall
  rw [jumpOver, List.mem_cons, List.mem_cons, List.mem_append, List.mem_singleton] at hcall
  rcases hcall with rfl | rfl | hcall | rfl
  · exact trivial
  · exact trivial
  · obtain rfl := List.eq_of_mem_replicate hcall
    exact trivial
  · exact trivial

/-- The field of the jump holds the distance, cut to 32 bits. -/
theorem decodeAll_jumpOver {n : Nat} (h : n < 4294967290) :
    ∃ rest, decodeAll (({} : Encoder).run (jumpOver n)).resolveLabels.code =
      some (⟨.jmp, [.target (5 + (BitVec.ofNat 32 n).toInt)]⟩ :: rest) := by
  have hlength : (bytesOf (jumpOver n)).length = n + 5 := by
    have := length_nops n
    rw [bytesOf] at this
    rw [jumpOver, bytesOf, List.flatMap_cons, List.flatMap_cons, List.length_append,
      List.length_append, this]
    show 0 + (5 + n) = n + 5
    omega
  have hbound : boundAt 0 0 (jumpOver n) = some (5 + n) := by
    rw [jumpOver, boundAt, boundAt, if_neg (by decide), if_neg (by decide), Option.or_none,
      Option.or_none]
    exact boundAt_nops n 5
  have hdistance : distance (labelsOf (jumpOver n)) 0 (.jmp 0) = BitVec.ofNat 32 n := by
    show labelsOf (jumpOver n) 0 - BitVec.ofNat 32 5 = _
    rw [labelsOf, hbound, Option.map_some, Option.getD_some, BitVec.ofNat_add, BitVec.add_comm,
      BitVec.add_sub_cancel]
  refine ⟨decodedFrom (labelsOf (jumpOver n)) 5 (List.replicate n .nop ++ [.bind 0]), ?_⟩
  rw [decodeAll_resolveLabels (supported_jumpOver n) (bindsMade_nops n)
    (by rw [hlength]; omega), ← hdistance]
  rfl

/-- There is no `movzx` from 64 bits, an immediate is cut to the width of the operation, and
    a jump over 2 GiB of code goes back. -/
theorem calls_unfaithful :
    decodeAll (({} : Encoder).run [.movzx .w64 .rax .rbx]).resolveLabels.code =
        some [⟨.movzx, [.gpr .w64 .rax, .gpr .w16 .rbx]⟩] ∧
      decodeAll (({} : Encoder).run [.aluRi .cmp .w8 .rax 256]).resolveLabels.code =
        some [⟨.alu .cmp, [.gpr .w8 .rax, .imm 0]⟩] ∧
      ∃ calls rest, boundAt 0 0 calls = some 2147483653 ∧
        decodeAll (({} : Encoder).run calls).resolveLabels.code =
          some (⟨.jmp, [.target (-2147483643)]⟩ :: rest) := by
  obtain ⟨rest, hrest⟩ := @decodeAll_jumpOver 2147483648 (by decide)
  refine ⟨by decide, by decide, jumpOver 2147483648, rest, ?_, hrest⟩
  rw [jumpOver, boundAt, boundAt, if_neg (by decide), if_neg (by decide), Option.or_none,
    Option.or_none]
  exact boundAt_nops 2147483648 5

end Mirage.X86
