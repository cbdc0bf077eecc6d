import Mirage.Wasm.DispatchFaithful
import Mirage.Wasm.EmitFunction

/-!
# The shadow stack, one instruction at a time

What the code of an instruction does to the stack pointer. Most code leaves it alone, and sets
no local but those of values (`Spared`), by which some locals of the backend's own keep what
they hold (`Steady`).

* `spared_emitOrdinary`: this is so of all instructions but `stackalloc` and calls.
* `steady_emitCall`: a call leaves the pointer as it was, when its callee does. Where it takes its
  tail by a buffer, the local in which the pointer is kept is not touched until the call is over.
* `run_slotAddrCode`, `run_stackAllocCode`: where a slot and a block are.
-/

namespace Mirage.Wasm.ShadowStack

variable {W : Type} {env : Env W} {module : Module} {callee : Target → Callee W} {turns : Nat}
  {m m' m'' : Machine W} {own : Nat → Prop}

theorem bind_eq_ok {ε α β : Type} {x : Except ε α} {f : α → Except ε β} {r : β} :
    x >>= f = .ok r ↔ ∃ a, x = .ok a ∧ f a = .ok r := by
  cases x <;> simp [bind, Except.bind]

/-- The function returns with the stack pointer that it is called with. -/
def Callee.Balanced (f : Callee W) : Prop :=
  ∀ args sp w value sp' w', f args sp w = .ok (value, sp', w') → sp' = sp

/-! ## What code leaves alone -/

/-- The stack pointer, some locals and the record are as they were. -/
structure Steady (own : Nat → Prop) (m m' : Machine W) : Prop where
  sp : m'.sp = m.sp
  locals : ∀ i, own i → m'.state.locals i = m.state.locals i
  trace : m'.trace = m.trace

namespace Steady

theorem refl (own : Nat → Prop) (m : Machine W) : Steady own m m := ⟨rfl, fun _ _ => rfl, rfl⟩

theorem trans (h : Steady own m m') (h' : Steady own m' m'') : Steady own m m'' where
  sp := h'.sp.trans h.sp
  locals i hi := (h'.locals i hi).trans (h.locals i hi)
  trace := h'.trace.trans h.trace

/-- It is enough to look at fewer locals. -/
theorem mono {own' : Nat → Prop} (h : Steady own m m') (hown : ∀ i, own' i → own i) :
    Steady own' m m' where
  sp := h.sp
  locals i hi := h.locals i (hown i hi)
  trace := h.trace

/-- Operands and the world do not matter. -/
theorem of_eq (hsp : m'.sp = m.sp) (hlocals : m'.state.locals = m.state.locals)
    (htrace : m'.trace = m.trace) : Steady own m m' :=
  ⟨hsp, fun _ _ => by rw [hlocals], htrace⟩

end Steady

/-- The instruction sets none of some locals, and not the stack pointer. -/
def Plain.Spares (own : Nat → Prop) : Plain → Prop
  | .op (.localSet i) => ¬own i
  | .localTee i => ¬own i
  | .spSet => False
  | _ => True

def Spared (own : Nat → Prop) (code : List Plain) : Prop := ∀ p ∈ code, p.Spares own

section

variable {code code' : List Plain} {p : Plain}

@[simp] theorem spared_nil : Spared own [] := fun _ h => absurd h List.not_mem_nil

@[simp] theorem spared_cons : Spared own (p :: code) ↔ p.Spares own ∧ Spared own code :=
  List.forall_mem_cons

@[simp] theorem spared_append : Spared own (code ++ code') ↔ Spared own code ∧ Spared own code' :=
  List.forall_mem_append

theorem spared_flatMap {α : Type*} {as : List α} {f : α → List Plain}
    (h : ∀ a ∈ as, Spared own (f a)) : Spared own (as.flatMap f) := fun p hp => by
  obtain ⟨a, ha, hp⟩ := List.mem_flatMap.1 hp
  exact h a ha p hp

/-- A call keeps the stack pointer when its callee does. -/
theorem steady_invoke {type : FuncType} {f : Callee W} (hf : f.Balanced)
    (h : m.invoke type f = .ok m') : Steady own m m' := by
  simp only [Machine.invoke] at h
  split_ifs at h
  obtain ⟨⟨value, sp, w⟩, hcall, heq⟩ := bind_eq_ok.1 h
  cases heq
  exact .of_eq (hf _ _ _ _ _ _ hcall) rfl rfl

theorem steady_remember {stack : List Val} {w : Option W} (h : m.remember stack w = .ok m') :
    Steady own m m' := by
  cases w with
  | none => cases h
  | some w =>
    cases h
    exact .of_eq rfl rfl rfl

/-- One instruction that spares the locals. -/
theorem Plain.Spares.steady (hcallee : ∀ target, (callee target).Balanced) (hp : p.Spares own)
    (h : p.run env module callee m = .ok m') : Steady own m m' := by
  cases p with
  | op i =>
    simp only [Plain.run] at h
    cases hi : i.run m.state with
    | ok s =>
      rw [hi] at h
      cases h
      refine ⟨rfl, fun j hj => run_locals hi ?_, rfl⟩
      rintro rfl
      exact hp hj
    | trap => rw [hi] at h; cases h
    | invalid => rw [hi] at h; cases h
  | localTee i =>
    simp only [Plain.run] at h
    split at h
    · split_ifs at h
      cases h
      exact ⟨rfl, fun j hj => if_neg fun (heq : j = i) => hp (heq ▸ hj), rfl⟩
    · cases h
  | spSet => exact absurd hp id
  | spGet | f32Const | f64Const =>
    cases h
    exact .of_eq rfl rfl rfl
  | float =>
    simp only [Plain.run] at h
    split at h <;> cases h
    exact .of_eq rfl rfl rfl
  | load =>
    simp only [Plain.run] at h
    split at h
    · split at h <;> cases h
      exact .of_eq rfl rfl rfl
    · cases h
  | store =>
    simp only [Plain.run] at h
    split at h
    · split_ifs at h
      exact steady_remember h
    · cases h
  | memoryCopy | memoryFill =>
    simp only [Plain.run] at h
    split at h
    · exact steady_remember h
    · cases h
  | drop =>
    simp only [Plain.run] at h
    split at h <;> cases h
    exact .of_eq rfl rfl rfl
  | call target => exact steady_invoke (hcallee target) h
  | callIndirect =>
    simp only [Plain.run] at h
    split at h
    · split at h
      · have hinvoke : Steady own (m.clear _) m' := steady_invoke (hcallee _) h
        exact ⟨hinvoke.sp, hinvoke.locals, hinvoke.trace⟩
      · cases h
    · cases h

@[simp] theorem runPlain_nil : runPlain env module callee [] m = .ok m := rfl

theorem runPlain_cons : runPlain env module callee (p :: code) m =
    p.run env module callee m >>= runPlain env module callee code := rfl

/-- What has run, ran its first instruction before. -/
theorem runPlain_cons_ok : runPlain env module callee (p :: code) m = .ok m' ↔
    ∃ u, p.run env module callee m = .ok u ∧ runPlain env module callee code u = .ok m' := by
  rw [runPlain_cons, bind_eq_ok]

theorem runPlain_append : runPlain env module callee (code ++ code') m =
    runPlain env module callee code m >>= runPlain env module callee code' :=
  List.foldlM_append

/-- Code that spares the locals. -/
theorem Spared.steady (hcallee : ∀ target, (callee target).Balanced) (hcode : Spared own code)
    (h : runPlain env module callee code m = .ok m') : Steady own m m' := by
  induction code generalizing m with
  | nil =>
    cases h
    exact .refl own _
  | cons p code ih =>
    obtain ⟨u, hp, hrest⟩ := runPlain_cons_ok.1 h
    obtain ⟨hspares, hcode⟩ := spared_cons.1 hcode
    exact (hspares.steady hcallee hp).trans (ih hcode hrest)

end

/-! ## The code of the instructions -/

section

variable {ctx : Context} {fn : Function} {l : Locals} {inst : Inst} {code : List Plain}

theorem spared_map_op {code : List Instr} (h : ∀ i, .localSet i ∈ code → ¬own i) :
    Spared own (code.map .op) := fun p hp => by
  obtain ⟨i, hi, rfl⟩ := List.mem_map.1 hp
  cases i with
  | localSet v => exact h v hi
  | _ => trivial

theorem spared_maskNarrow (type : Ty) : Spared own ((maskNarrow type).map .op) := by
  refine spared_map_op fun i hi => ?_
  rw [maskNarrow] at hi
  split_ifs at hi <;> simp at hi

theorem spared_coerce (source target : Ty) : Spared own (coerce source target) := by
  rw [coerce]
  split_ifs <;> simp [Plain.Spares]

theorem spared_bitcastCode (source target : Ty) : Spared own (bitcastCode source target) := by
  rw [bitcastCode]
  split_ifs <;> simp [Plain.Spares]

variable (hindex : ∀ k, ¬own (l.index k))

include hindex

theorem spared_ops (code : List Instr) : Spared own (ops l code) := fun p hp => by
  obtain ⟨i, -, rfl⟩ := List.mem_map.1 hp
  cases i with
  | localSet v => exact hindex (.home v)
  | _ => trivial

omit hindex in
theorem spared_pushAddress (v : ValueId) : Spared own (pushAddress fn l v) := by
  rw [pushAddress]
  split_ifs <;> simp [Plain.Spares, get]

/-- An instruction other than a `stackalloc` and a call does not touch the stack pointer, and
    sets no local but those of values. -/
theorem spared_emitOrdinary
    (hop : inst.op ≠ .stackAlloc ∧ inst.op ≠ .call ∧ inst.op ≠ .callIndirect)
    (h : emitOrdinary ctx fn l inst = some code) : Spared own code := by
  have hops : ∀ code, Spared own (ops l code) := spared_ops hindex
  have hpush : ∀ v, Spared own (pushAddress fn l v) := spared_pushAddress
  have hmask : ∀ type, Spared own ((maskNarrow type).map .op) := spared_maskNarrow
  have hbitcast : ∀ source target, Spared own (bitcastCode source target) := spared_bitcastCode
  rw [emitOrdinary] at h
  split at h
  case h_1 | h_2 | h_30 | h_31 =>
    -- the two classes of constants, and of the results of a conversion
    cases h
    simp only [spared_cons, spared_append, spared_nil]
    split_ifs <;> simp [hindex, hmask, Plain.Spares, get, set]
  case h_5 | h_6 =>
    obtain ⟨offset, -, rfl⟩ := Option.map_eq_some_iff.1 h
    simp [slotAddrCode, hindex, Plain.Spares, set]
  case h_7 heq => exact absurd heq hop.1
  case h_33 heq => exact absurd heq hop.2.1
  case h_34 heq => exact absurd heq hop.2.2
  all_goals try cases h
  all_goals simp [hindex, hops, hpush, hbitcast, Plain.Spares, get, set]

theorem spared_takeResult (sig : Signature) : Spared own (takeResult l inst sig) := by
  rw [takeResult]
  split_ifs
  · simp [spared_coerce, spared_maskNarrow, hindex, Plain.Spares, set]
  · simp [Plain.Spares]
  · exact spared_nil

theorem spared_passAndCall (indirect : Bool) : Spared own (passAndCall ctx fn l inst indirect) := by
  simp only [passAndCall, spared_append]
  refine ⟨⟨⟨spared_flatMap fun q _ => ?_, ?_⟩, ?_⟩, spared_takeResult hindex _⟩
  · exact spared_cons.2 ⟨trivial, spared_coerce _ _⟩
  · split_ifs <;> simp [Plain.Spares]
  · split_ifs <;> simp [Plain.Spares, get]

omit hindex

theorem spared_spillArg (arg : ValueId) (offset : Nat) :
    Spared own (spillArg fn l arg offset) := by
  rw [spillArg]
  split <;> simp [Plain.Spares, get]

end

/-! ## Moving the stack pointer -/

section

variable {x : Val} {rest : List Val} {i : Nat}

theorem localSet_ok (hs : m.state.stack = x :: rest)
    (h : (Plain.op (.localSet i)).run env module callee m = .ok m') :
    m' = { m with state := { m.state.setLocal i x with stack := rest } } := by
  simp only [Plain.run, Instr.run, hs] at h
  split_ifs at h
  · cases h
    rfl
  · cases h

theorem localTee_ok (hs : m.state.stack = x :: rest)
    (h : (Plain.localTee i).run env module callee m = .ok m') :
    m' = { m with state := m.state.setLocal i x } := by
  simp only [Plain.run, hs] at h
  split_ifs at h
  cases h
  rfl

end

section

variable {ctx : Context} {fn : Function} {l : Locals} {inst : Inst}

/-- The stack pointer on the stack is moved down by a constant, and kept in a local. -/
theorem run_lower {sp size : BitVec 32} {i : Nat} {rest : List Val}
    (hs : m.state.stack = .i32 sp :: rest)
    (h : runPlain env module callee
      [.op (.i32Const size), .op (.i32Op .sub), .localTee i, .spSet] m = .ok m') :
    m'.sp = sp - size ∧ m'.state.locals i = .i32 (sp - size) ∧
      (∀ j, j ≠ i → m'.state.locals j = m.state.locals j) ∧ m'.trace = m.trace := by
  obtain ⟨⟨stack, locals⟩, msp, w, trace⟩ := m
  cases hs
  obtain ⟨m₁, h₁, h⟩ := runPlain_cons_ok.1 h
  cases h₁
  obtain ⟨m₂, h₂, h⟩ := runPlain_cons_ok.1 h
  cases h₂
  obtain ⟨m₃, h₃, h⟩ := runPlain_cons_ok.1 h
  obtain rfl := localTee_ok rfl h₃
  obtain ⟨m₄, h₄, h⟩ := runPlain_cons_ok.1 h
  cases h₄
  cases h
  exact ⟨rfl, if_pos rfl, fun j hj => if_neg hj, rfl⟩

/-- The buffer is opened: the stack pointer is in the local that is for it. -/
theorem run_openBuffer {size : Nat}
    (h : runPlain env module callee (openBuffer fn size) m = .ok m') :
    m'.state.locals (vaSavedLocal fn) = .i32 m.sp ∧
      (∀ i, i ≠ vaSavedLocal fn → i ≠ vaBaseLocal fn → m'.state.locals i = m.state.locals i) ∧
      m'.trace = m.trace := by
  obtain ⟨m₁, h₁, h⟩ := runPlain_cons_ok.1 h
  cases h₁
  obtain ⟨m₂, h₂, h⟩ := runPlain_cons_ok.1 h
  obtain rfl := localSet_ok rfl h₂
  obtain ⟨m₃, h₃, h⟩ := runPlain_cons_ok.1 h
  cases h₃
  obtain ⟨-, -, hother, htrace⟩ := run_lower rfl h
  have hne : vaSavedLocal fn ≠ vaBaseLocal fn := Nat.ne_of_lt (Nat.lt_succ_self (vaSavedLocal fn))
  refine ⟨?_, fun i hsaved hbase => ?_, htrace⟩
  · rw [hother _ hne]
    exact if_pos rfl
  · rw [hother i hbase]
    exact if_neg hsaved

/-- A call leaves the stack pointer as it was, and sets no local but those of values and of
    variadic calls. -/
theorem steady_emitCall (hcallee : ∀ target, (callee target).Balanced) {indirect : Bool}
    (hindex : ∀ k, ¬own (l.index k))
    (hsaved : isCVariadic ctx inst indirect = true → (∀ k, l.index k ≠ vaSavedLocal fn) ∧
      ∀ i, own i → i ≠ vaSavedLocal fn ∧ i ≠ vaBaseLocal fn)
    (h : runPlain env module callee (emitCall ctx fn l inst indirect) m = .ok m') :
    Steady own m m' := by
  rw [emitCall] at h
  split_ifs at h with hvariadic
  · obtain ⟨hva, hown⟩ := hsaved hvariadic
    simp only [spillTail, runPlain_append] at h
    obtain ⟨m₃, h, hclose⟩ := bind_eq_ok.1 h
    obtain ⟨m₂, h, hcall⟩ := bind_eq_ok.1 h
    obtain ⟨m₁, hopen, hspill⟩ := bind_eq_ok.1 h
    obtain ⟨hkept, hother, htrace⟩ := run_openBuffer hopen
    -- the local with the stack pointer is not touched until the call is over
    have hindex' : ∀ k, ¬(own (l.index k) ∨ l.index k = vaSavedLocal fn) := fun k hk =>
      hk.elim (hindex k) (hva k)
    have hmiddle : Steady (fun i => own i ∨ i = vaSavedLocal fn) m₁ m₃ :=
      (Spared.steady hcallee (spared_flatMap fun q _ => spared_spillArg q.1 q.2) hspill).trans
        (Spared.steady hcallee (spared_passAndCall hindex' indirect) hcall)
    obtain ⟨m₄, h₄, hclose⟩ := runPlain_cons_ok.1 hclose
    cases h₄
    obtain ⟨m₅, h₅, hclose⟩ := runPlain_cons_ok.1 hclose
    simp only [Plain.run, State.push, (hmiddle.locals _ (.inr rfl)).trans hkept] at h₅
    cases h₅
    cases hclose
    refine ⟨rfl, fun i hi => ?_, hmiddle.trace.trans htrace⟩
    obtain ⟨hsaved, hbase⟩ := hown i hi
    exact (hmiddle.locals i (.inl hi)).trans (hother i hsaved hbase)
  · exact (spared_passAndCall hindex indirect).steady hcallee h

/-- The address of a slot is its offset in the frame. -/
theorem run_slotAddrCode {offset : Nat} {frame : BitVec 32}
    (hframe : m.state.locals (frameLocal fn) = .i32 frame)
    (h : runPlain env module callee (slotAddrCode fn l inst offset) m = .ok m') :
    m'.state.locals (l.index (.home inst.result)) = .i32 (frame + BitVec.ofNat 32 offset) := by
  obtain ⟨m₁, h₁, h⟩ := runPlain_cons_ok.1 h
  simp only [Plain.run, Machine.after, Instr.run, hframe] at h₁
  cases h₁
  obtain ⟨m₂, h₂, h⟩ := runPlain_cons_ok.1 h
  cases h₂
  obtain ⟨m₃, h₃, h⟩ := runPlain_cons_ok.1 h
  cases h₃
  obtain ⟨m₄, h₄, h⟩ := runPlain_cons_ok.1 h
  obtain rfl := localSet_ok rfl h₄
  cases h
  exact if_pos rfl

/-- The unsigned number that an integer is. -/
def natOf : Val → Nat
  | .i32 x => x.toNat
  | .i64 x => x.toNat
  | _ => 0

/-- An address or a byte count is pushed: of 64 bits the low 32. -/
theorem run_pushAddress {v : ValueId}
    (h : runPlain env module callee (pushAddress fn l v) m = .ok m') :
    ∃ x, m' = m.clear (x :: m.state.stack) ∧ ∀ size, x = .i32 size →
      size.toNat = natOf (m.state.locals (l.index (.home v))) % 4294967296 := by
  obtain ⟨m₁, h₁, h⟩ := runPlain_cons_ok.1 h
  cases h₁
  split_ifs at h
  · obtain ⟨m₂, h₂, h⟩ := runPlain_cons_ok.1 h
    cases h
    simp only [Plain.run, Instr.run, State.push] at h₂
    cases hx : m.state.locals (l.index (.home v)) with
    | i64 x =>
      simp only [hx] at h₂
      cases h₂
      refine ⟨.i32 (x.setWidth 32), rfl, fun size hsize => ?_⟩
      cases hsize
      exact BitVec.toNat_setWidth 32 x
    | i32 x | f32 x | f64 x =>
      simp only [hx] at h₂
      cases h₂
  · cases h
    refine ⟨_, rfl, fun size hsize => ?_⟩
    rw [hsize]
    exact (Nat.mod_eq_of_lt size.isLt).symm

/-- A block is taken below the stack pointer, by the low 32 bits of its size. -/
theorem run_stackAllocCode (h : runPlain env module callee (stackAllocCode fn l inst) m = .ok m') :
    ∃ size : BitVec 32,
      size.toNat = natOf (m.state.locals (l.index (.home inst.a))) % 4294967296 ∧
      m'.sp = (m.sp - size) &&& (-16) ∧
      m'.state.locals (l.index (.home inst.result)) = .i32 m'.sp ∧
      (∀ i, i ≠ l.index (.home inst.result) → m'.state.locals i = m.state.locals i) ∧
      m'.trace = m.trace := by
  obtain ⟨m₁, h₁, h⟩ := runPlain_cons_ok.1 h
  cases h₁
  rw [List.append_eq, runPlain_append] at h
  obtain ⟨m₂, haddr, h⟩ := bind_eq_ok.1 h
  obtain ⟨x, rfl, hx⟩ := run_pushAddress haddr
  obtain ⟨m₃, h₃, h⟩ := runPlain_cons_ok.1 h
  cases x with
  | i32 size =>
    cases h₃
    obtain ⟨m₄, h₄, h⟩ := runPlain_cons_ok.1 h
    cases h₄
    obtain ⟨m₅, h₅, h⟩ := runPlain_cons_ok.1 h
    cases h₅
    obtain ⟨m₆, h₆, h⟩ := runPlain_cons_ok.1 h
    obtain rfl := localTee_ok rfl h₆
    obtain ⟨m₇, h₇, h⟩ := runPlain_cons_ok.1 h
    cases h₇
    cases h
    exact ⟨size, hx size rfl, rfl, if_pos rfl, fun i hi => if_neg hi, rfl⟩
  | i64 _ | f32 _ | f64 _ => cases h₃

end

end Mirage.Wasm.ShadowStack
