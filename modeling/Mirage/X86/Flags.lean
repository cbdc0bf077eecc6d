import Mirage.Lib.Window
import Mirage.X86.AllocSound
import Mirage.X86.Lease

/-!
# The condition flags

A comparison, a `select`, a branch and a switch set the condition flags with one
instruction and read them with a later one. The flags *survive* in the code of a
template when nothing in between writes them (`Window.Survives`, with the `flagRole` of
an instruction).

What can stand in between is the code of a lease. A pushed or popped general register
leaves the flags alone; a parked XMM register does not, since its stack cell is made
and removed with `sub` and `add`. Two templates have an XMM lease in the window
(`Ctx.ParksXmm`): a float comparison releases the scratch of its first operand there,
and a float `select` acquires that of its result.

* `execFrom_flags`: code of passive instructions keeps the flags of the machine.
* `leaseXmm_saved_iff`: when a lease parks a victim.
* `flags_survive_iff`: the flags survive unless one of the two leases parks one.
* `parkedFn_flags_lost`: in a function with seventeen live doubles one does.
-/

namespace Mirage.X86

open Window

/-! ## What an instruction does with the flags -/

/-- The flags are *set* by the instructions that only compare, and *spoilt* by those that
    write them on the way, or leave them undefined. -/
def Instr.flagRole : Instr → Role
  | .aluRr op _ _ _ | .aluRi op _ _ _ | .aluRm op _ _ _ _ | .aluMr op _ _ _ _
  | .aluMi op _ _ _ _ => if op = .cmp then .sets else .spoils
  | .testRr _ _ _ | .ucomis _ _ _ | .ucomisM _ _ _ _ => .sets
  | .setcc _ _ | .jcc _ _ => .reads
  | .imulRr _ _ | .imulRm _ _ _ | .zero _ | .divR _ | .idivR _ | .divM _ _ | .idivM _ _
  | .negR _ | .shlCl _ | .shrCl _ | .sarCl _ | .subRsp _ | .addRsp _ | .unaryR _ _ _
  | .unaryM _ _ _ _ | .callSym _ | .callR _ | .syscall | .cpuid => .spoils
  | _ => .keeps

attribute [grind =] Instr.flagRole

/-- The flags an outcome leaves are the given ones. -/
def Outcome.HasFlags (o : Outcome) (f : Flags) : Prop :=
  match o with
  | .next m | .goto _ m | .ret m => m.flags = f
  | .fault => True

theorem flags_of_run {env : Env} {i : Instr} {m M : Machine} (hi : i.flagRole.Passive)
    (h : i.run env m = some M) : M.flags = m.flags := by
  rcases hi with hi | hi
  all_goals cases i <;> simp only [Instr.flagRole, reduceCtorEq] at hi
  -- what is left either moves data or is one of the operations that never keep the flags
  all_goals first
    | (cases h; rfl)
    | (split at hi <;> cases hi)

/-- Passive code keeps the flags, wherever it ends. -/
theorem execFrom_flags {env : Env} {code : List Instr} (h : ∀ i ∈ code, i.flagRole.Passive)
    (l : Option Label) (m : Machine) : (execFrom env l code m).HasFlags m.flags := by
  induction code generalizing l m with
  | nil => cases l <;> rfl
  | cons i code ih =>
    have hrest : ∀ j ∈ code, j.flagRole.Passive := fun j hj => h j (List.mem_cons_of_mem i hj)
    cases l with
    | some l => exact ih hrest _ m
    | none =>
      rw [execFrom]
      cases i.control with
      | jmp l => exact ih hrest _ m
      | jcc c l => exact ih hrest _ m
      | ret => rfl
      | ud2 => trivial
      | straight =>
        cases hrun : i.run env m with
        | none => trivial
        | some M =>
          rw [← flags_of_run (h i List.mem_cons_self) hrun]
          exact ih hrest none M

/-! ## Pieces that leave the flags alone -/

/-- An XMM lease spoils the flags when it parks a victim. -/
theorem track_xacquire (l : XLease) (fresh : Bool) :
    track Instr.flagRole fresh l.acquire = some (fresh && !l.saved) := by
  rw [XLease.acquire]
  cases l.saved <;> simp [track, Instr.flagRole]

theorem track_xrelease (l : XLease) (fresh : Bool) :
    track Instr.flagRole fresh l.release = some (fresh && !(l.held && l.saved)) := by
  rw [XLease.release]
  cases l.held && l.saved <;> simp [track, Instr.flagRole]

/-- No instruction has to do with the flags. -/
def Quiet (code : List Instr) : Prop := ∀ i ∈ code, i.flagRole = .keeps

@[simp] theorem quiet_nil : Quiet [] := by simp [Quiet]

@[simp] theorem quiet_cons {i : Instr} {code : List Instr} :
    Quiet (i :: code) ↔ i.flagRole = .keeps ∧ Quiet code := by simp [Quiet]

@[simp] theorem quiet_append {c₁ c₂ : List Instr} :
    Quiet (c₁ ++ c₂) ↔ Quiet c₁ ∧ Quiet c₂ := by simp [Quiet, or_imp, forall_and]

/-- A quiet piece is skipped. -/
theorem track_quiet {code : List Instr} (h : Quiet code) (fresh : Bool) (rest : List Instr) :
    track Instr.flagRole fresh (code ++ rest) = track Instr.flagRole fresh rest := by
  rw [track_append, track_of_keeps h, Option.bind_some]

/-- A quiet piece at the end reads nothing. -/
theorem isSome_bind_quiet {code : List Instr} (h : Quiet code) (o : Option Bool) :
    (o.bind fun f => track Instr.flagRole f code).isSome = o.isSome := by
  cases o with
  | none => rfl
  | some f => rw [Option.bind_some, track_of_keeps h]

theorem quiet_acquire (l : Lease) : Quiet l.acquire := by
  rw [Lease.acquire]
  split_ifs <;> simp [Instr.flagRole]

theorem quiet_release (l : Lease) : Quiet l.release := by
  rw [Lease.release]
  split_ifs <;> simp [Instr.flagRole]

namespace Ctx

variable (c : Ctx)

theorem quiet_gprInto (v : ValueId) (dst : Reg) : Quiet (c.gprInto v dst) := by
  rw [gprInto]
  split_ifs <;> simp [Instr.flagRole]

theorem quiet_xmmInto (v : ValueId) (dst : XReg) : Quiet (c.xmmInto v dst) := by
  rw [xmmInto]
  split_ifs <;> simp [Instr.flagRole]

theorem quiet_commitGpr (v : ValueId) (r : Reg) : Quiet (c.commitGpr v r) := by
  rw [commitGpr]
  split_ifs <;> simp [Instr.flagRole]

theorem quiet_commitXmm (v : ValueId) (x : XReg) : Quiet (c.commitXmm v x) := by
  rw [commitXmm]
  split_ifs <;> simp [Instr.flagRole]

theorem quiet_useGprCode (v : ValueId) (l : Lease) : Quiet (c.useGprCode v l) := by
  rw [useGprCode]
  split_ifs
  · exact quiet_nil
  · simp [quiet_acquire, Instr.flagRole]

/-! ## The condition -/

/-- The operand a float comparison has in a register: less-than compares the operands
    the other way round. -/
def fcmpFirst (inst : Inst) : ValueId :=
  if inst.op == .fcmpOlt || inst.op == .fcmpOle then inst.b else inst.a

def fcmpSecond (inst : Inst) : ValueId :=
  if inst.op == .fcmpOlt || inst.op == .fcmpOle then inst.a else inst.b

/-- Every XMM register holds an active value, or is excluded for one of the given values. -/
def XmmsTaken (index : Nat) (exclude : List ValueId) : Prop :=
  ∀ x : XReg, .xmm x ∈ c.excl exclude ∨ .xmm x ∈ c.occupied index

/-- The instruction needs an XMM scratch between its flags and their reader, and has to
    park a victim for it. -/
def ParksXmm (index : Nat) (inst : Inst) : Prop :=
  isFloatComparison inst.op = true ∧ c.inReg (fcmpFirst inst) = false ∧
      c.XmmsTaken index [fcmpSecond inst] ∨
    inst.op = .select ∧ isFloat inst.type = true ∧ c.inReg inst.result = false ∧
      c.XmmsTaken index [inst.b, inst.c]

/-- A lease parks a victim when no register is free. -/
theorem leaseXmm_saved_iff {occupied exclude : List PhysReg} (h : exclude.length < 16) :
    (leaseXmm occupied exclude).saved = true ↔
      ∀ x : XReg, .xmm x ∈ exclude ∨ .xmm x ∈ occupied := by
  constructor
  · intro hsaved x
    by_contra hx
    rw [not_or] at hx
    have hcand : x ∈ xmmCandidates := by
      clear hx
      revert x
      decide
    rw [leaseXmm] at hsaved
    split at hsaved
    · cases hsaved
    · rename_i hnone
      exact absurd hx (by simpa using List.find?_eq_none.1 hnone x hcand)
  · intro hall
    obtain ⟨-, hex, hocc⟩ := @leaseXmm_spec occupied exclude h
    by_contra hsaved
    have hnot := hocc (by simpa using hsaved)
    exact (hall _).elim hex hnot

/-- The lease of a use or of a result parks a victim when the value has no register and
    none is free. -/
theorem useXmm_saved_iff (index : Nat) (v : ValueId) (exclude : List ValueId)
    (h : exclude.length < 16) :
    (c.useXmm (c.occupied index) v (c.excl exclude)).2.saved = true ↔
      c.inReg v = false ∧ c.XmmsTaken index exclude := by
  have hlen : (c.excl exclude).length < 16 := (length_excl_le c exclude).trans_lt h
  rw [useXmm]
  split_ifs with hin
  · simp [XLease.none, hin]
  · rw [leaseXmm_saved_iff hlen]
    simp [XmmsTaken, hin]

/-- A victim is given back on release. -/
theorem useXmm_held (index : Nat) (v : ValueId) (exclude : List PhysReg) :
    ((c.useXmm (c.occupied index) v exclude).2.held &&
      (c.useXmm (c.occupied index) v exclude).2.saved) =
        (c.useXmm (c.occupied index) v exclude).2.saved := by
  rw [useXmm]
  split_ifs
  · rfl
  · cases hsaved : (leaseXmm (c.occupied index) exclude).saved with
    | false => simp
    | true => simp [leaseXmm_held _ _ hsaved]

/-! ## The templates -/

/-- The flags are read exactly when they are fresh, and nothing else is written before
    the reads. -/
theorem track_fcmpSet (occ : List PhysReg) {op : Op} (hop : isFloatComparison op = true)
    (dst : Reg) (fresh : Bool) :
    (track Instr.flagRole fresh (fcmpSet occ op dst)).isSome = fresh := by
  have hread : ∀ cc rest, track Instr.flagRole fresh (.setcc cc dst :: rest) =
      if fresh then track Instr.flagRole true rest else none := fun _ _ => rfl
  cases op <;> try cases hop
  case fcmpOeq =>
    rw [fcmpSet, List.append_assoc, track_quiet (quiet_acquire _), List.cons_append, hread]
    cases fresh with
    | false => rfl
    | true =>
      have hpair : ∀ r, track Instr.flagRole true [.setcc .np r, .aluRr .and .w8 dst r] =
          some false := fun _ => rfl
      rw [if_pos rfl, track_append, hpair, Option.bind_some, track_of_keeps (quiet_release _)]
      rfl
  all_goals
    rw [fcmpSet, hread]
    cases fresh <;> rfl

theorem track_useXmmCode (v : ValueId) (l : XLease) (fresh : Bool) :
    ∃ f, track Instr.flagRole fresh (c.useXmmCode v l) = some f := by
  rw [useXmmCode]
  split_ifs
  · exact ⟨fresh, rfl⟩
  · rw [track_append, track_xacquire, Option.bind_some, track_of_keeps (c.quiet_xmmInto v l.reg)]
    exact ⟨_, rfl⟩

/-- A float comparison reads fresh flags unless the scratch of its first operand is given
    back from memory. -/
theorem track_emitFcmp {index : Nat} {inst : Inst} (hop : isFloatComparison inst.op = true) :
    (track Instr.flagRole false (c.emitFcmp index inst)).isSome =
      !(c.useXmm (c.occupied index) (fcmpFirst inst) (c.excl [fcmpSecond inst])).2.saved := by
  obtain ⟨f, hf⟩ := c.track_useXmmCode (fcmpFirst inst)
    (c.useXmm (c.occupied index) (fcmpFirst inst) (c.excl [fcmpSecond inst])).2 false
  have hcmp : ∀ (p : Prop) [Decidable p] (f : Bool) dbl fx y disp, track Instr.flagRole f
      (if p then [.ucomis dbl fx y] else [.ucomisM dbl fx .rbp disp]) = some true := by
    intro p _ f dbl fx y disp
    split_ifs <;> rfl
  have hmov : ∀ r, Quiet [.movzx .w8 r r] := fun r => by simp [Instr.flagRole]
  unfold fcmpFirst fcmpSecond at *
  simp only [emitFcmp, track_append, hf, hcmp, Option.bind_some, track_xrelease,
    track_of_keeps (quiet_acquire _), Bool.true_and, isSome_bind_quiet (quiet_release _),
    isSome_bind_quiet (c.quiet_commitGpr _ _), isSome_bind_quiet (hmov _), track_fcmpSet _ hop,
    useXmm_held]

/-- An integer comparison has only general leases, which leave the flags alone. -/
theorem track_emitIcmp (index : Nat) (inst : Inst) :
    (track Instr.flagRole false (c.emitIcmp index inst)).isSome = true := by
  have hcmp : ∀ (p : Prop) [Decidable p] (f : Bool) w r y disp, track Instr.flagRole f
      (if p then [.aluRr .cmp w r y] else [.aluRm .cmp w r .rbp disp]) = some true := by
    intro p _ f w r y disp
    split_ifs <;> rfl
  have hset : ∀ cc r, track Instr.flagRole true [.setcc cc r, .movzx .w8 r r] = some true :=
    fun _ _ => rfl
  simp only [emitIcmp, track_append, track_of_keeps (c.quiet_useGprCode _ _), Option.bind_some,
    hcmp, track_of_keeps (quiet_release _), track_of_keeps (quiet_acquire _), hset,
    track_of_keeps (c.quiet_commitGpr _ _), Option.isSome_some]

theorem track_emitBranch (index : Nat) (inst : Inst) :
    (track Instr.flagRole false (c.emitBranch index inst)).isSome = true := by
  have htest : ∀ (f : Bool) r, track Instr.flagRole f [.testRr .w8 r r] = some true :=
    fun _ _ => rfl
  simp only [emitBranch, track_append, track_of_keeps (c.quiet_useGprCode _ _), Option.bind_some,
    htest, track_of_keeps (quiet_release _)]
  rfl

/-- Each case of a switch is compared afresh. -/
theorem track_switchCases (wide : Bool) (r : Reg) (args : List Nat) (fresh : Bool) :
    (track Instr.flagRole fresh (switchCases wide r args)).isSome = true := by
  induction args using switchCases.induct generalizing fresh with
  | case1 value target rest ih =>
    rw [switchCases, track_append]
    cases wide
    all_goals exact ih true
  | case2 args hne =>
    rw [switchCases]
    · rfl
    · exact hne

theorem track_emitSwitch (inst : Inst) :
    (track Instr.flagRole false (c.emitSwitch inst)).isSome = true := by
  have hread : ∀ (p : Prop) [Decidable p] v r, Quiet (if p then [] else c.gprInto v r) := by
    intro p _ v r
    split_ifs
    · exact quiet_nil
    · exact c.quiet_gprInto v r
  have hjmp : ∀ l, Quiet [.jmp l] := fun l => by simp [Instr.flagRole]
  simp only [emitSwitch, track_append, track_of_keeps (hread _ _ _), Option.bind_some,
    isSome_bind_quiet (hjmp _), track_switchCases]

/-- A `select` reads fresh flags unless it is one of floats whose result needs a scratch
    that is parked in memory. -/
theorem track_emitSelect (index : Nat) (inst : Inst) :
    (track Instr.flagRole false (c.emitSelect index inst)).isSome =
      !(isFloat inst.type &&
        (c.useXmm (c.occupied index) inst.result (c.excl [inst.b, inst.c])).2.saved) := by
  have htest : ∀ (f : Bool) r, track Instr.flagRole f [.testRr .w8 r r] = some true :=
    fun _ _ => rfl
  have hread : ∀ (f : Bool) l, track Instr.flagRole f [.jcc .e l] = if f then some true else none :=
    fun _ _ => rfl
  have hjmp : ∀ l l', Quiet [.jmp l, .bind l'] := fun l l' => by simp [Instr.flagRole]
  have hbind : ∀ l, Quiet [.bind l] := fun l => by simp [Instr.flagRole]
  cases hf : isFloat inst.type with
  | true =>
    simp only [emitSelect, hf, if_true, defXmmTemplate, track_append, Option.bind_some, htest,
      track_of_keeps (c.quiet_useGprCode _ _), track_of_keeps (quiet_release _), track_xacquire,
      hread, Bool.true_and]
    cases (c.useXmm (c.occupied index) inst.result (c.excl [inst.b, inst.c])).2.saved with
    | true => rfl
    | false =>
      simp only [Bool.not_false, if_true, Option.bind_some, track_of_keeps (c.quiet_xmmInto _ _),
        track_of_keeps (hjmp _ _), track_of_keeps (hbind _),
        track_of_keeps (c.quiet_commitXmm _ _), track_xrelease]
      rfl
  | false =>
    simp only [emitSelect, hf, Bool.false_eq_true, if_false, defTemplate, track_append,
      Option.bind_some, htest, track_of_keeps (c.quiet_useGprCode _ _),
      track_of_keeps (quiet_release _), track_of_keeps (quiet_acquire _), hread, if_true,
      track_of_keeps (c.quiet_gprInto _ _), track_of_keeps (hjmp _ _), track_of_keeps (hbind _),
      track_of_keeps (c.quiet_commitGpr _ _)]
    rfl

/-- The instructions whose templates set the flags and read them. -/
def readsFlags (op : Op) : Bool :=
  isComparison op || op == .select || op == .branch || op == .switch

/-- The flags survive in the code of an instruction exactly when no XMM register is parked
    between the instruction that sets them and the one that reads them. -/
theorem flags_survive_iff (c : Ctx) (index : Nat) (inst : Inst)
    (hop : readsFlags inst.op = true) :
    Survives Instr.flagRole (c.emitInst index inst) ↔ ¬c.ParksXmm index inst := by
  rw [survives_iff]
  have hfirst := c.useXmm_saved_iff index (fcmpFirst inst) [fcmpSecond inst] (by simp)
  have hresult := c.useXmm_saved_iff index inst.result [inst.b, inst.c] (by simp)
  by_cases hfcmp : isFloatComparison inst.op = true
  · have hemit : c.emitInst index inst = c.emitFcmp index inst := by
      rw [emitInst]
      cases h : inst.op <;> rw [h] at hfcmp <;> first | rfl | cases hfcmp
    have hne : inst.op ≠ .select := fun h => by rw [h] at hfcmp; cases hfcmp
    rw [hemit, c.track_emitFcmp hfcmp, ParksXmm]
    simp [hfcmp, hne, ← hfirst]
  by_cases hsel : inst.op = .select
  · have hemit : c.emitInst index inst = c.emitSelect index inst := by rw [emitInst, hsel]
    have hno : isFloatComparison .select = false := rfl
    rw [hemit, c.track_emitSelect, ParksXmm]
    cases hfloat : isFloat inst.type <;> simp [hno, hsel, ← hresult]
  -- the other instructions have no XMM lease at all
  have hparks : ¬c.ParksXmm index inst := by simp [ParksXmm, hfcmp, hsel]
  refine iff_of_true ?_ hparks
  by_cases hicmp : isIntComparison inst.op = true
  · have hemit : c.emitInst index inst = c.emitIcmp index inst := by
      rw [emitInst]
      cases h : inst.op <;> rw [h] at hicmp <;> first | rfl | cases hicmp
    rw [hemit]
    exact c.track_emitIcmp index inst
  have hrest : inst.op = .branch ∨ inst.op = .switch := by
    simpa [readsFlags, isComparison, hfcmp, hsel, hicmp] using hop
  rcases hrest with h | h
  · rw [emitInst, h]
    exact c.track_emitBranch index inst
  · rw [emitInst, h]
    exact c.track_emitSwitch inst

/-- The iff at a branch of a function without values. -/
theorem flags_survive_branch :
    Survives Instr.flagRole ((context {} {} .linear).emitInst 0 { op := .branch, a := 0 }) ↔
      ¬(context {} {} .linear).ParksXmm 0 { op := .branch, a := 0 } :=
  flags_survive_iff (context {} {} .linear) 0 { op := .branch, a := 0 } rfl

end Ctx

/-! ## A function under pressure -/

/-- The comparison of the last of the doubles with the first. -/
def parkedFcmp : Inst := { op := .fcmpOgt, type := .i1, result := 17, a := 16, b := 0 }

/-- Seventeen doubles, the last of them without a register; it is compared with the
    first, and the others are used afterwards. -/
def parkedFn : Function :=
  { name := "f", hasBody := true
    values := List.replicate 17 { block := 0, type := .f64 } ++ [{ block := 0, type := .i1 }] ++
      List.replicate 8 { block := 0, type := .f64 }
    blocks := [{ insts :=
      (List.range 17).map (fun i => { op := .constFloat, type := .f64, result := i }) ++
      [parkedFcmp] ++
      (List.range 8).map (fun i =>
        { op := .fadd, type := .f64, result := 18 + i, a := 2 * i, b := 2 * i + 1 }) ++
      [{ op := .ret, args := [17] }] }] }

def parkedModule : Module :=
  { functions := [parkedFn], signatures := [{ result := .i1 }] }

/-- The first operand is compared in a parked register, and giving this back to its value
    adds to the stack pointer before the flags are read. -/
theorem parkedFn_flags_lost :
    parkedModule.Accepted ∧ parkedFn ∈ parkedModule.functions ∧
      (layout parkedFn)[17]? = some parkedFcmp ∧ Ctx.readsFlags parkedFcmp.op = true ∧
      ¬Survives Instr.flagRole ((context parkedModule parkedFn .linear).emitInst 17 parkedFcmp) := by
  refine ⟨by decide +kernel, List.mem_singleton.2 rfl, rfl, rfl, ?_⟩
  rw [survives_iff]
  decide +kernel

end Mirage.X86
