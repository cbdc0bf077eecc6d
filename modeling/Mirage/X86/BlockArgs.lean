import Mirage.Lib.Staging
import Mirage.Mir.Jump
import Mirage.X86.Site

/-!
# Block arguments in x86 code

The code of a jump copies every argument into the staging cell of its parameter, and
then every parameter out of its staging cell into its home. What a variable holds
(`homeBits`, `stagingBits`) is the 64 bits of its home, and for a single float the low
half of them.

* `does_stageArg`, `does_loadParamFromStaging`: one copy, and what else it may change.
* `copied_stage`, `copied_load`: a copy leaves the watched places alone, since a scratch
  register that is not restored was not occupied.
* `Ctx.exec_passArgs`: together they assign the arguments to the parameters at once, when
  the homes are where they should be (`Ctx.ArgSite`).
* `argSite`, `passesArgs`: so they do at every jump of an accepted function, under every
  allocation.
-/

namespace Mirage.X86

open Staging

variable {env : Env} {c : Ctx} {m M : Machine} {v w a p : ValueId} {n : Nat}
  {occ : List PhysReg} {R : Set Reg} {X : Set XReg} {A : Set (BitVec 64)}

namespace Ctx

/-! ## Contents -/

/-- What a value of the type is of the 64 bits that hold it. -/
def content (type : Ty) (x : BitVec 64) : BitVec 64 :=
  if type = .f32 then (x.setWidth 32).setWidth 64 else x

/-- The content of the home of a value. -/
def homeBits (c : Ctx) (m : Machine) (v : ValueId) : BitVec 64 :=
  content (c.fn.valueType v)
    (if isFloat (c.fn.valueType v) then c.xmmHome m v else c.gprHome m v)

/-- The content of the staging cell of a parameter. -/
def stagingBits (c : Ctx) (m : Machine) (p : ValueId) : BitVec 64 :=
  content (c.fn.valueType p) (m.mem.read (m.addr .rbp (c.offsetOf (.staging p))) 8)

def placeBits (c : Ctx) : Staging.Place ValueId → Machine → BitVec 64
  | .home v, m => c.homeBits m v
  | .staging p, m => c.stagingBits m p

/-- The content of a float is in the bytes of its own width. -/
theorem content_read (hf : isFloat (c.fn.valueType v) = true) (mem : Mem) (addr : BitVec 64) :
    content (c.fn.valueType v) (mem.read addr (if c.isDouble v then 8 else 4)) =
      content (c.fn.valueType v) (mem.read addr 8) := by
  rw [isDouble]
  revert hf
  cases c.fn.valueType v with
  | f32 =>
    intro _
    rw [if_neg (by decide), content, content, if_pos rfl, if_pos rfl, Mem.read_low_half]
  | f64 =>
    intro _
    rw [if_pos (by decide)]
  | _ => exact fun hf => absurd hf (by decide)

theorem homeBits_spilled (hin : c.inReg v = false) :
    c.homeBits m v = content (c.fn.valueType v) (m.mem.read (m.addr .rbp (c.valOff v)) 8) := by
  rw [homeBits]
  split_ifs with hf
  · rw [xmmHome, if_neg (by simp [hin]), content_read hf]
  · rw [gprHome, if_neg (by simp [hin])]

theorem homeBits_int (hin : c.inReg v = true) (hf : isFloat (c.fn.valueType v) = false) :
    c.homeBits m v = content (c.fn.valueType v) (m.gpr (c.valGpr v)) := by
  rw [homeBits, hf, gprHome, if_neg (by simp), if_pos hin]

theorem homeBits_float (hin : c.inReg v = true) (hf : isFloat (c.fn.valueType v) = true) :
    c.homeBits m v = content (c.fn.valueType v) (m.xmm (c.valXmm v)) := by
  rw [homeBits, hf, xmmHome, if_pos rfl, if_pos hin]

/-- The registers of a value, of the right class. -/
def regsOf (c : Ctx) (v : ValueId) : Set Reg := {r | (c.assignment v).reg = some (.gpr r)}

def xregsOf (c : Ctx) (v : ValueId) : Set XReg := {x | (c.assignment v).reg = some (.xmm x)}

/-- Code that leaves the home of a value alone keeps its content. -/
theorem homeBits_of_keeps (h : Keeps R X A m M) (hf : c.FrameOk m n) (hv : c.Placed v)
    (hrbp : .rbp ∉ R) (hR : ∀ r ∈ c.regsOf v, r ∉ R) (hX : ∀ x ∈ c.xregsOf v, x ∉ X)
    (hA : ∀ x ∈ c.homeBytes (m.gpr .rbp) v, x ∉ A) : c.homeBits M v = c.homeBits m v := by
  rw [homeBits, homeBits]
  cases hfloat : isFloat (c.fn.valueType v) with
  | true =>
    have hreg : c.inReg v = true → c.valXmm v ∉ X := fun hin =>
      hX _ (FloatPlaced.reg_eq ⟨hv, hfloat⟩ hin)
    rw [if_pos rfl, if_pos rfl, xmmHome_of_keeps h hf hv hrbp hreg hA]
  | false =>
    have hreg : c.inReg v = true → c.valGpr v ∉ R := fun hin =>
      hR _ (IntPlaced.reg_eq ⟨hv, hfloat⟩ hin)
    rw [if_neg (by simp), if_neg (by simp), gprHome_of_keeps h hf hv hrbp hreg hA]

theorem stagingBits_of_keeps (h : Keeps R X A m M) (hf : c.FrameOk m n)
    (hp : c.HasCell (.staging p) 8) (hrbp : .rbp ∉ R)
    (hA : ∀ x ∈ Mem.bytes (m.addr .rbp (c.offsetOf (.staging p))) 8, x ∉ A) :
    c.stagingBits M p = c.stagingBits m p := by
  have haddr : M.addr .rbp (c.offsetOf (.staging p)) = m.addr .rbp (c.offsetOf (.staging p)) := by
    rw [Machine.addr, h.gpr .rbp hrbp, Machine.addr]
  have hread : M.mem.read (m.addr .rbp (c.offsetOf (.staging p))) 8 =
      m.mem.read (m.addr .rbp (c.offsetOf (.staging p))) 8 :=
    h.read (le_refl 8) fun x hx => ⟨hA x hx, (hf.mem_cell hp hx).1⟩
  rw [stagingBits, stagingBits, haddr, hread]

/-! ## One copy -/

theorem computes_load (env : Env) (dst base : Reg) (disp : Int) (m : Machine) :
    Computes env [.load .w64 dst base disp] dst (m.mem.read (m.addr base disp) 8) m := by
  have hrun : Instr.run env (.load .w64 dst base disp) m =
      some (m.setGpr dst (m.mem.read (m.addr base disp) 8)) := by
    rw [Instr.run, mergeWidth, Width.bytes]
  exact .single rfl hrun (sets_setGpr m dst _)

theorem does_store (env : Env) (base src : Reg) (disp : Int) (m : Machine) :
    Does env [.store .w64 base disp src] R X (Mem.bytes (m.addr base disp) 8) m
      fun M => M.mem.read (m.addr base disp) 8 = m.gpr src :=
  .single rfl rfl (keeps_write subset_rfl m (m.gpr src)) Mem.read_write_word

theorem does_movsdStore (env : Env) (base : Reg) (src : XReg) (disp : Int) (m : Machine) :
    Does env [.movsdStore base disp src] R X (Mem.bytes (m.addr base disp) 8) m
      fun M => M.mem.read (m.addr base disp) 8 = m.xmm src :=
  .single rfl rfl (keeps_write subset_rfl m (m.xmm src)) Mem.read_write_word

/-- A load into a floating-point register, at the width of the value. -/
theorem does_loadXmm (env : Env) {x : XReg} (hx : x ∈ X) (base : Reg) (disp : Int) (double : Bool)
    (m : Machine) :
    Does env (if double then [.movsdLoad x base disp] else [.movssLoad x base disp]) R X A m
      fun M => M.xmm x = m.mem.read (m.addr base disp) (if double then 8 else 4) := by
  cases double with
  | true =>
    rw [if_pos rfl, if_pos rfl]
    exact .single rfl rfl (keeps_setXmm hx m (m.mem.read (m.addr base disp) 8))
      (by rw [Machine.setXmm_xmm, if_pos rfl])
  | false =>
    rw [if_neg (by simp), if_neg (by simp)]
    exact .single rfl rfl (keeps_setXmm hx m (m.mem.read (m.addr base disp) 4))
      (by rw [Machine.setXmm_xmm, if_pos rfl])

/-- A cell of the frame into another, through a scratch register. -/
theorem does_copyCell (hf : c.FrameOk m 8) {src dst : CellKey} (hs : c.HasCell src 8)
    (hd : c.HasCell dst 8) (occ : List PhysReg) :
    Does env ((leaseGpr occ []).acquire ++
      [.load .w64 (leaseGpr occ []).reg .rbp (c.offsetOf src),
        .store .w64 .rbp (c.offsetOf dst) (leaseGpr occ []).reg] ++ (leaseGpr occ []).release)
      (leaseGpr occ []).scratch ∅ (Mem.bytes (m.addr .rbp (c.offsetOf dst)) 8) m
      fun M => M.mem.read (M.addr .rbp (c.offsetOf dst)) 8 =
        m.mem.read (m.addr .rbp (c.offsetOf src)) 8 := by
  have hsane := leaseGpr_sane occ []
  have hheld := (@leaseGpr_spec occ [] (by simp)).1
  generalize leaseGpr occ [] = l at *
  have hroom := hf.room
  have henter := l.keeps_enter (m := m) hroom
  have hrbp : (l.enter m).gpr .rbp = m.gpr .rbp := henter.gpr .rbp (by simp)
  have hread : (l.enter m).mem.read (m.addr .rbp (c.offsetOf src)) 8 =
      m.mem.read (m.addr .rbp (c.offsetOf src)) 8 :=
    henter.read (le_refl 8) fun x hx => ⟨by simp, (hf.mem_cell hs hx).1⟩
  have hcode : Does env ([.load .w64 l.reg .rbp (c.offsetOf src)] ++
      [.store .w64 .rbp (c.offsetOf dst) l.reg]) (∅ ∪ l.regs) ∅
      (Mem.bytes (m.addr .rbp (c.offsetOf dst)) 8) (l.enter m)
      fun M => M.mem.read (m.addr .rbp (c.offsetOf dst)) 8 =
        m.mem.read (m.addr .rbp (c.offsetOf src)) 8 := by
    refine ((computes_load env l.reg .rbp _ _).does (.inr ⟨hheld, rfl⟩)).append ?_ fun M hk hM => ?_
    · rintro (h | h)
      · exact h
      · exact hsane.rsp h.2.symm
    · have haddr : M.addr .rbp (c.offsetOf dst) = m.addr .rbp (c.offsetOf dst) := by
        rw [Machine.addr, hM.other hsane.rbp.symm, hrbp, Machine.addr]
      have hval : M.gpr l.reg = m.mem.read (m.addr .rbp (c.offsetOf src)) 8 := by
        rw [hM.value, ← hread, Machine.addr, hrbp, Machine.addr]
      rw [← hval, ← haddr]
      exact does_store env .rbp l.reg (c.offsetOf dst) M
  have hleave : ∀ M, Keeps (∅ ∪ l.regs) ∅ (Mem.bytes (m.addr .rbp (c.offsetOf dst)) 8)
      (l.enter m) M → M.mem.read (m.addr .rbp (c.offsetOf dst)) 8 =
        m.mem.read (m.addr .rbp (c.offsetOf src)) 8 →
      (l.leave M).mem.read ((l.leave M).addr .rbp (c.offsetOf dst)) 8 =
        m.mem.read (m.addr .rbp (c.offsetOf src)) 8 := by
    intro M hk hM
    have hbase : M.gpr .rbp = m.gpr .rbp := by
      rw [hk.gpr .rbp, hrbp]
      rintro (h | h)
      · exact h
      · exact hsane.rbp h.2.symm
    have hgpr : (l.leave M).gpr .rbp = M.gpr .rbp := by
      rw [Lease.leave]
      split_ifs
      · simp [Machine.pop, hsane.rbp.symm]
      · rfl
    have hmem : (l.leave M).mem = M.mem := by
      rw [Lease.leave]
      split_ifs <;> rfl
    rw [Machine.addr, hgpr, hbase, hmem]
    exact hM
  rw [List.append_assoc]
  exact (Does.leased hsane hroom hcode (by simp) (fun x hx => (hf.mem_cell hd hx).1) hleave).mono
    (by simp) subset_rfl subset_rfl fun M _ h => h

theorem does_stageArg (env : Env) (hf : c.FrameOk m 8) (ha : c.Placed a) (hp : c.HasCell (.staging p) 8)
    (htype : c.fn.valueType a = c.fn.valueType p) (occ : List PhysReg) :
    Does env (c.stageArg occ a p) (leaseGpr occ []).scratch ∅
      (Mem.bytes (m.addr .rbp (c.offsetOf (.staging p))) 8) m
      fun M => c.stagingBits M p = c.homeBits m a := by
  rw [stageArg]
  cases hin : c.inReg a with
  | false =>
    obtain ⟨k, hoff, hcell, -⟩ := ha.hasCell hin
    rw [if_neg (by simp), if_neg (by simp), hoff]
    refine (does_copyCell hf hcell hp occ).mono subset_rfl subset_rfl subset_rfl fun M _ hM => ?_
    rw [stagingBits, hM, homeBits_spilled hin, hoff, htype]
  | true =>
    have hrbp : ∀ M, Keeps (leaseGpr occ []).scratch ∅
        (Mem.bytes (m.addr .rbp (c.offsetOf (.staging p))) 8) m M →
        M.addr .rbp (c.offsetOf (.staging p)) = m.addr .rbp (c.offsetOf (.staging p)) :=
      fun M hM => by
        rw [Machine.addr, hM.gpr .rbp fun h => (leaseGpr_sane occ []).rbp h.2.2.symm, Machine.addr]
    cases hf : isFloat (c.fn.valueType a) with
    | true =>
      rw [if_pos (by simp)]
      refine (does_movsdStore env .rbp (c.valXmm a) _ m).mono (Set.empty_subset _) subset_rfl
        subset_rfl fun M hk hM => ?_
      rw [stagingBits, hrbp M (hk.mono (Set.empty_subset _) subset_rfl subset_rfl), hM,
        homeBits_float hin hf, htype]
    | false =>
      rw [if_neg (by simp), if_pos rfl]
      refine (does_store env .rbp (c.valGpr a) _ m).mono (Set.empty_subset _) subset_rfl
        subset_rfl fun M hk hM => ?_
      rw [stagingBits, hrbp M (hk.mono (Set.empty_subset _) subset_rfl subset_rfl), hM,
        homeBits_int hin hf, htype]

theorem does_loadParamFromStaging (env : Env) (hf : c.FrameOk m 8) (hv : c.Placed p)
    (hp : c.HasCell (.staging p) 8) (occ : List PhysReg) :
    Does env (c.loadParamFromStaging occ p) (c.regsOf p ∪ (leaseGpr occ []).scratch) (c.xregsOf p)
      (c.homeBytes (m.gpr .rbp) p) m fun M => c.homeBits M p = c.stagingBits m p := by
  rw [loadParamFromStaging]
  cases hin : c.inReg p with
  | false =>
    obtain ⟨k, hoff, hcell, -⟩ := hv.hasCell hin
    rw [if_neg (by simp), hoff]
    refine (does_copyCell hf hp hcell occ).mono Set.subset_union_right (Set.empty_subset _)
      (fun x hx => ⟨hin, hoff ▸ hx⟩) fun M _ hM => ?_
    rw [homeBits_spilled hin, hoff, hM, stagingBits]
  | true =>
    rw [if_pos rfl]
    cases hf : isFloat (c.fn.valueType p) with
    | true =>
      rw [if_pos rfl]
      refine (does_loadXmm env (FloatPlaced.reg_eq ⟨hv, hf⟩ hin) .rbp _ (c.isDouble p) m).mono
        (Set.empty_subset _) subset_rfl (Set.empty_subset _) fun M hk hM => ?_
      rw [homeBits_float hin hf, hM, stagingBits, content_read hf]
    | false =>
      rw [if_neg (by simp)]
      have hload := (computes_load env (c.valGpr p) .rbp (c.offsetOf (.staging p)) m).does
        (R := c.regsOf p ∪ (leaseGpr occ []).scratch) (X := c.xregsOf p)
        (A := c.homeBytes (m.gpr .rbp) p) (.inl (IntPlaced.reg_eq ⟨hv, hf⟩ hin))
      refine hload.mono subset_rfl subset_rfl subset_rfl fun M _ hM => ?_
      rw [homeBits_int hin hf, hM.value, stagingBits]

/-! ## Where the copies are made -/

/-- What the copies of a jump rely on, from the allocation. The values whose homes are
    read are safe before the first parameter is written, the ones in `after` from then on. -/
structure ArgSite (c : Ctx) (occ : List PhysReg) (pairs : List (ValueId × ValueId))
    (before after : Set ValueId) : Prop where
  placed : ∀ v ∈ before ∪ after, c.Placed v
  occupied : ∀ v ∈ before ∪ after, ∀ reg, (c.assignment v).reg = some reg → reg ∈ occ
  /-- Different values are in different registers, -/
  apart : ∀ v ∈ after, ∀ w ∈ after, v ≠ w → ∀ reg, (c.assignment v).reg = some reg →
    (c.assignment w).reg ≠ some reg
  /-- and in different areas. -/
  areas : ∀ v ∈ after, ∀ w ∈ after, v ≠ w → ∀ k, (c.assignment v).spillIndex = some k →
    (c.assignment w).spillIndex ≠ some k
  frame : ∀ v reg, (c.assignment v).reg = some reg → reg ≠ .gpr .rsp ∧ reg ≠ .gpr .rbp
  src : ∀ p ∈ pairs, p.1 ∈ before
  dst : ∀ p ∈ pairs, p.2 ∈ after
  cell : ∀ p ∈ pairs, c.HasCell (.staging p.2) 8
  types : ∀ p ∈ pairs, c.fn.valueType p.1 = c.fn.valueType p.2

variable {pairs : List (ValueId × ValueId)} {before after : Set ValueId}

/-- A scratch register that is not restored is not the home of a value. -/
theorem ArgSite.not_mem_scratch (h : c.ArgSite occ pairs before after) (hv : v ∈ before ∪ after) :
    ∀ r ∈ c.regsOf v, r ∉ (leaseGpr occ []).scratch := by
  rintro r hr ⟨hheld, hpushed, rfl⟩
  exact leaseGpr_not_occupied hheld hpushed (h.occupied v hv _ hr)

/-- The home of a value in memory is none of the staging cells. -/
theorem homeBytes_staging (hf : c.FrameOk m n) (hv : c.Placed v) (hp : c.HasCell (.staging p) 8) :
    ∀ x ∈ c.homeBytes (m.gpr .rbp) v,
      x ∉ Mem.bytes (m.addr .rbp (c.offsetOf (.staging p))) 8 := by
  rintro x ⟨hin, hx⟩
  obtain ⟨k, hoff, hcell, -⟩ := hv.hasCell hin
  rw [hoff] at hx
  exact hf.cells_disjoint hcell hp (by simp) hx

/-- The homes of two values in memory are apart. -/
theorem homeBytes_disjoint (hf : c.FrameOk m n) (hv : c.Placed v) (hw : c.Placed w)
    (hne : ∀ k, (c.assignment v).spillIndex = some k → (c.assignment w).spillIndex ≠ some k) :
    ∀ x ∈ c.homeBytes (m.gpr .rbp) v, x ∉ c.homeBytes (m.gpr .rbp) w := by
  rintro x ⟨hin, hx⟩ ⟨hin', hx'⟩
  obtain ⟨k, hoff, hcell, hk⟩ := hv.hasCell hin
  obtain ⟨j, hoff', hcell', hj⟩ := hw.hasCell hin'
  rw [hoff] at hx
  rw [hoff'] at hx'
  refine hf.cells_disjoint hcell hcell' (fun heq => ?_) hx hx'
  cases heq
  exact hne k hk hj

/-- The staging cells of two parameters are apart. -/
theorem staging_disjoint (hf : c.FrameOk m n) (hv : c.HasCell (.staging v) 8)
    (hw : c.HasCell (.staging w) 8) (hne : v ≠ w) :
    ∀ x ∈ Mem.bytes (m.addr .rbp (c.offsetOf (.staging v))) 8,
      x ∉ Mem.bytes (m.addr .rbp (c.offsetOf (.staging w))) 8 := fun _ hx =>
  hf.cells_disjoint hv hw (fun heq => hne (CellKey.staging.inj heq)) hx

/-- The cells of the parameters are watched. -/
theorem ArgSite.hasCell (h : c.ArgSite occ pairs before after)
    (hv : v ∈ pairs.map Prod.snd) : c.HasCell (.staging v) 8 := by
  obtain ⟨q, hq, rfl⟩ := List.mem_map.mp hv
  exact h.cell q hq

/-- An argument goes to its staging cell, and the watched places are left alone. -/
theorem copied_stage (env : Env) (h : c.ArgSite occ pairs before after) (hf : c.FrameOk m 8)
    {q : ValueId × ValueId} (hq : q ∈ pairs) :
    ∃ M, exec env (c.stageArg occ q.1 q.2) m = .next M ∧ c.FrameOk M 8 ∧
      Copied c.placeBits (watch before {v | v ∈ pairs.map Prod.snd}) (.home q.1) (.staging q.2)
        m M := by
  have hsane := leaseGpr_sane occ []
  have hcell := h.cell q hq
  have hplaced := h.placed q.1 (.inl (h.src q hq))
  obtain ⟨M, hexec, hkeeps, hval⟩ := does_stageArg env hf hplaced hcell (h.types q hq) occ
  have hrsp : Reg.rsp ∉ (leaseGpr occ []).scratch := fun hr => hsane.rsp hr.2.2.symm
  have hrbp : Reg.rbp ∉ (leaseGpr occ []).scratch := fun hr => hsane.rbp hr.2.2.symm
  refine ⟨M, hexec, hf.of_gpr (hkeeps.gpr _ hrsp) (hkeeps.gpr _ hrbp), hval, ?_⟩
  rintro (v | v) hv hne
  · have hv' := h.placed v (.inl hv)
    exact homeBits_of_keeps hkeeps hf hv' hrbp (h.not_mem_scratch (.inl hv))
      (fun _ _ => Set.notMem_empty _) (homeBytes_staging hf hv' hcell)
  · exact stagingBits_of_keeps hkeeps hf (h.hasCell hv) hrbp
      (staging_disjoint hf (h.hasCell hv) hcell fun heq => hne (heq ▸ rfl))

/-- A parameter goes to its home. -/
theorem copied_load (env : Env) (h : c.ArgSite occ pairs before after) (hf : c.FrameOk m 8)
    {q : ValueId × ValueId} (hq : q ∈ pairs) :
    ∃ M, exec env (c.loadParamFromStaging occ q.2) m = .next M ∧ c.FrameOk M 8 ∧
      Copied c.placeBits (watch after {v | v ∈ pairs.map Prod.snd}) (.staging q.2) (.home q.2)
        m M := by
  have hsane := leaseGpr_sane occ []
  have hcell := h.cell q hq
  have hdst := h.dst q hq
  have hplaced := h.placed q.2 (.inr hdst)
  obtain ⟨M, hexec, hkeeps, hval⟩ := does_loadParamFromStaging env hf hplaced hcell occ
  have hrsp : Reg.rsp ∉ c.regsOf q.2 ∪ (leaseGpr occ []).scratch := by
    rintro (hr | hr)
    · exact (h.frame _ _ hr).1 rfl
    · exact hsane.rsp hr.2.2.symm
  have hrbp : Reg.rbp ∉ c.regsOf q.2 ∪ (leaseGpr occ []).scratch := by
    rintro (hr | hr)
    · exact (h.frame _ _ hr).2 rfl
    · exact hsane.rbp hr.2.2.symm
  refine ⟨M, hexec, hf.of_gpr (hkeeps.gpr _ hrsp) (hkeeps.gpr _ hrbp), hval, ?_⟩
  rintro (v | v) hv hne
  · have hv' := h.placed v (.inr hv)
    have hvq : v ≠ q.2 := fun heq => hne (heq ▸ rfl)
    have hapart := h.apart v hv q.2 hdst hvq
    refine homeBits_of_keeps hkeeps hf hv' hrbp ?_ (fun x hx hx' => hapart _ hx hx')
      (homeBytes_disjoint hf hv' hplaced (h.areas v hv q.2 hdst hvq))
    rintro r hr (hr' | hr')
    · exact hapart _ hr hr'
    · exact h.not_mem_scratch (.inr hv) r hr hr'
  · exact stagingBits_of_keeps hkeeps hf (h.hasCell hv) hrbp fun x hx hx' =>
      homeBytes_staging hf hplaced (h.hasCell hv) x hx' hx

/-- A sequence of copies, each of which is one. -/
theorem exec_copies {ι : Type*} {watched : Set (Staging.Place ValueId)} {code : ι → List Instr}
    (copy : ι → Staging.Place ValueId × Staging.Place ValueId) {l : List ι}
    (h : ∀ q ∈ l, ∀ m, c.FrameOk m n → ∃ M, exec env (code q) m = .next M ∧ c.FrameOk M n ∧
      Copied c.placeBits watched (copy q).1 (copy q).2 m M) (hf : c.FrameOk m n) :
    ∃ M, exec env (l.flatMap code) m = .next M ∧ c.FrameOk M n ∧
      Moved c.placeBits watched (l.map copy) m M := by
  induction l generalizing m with
  | nil => exact ⟨m, rfl, hf, rfl⟩
  | cons q l ih =>
    obtain ⟨M, hexec, hf', hcopied⟩ := h q List.mem_cons_self m hf
    obtain ⟨M', hexec', hf'', hmoved⟩ := ih (fun q hq => h q (List.mem_cons_of_mem _ hq)) hf'
    refine ⟨M', ?_, hf'', M, hcopied, hmoved⟩
    rw [List.flatMap_cons, exec_append_of_next env hexec, hexec']

/-- The arguments are assigned to the parameters at once. -/
theorem exec_passArgs (env : Env) (h : c.ArgSite occ pairs before after)
    (hnodup : (pairs.map Prod.snd).Nodup) (hf : c.FrameOk m 8) :
    ∃ M, exec env (pairs.flatMap (fun (arg, param) => c.stageArg occ arg param) ++
        pairs.flatMap fun (_, param) => c.loadParamFromStaging occ param) m = .next M ∧
      c.FrameOk M 8 ∧ Parallel c.placeBits pairs (before ∩ after) m M := by
  obtain ⟨M, hexec, hf', hinto⟩ := exec_copies (l := pairs)
    (fun q => (.home q.1, .staging q.2)) (fun q hq m hf => copied_stage env h hf hq) hf
  obtain ⟨M', hexec', hf'', hout⟩ := exec_copies (l := pairs)
    (fun q => (.staging q.2, .home q.2)) (fun q hq m hf => copied_load env h hf hq) hf'
  refine ⟨M', ?_, hf'', parallel hnodup h.src h.dst hinto hout⟩
  rw [exec_append_of_next env hexec, hexec']

end Ctx

/-! ## Jumps -/

variable {module : Module} {fn : Function} {mode : Mode}

/-- Two values with intervals are not spilled to one area. -/
theorem spillIndex_ne_of_covers {pos pos' k : Nat} (hv : Covers fn v pos) (hw : Covers fn w pos')
    (hne : v ≠ w) (hk : ((allocate module fn mode).values v).spillIndex = some k) :
    ((allocate module fn mode).values w).spillIndex ≠ some k := by
  intro hk'
  obtain ⟨i, hi, rfl, -, -, hassigned⟩ := assigned_of_covers module mode hv
  obtain ⟨j, hj, rfl, -, -, hassigned'⟩ := assigned_of_covers module mode hw
  have harea : ∀ {interval n a}, Assigned (kills module fn) interval n a → a.spillIndex = some k →
      a.area = some k := by
    intro interval n a ha hspill
    cases ha with
    | spilled => exact hspill
    | inReg => exact absurd hspill (by simp)
  have hsymm : Std.Symm fun i j : Interval =>
      ((allocate module fn mode).values i.value).area =
        ((allocate module fn mode).values j.value).area →
      ((allocate module fn mode).values i.value).area = none :=
    ⟨fun i j h heq => heq.trans (h heq.symm)⟩
  have hnone := (allocate_spec module fn mode).areas.forall hi hj
    (fun h => hne (congrArg Interval.value h))
    ((harea hassigned hk).trans (harea hassigned' hk').symm)
  rw [harea hassigned hk] at hnone
  exact absurd hnone (by simp)

variable {b : BlockId} {block target : Block} {inst : Inst}

theorem isValue_of_valueOk (h : Verifier.valueOk fn v = true) : IsValue fn v := by
  simpa [Verifier.valueOk, IsValue] using h

/-- The values that are live after a block, on the way to its successors. -/
def liveAfter (fn : Function) (b : BlockId) (block : Block) : Set ValueId :=
  {v | IsValue fn v ∧ LiveAt fn v b block.insts.length}

/-- A value live after a block is covered at the end of its last instruction. -/
theorem liveAfter_covers (hb : fn.blocks[b]? = some block) (hv : v ∈ liveAfter fn b block) :
    Covers fn v (posL (firstIndex fn b + block.insts.length - 1)) := by
  refine liveOut_covers hb hv.1 ?_
  rcases hv.2.needs hb with ⟨j, inst, hle, hj, -, -⟩ | ⟨hout, -⟩
  · have := (List.getElem?_eq_some_iff.mp hj).1
    omega
  · exact hout

/-- What the copies of a jump rely on holds of every allocation. -/
theorem argSite (mode : Mode) (h : JumpAt module fn b block inst target) :
    (context module fn mode).ArgSite
      ((context module fn mode).occupied (firstIndex fn b + (block.insts.length - 1)))
      (argPairs fn inst) ({v | v ∈ inst.args ∧ IsValue fn v} ∪ liveAfter fn b block)
      ({v | v ∈ target.params} ∪ liveAfter fn b block) := by
  have hpos := h.length_pos
  have hend : firstIndex fn b + block.insts.length - 1 =
      firstIndex fn b + (block.insts.length - 1) := by omega
  have harg : ∀ v, v ∈ inst.args → IsValue fn v →
      Covers fn v (posU (firstIndex fn b + (block.insts.length - 1))) := fun v hv hval => by
    refine use_covers h.source h.getElem?_last hval ?_
    rwa [forEachUse, valueOperands, h.op]
  have hafter : ∀ v ∈ {v | v ∈ target.params} ∪ liveAfter fn b block,
      Covers fn v (posL (firstIndex fn b + (block.insts.length - 1))) := by
    rintro v (hv | hv)
    · exact jump_covers h.source h.getElem?_last h.op h.dest
        (isValue_of_valueOk (h.value target h.target_mem v hv)) hv
    · exact hend ▸ liveAfter_covers h.source hv
  -- all of them are covered somewhere at the jump
  have hcovers : ∀ v ∈ ({v | v ∈ inst.args ∧ IsValue fn v} ∪ liveAfter fn b block) ∪
      ({v | v ∈ target.params} ∪ liveAfter fn b block), ∃ pos, Covers fn v pos ∧
      posE (firstIndex fn b + (block.insts.length - 1)) ≤ pos ∧
      pos ≤ posL (firstIndex fn b + (block.insts.length - 1)) := by
    rintro v ((⟨hv, hval⟩ | hv) | hv)
    · exact ⟨_, harg v hv hval, by simp [posE, posU], by simp [posU, posL]⟩
    · exact ⟨_, hafter v (.inr hv), by simp [posE, posL], le_refl _⟩
    · exact ⟨_, hafter v hv, by simp [posE, posL], le_refl _⟩
  refine ⟨?_, ?_, ?_, ?_, fun _ _ hreg => reg_ne_frame hreg, ?_, ?_, ?_, fun p hp => (h.types p hp).2⟩
  · intro v hv
    obtain ⟨pos, hcov, -, -⟩ := hcovers v hv
    exact placed_of_covers hcov
  · intro v hv reg hreg
    obtain ⟨pos, hcov, hE, hL⟩ := hcovers v hv
    have hin : (context module fn mode).inReg v = true := by
      obtain ⟨i, -, -, -, -, hassigned⟩ := assigned_of_covers module mode hcov
      show (!((allocate module fn mode).values v).spilled) = true
      have hreg' : ((allocate module fn mode).values v).reg = some reg := hreg
      generalize (allocate module fn mode).values v = a at hassigned hreg'
      cases hassigned with
      | spilled => exact absurd hreg' (by simp)
      | inReg => rfl
    exact mem_occupied hcov hE hL hin hreg
  · exact fun v hv w hw hne reg hreg => reg_ne_of_covers (hafter v hv) (hafter w hw) hne hreg
  · exact fun v hv w hw hne k hk => spillIndex_ne_of_covers (hafter v hv) (hafter w hw) hne hk
  · exact fun p hp => .inl ⟨JumpAt.arg_mem hp, isValue_of_valueOk (h.types p hp).1⟩
  · exact fun p hp => .inl (h.param_mem hp)
  · exact fun p hp => Ctx.hasCell_staging h.target_mem (h.param_mem hp)

/-- The code of a jump passes its arguments at once: it leads to the target, where the
    home of every parameter holds what the home of its argument held, and every other
    value that is live there is unchanged. -/
def PassesArgs (module : Module) (fn : Function) (mode : Mode) (b : BlockId) (block : Block)
    (inst : Inst) : Prop :=
  ∀ (env : Env) (m : Machine), (context module fn mode).FrameOk m 8 →
    ∃ M, exec env ((context module fn mode).emitInst
        (firstIndex fn b + (block.insts.length - 1)) inst) m = .goto (.block inst.a) M ∧
      (context module fn mode).FrameOk M 8 ∧
      Parallel (context module fn mode).placeBits (argPairs fn inst) (liveAfter fn b block) m M

theorem passesArgs (h : JumpAt module fn b block inst target) :
    PassesArgs module fn mode b block inst := by
  intro env m hf
  obtain ⟨M, hexec, hf', hpar⟩ := Ctx.exec_passArgs env (argSite mode h)
    (h.map_snd ▸ h.nodup) hf
  refine ⟨M, ?_, hf', hpar.value, fun v hv hne => hpar.other v ⟨.inr hv, .inr hv⟩ hne⟩
  have hcode : (context module fn mode).emitInst
      (firstIndex fn b + (block.insts.length - 1)) inst =
      (context module fn mode).passBlockArgs ((context module fn mode).occupied
        (firstIndex fn b + (block.insts.length - 1))) inst.a inst.args ++ [.jmp (.block inst.a)] := by
    rw [Ctx.emitInst, h.op]
  rw [hcode]
  calc exec env ((context module fn mode).passBlockArgs _ inst.a inst.args ++
        [.jmp (.block inst.a)]) m = exec env [.jmp (.block inst.a)] M :=
        exec_append_of_next env hexec
    _ = .goto (.block inst.a) M := rfl

end Mirage.X86
