import Mirage.X86.Machine

/-!
# What code leaves alone

Two relations between the machine before a piece of code and the machine after
it, both silent about the flags:

* `Sets dst v`: the register `dst` holds `v`, and nothing else changed. The steps of a
  computation in one register compose to another one (`Computes.append`).
* `Keeps R X A`: outside the general registers `R`, the XMM registers `X` and the
  addresses `A` nothing changed that lies at or above the stack pointer. What lies
  below it is free for anyone.

`Does env code R X A m Q` says that the code runs to its end from `m`, keeps everything
outside `R`, `X` and `A`, and ends with `Q`; `Does.append` chains two pieces.
-/

namespace Mirage.X86

variable {env : Env} {m m' M M' : Machine} {dst : Reg} {v w : BitVec 64}

/-! ## One register -/

/-- The register `dst` holds `v`; the rest of the machine, flags apart, is unchanged. -/
structure Sets (dst : Reg) (v : BitVec 64) (m M : Machine) : Prop where
  gpr : M.gpr = (m.setGpr dst v).gpr
  xmm : M.xmm = m.xmm
  mem : M.mem = m.mem

theorem Sets.value (h : Sets dst v m M) : M.gpr dst = v := by
  rw [h.gpr, Machine.setGpr_gpr, if_pos rfl]

theorem Sets.other (h : Sets dst v m M) {r : Reg} (hr : r ≠ dst) : M.gpr r = m.gpr r := by
  rw [h.gpr, Machine.setGpr_gpr, if_neg hr]

theorem Sets.trans (h : Sets dst v m M) (h' : Sets dst w M M') : Sets dst w m M' where
  gpr := by
    rw [h'.gpr]
    funext r
    rw [Machine.setGpr_gpr, Machine.setGpr_gpr]
    split_ifs with hr
    · rfl
    · exact h.other hr
  xmm := h'.xmm.trans h.xmm
  mem := h'.mem.trans h.mem

/-- A register that keeps its value. -/
theorem Sets.refl (m : Machine) (dst : Reg) : Sets dst (m.gpr dst) m m where
  gpr := by
    funext r
    rw [Machine.setGpr_gpr]
    split_ifs with hr <;> simp [*]
  xmm := rfl
  mem := rfl

theorem sets_setGpr (m : Machine) (dst : Reg) (v : BitVec 64) : Sets dst v m (m.setGpr dst v) :=
  ⟨rfl, rfl, rfl⟩

theorem Sets.setFlags (h : Sets dst v m M) (f : Flags) : Sets dst v m (M.setFlags f) :=
  ⟨h.gpr, h.xmm, h.mem⟩

/-- The code computes `v` into `dst`. -/
def Computes (env : Env) (code : List Instr) (dst : Reg) (v : BitVec 64) (m : Machine) : Prop :=
  ∃ M, exec env code m = .next M ∧ Sets dst v m M

theorem Computes.nil (m : Machine) (dst : Reg) : Computes env [] dst (m.gpr dst) m :=
  ⟨m, rfl, .refl m dst⟩

/-- One instruction that writes its destination only. -/
theorem Computes.single {i : Instr} (hi : i.control = .straight) (h : i.run env m = some M)
    (hs : Sets dst v m M) : Computes env [i] dst v m := ⟨M, exec_cons env hi h [], hs⟩

theorem Computes.append {c₁ c₂ : List Instr} (h : Computes env c₁ dst v m)
    (h' : ∀ M, Sets dst v m M → Computes env c₂ dst w M) : Computes env (c₁ ++ c₂) dst w m := by
  obtain ⟨M, he, hs⟩ := h
  obtain ⟨M', he', hs'⟩ := h' M hs
  exact ⟨M', by rw [exec_append_of_next env he, he'], hs.trans hs'⟩

/-! ## Frame conditions -/

/-- Nothing changed outside the given registers and addresses, below the stack
    pointer apart. -/
structure Keeps (R : Set Reg) (X : Set XReg) (A : Set (BitVec 64)) (m M : Machine) : Prop where
  gpr : ∀ r ∉ R, M.gpr r = m.gpr r
  xmm : ∀ x ∉ X, M.xmm x = m.xmm x
  mem : ∀ a ∉ A, (m.gpr .rsp).toNat ≤ a.toNat → M.mem a = m.mem a

variable {R R' : Set Reg} {X X' : Set XReg} {A A' : Set (BitVec 64)}

theorem Keeps.refl (R : Set Reg) (X : Set XReg) (A : Set (BitVec 64)) (m : Machine) :
    Keeps R X A m m := ⟨fun _ _ => rfl, fun _ _ => rfl, fun _ _ _ => rfl⟩

theorem Keeps.mono (h : Keeps R X A m M) (hR : R ⊆ R') (hX : X ⊆ X') (hA : A ⊆ A') :
    Keeps R' X' A' m M where
  gpr := fun r hr => h.gpr r fun h' => hr (hR h')
  xmm := fun x hx => h.xmm x fun h' => hx (hX h')
  mem := fun a ha => h.mem a fun h' => ha (hA h')

theorem Keeps.trans (h : Keeps R X A m M) (h' : Keeps R X A M M') (hrsp : .rsp ∉ R) :
    Keeps R X A m M' where
  gpr := fun r hr => (h'.gpr r hr).trans (h.gpr r hr)
  xmm := fun x hx => (h'.xmm x hx).trans (h.xmm x hx)
  mem := fun a ha hle => (h'.mem a ha (by rw [h.gpr .rsp hrsp]; exact hle)).trans (h.mem a ha hle)

theorem Sets.keeps (h : Sets dst v m M) (hdst : dst ∈ R) : Keeps R X A m M where
  gpr := fun r hr => h.other fun hr' => hr (hr' ▸ hdst)
  xmm := fun x _ => by rw [h.xmm]
  mem := fun a _ _ => by rw [h.mem]

theorem keeps_setXmm {x : XReg} (hx : x ∈ X) (m : Machine) (v : BitVec 64) :
    Keeps R X A m (m.setXmm x v) where
  gpr := fun _ _ => rfl
  xmm := fun y hy => by rw [Machine.setXmm_xmm, if_neg fun h : y = x => hy (h ▸ hx)]
  mem := fun _ _ _ => rfl

theorem keeps_setFlags (m : Machine) (f : Flags) : Keeps R X A m (m.setFlags f) :=
  ⟨fun _ _ => rfl, fun _ _ => rfl, fun _ _ _ => rfl⟩

theorem keeps_write {a : BitVec 64} {n : Nat} (ha : Mem.bytes a n ⊆ A) (m : Machine)
    (v : BitVec 64) : Keeps R X A m (m.setMem (m.mem.write a n v)) where
  gpr := fun _ _ => rfl
  xmm := fun _ _ => rfl
  mem := fun _ hx _ => Mem.write_of_not_mem fun h => hx (ha h)

/-- A read of bytes that are kept. -/
theorem Keeps.read (h : Keeps R X A m M) {a : BitVec 64} {n : Nat} (hn : n ≤ 8)
    (ha : ∀ x ∈ Mem.bytes a n, x ∉ A ∧ (m.gpr .rsp).toNat ≤ x.toNat) :
    M.mem.read a n = m.mem.read a n :=
  Mem.read_congr hn fun x hx => h.mem x (ha x hx).1 (ha x hx).2

/-! ## Pieces of code -/

/-- The code runs to its end, changes nothing outside the given registers and
    addresses, and establishes `Q`. -/
def Does (env : Env) (code : List Instr) (R : Set Reg) (X : Set XReg) (A : Set (BitVec 64))
    (m : Machine) (Q : Machine → Prop) : Prop :=
  ∃ M, exec env code m = .next M ∧ Keeps R X A m M ∧ Q M

variable {Q Q' : Machine → Prop} {code c₁ c₂ : List Instr}

theorem Does.mono (h : Does env code R X A m Q) (hR : R ⊆ R') (hX : X ⊆ X') (hA : A ⊆ A')
    (hQ : ∀ M, Keeps R X A m M → Q M → Q' M) : Does env code R' X' A' m Q' := by
  obtain ⟨M, he, hk, hq⟩ := h
  exact ⟨M, he, hk.mono hR hX hA, hQ M hk hq⟩

theorem Does.nil (h : Q m) : Does env [] R X A m Q := ⟨m, rfl, .refl R X A m, h⟩

/-- One piece of code after another. -/
theorem Does.append (h : Does env c₁ R X A m Q) (hrsp : .rsp ∉ R)
    (h' : ∀ M, Keeps R X A m M → Q M → Does env c₂ R X A M Q') :
    Does env (c₁ ++ c₂) R X A m Q' := by
  obtain ⟨M, he, hk, hq⟩ := h
  obtain ⟨M', he', hk', hq'⟩ := h' M hk hq
  exact ⟨M', by rw [exec_append_of_next env he, he'], hk.trans hk' hrsp, hq'⟩

/-- A single instruction. -/
theorem Does.single {i : Instr} (hi : i.control = .straight) (h : i.run env m = some M)
    (hk : Keeps R X A m M) (hq : Q M) : Does env [i] R X A m Q :=
  ⟨M, exec_cons env hi h [], hk, hq⟩

/-- A computation in one register. -/
theorem Computes.does (h : Computes env code dst v m) (hdst : dst ∈ R) :
    Does env code R X A m fun M => Sets dst v m M := by
  obtain ⟨M, he, hs⟩ := h
  exact ⟨M, he, hs.keeps hdst, hs⟩

/-! ## The stack -/

/-- The machine after a `pop`. -/
def Machine.pop (m : Machine) (r : Reg) : Machine :=
  (m.setGpr .rsp (m.gpr .rsp + 8)).setGpr r (m.mem.read (m.gpr .rsp) 8)

/-- The pushed word lies below the stack pointer. -/
theorem toNat_of_mem_pushed {p x : BitVec 64} {n : Nat} (hroom : n ≤ p.toNat)
    (hx : x ∈ Mem.bytes (p - BitVec.ofNat 64 n) n) : p.toNat - n ≤ x.toNat ∧ x.toNat < p.toNat := by
  rw [Mem.mem_bytes, BitVec.toNat_sub, BitVec.toNat_sub, BitVec.toNat_ofNat] at hx
  have := x.isLt
  have := p.isLt
  omega

/-- A push keeps everything but the stack pointer. -/
theorem keeps_push (m : Machine) (v : BitVec 64) (hroom : 8 ≤ (m.gpr .rsp).toNat) :
    Keeps {.rsp} ∅ ∅ m (m.push v) where
  gpr := fun r hr => by simp [Machine.push, show r ≠ .rsp from hr]
  xmm := fun _ _ => rfl
  mem := fun a _ hle => by
    refine Mem.write_of_not_mem fun h => ?_
    have := toNat_of_mem_pushed (n := 8) hroom h
    omega

theorem push_rsp (m : Machine) (v : BitVec 64) (hroom : 8 ≤ (m.gpr .rsp).toNat) :
    ((m.push v).gpr .rsp).toNat = (m.gpr .rsp).toNat - 8 := by
  have := (m.gpr .rsp).isLt
  simp only [Machine.push, Machine.setMem_gpr, Machine.setGpr_gpr, if_true]
  bv_omega

/-- A register pushed before and popped after a piece of code is restored. -/
theorem Keeps.pushed {r : Reg} (hroom : 8 ≤ (m.gpr .rsp).toNat)
    (h : Keeps (insert r R) X A (m.push (m.gpr r)) M) (hr : r ≠ .rsp) (hrsp : .rsp ∉ R)
    (hA : ∀ a ∈ A, (m.gpr .rsp).toNat ≤ a.toNat) : Keeps R X A m (M.pop r) := by
  have hrsp' : Reg.rsp ∉ insert r R := by simp [hr.symm, hrsp]
  have hM : M.gpr .rsp = m.gpr .rsp - 8 := by
    rw [h.gpr .rsp hrsp']
    simp [Machine.push]
  have hpush := push_rsp m (m.gpr r) hroom
  refine ⟨fun s hs => ?_, h.xmm, fun a ha hle => ?_⟩
  · by_cases hsr : s = r
    · -- the popped word is the pushed one
      subst hsr
      have hread : M.mem.read (m.gpr .rsp - 8) 8 = (m.push (m.gpr s)).mem.read (m.gpr .rsp - 8) 8 :=
        h.read (le_refl 8) fun x hx => by
          have := toNat_of_mem_pushed (n := 8) hroom hx
          exact ⟨fun hxA => absurd (hA x hxA) (by omega), by omega⟩
      rw [Machine.pop, Machine.setGpr_gpr, if_pos rfl, hM, hread]
      exact Mem.read_write_word
    · rw [Machine.pop, Machine.setGpr_gpr, if_neg hsr, Machine.setGpr_gpr]
      split_ifs with hs'
      · rw [hM, hs', BitVec.sub_add_cancel]
      · rw [h.gpr s (by simp [hsr, hs])]
        simp [Machine.push, hs']
  · calc (M.pop r).mem a = M.mem a := rfl
      _ = (m.push (m.gpr r)).mem a := h.mem a ha (by omega)
      _ = m.mem a := (keeps_push m _ hroom).mem a (by simp) hle

end Mirage.X86
