import Mirage.Wasm.BlockArgs
import Mirage.X86.BlockArgs

/-!
# Block arguments

A jump assigns its arguments to the parameters of its target, all at once: a parameter of
the target may be the argument for another one, and arguments may be repeated. Both
backends go through staging, so that no parameter is written before the last argument has
been read.

* `BlockArgsParallel`: what the code of a jump does, in x86 code under every allocation and
  in WebAssembly with and without the dispatch loop.
* `blockArgs_parallel_iff`: it does so unless the jump passes arguments to the first block
  of the function, whose parameters WebAssembly does not stage.
-/

namespace Mirage

variable {module : Module} {fn : Function} {b : BlockId} {block target : Block} {inst : Inst}

/-- The code of a jump passes its arguments at once, from either backend. -/
structure BlockArgsParallel (module : Module) (fn : Function) (b : BlockId) (block : Block)
    (inst : Inst) : Prop where
  x86 : ∀ mode, X86.PassesArgs module fn mode b block inst
  wasm : Wasm.PassesArgs module fn inst

/-- Only arguments for the first block are not passed. -/
theorem blockArgs_parallel_iff (h : JumpAt module fn b block inst target) :
    BlockArgsParallel module fn b block inst ↔ inst.a ≠ 0 ∨ inst.args = [] :=
  ⟨fun hpass => (Wasm.passesArgs_iff h).mp hpass.wasm,
    fun hcond => ⟨fun _ => X86.passesArgs h, (Wasm.passesArgs_iff h).mpr hcond⟩⟩

/-- A jump that swaps two parameters of its own block. -/
def swapJump : Inst := { op := .jump, a := 1, args := [3, 2] }

def swapBlock : Block := { params := [2, 3], insts := [swapJump] }

/-- A loop that swaps two values. -/
def swapFn : Function :=
  { name := "f", hasBody := true, params := [0, 1]
    values := [{ block := 0, type := .i64, isParam := true },
      { block := 0, index := 1, type := .i64, isParam := true },
      { block := 1, type := .i64, isParam := true },
      { block := 1, index := 1, type := .i64, isParam := true }]
    blocks := [{ params := [0, 1], insts := [{ op := .jump, a := 1, args := [0, 1] }] },
      swapBlock] }

def swapModule : Module :=
  { functions := [swapFn], signatures := [{ params := [.i64, .i64] }] }

/-- The iff at the jump that swaps. -/
theorem swap_parallel_iff :
    BlockArgsParallel swapModule swapFn 1 swapBlock swapJump ↔
      swapJump.a ≠ 0 ∨ swapJump.args = [] :=
  @blockArgs_parallel_iff swapModule swapFn 1 swapBlock swapBlock swapJump
    ⟨by decide +kernel, rfl, rfl, rfl, rfl, by decide, by decide⟩

def reentryJump : Inst := { op := .jump, a := 0, args := [0] }

def reentryBlock : Block := { params := [0], insts := [reentryJump] }

/-- A function of one block that jumps to itself with its parameter. -/
def reentryFn : Function :=
  { name := "f", hasBody := true, params := [0]
    values := [{ block := 0, type := .i64, isParam := true }], blocks := [reentryBlock] }

def reentryModule : Module := { functions := [reentryFn], signatures := [{ params := [.i64] }] }

/-- The parameter has no staging local. -/
theorem reentry_not_passed :
    JumpAt reentryModule reentryFn 0 reentryBlock reentryJump reentryBlock ∧
      ¬BlockArgsParallel reentryModule reentryFn 0 reentryBlock reentryJump := by
  refine ⟨⟨by decide +kernel, rfl, rfl, rfl, rfl, by decide, by decide⟩, fun h => ?_⟩
  obtain ⟨code, hcode, -⟩ := h.wasm false
  have hnone : Wasm.transferBlockArgs reentryFn
      (Wasm.assignLocals reentryModule reentryFn false) 0 [0] = none := by decide +kernel
  exact absurd (hnone.symm.trans hcode) (by simp)

end Mirage
