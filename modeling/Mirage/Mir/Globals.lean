import Mirage.Lib.Align
import Mirage.Lib.Blob
import Mirage.Mir.Basic

/-!
# Globals

The globals of a module: a size and an alignment, the bytes of the initializer, or none where
the global is zero-initialized, and the relocations inside them. A relocation stores the
address of a function or of a global, plus an addend.

* `DataModule.Relocatable`: the relocations are inside the initializers and name functions and
  globals of the module, and an initializer has the size of its global.
-/

namespace Mirage

inductive Relocation.Kind
  | functionAddr | globalAddr
  deriving DecidableEq

structure Relocation where
  kind : Relocation.Kind := .globalAddr
  offset : Nat := 0
  target : Nat := 0
  addend : BitVec 64 := 0
  deriving DecidableEq

structure Global where
  name : String := ""
  isExternal : Bool := false
  size : Nat := 0
  align : Nat := 1
  isConstant : Bool := false
  init : List (BitVec 8) := []
  relocations : List Relocation := []
  deriving DecidableEq

/-- A module with its globals. -/
structure DataModule extends Module where
  globalDefs : List Global := []

namespace Global

/-- What the backends reserve for a global: at least one byte. -/
def extent (g : Global) : Extent := ⟨max 1 g.size, max 1 g.align, by omega⟩

/-- The initializer is empty or of the size of the global. -/
def Sized (g : Global) : Prop := g.init = [] ∨ g.init.length = g.size

instance (g : Global) : Decidable g.Sized := inferInstanceAs (Decidable (_ ∨ _))

end Global

/-- The relocations of the initializers are fields of `width` bytes inside them, and name
    functions and globals of the module. -/
structure DataModule.Relocatable (m : DataModule) (width : Nat) : Prop where
  sized : ∀ g ∈ m.globalDefs, g.Sized
  inside : ∀ g ∈ m.globalDefs, g.init ≠ [] → ∀ r ∈ g.relocations, r.offset + width ≤ g.init.length
  function : ∀ g ∈ m.globalDefs, ∀ r ∈ g.relocations, r.kind = .functionAddr →
    r.target < m.functions.length
  target : ∀ g ∈ m.globalDefs, ∀ r ∈ g.relocations, r.kind = .globalAddr →
    r.target < m.globalDefs.length

end Mirage
