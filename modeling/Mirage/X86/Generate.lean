import Mirage.Elf.Writer
import Mirage.Mir.Globals
import Mirage.X86.Encoder

/-!
# The object of a module

The x86-64 backend makes an object of a module. The globals come first: those with an
initializer are placed in `.rodata` or `.data`, the others in `.bss`, and each gets a symbol.
The relocations of their initializers are recorded before there are symbols for functions, and
the ones that name a function are patched by a second walk once there are. Then come the library
functions the code may call, the code of the functions and a start function.

The code of a function is a parameter (`Emit`); it is emitted with the symbols of everything it
may refer to.
-/

namespace Mirage.X86.Generate

/-- A module, with the functions that are visible outside. -/
structure LinkModule extends DataModule where
  externals : List Bool := []

/-- A name as bytes. -/
def nameBytes (name : String) : List Byte := name.toUTF8.data.toList.map UInt8.toBitVec

/-! ## Globals -/

/-- What is known while the globals are placed. -/
structure GlobalLayout where
  object : Elf.Object := {}
  placed : List (Elf.Section × BitVec 64) := []
  globalSymbols : List (BitVec 32) := []

/-- Bytes put behind others at an alignment, and where they are. -/
def placeBytes (into bytes : List Byte) (align : Nat) : BitVec 64 × List Byte :=
  let padded := Elf.padTo align into
  (BitVec.ofNat 64 padded.length, padded ++ bytes)

def maxAlign (a : BitVec 64) (b : Nat) : BitVec 64 := BitVec.ofNat 64 (max a.toNat b)

def globalSymbol (g : Global) (place : Elf.Section × BitVec 64) : Elf.Symbol where
  name := nameBytes g.name
  section_ := place.1
  value := place.2
  size := BitVec.ofNat 64 g.size
  isGlobal := g.isExternal
  isFunction := false

/-- The object with room or bytes for a global, and where they are. -/
def placeData (object : Elf.Object) (g : Global) : (Elf.Section × BitVec 64) × Elf.Object :=
  if g.init.isEmpty then
    let align := max 1 g.align
    let offset := (object.bssSize + BitVec.ofNat 64 align - 1) / BitVec.ofNat 64 align *
      BitVec.ofNat 64 align
    ((.bss, offset), { object with
      bssSize := offset + BitVec.ofNat 64 (max 1 g.size)
      bssAlign := maxAlign object.bssAlign align })
  else if g.isConstant then
    let (offset, rodata) := placeBytes object.rodata g.init g.align
    ((.rodata, offset), { object with
      rodata := rodata, rodataAlign := maxAlign object.rodataAlign g.align })
  else
    let (offset, data) := placeBytes object.data g.init g.align
    ((.data, offset), { object with
      data := data, dataAlign := maxAlign object.dataAlign g.align })

def placeGlobal (s : GlobalLayout) (g : Global) : GlobalLayout :=
  let (place, object) := placeData s.object g
  { object := { object with symbols := object.symbols ++ [globalSymbol g place] }
    placed := s.placed ++ [place]
    globalSymbols := s.globalSymbols ++ [BitVec.ofNat 32 object.symbols.length] }

def placeGlobals (gs : List Global) : GlobalLayout := gs.foldl placeGlobal {}

/-! ## The relocations of the initializers -/

/-- `R_X86_64_64`: an address of 8 bytes. -/
def rX86_64_64 : BitVec 32 := 1

/-- `R_X86_64_PC32`: a distance of 4 bytes. -/
def rX86_64_PC32 : BitVec 32 := 2

/-- `R_X86_64_PLT32`: a distance to a function. -/
def rX86_64_PLT32 : BitVec 32 := 4

/-- A relocation of an initializer; the symbol of a function is not known yet. -/
def initRelocation (globalSymbols : List (BitVec 32)) (place : Elf.Section × BitVec 64)
    (r : Mirage.Relocation) : Elf.Relocation where
  in_ := place.1
  offset := place.2 + BitVec.ofNat 64 r.offset
  symbol := match r.kind with
    | .functionAddr => 0
    | .globalAddr => globalSymbols.getD r.target 0
  type := rX86_64_64
  addend := r.addend

def initRelocations (s : GlobalLayout) (gs : List Global) : List Elf.Relocation :=
  (gs.zip s.placed).flatMap fun r => r.1.relocations.map (initRelocation s.globalSymbols r.2)

def functionSymbol (m : LinkModule) (fn : Function) (i : Nat) : Elf.Symbol where
  name := nameBytes fn.name
  section_ := if fn.hasBody then .text else .undefined
  isGlobal := !fn.hasBody || m.externals.getD i false
  isFunction := true

/-- The second walk: the symbols of functions, now that there are any. -/
def fixFunctions (functionSymbols : List (BitVec 32)) (gs : List Global)
    (relocations : List Elf.Relocation) : List Elf.Relocation :=
  (gs.flatMap Global.relocations).zipIdx.foldl (fun relocations r =>
    if r.1.kind = .functionAddr then
      relocations.modify r.2 fun rel => { rel with symbol := functionSymbols.getD r.1.target 0 }
    else relocations) relocations

/-! ## Code -/

/-- The symbols the code of a function may refer to. -/
structure Symbols where
  functions : List (BitVec 32)
  globals : List (BitVec 32)
  memcpy : BitVec 32
  memset : BitVec 32
  fmod : BitVec 32
  fmodf : BitVec 32

/-- What is emitted for a function, and whether there were errors. -/
structure Emitted where
  encoder : Encoder
  failed : Bool := false

/-- How the code of a function is emitted; nothing when no registers could be allocated. -/
abbrev Emit := Symbols → Nat → Option Emitted

/-- The symbol of a library function, which is added unless there is one of its name. -/
def runtimeSymbol (o : Elf.Object) (name : String) : BitVec 32 × Elf.Object :=
  match o.symbols.findIdx? fun sym => sym.name = nameBytes name with
  | some i => (BitVec.ofNat 32 i, o)
  | none =>
    (BitVec.ofNat 32 o.symbols.length, { o with
      symbols := o.symbols ++
        [{ name := nameBytes name, section_ := .undefined, isGlobal := true,
           isFunction := true }] })

/-- The relocation of a field in code that begins at `start`. -/
def codeRelocation (start : Nat) (r : Relocation) : Elf.Relocation where
  in_ := .text
  offset := BitVec.ofNat 64 start + r.offset.setWidth 64
  symbol := r.symbol
  type := if r.kind = .call32 then rX86_64_PLT32 else rX86_64_PC32
  addend := r.addend + if r.kind = .rip32 then -4 else 0

/-- `nop`s up to a multiple of 16. -/
def padCode (text : List Byte) : List Byte :=
  text ++ List.replicate (roundUp text.length 16 - text.length) 0x90

/-- The code of a function put behind the others; the symbol with an index gets its place. -/
def addCode (o : Elf.Object) (symbol : Nat) (enc : Encoder) : Elf.Object :=
  let text := padCode o.text
  { o with
    text := text ++ enc.code
    symbols := o.symbols.modify symbol fun sym => { sym with
      value := BitVec.ofNat 64 text.length, size := BitVec.ofNat 64 enc.code.length }
    relocations := o.relocations ++ enc.relocations.map (codeRelocation text.length) }

/-- The code of the functions that have a body, and whether there were errors. The first that
    cannot be allocated is the last that is tried. -/
def addBodies (emit : Nat → Option Emitted) (first : Nat) :
    List (Function × Nat) → Elf.Object × Bool → Elf.Object × Bool
  | [], r => r
  | (fn, i) :: fns, (o, failed) =>
    if fn.hasBody then
      match emit i with
      | none => (o, true)
      | some e => addBodies emit first fns (addCode o (first + i) e.encoder, failed || e.failed)
    else addBodies emit first fns (o, failed)

/-! ## The start function -/

/-- The last function with a body that has a name. -/
def bodyNamed (m : LinkModule) (name : String) : Option Nat :=
  ((m.functions.zipIdx.filter fun r => r.1.hasBody && r.1.name == name).getLast?).map Prod.snd

/-- What runs before `main`: `-16` aligns the stack, and `_init` is called if there is one. -/
def startFront (m : LinkModule) (functions : List (BitVec 32)) : List Call :=
  .aluRi .and .w64 .rsp (-16) :: match bodyNamed m "_init" with
    | some i => [.callSym (functions.getD i 0)]
    | none => []

/-- The start function of a test run. -/
def testStart (m : LinkModule) (s : Symbols) (exit : BitVec 32) (testInfo testRunner : Nat) :
    List Call :=
  startFront m s.functions ++ [.leaRip .rdi (s.globals.getD testInfo 0) 0,
    .callSym (s.functions.getD testRunner 0), .zero .rdi, .callSym exit, .ud2]

/-- The start function of a program, by the shape of its `main`. -/
def mainStart (m : LinkModule) (s : Symbols) (exit : BitVec 32) (main : Nat) : List Call :=
  let symbol := s.functions.getD main 0
  let signature := m.signatures.getD (m.functions.getD main {}).signature {}
  startFront m s.functions ++
    (if signature.result = .void ∧ signature.params ≠ [] then
      [.subRsp 128, .movRr .w64 .rdi .rsp, .callSym symbol, .load .w32 .rax .rsp 0,
        .testRr .w32 .rax .rax, .setcc .ne .rax, .movzx .w8 .rax .rax, .movRr .w32 .rdi .rax]
    else if signature.result = .void then [.callSym symbol, .zero .rdi]
    else [.callSym symbol, .movRr .w32 .rdi .rax]) ++ [.callSym exit, .ud2]

/-- A start function put behind the code, with a symbol of its own. -/
def addStart (o : Elf.Object) (relocation : Nat → Relocation → Elf.Relocation)
    (calls : List Call) : Elf.Object :=
  let enc := (({} : Encoder).run calls).resolveLabels
  let text := padCode o.text
  { o with
    text := text ++ enc.code
    symbols := o.symbols ++ [{ name := nameBytes "_start", section_ := .text
                               value := BitVec.ofNat 64 text.length
                               size := BitVec.ofNat 64 enc.code.length
                               isGlobal := true, isFunction := true }]
    relocations := o.relocations ++ enc.relocations.map (relocation text.length) }

/-- In the start function of a program all fields are calls. -/
def callRelocation (start : Nat) (r : Relocation) : Elf.Relocation where
  in_ := .text
  offset := BitVec.ofNat 64 start + r.offset.setWidth 64
  symbol := r.symbol
  type := rX86_64_PLT32
  addend := r.addend

/-! ## The object -/

/-- The globals, their relocations and the symbols of the functions. -/
def declared (m : LinkModule) : Elf.Object :=
  let s := placeGlobals m.globalDefs
  let first := s.object.symbols.length
  let functionSymbols := (List.range m.functions.length).map fun i => BitVec.ofNat 32 (first + i)
  { s.object with
    symbols := s.object.symbols ++ m.functions.zipIdx.map fun r => functionSymbol m r.1 r.2
    relocations := fixFunctions functionSymbols m.globalDefs (initRelocations s m.globalDefs) }

/-- The symbols of the module, and the object with the library functions in it. -/
def withRuntime (m : LinkModule) : Symbols × Elf.Object :=
  let s := placeGlobals m.globalDefs
  let first := s.object.symbols.length
  let (memcpy, o) := runtimeSymbol (declared m) "memcpy"
  let (memset, o) := runtimeSymbol o "memset"
  let (fmod, o) := runtimeSymbol o "fmod"
  let (fmodf, o) := runtimeSymbol o "fmodf"
  ({ functions := (List.range m.functions.length).map fun i => BitVec.ofNat 32 (first + i)
     globals := s.globalSymbols, memcpy, memset, fmod, fmodf }, o)

/-- The object of a module, and whether it was made without errors. -/
def generate (m : LinkModule) (emit : Emit) (testInfo testRunner : Option Nat) :
    Elf.Object × Bool :=
  let first := (placeGlobals m.globalDefs).object.symbols.length
  let (symbols, o) := withRuntime m
  let (o, failed) := addBodies (emit symbols) first m.functions.zipIdx (o, false)
  if failed then (o, false)
  else match testInfo, testRunner with
    | some info, some runner =>
      let (exit, o) := runtimeSymbol o "exit"
      (addStart o codeRelocation (testStart m symbols exit info runner), true)
    | _, _ => match bodyNamed m "main" with
      | some main =>
        let (exit, o) := runtimeSymbol o "exit"
        (addStart o callRelocation (mainStart m symbols exit main), true)
      | none => (o, true)

end Mirage.X86.Generate
