import Mirage.Wasm.Decode
import Mathlib.Data.List.Infix

/-!
# What is serialized is read back

Every part of the binary is read back by the reader of that part, and the sections one
after the other: what is missing was empty, and the sections after it have higher ids. So
a binary always decodes, to what was written (`decode_written`).

What was written is what the module says, but for two things (`Module.written`):

* the initializer of a global that is no `i64` is the low 32 bits of it;
* the count of a run of locals is 32 bits, so that a run of `2 ^ 32` equal locals is written
  as none (`declared_full`); shorter runs are what they were (`declared_eq_self`).

The numbers of 64 bits of either sign are read back from their LEB128. Nothing is asked of the
sizes of the table and of the memory: a section that is left out says that there is none.
-/

namespace Mirage.Wasm.Encoder

open Leb128 (uleb sleb readUleb readU readS readUleb_uleb readU_uleb readS_sleb)

/-! ### Numbers, names and vectors -/

theorem reads_u32 (n : BitVec 32) : Reads readU32 (uleb n.toNat) n := by
  have h := (readU_uleb (w := 32) n.isLt).bind_pure (g := BitVec.ofNat 32)
  rwa [BitVec.ofNat_toNat, BitVec.setWidth_eq] at h

theorem reads_name (text : List Byte) : Reads readName (name text) text :=
  (readUleb_uleb text.length).bind (Reads.takeExactly text)

/-- The numbers of 64 bits, signed, are read back. -/
theorem reads_s64 (n : BitVec 64) : Reads (readS 64) (sleb n.toInt) n.toInt :=
  readS_sleb (BitVec.le_toInt n) BitVec.toInt_lt

/-- And so are those of 32 bits. -/
theorem reads_s32 (n : BitVec 32) : Reads (readS 32) (sleb n.toInt) n.toInt :=
  readS_sleb (BitVec.le_toInt n) BitVec.toInt_lt

/-- A vector is read back when each of its values is. -/
theorem reads_vec {α β : Type} {p : Reader Byte β} {write : α → List Byte} {value : α → β}
    {xs : List α} (h : ∀ x ∈ xs, Reads p (write x) (value x)) :
    Reads (readVec p) (vec write xs) (xs.map value) :=
  (readUleb_uleb xs.length).bind (Reads.times xs h)

/-- A vector of values read as themselves. -/
theorem reads_vec_self {α : Type} {p : Reader Byte α} {write : α → List Byte} {xs : List α}
    (h : ∀ x, Reads p (write x) x) : Reads (readVec p) (vec write xs) xs := by
  have hvec := reads_vec fun x (_ : x ∈ xs) => h x
  rwa [List.map_id'] at hvec

/-! ### The entries of the sections -/

theorem ofCode_code (type : ValType) : ValType.ofCode type.code = some type := by
  cases type <;> decide

theorem kind_ofCode_code (kind : ExportKind) : ExportKind.ofCode kind.code = some kind := by
  cases kind <;> decide

theorem reads_valType (type : ValType) : Reads readValType [type.code] type :=
  (Reads.item type.code).bind (Reads.ofOption (ofCode_code type))

theorem reads_funcType (type : FuncType) : Reads readFuncType (funcType type) type :=
  (Reads.token 0x60).bind
    ((reads_vec_self reads_valType).bind (reads_vec_self reads_valType).bind_pure)

theorem reads_import (i : Import) : Reads readImport (importEntry i) i :=
  Reads.of_eq ((reads_name i.module).bind ((reads_name i.name).bind
    ((Reads.token 0x00).bind (reads_u32 i.typeIndex).bind_pure)))
    (by simp only [importEntry, List.append_assoc, List.singleton_append])

theorem reads_mutable (mutable_ : Bool) :
    Reads readMutable [if mutable_ then 0x01 else 0x00] mutable_ := by
  rcases mutable_
  · exact fun rest => rfl
  · exact fun rest => rfl

/-- The initializer a global is written with. -/
def Global.written (global : Global) : Global :=
  { global with
    init := if global.type = .i64 then global.init
      else (global.init.setWidth 32).signExtend 64 }

theorem reads_const (global : Global) :
    Reads readConst ((if global.type = .i64 then 0x42 :: sleb global.init.toInt
      else 0x41 :: sleb (global.init.setWidth 32).toInt) ++ [0x0B]) global.written.init := by
  rw [Global.written]
  by_cases htype : global.type = .i64
  · have h : Reads readConst _ (BitVec.ofInt 64 global.init.toInt) :=
      (Reads.item 0x42).bind ((reads_s64 global.init).bind (Reads.token 0x0B).bind_pure)
    rw [BitVec.ofInt_toInt] at h
    rw [if_pos htype, if_pos htype]
    exact h
  · have h : Reads readConst _ (BitVec.ofInt 64 (global.init.setWidth 32).toInt) :=
      (Reads.item 0x41).bind ((reads_s32 (global.init.setWidth 32)).bind
        (Reads.token 0x0B).bind_pure)
    rw [if_neg htype, if_neg htype]
    exact h

theorem reads_global (global : Global) :
    Reads readGlobal (globalEntry global) global.written :=
  (reads_valType global.type).bind
    ((reads_mutable global.mutable_).bind (reads_const global).bind_pure)

theorem reads_export (entry : Export) : Reads readExport (exportEntry entry) entry :=
  (reads_name entry.name).bind ((Reads.item entry.kind.code).bind
    ((Reads.ofOption (kind_ofCode_code entry.kind)).bind (reads_u32 entry.index).bind_pure))

theorem reads_offset (n : BitVec 32) : Reads readOffset (0x41 :: (sleb n.toInt ++ [0x0B])) n := by
  have h : Reads readOffset _ (BitVec.ofInt 32 n.toInt) :=
    (Reads.token 0x41).bind ((reads_s32 n).bind (Reads.token 0x0B).bind_pure)
  rw [BitVec.ofInt_toInt] at h
  exact h

/-- An element segment as it is written. -/
def elementEntry (segment : ElementSegment) : List Byte :=
  0x00 :: 0x41 :: (sleb segment.offset.toInt ++ 0x0B ::
    vec (fun index => uleb index.toNat) segment.indices)

theorem reads_element (segment : ElementSegment) :
    Reads readElement (elementEntry segment) segment :=
  Reads.of_eq ((Reads.token 0x00).bind
    ((reads_offset segment.offset).bind (reads_vec_self reads_u32).bind_pure))
    (by simp only [elementEntry, List.cons_append, List.append_assoc, List.nil_append])

theorem reads_data (segment : DataSegment) : Reads readData (dataEntry segment) segment :=
  Reads.of_eq ((Reads.token 0x00).bind ((reads_offset segment.offset).bind
    ((readUleb_uleb segment.bytes.length).bind (Reads.takeExactly segment.bytes).bind_pure)))
    (by simp only [dataEntry, List.cons_append, List.append_assoc, List.nil_append])

/-- The table of a module as it is written. -/
def tableEntry (limits : BitVec 32 × Option (BitVec 32)) : List Byte :=
  0x70 :: 0x00 :: uleb limits.1.toNat

theorem reads_limits (n : BitVec 32) : Reads readLimits (0x00 :: uleb n.toNat) (n, none) :=
  (Reads.item (0x00 : Byte)).bind (reads_u32 n).bind_pure

theorem reads_table (n : BitVec 32) : Reads readTable (tableEntry (n, none)) (n, none) :=
  (Reads.token (0x70 : Byte)).bind (reads_limits n)

/-! ### Function bodies -/

/-- Local declarations in full. -/
def expand (runs : List (ValType × BitVec 32)) : List ValType :=
  runs.flatMap fun run => List.replicate run.2.toNat run.1

/-- The locals that the declarations of a function declare. -/
def declared (locals : List ValType) : List ValType := expand (runs locals)

theorem reads_locals (run : ValType × BitVec 32) :
    Reads readLocals (uleb run.2.toNat ++ [run.1.code]) (List.replicate run.2.toNat run.1) :=
  (reads_u32 run.2).bind (reads_valType run.1).bind_pure

/-- What is left of a body is its instructions and `end`. -/
theorem readInstructions_end (bytes : List Byte) :
    readInstructions (bytes ++ [0x0B]) = some (bytes, []) := by
  show (if (bytes ++ [0x0B]).getLast? = some 0x0B then pure (bytes ++ [0x0B]).dropLast
    else failure : Reader Byte (List Byte)) [] = _
  rw [if_pos List.getLast?_concat, List.dropLast_concat]
  rfl

theorem parse_body (function : Function) :
    Reader.parse readBody (functionBody function) =
      some (declared function.locals, function.body.bytes) := by
  have hlocals : Reads (readVec readLocals) (localDecls function.locals) _ :=
    reads_vec fun run (_ : run ∈ runs function.locals) => reads_locals run
  have h := hlocals.bind_rest
    (f := fun locals => readInstructions >>= fun bytes => pure (locals.flatten, bytes))
    (y := (declared function.locals, function.body.bytes)) (by
      show (readInstructions (function.body.bytes ++ [0x0B])).bind _ = _
      rw [readInstructions_end]
      rfl)
  rwa [← List.append_assoc] at h

theorem reads_code (function : Function) :
    Reads readCode (codeEntry function) (declared function.locals, function.body.bytes) :=
  (readUleb_uleb (functionBody function).length).bind (Reads.within (parse_body function))

/-- One more local makes the declarations declare one more, unless the last run was full. -/
theorem expand_pushLocal {runs : List (ValType × BitVec 32)} {done : List ValType}
    {type : ValType} (h : expand runs = done)
    (hfits : ¬ List.replicate (2 ^ 32) type <:+ done ++ [type]) :
    expand (pushLocal runs type) = done ++ [type] := by
  subst h
  rcases List.eq_nil_or_concat runs with rfl | ⟨before, ⟨last, count⟩, rfl⟩
  · rfl
  rw [List.concat_eq_append] at hfits ⊢
  rw [pushLocal, List.getLast?_concat]
  dsimp only
  by_cases hlast : last = type
  · subst hlast
    have hcount : count.toNat + 1 < 2 ^ 32 := by
      by_contra hfull
      have hrun : List.replicate (count.toNat + 1) last <:+ expand (before ++ [(last, count)]) ++
          [last] := by
        refine ⟨expand before, ?_⟩
        simp [expand, List.replicate_succ']
      have : count.toNat + 1 = 2 ^ 32 := by have := count.isLt; omega
      exact hfits (this ▸ hrun)
    have hsucc : (count + 1).toNat = count.toNat + 1 := Nat.mod_eq_of_lt hcount
    rw [if_pos rfl, List.dropLast_concat]
    simp only [expand, List.flatMap_append, List.flatMap_singleton, hsucc, List.replicate_succ',
      List.append_assoc]
  · rw [if_neg hlast]
    simp [expand]

/-- And so do all the locals there are. -/
theorem expand_foldl {locals : List ValType} :
    ∀ (runs : List (ValType × BitVec 32)) (done : List ValType), expand runs = done →
      (∀ type, ¬ List.replicate (2 ^ 32) type <:+: done ++ locals) →
      expand (locals.foldl pushLocal runs) = done ++ locals := by
  induction locals with
  | nil => intro runs done h _; rw [List.append_nil]; exact h
  | cons type locals ih =>
    intro runs done h hfits
    have hnext : ¬ List.replicate (2 ^ 32) type <:+ done ++ [type] := by
      refine fun hrun => hfits type (hrun.isInfix.trans ⟨[], locals, ?_⟩)
      simp
    have happend : done ++ type :: locals = done ++ [type] ++ locals := by simp
    rw [happend] at hfits ⊢
    exact ih _ _ (expand_pushLocal h hnext) hfits

/-- Runs shorter than the count can say are declared as they are. -/
theorem declared_eq_self {locals : List ValType}
    (h : ∀ type, ¬ List.replicate (2 ^ 32) type <:+: locals) : declared locals = locals :=
  expand_foldl [] [] rfl h

/-- Equal locals are one run, whose count may wrap around. -/
theorem runs_replicate (type : ValType) (n : Nat) :
    runs (List.replicate (n + 1) type) = [(type, BitVec.ofNat 32 (n + 1))] := by
  induction n with
  | zero => rfl
  | succ n ih =>
    rw [List.replicate_succ', runs, List.foldl_append]
    show pushLocal (runs (List.replicate (n + 1) type)) type = _
    rw [ih]
    show (if type = type then _ else _) = _
    rw [if_pos rfl, BitVec.ofNat_add (n + 1) 1]
    rfl

/-- A full run is declared as none. -/
theorem declared_full (type : ValType) : declared (List.replicate (2 ^ 32) type) = [] := by
  have hruns := runs_replicate type 4294967295
  have hwrap : BitVec.ofNat 32 (4294967295 + 1) = 0 := by decide
  rw [hwrap] at hruns
  show expand (runs (List.replicate (4294967295 + 1) type)) = []
  rw [hruns]
  rfl

/-! ### Sections -/

/-- What a section of the binary reads as: it is there, before sections of higher ids. -/
theorem reads_section {α β : Type} (id : Byte) {p : Reader Byte β} {write : α → List Byte}
    {value : α → β} {xs : List α} (h : ∀ x ∈ xs, Reads p (write x) (value x)) :
    ReadsField (id ≤ ·) (id < ·) (readSection id p) (section_ id (vec write xs))
      (xs.map value) := by
  have hne : vec write xs ≠ [] := by
    rw [vec, uleb]
    split <;> simp
  rw [section_, if_neg hne]
  exact ReadsField.optional_present
    ((readUleb_uleb _).bind (Reads.within (reads_vec h).parse_eq)) (BitVec.le_refl id)

/-- A section that is only there when it has something to say reads the same. -/
theorem reads_section_nonempty {α β : Type} (id : Byte) {p : Reader Byte β}
    {write : α → List Byte} {value : α → β} {xs : List α}
    (h : ∀ x ∈ xs, Reads p (write x) (value x)) :
    ReadsField (id ≤ ·) (id < ·) (readSection id p)
      (if xs = [] then [] else section_ id (vec write xs)) (xs.map value) := by
  by_cases hxs : xs = []
  · subst hxs
    rw [if_pos rfl]
    exact ReadsField.optional_absent (BitVec.lt_irrefl id) fun b hb => BitVec.le_of_lt hb
  · rw [if_neg hxs]
    exact reads_section id h

/-! ### The binary -/

theorem eq_of_mem_ite {α : Type} {p : Prop} [Decidable p] {a b : α}
    (h : b ∈ if p then [a] else []) : a = b := by
  split at h
  · exact (List.mem_singleton.1 h).symm
  · simp at h

namespace Module

variable (m : Module)

/-- What the binary of a module says. -/
def written : Contents :=
  { m.contents with
    globals := m.globals.map Global.written
    codes := m.functions.map fun function => (declared function.locals, function.body.bytes) }

theorem tableSection_eq :
    m.tableSection = if m.contents.tables = [] then []
      else section_ 4 (vec tableEntry m.contents.tables) := by
  rw [tableSection, contents]
  by_cases h : 0 < m.tableSize.toNat
  · simp [h, vec, tableEntry, ValType.code]
  · simp [h]

theorem memorySection_eq :
    m.memorySection = if m.contents.memories = [] then []
      else section_ 5 (vec (fun limits => 0x00 :: uleb limits.1.toNat) m.contents.memories) := by
  rw [memorySection, contents]
  by_cases h : 0 < m.memoryMinPages.toNat
  · simp [h, vec]
  · simp [h]

theorem elementSection_eq :
    m.elementSection = if m.contents.elements = [] then []
      else section_ 9 (vec elementEntry m.contents.elements) := by
  rw [elementSection, contents]
  by_cases h : m.tableElements = []
  · simp [h]
  · simp [h, vec, elementEntry]

theorem reads_tableSection :
    ReadsField (4 ≤ ·) (4 < ·) (readSection 4 readTable) m.tableSection m.contents.tables := by
  have hread : ∀ limits ∈ m.contents.tables, Reads readTable (tableEntry limits) limits :=
    fun limits hl => eq_of_mem_ite hl ▸ reads_table m.tableSize
  have h := reads_section_nonempty 4 hread
  rwa [List.map_id', ← tableSection_eq] at h

theorem reads_memorySection :
    ReadsField (5 ≤ ·) (5 < ·) (readSection 5 readLimits) m.memorySection
      m.contents.memories := by
  have hread : ∀ limits ∈ m.contents.memories,
      Reads readLimits (0x00 :: uleb limits.1.toNat) limits :=
    fun limits hl => eq_of_mem_ite hl ▸ reads_limits m.memoryMinPages
  have h := reads_section_nonempty 5 hread
  rwa [List.map_id', ← memorySection_eq] at h

/-- The sections are read one after the other. -/
theorem parse_sections :
    Reader.parse readSections (m.typeSection ++ (m.importSection ++ (m.functionSection ++
      (m.tableSection ++ (m.memorySection ++ (m.globalSection ++ (m.exportSection ++
        (m.elementSection ++ (m.codeSection ++ m.dataSection)))))))))
      = some m.written := by
  have htypes := reads_section 1 fun x (_ : x ∈ m.types) => reads_funcType x
  have himports := reads_section_nonempty 2 fun x (_ : x ∈ m.imports) => reads_import x
  have hfunctions := reads_section_nonempty 3
    fun x (_ : x ∈ m.functions) => reads_u32 x.typeIndex
  have hglobals := reads_section_nonempty 6 fun x (_ : x ∈ m.globals) => reads_global x
  have hexports := reads_section_nonempty 7 fun x (_ : x ∈ m.exports) => reads_export x
  have helements := reads_section_nonempty 9
    fun x (_ : x ∈ m.contents.elements) => reads_element x
  have hcodes := reads_section_nonempty 10 fun x (_ : x ∈ m.functions) => reads_code x
  have hdata := reads_section_nonempty 11 fun x (_ : x ∈ m.data) => reads_data x
  rw [List.map_id'] at htypes himports hexports helements hdata
  rw [← elementSection_eq] at helements
  have step : ∀ {low high : Byte}, low < high → ∀ b, high ≤ b → low < b :=
    fun h _ hb => Nat.lt_of_lt_of_le h hb
  exact (htypes.bind (himports.bind (hfunctions.bind (m.reads_tableSection.bind
    (m.reads_memorySection.bind (hglobals.bind (hexports.bind (helements.bind
      (hcodes.bind hdata.bind_pure (step (by decide)))
      (step (by decide))) (step (by decide))) (step (by decide))) (step (by decide)))
      (step (by decide))) (step (by decide))) (step (by decide))) (step (by decide))).parse_eq

/-- A module's binary always decodes, to what was written. -/
theorem decode_written : decode m.serialize = some m.written := by
  have htake : m.serialize.take 8 = header := List.take_left' rfl
  have hdrop : m.serialize.drop 8 = _ := List.drop_left' rfl
  rw [decode, if_pos htake, hdrop]
  exact m.parse_sections

end Module

/-! ### What the binary says is the module -/

/-- A binary decodes to its module, with the initializers of its globals as constants of their
    types, as long as no function has `2 ^ 32` equal locals in a row; and every number of 64
    bits is read back from its LEB128. -/
theorem serialize_decodes :
    (∀ m : Module,
      (∀ function ∈ m.functions, ∀ type,
        ¬ List.replicate (2 ^ 32) type <:+: function.locals) →
      decode m.serialize =
        some { m.contents with globals := m.globals.map Global.written }) ∧
    (∀ (value : BitVec 64) (rest : List Byte),
      readU 64 (uleb value.toNat ++ rest) = some (value.toNat, rest)) ∧
    (∀ (value : BitVec 64) (rest : List Byte),
      readS 64 (sleb value.toInt ++ rest) = some (value.toInt, rest)) := by
  refine ⟨fun m hfits => ?_, fun value => readU_uleb value.isLt, reads_s64⟩
  have hcodes : (m.functions.map fun function =>
      (declared function.locals, function.body.bytes)) = m.contents.codes :=
    List.map_congr_left fun function hf => by rw [declared_eq_self (hfits function hf)]
  rw [m.decode_written, Module.written, hcodes]

/-- A module of one global, one table slot and one page of memory. -/
def ofGlobal (global : Global) : Module where
  types := []
  imports := []
  functions := []
  tableSize := 1
  tableElements := []
  memoryMinPages := 1
  globals := [global]
  exports := []
  data := []

/-- A module of one function without instructions, one table slot and one page of memory. -/
def ofLocals (locals : List ValType) : Module where
  types := [⟨[], []⟩]
  imports := []
  functions := [⟨0, locals, ⟨[], []⟩⟩]
  tableSize := 1
  tableElements := []
  memoryMinPages := 1
  globals := []
  exports := []
  data := []

/-- A function of two runs of locals is read back. -/
theorem twoRuns_decodes :
    decode (ofLocals [.i32, .i32, .i64]).serialize =
      some (ofLocals [.i32, .i32, .i64]).contents := by
  refine serialize_decodes.1 _ fun function hf type hrun => ?_
  obtain rfl := List.mem_singleton.1 hf
  have hlength := hrun.length_le
  rw [List.length_replicate] at hlength
  exact absurd hlength (by decide)

/-- A module of one function says its locals only when they are what is declared. -/
theorem declared_eq_of_decode {locals : List ValType}
    (h : decode (ofLocals locals).serialize = some (ofLocals locals).contents) :
    declared locals = locals := by
  rw [Module.decode_written] at h
  have hcodes := congrArg Contents.codes (Option.some.inj h)
  exact congrArg Prod.fst (List.singleton_inj.1 hcodes)

/-- An `i32` global is not written with bits beyond its 32, nor a full run of locals. -/
theorem serialize_not_module :
    decode (ofGlobal ⟨.i32, false, 0x100000000⟩).serialize ≠
      some (ofGlobal ⟨.i32, false, 0x100000000⟩).contents ∧
    decode (ofLocals (List.replicate (2 ^ 32) .i32)).serialize ≠
      some (ofLocals (List.replicate (2 ^ 32) .i32)).contents := by
  refine ⟨fun h => ?_, fun h => ?_⟩
  · rw [Module.decode_written] at h
    have hglobals := congrArg Contents.globals (Option.some.inj h)
    exact absurd hglobals (by decide)
  · have hlocals := declared_eq_of_decode h
    rw [declared_full] at hlocals
    have hlength := congrArg List.length hlocals
    rw [List.length_replicate] at hlength
    exact absurd hlength (by decide)

end Mirage.Wasm.Encoder
