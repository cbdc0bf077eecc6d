import Mirage.Syntax.AsiLaw
import Mirage.Syntax.IntLiteral

/-!
# String literals

The lexer only looks for the quote that ends a string literal, past a backslash and the byte behind
it. The parser then decodes the escapes between the quotes. `Writes` is the other direction: a byte
is written as itself, or as an escape for it.

* `rest_stringBody`: the lexer finds the quote that ends what was written;
* `stringBody_eq`: the parser decodes what was written;
* `literals_keep_value`: the two together, and the same for integers.
-/

namespace Mirage.Syntax

/-! ## The parser -/

/-- The value of a hexadecimal digit, as a byte. -/
def hexDigitValue (ch : Char) : UInt8 :=
  if '0' ≤ ch ∧ ch ≤ '9' then ch.toUInt8 - '0'.toUInt8
  else 10 + (ch.toLower.toUInt8 - 'a'.toUInt8)

def isOctalDigit (ch : Char) : Bool := '0' ≤ ch && ch ≤ '7'

/-- At most `count` octal digits with the ones before them, and what follows. -/
def octalDigits : Nat → Nat → List Char → Nat × List Char
  | count + 1, value, ch :: rest =>
    if isOctalDigit ch then octalDigits count (value * 8 + (ch.toNat - '0'.toNat)) rest
    else (value, ch :: rest)
  | _, value, str => (value, str)

/-- The message about an escape that is not known. -/
def unknownEscape (c : Char) (kind : String) : String :=
  "unknown escape sequence '\\" ++ String.singleton c ++ "' in " ++ kind ++ " literal"

/-- What a single escape stands for, from the byte after the backslash on. -/
structure Decoded where
  value : UInt8
  rest : List Char
  error : Option String := none

def decodeEscapeSequence (kind : String) (c : Char) (rest : List Char) : Decoded :=
  match c with
  | '\\' => { value := '\\'.toUInt8, rest }
  | '"' => { value := '"'.toUInt8, rest }
  | '\'' => { value := '\''.toUInt8, rest }
  | 'n' => { value := '\n'.toUInt8, rest }
  | 't' => { value := '\t'.toUInt8, rest }
  | 'r' => { value := '\r'.toUInt8, rest }
  | 'x' =>
    match rest with
    | high :: low :: rest' =>
      if isHexDigit high && isHexDigit low then
        { value := hexDigitValue high * 16 + hexDigitValue low, rest := rest' }
      else
        { value := 0, rest
          error := some ("hex escape sequence requires exactly 2 hex digits in " ++ kind
            ++ " literal") }
    | _ =>
      { value := 0, rest
        error := some ("hex escape sequence requires exactly 2 hex digits in " ++ kind
          ++ " literal") }
  | _ =>
    if isOctalDigit c then
      let (value, rest) := octalDigits 3 0 (c :: rest)
      { value := UInt8.ofNat value, rest
        error := if value > 0xFF then
            some ("octal escape sequence out of range in " ++ kind ++ " literal")
          else none }
    else { value := 0, rest, error := some (unknownEscape c kind) }

theorem length_octalDigits (count value : Nat) (str : List Char) :
    (octalDigits count value str).2.length ≤ str.length := by
  induction count generalizing value str with
  | zero => exact Nat.le_refl _
  | succ count ih =>
    rcases str with _ | ⟨ch, rest⟩
    · exact Nat.le_refl _
    · rw [octalDigits]
      split_ifs
      · exact Nat.le_trans (ih _ rest) (Nat.le_succ _)
      · exact Nat.le_refl _

theorem length_decodeEscapeSequence (kind : String) (c : Char) (rest : List Char) :
    (decodeEscapeSequence kind c rest).rest.length ≤ rest.length := by
  unfold decodeEscapeSequence
  split
  all_goals try exact Nat.le_refl _
  · split
    · split_ifs
      · simp
        omega
      · exact Nat.le_refl _
    · exact Nat.le_refl _
  · split_ifs with hoctal
    · rw [octalDigits, if_pos hoctal]
      exact length_octalDigits 2 _ rest
    · exact Nat.le_refl _

/-- The bytes of a literal, from those behind its first quote to those before its last. -/
def stringBytes (location : SourceLocation) (diagnostics : DiagnosticEngine) (bytes : List UInt8) :
    List Char → List UInt8 × DiagnosticEngine
  | [] => (bytes, diagnostics)
  | ch :: str =>
    if ch = '\\' then
      match str with
      | [] => (bytes, diagnostics)
      | c :: rest =>
        let decoded := decodeEscapeSequence "string" c rest
        let diagnostics := match decoded.error with
          | some message => diagnostics.reportError .parser location message
          | none => diagnostics
        stringBytes location diagnostics (bytes ++ [decoded.value]) decoded.rest
    else stringBytes location diagnostics (bytes ++ [ch.toUInt8]) str
termination_by str => str.length
decreasing_by
  · have := length_decodeEscapeSequence "string" c rest
    simp
    omega
  · simp

def parseStringLiteral : ParserM (List UInt8) := do
  let st ← get
  let token ← expect .stringLiteral "string literal"
  if token.lexeme.length < 2 then return []
  else
    let result := stringBytes st.current.location (← get).diagnostics [] token.lexeme.tail.dropLast
    set { (← get) with diagnostics := result.2 }
    return result.1

/-! ## Writing a literal -/

/-- The escapes of one byte. -/
def simpleEscapes : List (Char × UInt8) :=
  [('\\', 92), ('"', 34), ('\'', 39), ('n', 10), ('t', 9), ('r', 13)]

/-- Bytes as the body of a string literal. Each is written as itself or as an escape for it. An
    octal escape with less than three digits ends before a byte that is no digit. -/
inductive Writes : List UInt8 → List Char → Prop
  | nil : Writes [] []
  | raw {ch : Char} {bytes : List UInt8} {body : List Char} (hbyte : ch.toNat < 256)
      (hraw : ch ≠ '"' ∧ ch ≠ '\\' ∧ ch ≠ '\n') (h : Writes bytes body) :
      Writes (UInt8.ofNat ch.toNat :: bytes) (ch :: body)
  | escape {c : Char} {value : UInt8} {bytes : List UInt8} {body : List Char}
      (hc : (c, value) ∈ simpleEscapes) (h : Writes bytes body) :
      Writes (value :: bytes) ('\\' :: c :: body)
  | hex {high low : Char} {d e : Nat} {bytes : List UInt8} {body : List Char}
      (hhigh : IsDigitOf 16 high d) (hlow : IsDigitOf 16 low e) (h : Writes bytes body) :
      Writes (UInt8.ofNat (16 * d + e) :: bytes) ('\\' :: 'x' :: high :: low :: body)
  | octal {c : Char} {cs : List Char} {ds : List Nat} {bytes : List UInt8} {body : List Char}
      (hdigits : List.Forall₂ (IsDigitOf 8) (c :: cs) ds) (hlength : cs.length ≤ 2)
      (hlt : Nat.ofDigits 8 ds.reverse < 256)
      (hend : cs.length = 2 ∨ ∀ ch ∈ body.head?, ∀ d, ¬ IsDigitOf 8 ch d)
      (h : Writes bytes body) :
      Writes (UInt8.ofNat (Nat.ofDigits 8 ds.reverse) :: bytes) ('\\' :: c :: cs ++ body)

/-- Every string of bytes can be written. -/
theorem exists_writes (bytes : List UInt8) : ∃ body, Writes bytes body := by
  induction bytes with
  | nil => exact ⟨[], .nil⟩
  | cons value bytes ih =>
    obtain ⟨body, h⟩ := ih
    have hall : (List.range 16).all (fun d => lowerDigits.any fun ch => IsDigitOf 16 ch d) = true := by
      decide +kernel
    have hdigit : ∀ d < 16, ∃ ch, IsDigitOf 16 ch d := by
      intro d hd
      obtain ⟨ch, -, hch⟩ := List.any_eq_true.mp (List.all_eq_true.mp hall d (List.mem_range.mpr hd))
      exact ⟨ch, of_decide_eq_true hch⟩
    obtain ⟨high, hhigh⟩ := hdigit (value.toNat / 16) (by have := value.toNat_lt; omega)
    obtain ⟨low, hlow⟩ := hdigit (value.toNat % 16) (Nat.mod_lt _ (by decide))
    have hvalue : UInt8.ofNat (16 * (value.toNat / 16) + value.toNat % 16) = value := by
      rw [Nat.div_add_mod, UInt8.ofNat_toNat]
    have hwrites := Writes.hex hhigh hlow h
    rw [hvalue] at hwrites
    exact ⟨_, hwrites⟩

/-! ## The parser reads what was written -/

theorem isDigitOf_hex {ch : Char} {d : Nat} (h : IsDigitOf 16 ch d) :
    (isHexDigit ch = true ∧ hexDigitValue ch = UInt8.ofNat d) ∧
      ch ≠ '"' ∧ ch ≠ '\\' ∧ ch ≠ '\n' :=
  h.of_all (fun d ch => (isHexDigit ch = true ∧ hexDigitValue ch = UInt8.ofNat d) ∧
    ch ≠ '"' ∧ ch ≠ '\\' ∧ ch ≠ '\n') (Nat.le_refl 16) (by decide +kernel)

theorem isDigitOf_octal {ch : Char} {d : Nat} (h : IsDigitOf 8 ch d) :
    (isOctalDigit ch = true ∧ ch.toNat - '0'.toNat = d) ∧
      ch ∉ ['\\', '"', '\'', 'n', 't', 'r', 'x', '\n'] :=
  h.of_all (fun d ch => (isOctalDigit ch = true ∧ ch.toNat - '0'.toNat = d) ∧
    ch ∉ ['\\', '"', '\'', 'n', 't', 'r', 'x', '\n']) (Nat.le_refl 8) (by decide +kernel)

theorem exists_of_forall₂ {base : Nat} {cs : List Char} {ds : List Nat}
    (h : List.Forall₂ (IsDigitOf base) cs ds) : ∀ ch ∈ cs, ∃ d, IsDigitOf base ch d := by
  induction h with
  | nil => exact List.forall_mem_nil _
  | cons hd _ ih => exact List.forall_mem_cons.mpr ⟨⟨_, hd⟩, ih⟩

/-- The digits of an octal escape, up to the third or the first byte that is none. -/
theorem octalDigits_eq {cs : List Char} {ds : List Nat} (h : List.Forall₂ (IsDigitOf 8) cs ds)
    {count : Nat} (hlength : cs.length ≤ count) {body : List Char}
    (hend : cs.length = count ∨ ∀ ch ∈ body.head?, ∀ d, ¬ IsDigitOf 8 ch d) (value : Nat) :
    octalDigits count value (cs ++ body) = (ds.foldl (fun n d => d + 8 * n) value, body) := by
  induction h generalizing count value with
  | nil =>
    rcases count with _ | count
    · rfl
    · rcases body with _ | ⟨ch, body⟩
      · rfl
      · have hnot : ¬ isOctalDigit ch = true := by
          intro hoctal
          obtain ⟨d, hd⟩ := testsDigits_octal ch hoctal
          rcases hend with hend | hend
          · cases hend
          · exact hend ch rfl d hd
        rw [List.nil_append, octalDigits, if_neg hnot]
        rfl
  | @cons ch d cs ds hd _ ih =>
    rcases count with _ | count
    · cases hlength
    · obtain ⟨⟨hoctal, hvalue⟩, -⟩ := isDigitOf_octal hd
      rw [List.cons_append, octalDigits, if_pos hoctal, hvalue, Nat.add_comm, Nat.mul_comm]
      refine ih (Nat.le_of_succ_le_succ hlength) ?_ _
      exact hend.imp_left Nat.succ.inj

theorem decode_escape {c : Char} {value : UInt8} (hc : (c, value) ∈ simpleEscapes) (kind : String)
    (rest : List Char) : decodeEscapeSequence kind c rest = { value, rest } := by
  simp only [simpleEscapes, List.mem_cons, Prod.mk.injEq, List.not_mem_nil, or_false] at hc
  rcases hc with ⟨rfl, rfl⟩ | ⟨rfl, rfl⟩ | ⟨rfl, rfl⟩ | ⟨rfl, rfl⟩ | ⟨rfl, rfl⟩ | ⟨rfl, rfl⟩
  all_goals rfl

theorem decode_hex {high low : Char} {d e : Nat} (hhigh : IsDigitOf 16 high d)
    (hlow : IsDigitOf 16 low e) (kind : String) (rest : List Char) :
    decodeEscapeSequence kind 'x' (high :: low :: rest) =
      { value := UInt8.ofNat (16 * d + e), rest } := by
  obtain ⟨⟨hhex, hvalue⟩, -⟩ := isDigitOf_hex hhigh
  obtain ⟨⟨hhex', hvalue'⟩, -⟩ := isDigitOf_hex hlow
  simp only [decodeEscapeSequence, hhex, hhex', hvalue, hvalue', Bool.and_self, if_true]
  rw [Nat.mul_comm, UInt8.ofNat_add, UInt8.ofNat_mul]
  rfl

theorem decode_octal {c : Char} {cs : List Char} {ds : List Nat}
    (hdigits : List.Forall₂ (IsDigitOf 8) (c :: cs) ds) (hlength : cs.length ≤ 2)
    (hlt : Nat.ofDigits 8 ds.reverse < 256) {body : List Char}
    (hend : cs.length = 2 ∨ ∀ ch ∈ body.head?, ∀ d, ¬ IsDigitOf 8 ch d) (kind : String) :
    decodeEscapeSequence kind c (cs ++ body) =
      { value := UInt8.ofNat (Nat.ofDigits 8 ds.reverse), rest := body } := by
  have heq : octalDigits 3 0 (c :: (cs ++ body)) = (Nat.ofDigits 8 ds.reverse, body) := by
    rw [ofDigits_reverse]
    exact octalDigits_eq hdigits (Nat.succ_le_succ hlength) (hend.imp_left (congrArg (· + 1))) 0
  have hc : IsDigitOf 8 c (ds.headD 0) := by
    cases hdigits with
    | cons hd => exact hd
  obtain ⟨⟨hoctal, -⟩, hother⟩ := isDigitOf_octal hc
  unfold decodeEscapeSequence
  split
  case h_8 =>
    rw [if_pos hoctal, heq]
    dsimp only
    rw [if_neg (Nat.not_lt.mpr (Nat.le_of_lt_succ hlt))]
  all_goals exact absurd (by decide) hother

/-- The parser decodes what was written. -/
theorem stringBytes_eq {bytes : List UInt8} {body : List Char} (h : Writes bytes body)
    (location : SourceLocation) (diagnostics : DiagnosticEngine) (before : List UInt8) :
    stringBytes location diagnostics before body = (before ++ bytes, diagnostics) := by
  induction h generalizing before with
  | nil => rw [stringBytes, List.append_nil]
  | @raw ch bytes body hbyte hraw _ ih =>
    rw [stringBytes.eq_def]
    dsimp only
    rw [if_neg hraw.2.1, ih, List.append_assoc]
    rfl
  | @escape c value bytes body hc _ ih =>
    rw [stringBytes, if_pos rfl]
    simp only [decode_escape hc]
    rw [ih, List.append_assoc]
    rfl
  | @hex high low d e bytes body hhigh hlow _ ih =>
    rw [stringBytes, if_pos rfl]
    simp only [decode_hex hhigh hlow]
    rw [ih, List.append_assoc]
    rfl
  | @octal c cs ds bytes body hdigits hlength hlt hend _ ih =>
    rw [List.cons_append, List.cons_append, stringBytes, if_pos rfl]
    simp only [decode_octal hdigits hlength hlt hend]
    rw [ih, List.append_assoc]
    rfl

/-! ## The lexer finds the end -/

section Body

variable {text : List Char} {c : Cursor text} {ch : Char} {rest : List Char}

theorem stringBody_plain (hc : c.rest = ch :: rest) (hplain : ch ≠ '"' ∧ ch ≠ '\\' ∧ ch ≠ '\n') :
    stringBody c = stringBody c.advance := by
  rw [stringBody.eq_def]
  split
  · rename_i hnil
    rw [hc] at hnil
    cases hnil
  · rename_i hcons
    rw [hc] at hcons
    cases hcons
    rw [if_neg (not_or.mpr ⟨hplain.1, hplain.2.2⟩), if_neg hplain.2.1]

theorem stringBody_escape {ch' : Char} (hc : c.rest = '\\' :: ch' :: rest) (hch' : ch' ≠ '\n') :
    stringBody c = stringBody c.advance.advance := by
  have hadvance := (Cursor.advance_of_cons hc).1
  rw [stringBody.eq_def]
  split
  · rename_i hnil
    rw [hc] at hnil
    cases hnil
  · rename_i hcons
    rw [hc] at hcons
    cases hcons
    rw [if_neg (by decide), if_pos rfl]
    split
    · rename_i hnil
      rw [hadvance] at hnil
      cases hnil
    · rename_i hcons'
      rw [hadvance] at hcons'
      cases hcons'
      rw [if_neg hch']

theorem stringBody_quote (hc : c.rest = '"' :: rest) : stringBody c = c := by
  rw [stringBody.eq_def]
  split
  · rfl
  · rename_i hcons
    rw [hc] at hcons
    cases hcons
    rw [if_pos (.inl rfl)]

/-- Bytes that are neither quotes, backslashes nor line feeds are passed. -/
theorem stringBody_plains {body : List Char}
    (hplain : ∀ ch ∈ body, ch ≠ '"' ∧ ch ≠ '\\' ∧ ch ≠ '\n') (hc : c.rest = body ++ rest) :
    ∃ c' : Cursor text, c'.rest = rest ∧ c'.pos = c.pos + body.length ∧
      stringBody c = stringBody c' := by
  induction body generalizing c with
  | nil => exact ⟨c, hc, rfl, rfl⟩
  | cons ch body ih =>
    obtain ⟨hrest, hpos⟩ := Cursor.advance_of_cons hc
    obtain ⟨c', hrest', hpos', heq⟩ := ih (fun ch' hch' => hplain ch' (List.mem_cons_of_mem _ hch'))
      hrest
    refine ⟨c', hrest', ?_, (stringBody_plain hc (hplain ch List.mem_cons_self)).trans heq⟩
    rw [hpos', hpos, List.length_cons]
    omega

/-- What was written is passed. -/
theorem stringBody_writes {bytes : List UInt8} {body : List Char} (h : Writes bytes body)
    (hc : c.rest = body ++ rest) :
    ∃ c' : Cursor text, c'.rest = rest ∧ c'.pos = c.pos + body.length ∧
      stringBody c = stringBody c' := by
  -- after the first two bytes of an escape, the digits that may follow are plain bytes
  have hescape (digits : List Char) {ch' : Char} {body : List Char} {c : Cursor text}
      (hc : c.rest = '\\' :: ch' :: digits ++ body ++ rest) (hch' : ch' ≠ '\n')
      (hplain : ∀ ch ∈ digits, ch ≠ '"' ∧ ch ≠ '\\' ∧ ch ≠ '\n') :
      ∃ c' : Cursor text, c'.rest = body ++ rest ∧ c'.pos = c.pos + (2 + digits.length) ∧
        stringBody c = stringBody c' := by
    simp only [List.cons_append, List.append_assoc] at hc
    obtain ⟨hrest, hpos⟩ := Cursor.advance_of_cons hc
    obtain ⟨hrest', hpos'⟩ := Cursor.advance_of_cons hrest
    obtain ⟨c', hrest'', hpos'', heq⟩ := stringBody_plains hplain hrest'
    exact ⟨c', hrest'', by omega, (stringBody_escape hc hch').trans heq⟩
  induction h generalizing c with
  | nil => exact ⟨c, hc, rfl, rfl⟩
  | @raw ch bytes body _ hraw _ ih =>
    obtain ⟨hrest, hpos⟩ := Cursor.advance_of_cons hc
    obtain ⟨c', hrest', hpos', heq⟩ := ih hrest
    refine ⟨c', hrest', ?_, (stringBody_plain hc hraw).trans heq⟩
    rw [hpos', hpos, List.length_cons]
    omega
  | @escape ch' value bytes body hch' _ ih =>
    have hall : ∀ entry ∈ simpleEscapes, entry.1 ≠ '\n' := by decide
    have hne : ch' ≠ '\n' := hall _ hch'
    obtain ⟨c', hrest, hpos, heq⟩ := hescape [] hc hne (List.forall_mem_nil _)
    obtain ⟨c'', hrest', hpos', heq'⟩ := ih hrest
    refine ⟨c'', hrest', ?_, heq.trans heq'⟩
    rw [hpos', hpos]
    simp only [List.length_cons, List.length_nil]
    omega
  | @hex high low d e bytes body hhigh hlow _ ih =>
    obtain ⟨c', hrest, hpos, heq⟩ := hescape [high, low] hc (by decide)
      (List.forall_mem_cons.mpr ⟨(isDigitOf_hex hhigh).2,
        List.forall_mem_singleton.mpr (isDigitOf_hex hlow).2⟩)
    obtain ⟨c'', hrest', hpos', heq'⟩ := ih hrest
    refine ⟨c'', hrest', ?_, heq.trans heq'⟩
    rw [hpos', hpos]
    simp only [List.length_cons, List.length_nil]
    omega
  | @octal ch' cs ds bytes body hdigits _ _ _ _ ih =>
    have hall : ∀ ch ∈ ch' :: cs, ch ≠ '"' ∧ ch ≠ '\\' ∧ ch ≠ '\n' := by
      intro ch hch
      obtain ⟨d, hd⟩ := exists_of_forall₂ hdigits ch hch
      have hother := (isDigitOf_octal hd).2
      simp only [List.mem_cons, not_or] at hother
      exact ⟨hother.2.1, hother.1, hother.2.2.2.2.2.2.2.1⟩
    obtain ⟨c', hrest, hpos, heq⟩ := hescape cs hc (hall ch' List.mem_cons_self).2.2
      fun ch hch => hall ch (List.mem_cons_of_mem _ hch)
    obtain ⟨c'', hrest', hpos', heq'⟩ := ih hrest
    refine ⟨c'', hrest', ?_, heq.trans heq'⟩
    rw [hpos', hpos]
    simp only [List.length_cons, List.length_append]
    omega

end Body

/-! ## A file with one literal -/

theorem Scan.settled_of_cons {text : List Char} (filename : String) {s : Scan text} {ch : Char}
    {rest : List Char} (hs : s.cursor.rest = ch :: rest) (hspace : isSpace ch = false)
    (hslash : ch ≠ '/') : s.Settled filename := by
  intro crossed
  simp only [isSpace, Bool.or_eq_false_iff, beq_eq_false_iff_ne] at hspace
  rw [skipLoop.eq_def]
  split
  · rfl
  · rename_i hcons
    rw [hs] at hcons
    cases hcons
    rw [if_neg (by simp [hspace]), if_neg hspace.2, dif_neg (by simp [hslash]),
      if_neg (by simp [hslash])]

theorem Scan.settled_of_nil {text : List Char} (filename : String) {s : Scan text}
    (hs : s.cursor.rest = []) : s.Settled filename := by
  intro crossed
  rw [skipLoop.eq_def]
  split
  · rfl
  · rename_i hcons
    rw [hs] at hcons
    cases hcons

/-- The text of a string literal. -/
def quoted (body : List Char) : List Char := '"' :: body ++ ['"']

namespace Lexer

variable {text : List Char} {filename : String} {l : Lexer text}

theorem retryAsmBlock_of_not (hawaiting : l.awaitingAsmExprBody = false) :
    l.retryAsmBlock filename = (none, l) := by
  rw [retryAsmBlock, hawaiting, if_neg Bool.false_ne_true]

/-- The end of the file, where the cursor is. -/
theorem lexToken_of_nil (hrest : l.cursor.rest = []) :
    l.lexToken filename = (some (makeEof filename l.cursor), l) := by
  rw [lexToken]
  dsimp only
  rw [(Scan.settled_of_nil filename hrest).skip, Bool.false_and, if_neg Bool.false_ne_true]
  split
  · rfl
  · rename_i hcons
    rw [hrest] at hcons
    cases hcons

/-- The token that starts with the next byte. -/
theorem lexToken_of_cons {ch : Char} {rest : List Char} (hrest : l.cursor.rest = ch :: rest)
    (hsettled : l.toScan.Settled filename) {token : Token} {s : Scan text}
    (htoken : lexFrom filename l.cursor ch l.toScan.advance = (some token, s)) :
    l.lexToken filename = (some token, { l with toScan := s }.remember filename token.kind) := by
  rw [lexToken]
  dsimp only
  rw [hsettled.skip, Bool.false_and, if_neg Bool.false_ne_true]
  split
  · rename_i hnil
    rw [hrest] at hnil
    cases hnil
  · rename_i hcons
    rw [hrest] at hcons
    cases hcons
    rw [htoken]

/-- A literal is read up to its second quote. -/
theorem lexFrom_quote (filename : String) {bytes : List UInt8} {body : List Char}
    (h : Writes bytes body) (start : Cursor text) (s : Scan text) {rest : List Char}
    (hstart : start.rest = quoted body ++ rest) (hs : s.cursor = start.advance) :
    ∃ c' : Cursor text, c'.rest = rest ∧
      lexFrom filename start '"' s =
        (some (makeToken filename .stringLiteral start c'), { s with cursor := c' }) ∧
      Cursor.slice text start.pos c'.pos = quoted body := by
  have hstart' : start.rest = '"' :: (body ++ ('"' :: rest)) := by
    simp [hstart, quoted]
  obtain ⟨hrest, hpos⟩ := Cursor.advance_of_cons hstart'
  obtain ⟨c, hc, hposc, heq⟩ := stringBody_writes h hrest
  obtain ⟨hrest', hpos'⟩ := Cursor.advance_of_cons hc
  refine ⟨c.advance, hrest', ?_, ?_⟩
  · have hbody : stringBody s.cursor = c := by rw [hs, heq, stringBody_quote hc]
    have hpeek : Scan.peek { s with cursor := c } = '"' := by rw [Scan.peek, hc, List.headD_cons]
    have hlex : s.lexString filename start =
        (makeToken filename .stringLiteral start c.advance, { s with cursor := c.advance }) := by
      rw [Scan.lexString, hbody]
      dsimp only
      rw [hpeek, if_neg (by decide)]
      rfl
    have hfrom : lexFrom filename start '"' s =
        (some (s.lexString filename start).1, (s.lexString filename start).2) := by
      rw [lexFrom, if_neg (by decide), if_neg (by decide), if_neg (by simp), if_pos rfl]
    rw [hfrom, hlex]
  · have hlength : c.advance.pos - start.pos = (quoted body).length := by
      rw [quoted, List.length_append, List.length_cons, List.length_singleton]
      omega
    rw [Cursor.slice, hlength, start.rest_eq, hstart, List.take_left']
    rfl

theorem turn_of_lexToken (hawaiting : l.awaitingAsmExprBody = false) {token : Token}
    {l' : Lexer text} (hlex : l.lexToken filename = (some token, l')) (heof : token.kind ≠ .eof)
    (hasm : token.kind ≠ .kwAsm) : l.turn filename = ⟨[token], false, l'⟩ := by
  rw [turn, retryAsmBlock_of_not hawaiting]
  dsimp only
  rw [hlex]
  dsimp only
  rw [if_neg heof, if_neg hasm]

theorem turn_of_eof (hawaiting : l.awaitingAsmExprBody = false) {token : Token} {l' : Lexer text}
    (hlex : l.lexToken filename = (some token, l')) (heof : token.kind = .eof)
    (hdue : l'.lastTokenIsAsiTrigger = true) :
    l.turn filename = ⟨[l'.virtualSemicolon, token], true,
      { l' with lastRealKind := some .semicolon, lastTokenIsAsiTrigger := false }⟩ := by
  rw [turn, retryAsmBlock_of_not hawaiting]
  dsimp only
  rw [hlex]
  dsimp only
  rw [if_pos heof, if_pos hdue]

theorem tokenizeLoop_of_done {tokens ts : List Token} {l' : Lexer text}
    (h : l.turn filename = ⟨ts, true, l'⟩) :
    l.tokenizeLoop filename tokens = (tokens ++ ts, l'.diagnostics) := by
  rw [tokenizeLoop.eq_def]
  dsimp only
  rw [dif_pos (by rw [h]), h]

theorem tokenizeLoop_of_not_done {tokens ts : List Token} {l' : Lexer text}
    (h : l.turn filename = ⟨ts, false, l'⟩) :
    l.tokenizeLoop filename tokens = l'.tokenizeLoop filename (tokens ++ ts) := by
  rw [tokenizeLoop.eq_def]
  dsimp only
  rw [dif_neg (by rw [h]; exact Bool.false_ne_true), h]

end Lexer

/-- A file with one literal: the literal is the first token, and nothing is reported. -/
theorem tokenize_quoted {bytes : List UInt8} {body : List Char} (h : Writes bytes body)
    (filename : String) (diagnostics : DiagnosticEngine) :
    ∃ token rest, tokenize (quoted body) filename diagnostics = (token :: rest, diagnostics) ∧
      token.kind = .stringLiteral ∧ token.lexeme = quoted body := by
  let l := Lexer.init (quoted body) diagnostics
  have hrest : l.cursor.rest = '"' :: (body ++ ['"']) := rfl
  obtain ⟨c, hc, hfrom, hslice⟩ := Lexer.lexFrom_quote filename h l.cursor l.toScan.advance
    (List.append_nil (quoted body)).symm rfl
  have hlex := Lexer.lexToken_of_cons hrest
    (Scan.settled_of_cons filename hrest (by decide) (by decide)) hfrom
  have hfirst : l.tokenizeLoop filename [] = _ := Lexer.tokenizeLoop_of_not_done
    (Lexer.turn_of_lexToken rfl hlex (show TokenKind.stringLiteral ≠ .eof by decide)
      (show TokenKind.stringLiteral ≠ .kwAsm by decide))
  have hlast := hfirst.trans (Lexer.tokenizeLoop_of_done
    (Lexer.turn_of_eof rfl (Lexer.lexToken_of_nil hc) rfl rfl))
  exact ⟨_, _, hlast, rfl, hslice⟩

/-- The parser on the token of such a file. -/
theorem parseStringLiteral_quoted {bytes : List UInt8} {body : List Char} (h : Writes bytes body)
    {token : Token} (hkind : token.kind = .stringLiteral) (hlexeme : token.lexeme = quoted body)
    (rest : List Token) (diagnostics : DiagnosticEngine) :
    parseStringLiteral ⟨token :: rest, diagnostics⟩ = some (bytes, ⟨rest, diagnostics⟩) := by
  have hexpect : expect .stringLiteral "string literal" ⟨token :: rest, diagnostics⟩ =
      some (token, ⟨rest, diagnostics⟩) := by
    rw [expect, ParserState.check, ParserState.current, List.headD_cons, hkind, decide_eq_true rfl,
      if_pos rfl, advance_cons (by rw [hkind]; decide)]
  have hlength : ¬ (quoted body).length < 2 := by
    rw [quoted, List.length_append, List.length_cons, List.length_singleton]
    omega
  have hbody : (quoted body).tail.dropLast = body := by
    rw [quoted, List.cons_append, List.tail_cons, List.dropLast_concat]
  simp only [parseStringLiteral, ParserM.bind_apply, ParserM.get_apply, Option.bind_some, hexpect,
    hlexeme]
  rw [if_neg hlength]
  simp only [ParserM.bind_apply, ParserM.get_apply, Option.bind_some, hbody, stringBytes_eq h,
    List.nil_append, ParserM.set_apply, ParserM.pure_apply]

/-- Literals keep their values: an integer literal of any file denotes a number, which the parser
    finds if it fits in 64 bits and reports otherwise, and every string of bytes can be written as
    a string literal from which the lexer and the parser get these bytes without a word. -/
theorem literals_keep_value (filename : String) :
    (∀ (text : List Char) (diagnostics : DiagnosticEngine) (t : Token),
      t ∈ (tokenize text filename diagnostics).1 → t.kind = .intLiteral →
      (∃ n, Denotes t.lexeme n) ∧
      ∀ n, Denotes t.lexeme n → ∀ (rest : List Token) (engine : DiagnosticEngine),
        (n < 2 ^ 64 → ∃ value : BitVec 64, value.toNat = n ∧
          parseLiteralIntegerExpr ⟨t :: rest, engine⟩ =
            some (.literalInteger value, ⟨rest, engine⟩)) ∧
        (2 ^ 64 ≤ n → parseLiteralIntegerExpr ⟨t :: rest, engine⟩ =
          some (.literalInteger 0,
            ⟨rest, engine.reportError .parser t.location (literalTooLarge t.lexeme)⟩))) ∧
    (∀ bytes : List UInt8, ∃ body, Writes bytes body) ∧
    ∀ (bytes : List UInt8) (body : List Char), Writes bytes body →
      ∃ token rest, tokenize (quoted body) filename ⟨[]⟩ = (token :: rest, ⟨[]⟩) ∧
        parseStringLiteral ⟨token :: rest, ⟨[]⟩⟩ = some (bytes, ⟨rest, ⟨[]⟩⟩) := by
  refine ⟨fun text diagnostics t ht hkind => ⟨?_, fun n hn rest engine => ?_⟩, exists_writes,
    fun bytes body h => ?_⟩
  · exact Lexer.denotes_tokenizeLoop (List.forall_mem_nil _) t ht hkind
  · exact parse_of_denotes hn (by rw [hkind]; decide) rest engine
  · obtain ⟨token, rest, htokens, hkind, hlexeme⟩ := tokenize_quoted h filename ⟨[]⟩
    exact ⟨token, rest, htokens, parseStringLiteral_quoted h hkind hlexeme rest ⟨[]⟩⟩

end Mirage.Syntax
