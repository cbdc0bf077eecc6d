import Mirage.Lib.Reader
import Mirage.Lib.Text
import Mathlib.Data.List.DropRight

/-!
# The framing of messages

The language server and its client send each other messages on a stream of bytes
(`lsp/transport.cpp`). A message is a header and a body. The header is some lines and an
empty one, and one of the lines says how long the body is. A message whose header says
nothing, or says something else than a length of at most 64 MiB, is refused, and so is one with
a line of more than 8 KiB; the server ends with the first message that it cannot read.

* `readMessage_iff_framed`: what a stream has to begin with for a message to be read from it;
* `session_reads`: what is written message by message is read as these messages, up to the
  first that is too long.
-/

namespace Mirage.Lsp.Transport

abbrev Byte := BitVec 8

def maxContentLength : Nat := 67108864

def maxHeaderLine : Nat := 8192

def lf : Byte := 10

def cr : Byte := 13

/-! ## Reading -/

def toLower (c : Byte) : Byte := if 65 ≤ c ∧ c ≤ 90 then c + 32 else c

def isBlank (c : Byte) : Bool := c = 32 || c = 9

/-- The text without blanks on both sides. -/
def trim (s : List Byte) : List Byte := (s.dropWhile isBlank).rdropWhile isBlank

def isSpace (c : Byte) : Bool := c = 32 || (9 ≤ c && c ≤ 13)

/-- The number of 64 bits that a text begins with. A minus sign negates it. -/
def stoul (s : List Byte) : Option Nat :=
  let s := s.dropWhile isSpace
  let negative := s.head? = some 45
  let s := if negative || s.head? = some 43 then s.tail else s
  let digits := s.takeWhile isDigit
  let n := decimalValue digits
  if digits = [] ∨ 2 ^ 64 ≤ n then none
  else some (if negative then (2 ^ 64 - n) % 2 ^ 64 else n)

/-- The characters up to the end of the line, behind those that have been read. -/
def readChars (line : List Byte) : List Byte → Option (List Byte × List Byte)
  | [] => if line = [] then none else some (line, [])
  | c :: in_ =>
    if c = lf then some (line, in_)
    else if line.length ≥ maxHeaderLine then none
    else readChars (line ++ [c]) in_

/-- A line without the carriage return at its end. -/
def stripCr (line : List Byte) : List Byte :=
  if line.getLast? = some cr then line.dropLast else line

def readLine : Reader Byte (List Byte) := fun in_ => do
  let (line, rest) ← readChars [] in_
  return (stripCr line, rest)

/-- The length that a line of the header declares. -/
inductive Declared
  | nothing
  | malformed
  | length (n : Nat)

/-- A line without a colon is skipped, and so are other fields. -/
def declared (line : List Byte) : Declared :=
  match line.idxOf? 58 with
  | none => .nothing
  | some colon =>
    let name := (line.take colon).map toLower
    let value := trim (line.drop (colon + 1))
    if name = text "content-length" then
      match stoul value with
      | none => .malformed
      | some n => if n > maxContentLength then .malformed else .length n
    else .nothing

theorem length_readChars {line in_ l rest : List Byte}
    (h : readChars line in_ = some (l, rest)) : rest.length < line.length + in_.length := by
  induction in_ generalizing line with
  | nil =>
    rw [readChars] at h
    split at h
    · cases h
    · rename_i hne
      obtain ⟨rfl, rfl⟩ := Prod.mk.inj (Option.some.inj h)
      exact List.length_pos_iff.2 hne
  | cons c in_ ih =>
    rw [readChars] at h
    split at h
    · obtain ⟨rfl, rfl⟩ := Prod.mk.inj (Option.some.inj h)
      rw [List.length_cons]
      omega
    · split at h
      · cases h
      · have hrest := ih h
        rw [List.length_append, List.length_singleton] at hrest
        rw [List.length_cons]
        omega

theorem readLine_eq_some {in_ line rest : List Byte} (h : readLine in_ = some (line, rest)) :
    ∃ chars, readChars [] in_ = some (chars, rest) ∧ stripCr chars = line := by
  rw [readLine] at h
  rcases hchars : readChars [] in_ with _ | ⟨chars, rest'⟩
  · rw [hchars] at h
    cases h
  · rw [hchars] at h
    obtain ⟨rfl, rfl⟩ := Prod.mk.inj (Option.some.inj h)
    exact ⟨chars, rfl, rfl⟩

theorem length_readLine {in_ line rest : List Byte} (h : readLine in_ = some (line, rest)) :
    rest.length < in_.length := by
  obtain ⟨chars, hchars, -⟩ := readLine_eq_some h
  have hlt := length_readChars hchars
  rwa [List.length_nil, Nat.zero_add] at hlt

/-- The lines of the header up to the empty one, behind a header that has declared a length. -/
def readHeader (contentLength : Option Nat) (in_ : List Byte) :
    Option (Option Nat × List Byte) :=
  match h : readLine in_ with
  | none => none
  | some (line, rest) =>
    have := length_readLine h
    if line = [] then some (contentLength, rest)
    else
      match declared line with
      | .nothing => readHeader contentLength rest
      | .malformed => none
      | .length n => readHeader (some n) rest
termination_by in_.length

def readMessage : Reader Byte (List Byte) := fun in_ => do
  let (contentLength, rest) ← readHeader none in_
  Reader.takeExactly (← contentLength) rest

/-! ## Lines -/

/-- Characters in front of a line feed are the line, if there is room for them. -/
theorem readChars_append {line cs rest : List Byte} (hcs : lf ∉ cs)
    (hline : line.length ≤ maxHeaderLine) :
    readChars line (cs ++ lf :: rest) =
      if line.length + cs.length ≤ maxHeaderLine then some (line ++ cs, rest) else none := by
  induction cs generalizing line with
  | nil =>
    rw [List.nil_append, readChars, if_pos rfl, List.length_nil, Nat.add_zero, if_pos hline,
      List.append_nil]
  | cons c cs ih =>
    obtain ⟨hc, hcs⟩ := not_or.1 (mt List.mem_cons.2 hcs)
    rw [List.cons_append, readChars, if_neg (Ne.symm hc), List.length_cons]
    split
    · rw [if_neg (by omega)]
    · rw [ih hcs (by rw [List.length_append, List.length_singleton]; omega), List.length_append,
        List.length_singleton, List.append_assoc, List.singleton_append]
      split
      · rw [if_pos (by omega)]
      · rw [if_neg (by omega)]

/-- What the characters of a line are read from. -/
theorem readChars_eq_some {line in_ l rest : List Byte} (h : readChars line in_ = some (l, rest)) :
    ∃ cs, l = line ++ cs ∧ lf ∉ cs ∧ (line.length ≤ maxHeaderLine → l.length ≤ maxHeaderLine) ∧
      (in_ = cs ++ lf :: rest ∨ in_ = cs ∧ rest = [] ∧ l ≠ []) := by
  induction in_ generalizing line with
  | nil =>
    rw [readChars] at h
    split at h
    · cases h
    · rename_i hne
      obtain ⟨rfl, rfl⟩ := Prod.mk.inj (Option.some.inj h)
      exact ⟨[], (List.append_nil line).symm, List.not_mem_nil, id, .inr ⟨rfl, rfl, hne⟩⟩
  | cons c in_ ih =>
    rw [readChars] at h
    split at h
    · rename_i hc
      obtain ⟨rfl, rfl⟩ := Prod.mk.inj (Option.some.inj h)
      exact ⟨[], (List.append_nil line).symm, List.not_mem_nil, id, .inl (by rw [hc]; rfl)⟩
    · rename_i hc
      split at h
      · cases h
      · rename_i hroom
        obtain ⟨cs, rfl, hcs, hlength, hin⟩ := ih h
        have hlf : lf ∉ c :: cs := fun hmem =>
          (List.mem_cons.1 hmem).elim (fun he => hc he.symm) hcs
        refine ⟨c :: cs, by rw [List.append_assoc]; rfl, hlf, fun _ => hlength ?_, ?_⟩
        · rw [List.length_append, List.length_singleton]
          omega
        · exact hin.imp (congrArg (c :: ·)) fun ⟨he, hrest⟩ => ⟨congrArg (c :: ·) he, hrest⟩

theorem readLine_append {cs rest : List Byte} (hcs : lf ∉ cs) :
    readLine (cs ++ lf :: rest) =
      if cs.length ≤ maxHeaderLine then some (stripCr cs, rest) else none := by
  have hnil : (([] : List Byte)).length ≤ maxHeaderLine := Nat.zero_le _
  rw [readLine, readChars_append hcs hnil, List.length_nil, Nat.zero_add]
  split <;> rfl

theorem stripCr_append_cr (cs : List Byte) : stripCr (cs ++ [cr]) = cs := by
  rw [stripCr, if_pos List.getLast?_concat, List.dropLast_concat]

theorem stripCr_eq_nil {cs : List Byte} : stripCr cs = [] ↔ cs = [] ∨ cs = [cr] := by
  constructor
  · intro h
    rw [stripCr] at h
    split at h
    · rename_i hlast
      obtain ⟨ds, rfl⟩ := List.getLast?_eq_some_iff.1 hlast
      rw [List.dropLast_concat] at h
      exact .inr (by rw [h]; rfl)
    · exact .inl h
  · rintro (rfl | rfl) <;> rfl

/-! ## Headers -/

/-- The characters of a line that a header may have. -/
structure IsHeaderLine (cs : List Byte) : Prop where
  one : lf ∉ cs
  fits : cs.length ≤ maxHeaderLine
  isField : stripCr cs ≠ []

/-- The empty line that ends a header, before the rest of the stream. -/
def EndsHeader (blank rest : List Byte) : Prop :=
  blank = [lf] ∨ blank = [cr, lf] ∨ blank = [cr] ∧ rest = []

/-- The last length in the lines of a header, all of which can be read. -/
structure Declares (lines : List (List Byte)) (n : Nat) : Prop where
  readable : ∀ line ∈ lines, declared (stripCr line) ≠ .malformed
  last : ∃ before line after, lines = before ++ line :: after ∧
    declared (stripCr line) = .length n ∧ ∀ line ∈ after, declared (stripCr line) = .nothing

/-- The lengths in the lines, behind a header that has declared one. -/
def DeclaresAfter (contentLength : Option Nat) (lines : List (List Byte)) (n : Nat) : Prop :=
  Declares lines n ∨
    contentLength = some n ∧ ∀ line ∈ lines, declared (stripCr line) = .nothing

theorem declares_nil {contentLength : Option Nat} {n : Nat} :
    DeclaresAfter contentLength [] n ↔ contentLength = some n := by
  constructor
  · rintro (⟨-, before, line, after, hnil, -⟩ | ⟨h, -⟩)
    · exact absurd hnil.symm (by simp)
    · exact h
  · exact fun h => .inr ⟨h, fun line hline => absurd hline List.not_mem_nil⟩

theorem declares_cons_nothing {contentLength : Option Nat} {line : List Byte}
    {lines : List (List Byte)} {n : Nat} (h : declared (stripCr line) = .nothing) :
    DeclaresAfter contentLength (line :: lines) n ↔ DeclaresAfter contentLength lines n := by
  constructor
  · rintro (⟨hread, before, last, after, heq, hlast, hafter⟩ | ⟨hlength, hnothing⟩)
    · rcases before with _ | ⟨first, before⟩
      · obtain ⟨rfl, -⟩ := List.cons.inj heq
        rw [h] at hlast
        cases hlast
      · obtain ⟨-, heq⟩ := List.cons.inj heq
        exact .inl ⟨fun l hl => hread l (List.mem_cons_of_mem _ hl),
          before, last, after, heq, hlast, hafter⟩
    · exact .inr ⟨hlength, fun l hl => hnothing l (List.mem_cons_of_mem _ hl)⟩
  · rintro (⟨hread, before, last, after, rfl, hlast, hafter⟩ | ⟨hlength, hnothing⟩)
    · refine .inl ⟨List.forall_mem_cons.2 ⟨?_, hread⟩,
        line :: before, last, after, rfl, hlast, hafter⟩
      rw [h]
      exact Declared.noConfusion
    · exact .inr ⟨hlength, List.forall_mem_cons.2 ⟨h, hnothing⟩⟩

theorem declares_cons_length {contentLength : Option Nat} {line : List Byte}
    {lines : List (List Byte)} {m n : Nat} (h : declared (stripCr line) = .length m) :
    DeclaresAfter contentLength (line :: lines) n ↔ DeclaresAfter (some m) lines n := by
  constructor
  · rintro (⟨hread, before, last, after, heq, hlast, hafter⟩ | ⟨-, hnothing⟩)
    · rcases before with _ | ⟨first, before⟩
      · obtain ⟨rfl, rfl⟩ := List.cons.inj heq
        exact .inr ⟨congrArg some (Declared.length.inj (h.symm.trans hlast)), hafter⟩
      · obtain ⟨-, heq⟩ := List.cons.inj heq
        exact .inl ⟨fun l hl => hread l (List.mem_cons_of_mem _ hl),
          before, last, after, heq, hlast, hafter⟩
    · have hline := hnothing line List.mem_cons_self
      rw [h] at hline
      cases hline
  · have hline : declared (stripCr line) ≠ .malformed := by
      rw [h]
      exact Declared.noConfusion
    rintro (⟨hread, before, last, after, rfl, hlast, hafter⟩ | ⟨hlength, hnothing⟩)
    · exact .inl ⟨List.forall_mem_cons.2 ⟨hline, hread⟩,
        line :: before, last, after, rfl, hlast, hafter⟩
    · refine .inl ⟨List.forall_mem_cons.2 ⟨hline, fun l hl => ?_⟩,
        [], line, lines, rfl, h.trans (congrArg _ (Option.some.inj hlength)), hnothing⟩
      rw [hnothing l hl]
      exact Declared.noConfusion

theorem not_declares_malformed {contentLength : Option Nat} {line : List Byte}
    {lines : List (List Byte)} {n : Nat} (h : declared (stripCr line) = .malformed) :
    ¬ DeclaresAfter contentLength (line :: lines) n := by
  rintro (⟨hread, -⟩ | ⟨-, hnothing⟩)
  · exact hread line List.mem_cons_self h
  · have hline := hnothing line List.mem_cons_self
    rw [h] at hline
    cases hline

theorem readHeader_none {contentLength : Option Nat} {in_ : List Byte} (h : readLine in_ = none) :
    readHeader contentLength in_ = none := by
  rw [readHeader]
  split
  · rfl
  · rename_i hline
    rw [h] at hline
    cases hline

theorem readHeader_line {contentLength : Option Nat} {in_ line rest : List Byte}
    (h : readLine in_ = some (line, rest)) :
    readHeader contentLength in_ =
      if line = [] then some (contentLength, rest)
      else
        match declared line with
        | .nothing => readHeader contentLength rest
        | .malformed => none
        | .length n => readHeader (some n) rest := by
  rw [readHeader]
  split
  · rename_i hline
    rw [h] at hline
    cases hline
  · rename_i hline
    obtain ⟨rfl, rfl⟩ := Prod.mk.inj (Option.some.inj (hline.symm.trans h))
    rfl

/-- The characters of the lines of a header. -/
def headerText (lines : List (List Byte)) : List Byte := lines.flatMap (· ++ [lf])

/-- The empty line is read. -/
theorem readLine_blank {blank rest : List Byte} (h : EndsHeader blank rest) :
    readLine (blank ++ rest) = some ([], rest) := by
  rcases h with rfl | rfl | ⟨rfl, rfl⟩ <;> rfl

/-- A line that is read is empty or goes on. -/
theorem readLine_cases {in_ line rest : List Byte} (h : readLine in_ = some (line, rest)) :
    line = [] ∧ (∃ blank, EndsHeader blank rest ∧ in_ = blank ++ rest) ∨
      line ≠ [] ∧ (rest = [] ∨
        ∃ cs, IsHeaderLine cs ∧ stripCr cs = line ∧ in_ = cs ++ [lf] ++ rest) := by
  obtain ⟨cs, hcs, rfl⟩ := readLine_eq_some h
  obtain ⟨cs, rfl, hone, hfits, hin⟩ := readChars_eq_some hcs
  by_cases hnil : stripCr cs = []
  · refine .inl ⟨hnil, ?_⟩
    rcases hin with rfl | ⟨rfl, rfl, hne⟩
    · rcases stripCr_eq_nil.1 hnil with rfl | rfl
      · exact ⟨[lf], .inl rfl, rfl⟩
      · exact ⟨[cr, lf], .inr (.inl rfl), rfl⟩
    · rcases stripCr_eq_nil.1 hnil with rfl | rfl
      · exact absurd rfl hne
      · exact ⟨[cr], .inr (.inr ⟨rfl, rfl⟩), rfl⟩
  · refine .inr ⟨hnil, ?_⟩
    rcases hin with rfl | ⟨-, rfl, -⟩
    · exact .inr ⟨cs, ⟨hone, hfits (Nat.zero_le _), hnil⟩, rfl, by simp⟩
    · exact .inl rfl

theorem readHeader_nil (contentLength : Option Nat) : readHeader contentLength [] = none :=
  readHeader_none rfl

/-- What a header that declares a length is read from. -/
theorem header_of_readHeader {contentLength : Option Nat} {in_ rest : List Byte} {n : Nat}
    (h : readHeader contentLength in_ = some (some n, rest)) :
    ∃ lines blank, (∀ cs ∈ lines, IsHeaderLine cs) ∧ EndsHeader blank rest ∧
      DeclaresAfter contentLength lines n ∧ in_ = headerText lines ++ blank ++ rest := by
  induction hlength : in_.length using Nat.strong_induction_on generalizing contentLength in_ with
  | _ length ih =>
    subst hlength
    rcases hline : readLine in_ with _ | ⟨line, next⟩
    · rw [readHeader_none hline] at h
      cases h
    · rw [readHeader_line hline] at h
      rcases readLine_cases hline with ⟨rfl, blank, hblank, rfl⟩ | ⟨hne, hnext⟩
      · rw [if_pos rfl] at h
        obtain ⟨rfl, rfl⟩ := Prod.mk.inj (Option.some.inj h)
        exact ⟨[], blank, fun cs hcs => absurd hcs List.not_mem_nil,
          hblank, declares_nil.2 rfl, rfl⟩
      · rw [if_neg hne] at h
        rcases hnext with rfl | ⟨cs, hcs, rfl, rfl⟩
        · -- the stream ends with this line, and there is no empty one
          simp only [readHeader_nil] at h
          split at h <;> cases h
        · rcases hdeclared : declared (stripCr cs) with _ | _ | m
          · rw [hdeclared] at h
            obtain ⟨lines, blank, hlines, hblank, hdeclares, rfl⟩ :=
              ih _ (length_readLine hline) h rfl
            exact ⟨cs :: lines, blank, List.forall_mem_cons.2 ⟨hcs, hlines⟩, hblank,
              (declares_cons_nothing hdeclared).2 hdeclares, by simp [headerText]⟩
          · rw [hdeclared] at h
            cases h
          · rw [hdeclared] at h
            obtain ⟨lines, blank, hlines, hblank, hdeclares, rfl⟩ :=
              ih _ (length_readLine hline) h rfl
            exact ⟨cs :: lines, blank, List.forall_mem_cons.2 ⟨hcs, hlines⟩, hblank,
              (declares_cons_length hdeclared).2 hdeclares, by simp [headerText]⟩

/-- A header that declares a length is read, whatever other fields it has. -/
theorem readHeader_of_header {lines : List (List Byte)} {contentLength : Option Nat}
    {blank rest : List Byte} {n : Nat} (hlines : ∀ cs ∈ lines, IsHeaderLine cs)
    (hblank : EndsHeader blank rest) (hdeclares : DeclaresAfter contentLength lines n) :
    readHeader contentLength (headerText lines ++ blank ++ rest) = some (some n, rest) := by
  induction lines generalizing contentLength with
  | nil =>
    rw [headerText, List.flatMap_nil, List.nil_append, readHeader_line (readLine_blank hblank),
      if_pos rfl, declares_nil.1 hdeclares]
  | cons cs lines ih =>
    obtain ⟨hcs, hlines⟩ := List.forall_mem_cons.1 hlines
    have hline : readLine (headerText (cs :: lines) ++ blank ++ rest) =
        some (stripCr cs, headerText lines ++ blank ++ rest) := by
      have htext : headerText (cs :: lines) ++ blank ++ rest =
          cs ++ lf :: (headerText lines ++ blank ++ rest) := by simp [headerText]
      rw [htext, readLine_append hcs.one, if_pos hcs.fits]
    rw [readHeader_line hline, if_neg hcs.isField]
    rcases hdeclared : declared (stripCr cs) with _ | _ | m
    · exact ih hlines ((declares_cons_nothing hdeclared).1 hdeclares)
    · exact absurd hdeclares (not_declares_malformed hdeclared)
    · exact ih hlines ((declares_cons_length hdeclared).1 hdeclares)

theorem takeExactly_eq_some {n : Nat} {in_ body rest : List Byte} :
    Reader.takeExactly n in_ = some (body, rest) ↔ in_ = body ++ rest ∧ body.length = n := by
  constructor
  · intro h
    rw [Reader.takeExactly] at h
    split at h
    · rename_i hn
      obtain ⟨rfl, rfl⟩ := Prod.mk.inj (Option.some.inj h)
      exact ⟨(List.take_append_drop n in_).symm, List.length_take_of_le hn⟩
    · cases h
  · rintro ⟨rfl, rfl⟩
    exact Reads.takeExactly body rest

/-- A message in a stream: a header that declares how long it is, and the body. -/
def Framed (in_ body rest : List Byte) : Prop :=
  ∃ lines blank, (∀ cs ∈ lines, IsHeaderLine cs) ∧ EndsHeader blank (body ++ rest) ∧
    Declares lines body.length ∧ in_ = headerText lines ++ blank ++ (body ++ rest)

theorem framed_of_readMessage {in_ body rest : List Byte}
    (h : readMessage in_ = some (body, rest)) : Framed in_ body rest := by
  rw [readMessage] at h
  rcases hheader : readHeader none in_ with _ | ⟨_ | n, next⟩
  · rw [hheader] at h
    cases h
  · rw [hheader] at h
    cases h
  · rw [hheader] at h
    obtain ⟨rfl, rfl⟩ := takeExactly_eq_some.1 h
    obtain ⟨lines, blank, hlines, hblank, hdeclares, hin⟩ := header_of_readHeader hheader
    exact ⟨lines, blank, hlines, hblank,
      hdeclares.resolve_right fun hnone => absurd hnone.1 (Option.some_ne_none _).symm, hin⟩

theorem readMessage_of_framed {in_ body rest : List Byte} (h : Framed in_ body rest) :
    readMessage in_ = some (body, rest) := by
  obtain ⟨lines, blank, hlines, hblank, hdeclares, rfl⟩ := h
  rw [readMessage, readHeader_of_header hlines hblank (.inl hdeclares)]
  exact takeExactly_eq_some.2 ⟨rfl, rfl⟩

/-- The server reads a message from a stream exactly when one is framed there. -/
theorem readMessage_iff_framed {in_ body rest : List Byte} :
    readMessage in_ = some (body, rest) ↔ Framed in_ body rest :=
  ⟨framed_of_readMessage, readMessage_of_framed⟩

/-! ## Sessions -/

def writeMessage (body : List Byte) : List Byte :=
  text "Content-Length: " ++ decimalText body.length ++ [cr, lf, cr, lf] ++ body

/-- A message takes some of the stream. -/
theorem length_readMessage {in_ body rest : List Byte} (h : readMessage in_ = some (body, rest)) :
    rest.length < in_.length := by
  obtain ⟨lines, blank, -, hblank, -, rfl⟩ := framed_of_readMessage h
  have hpos : 0 < blank.length := by
    rcases hblank with rfl | rfl | ⟨rfl, -⟩ <;> decide
  simp only [List.length_append]
  omega

/-- The messages that the server reads, up to the first that it cannot read. -/
def readMessages (in_ : List Byte) : List (List Byte) :=
  match h : readMessage in_ with
  | none => []
  | some (body, rest) =>
    have := length_readMessage h
    body :: readMessages rest
termination_by in_.length

theorem readMessages_some {in_ body rest : List Byte} (h : readMessage in_ = some (body, rest)) :
    readMessages in_ = body :: readMessages rest := by
  rw [readMessages]
  split
  · rename_i hnone
    rw [h] at hnone
    cases hnone
  · rename_i hsome
    obtain ⟨rfl, rfl⟩ := Prod.mk.inj (Option.some.inj (hsome.symm.trans h))
    rfl

theorem readMessages_none {in_ : List Byte} (h : readMessage in_ = none) :
    readMessages in_ = [] := by
  rw [readMessages]
  split
  · rfl
  · rename_i hsome
    rw [h] at hsome
    cases hsome

/-- The line of the header that is written. -/
def lengthLine (n : Nat) : List Byte := text "Content-Length: " ++ decimalText n

theorem writeMessage_eq (body : List Byte) :
    writeMessage body = (lengthLine body.length ++ [cr]) ++ lf :: ([cr, lf] ++ body) := by
  simp [writeMessage, lengthLine]

theorem ne_of_isDigit {c d : Byte} (hc : isDigit c = true) (hd : isDigit d = false) : c ≠ d := by
  rintro rfl
  rw [hc] at hd
  cases hd

theorem isSpace_of_isDigit {c : Byte} (h : isDigit c = true) : isSpace c = false := by
  have hlow : 48 ≤ c.toNat := of_decide_eq_true (Bool.and_eq_true _ _ ▸ h).1
  have hnot : ¬ c ≤ 13 := fun hle => absurd (hlow.trans hle) (by decide)
  rw [isSpace, decide_eq_false (ne_of_isDigit h rfl), decide_eq_false hnot, Bool.and_false]
  rfl

theorem trim_digits {cs : List Byte} (h : ∀ c ∈ cs, isDigit c = true) : trim (32 :: cs) = cs := by
  have hblank : ∀ c ∈ cs, isBlank c = false := fun c hc => by
    rw [isBlank, decide_eq_false (ne_of_isDigit (h c hc) rfl),
      decide_eq_false (ne_of_isDigit (h c hc) rfl)]
    rfl
  have hfront : (32 :: cs).dropWhile isBlank = cs := by
    rw [List.dropWhile_cons_of_pos rfl]
    rcases cs with _ | ⟨c, cs⟩
    · rfl
    · rw [List.dropWhile_cons_of_neg]
      rw [hblank c List.mem_cons_self]
      decide
  rw [trim, hfront]
  refine List.rdropWhile_eq_self_iff.2 fun hne => ?_
  rw [hblank _ (List.getLast_mem hne)]
  decide

/-- The number that digits are read as. -/
theorem stoul_digits {cs : List Byte} (h : ∀ c ∈ cs, isDigit c = true) (hne : cs ≠ []) :
    stoul cs = if decimalValue cs < 2 ^ 64 then some (decimalValue cs) else none := by
  obtain ⟨c, cs, rfl⟩ := List.exists_cons_of_ne_nil hne
  have hc := h c List.mem_cons_self
  have hspace : (c :: cs).dropWhile isSpace = c :: cs := by
    rw [List.dropWhile_cons_of_neg]
    rw [isSpace_of_isDigit hc]
    decide
  have hminus : (c :: cs).head? ≠ some 45 := fun he =>
    ne_of_isDigit hc (by decide) (Option.some.inj he)
  have hplus : (c :: cs).head? ≠ some 43 := fun he =>
    ne_of_isDigit hc (by decide) (Option.some.inj he)
  have hdigits : (c :: cs).takeWhile isDigit = c :: cs := List.takeWhile_eq_self_iff.2 h
  simp only [stoul, hspace, hminus, hplus, decide_false, Bool.false_or,
    Bool.false_eq_true, if_false,
    hdigits, hne, false_or]
  split
  · rw [if_neg (by omega)]
  · rw [if_pos (by omega)]

theorem declared_lengthLine (n : Nat) :
    declared (lengthLine n) = if n ≤ maxContentLength then .length n else .malformed := by
  have hcolon : (lengthLine n).idxOf? 58 = some 14 := by
    rw [lengthLine]
    rfl
  have hname : ((lengthLine n).take 14).map toLower = text "content-length" := rfl
  have hvalue : (lengthLine n).drop (14 + 1) = 32 :: decimalText n := rfl
  have hmax : maxContentLength < 2 ^ 64 := by decide
  rw [declared, hcolon]
  simp only [hname, hvalue, if_true, trim_digits fun c hc => isDigit_of_mem_decimalText hc,
    stoul_digits (fun c hc => isDigit_of_mem_decimalText hc) (decimalText_ne_nil n),
    decimalValue_decimalText]
  by_cases hn : n < 2 ^ 64
  · rw [if_pos hn]
    by_cases hle : n ≤ maxContentLength
    · rw [if_pos hle]
      exact if_neg (by omega)
    · rw [if_neg hle]
      exact if_pos (by omega)
  · rw [if_neg hn, if_neg (by omega)]

theorem lf_notMem_lengthLine (n : Nat) : lf ∉ lengthLine n ++ [cr] := by
  intro h
  rcases List.mem_append.1 h with h | h
  · rcases List.mem_append.1 h with h | h
    · revert h
      decide
    · exact ne_of_isDigit (isDigit_of_mem_decimalText h) rfl rfl
  · revert h
    decide

/-- A message that is written is read again, unless it is too long. -/
theorem readMessage_writeMessage (body rest : List Byte) :
    readMessage (writeMessage body ++ rest) =
      if body.length ≤ maxContentLength then some (body, rest) else none := by
  have hdeclared := declared_lengthLine body.length
  rw [← stripCr_append_cr (lengthLine body.length)] at hdeclared
  by_cases hle : body.length ≤ maxContentLength
  · rw [if_pos hle] at hdeclared ⊢
    have hfits : (lengthLine body.length ++ [cr]).length ≤ maxHeaderLine := by
      have hdigits := length_decimalText_le (by decide : 0 < 8) (hle.trans_lt (by decide))
      have htext : (text "Content-Length: ").length = 16 := rfl
      rw [List.length_append, lengthLine, List.length_append, htext, List.length_singleton]
      exact (by omega : 16 + (decimalText body.length).length + 1 ≤ 8192)
    refine readMessage_of_framed ⟨[lengthLine body.length ++ [cr]], [cr, lf], ?_,
      .inr (.inl rfl), ⟨?_, [], _, [], rfl, hdeclared, fun line hline => ?_⟩, ?_⟩
    · refine List.forall_mem_singleton.2 ⟨lf_notMem_lengthLine _, hfits, ?_⟩
      rw [stripCr_append_cr]
      exact List.append_ne_nil_of_left_ne_nil (by decide) _
    · refine List.forall_mem_singleton.2 ?_
      rw [hdeclared]
      exact Declared.noConfusion
    · exact absurd hline List.not_mem_nil
    · simp [writeMessage_eq, headerText]
  · rw [if_neg hle] at hdeclared ⊢
    have hline := @readLine_append _ ([cr, lf] ++ body ++ rest) (lf_notMem_lengthLine body.length)
    have htext : writeMessage body ++ rest =
        (lengthLine body.length ++ [cr]) ++ lf :: ([cr, lf] ++ body ++ rest) := by
      rw [writeMessage_eq, List.append_assoc, List.cons_append]
    rw [← htext] at hline
    have hheader : readHeader none (writeMessage body ++ rest) = none := by
      split at hline
      · have hne : stripCr (lengthLine body.length ++ [cr]) ≠ [] := by
          rw [stripCr_append_cr]
          exact List.append_ne_nil_of_left_ne_nil (by decide) _
        rw [readHeader_line hline, if_neg hne, hdeclared]
      · exact readHeader_none hline
    rw [readMessage, hheader]
    rfl

/-- What is written message by message is read as these messages, up to the first that is
    too long. -/
theorem session_reads (bodies : List (List Byte)) :
    readMessages (bodies.flatMap writeMessage) =
      bodies.takeWhile fun body => body.length ≤ maxContentLength := by
  induction bodies with
  | nil => exact readMessages_none (by rw [readMessage, List.flatMap_nil, readHeader_nil]; rfl)
  | cons body bodies ih =>
    have hread := readMessage_writeMessage body (bodies.flatMap writeMessage)
    rw [List.flatMap_cons]
    by_cases hle : body.length ≤ maxContentLength
    · rw [if_pos hle] at hread
      have htake := decide_eq_true hle
      rw [readMessages_some hread, ih, List.takeWhile_cons, htake]
      rfl
    · rw [if_neg hle] at hread
      have htake := decide_eq_false hle
      rw [readMessages_none hread, List.takeWhile_cons, htake]
      rfl

end Mirage.Lsp.Transport
