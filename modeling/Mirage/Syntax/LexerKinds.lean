import Mirage.Syntax.LexerSteps

/-!
# The kinds of the tokens that are read

Which kinds a sub-lexer reads, and for two of the kinds, where the loop of the lexer or the parser
depends on it, from which bytes: an arrow from its two, and an integer from a digit.
-/

namespace Mirage.Syntax

namespace Scan

variable {text : List Char} {filename : String} (start : Cursor text) (s : Scan text)

theorem kind_lexNumber :
    (s.lexNumber filename start).1.kind = .intLiteral ∨
      (s.lexNumber filename start).1.kind = .floatLiteral := by
  have hdecimal : (s.lexDecimalNumber filename start).1.kind = .intLiteral ∨
      (s.lexDecimalNumber filename start).1.kind = .floatLiteral := by
    simp only [lexDecimalNumber, makeToken]
    split_ifs <;> simp
  rw [lexNumber]
  split
  · split
    all_goals first
      | exact hdecimal
      | exact .inl rfl
  · exact hdecimal

theorem kind_lexIdentifierOrKeyword :
    (s.lexIdentifierOrKeyword filename start).1.kind ∈
      TokenKind.identifier :: keywords.map Prod.snd := by
  rw [lexIdentifierOrKeyword]
  split
  · rename_i kind hkind
    obtain ⟨before, after, hsplit, -⟩ := List.lookup_eq_some_iff.mp hkind
    have hmem : (_, kind) ∈ keywords := hsplit ▸ List.mem_append_right _ List.mem_cons_self
    exact List.mem_cons_of_mem _ (List.mem_map_of_mem hmem)
  · exact List.mem_cons_self

theorem kind_lexString : (s.lexString filename start).1.kind = .stringLiteral := by
  rw [lexString]
  dsimp only
  split_ifs
  · rfl
  · rfl

theorem kind_closeChar : (s.closeChar filename start).1.kind = .charLiteral := by
  rw [closeChar]
  split_ifs
  · rfl
  · rfl

theorem kind_lexChar : (s.lexChar filename start).1.kind = .charLiteral := by
  rw [lexChar]
  split_ifs
  · rfl
  · rfl
  · exact kind_closeChar _ _
  · rfl
  · exact kind_closeChar _ _

theorem kind_matchDouble (expected : Char) (double single : TokenKind) :
    (s.matchDouble filename start expected double single).1.kind ∈ [double, single] := by
  simp only [matchDouble, makeToken]
  split_ifs
  · exact List.mem_cons_self
  · exact List.mem_cons_of_mem _ List.mem_cons_self

theorem kind_matchFirst (single : TokenKind) (others : List (Char × TokenKind)) :
    (s.matchFirst filename start single others).1.kind ∈ single :: others.map Prod.snd := by
  induction others with
  | nil => exact List.mem_cons_self
  | cons other others ih =>
    rw [matchFirst]
    split_ifs
    · exact List.mem_cons_of_mem _ List.mem_cons_self
    · rcases List.mem_cons.mp ih with h | h
      · rw [h]
        exact List.mem_cons_self
      · exact List.mem_cons_of_mem _ (List.mem_cons_of_mem _ h)

variable {start s}

/-- A symbol is no number, and only what starts with a minus sign can be an arrow. -/
theorem kind_lexSymbol {ch : Char} {token : Token}
    (h : (s.lexSymbol filename start ch).1 = some token) :
    token.kind ≠ .intLiteral ∧ (ch ≠ '-' → token.kind ≠ .arrow) := by
  have hmem {kinds : List TokenKind} {kind : TokenKind} (hmem : kind ∈ kinds)
      (hkinds : ∀ kind ∈ kinds, kind ≠ .intLiteral ∧ (ch ≠ '-' → kind ≠ .arrow)) :
      kind ≠ .intLiteral ∧ (ch ≠ '-' → kind ≠ .arrow) := hkinds kind hmem
  unfold lexSymbol at h
  split at h
  case h_28 => cases h
  case h_14 =>
    dsimp only at h
    split_ifs at h
    · obtain rfl := Option.some.inj h
      exact hmem (kind_matchDouble start _ _ _ _) (by decide)
    · obtain rfl := Option.some.inj h
      exact ⟨fun hkind => (by cases hkind), fun _ hkind => (by cases hkind)⟩
  all_goals first
    | obtain rfl := Option.some.inj h
      exact ⟨fun hkind => (by cases hkind), fun _ hkind => (by cases hkind)⟩
    | obtain rfl := Option.some.inj h
      exact hmem (kind_matchDouble start s _ _ _) (by decide)
    | obtain rfl := Option.some.inj h
      exact hmem (kind_matchFirst start s _ _) (by decide)
    | dsimp only at h
      split_ifs at h
      · obtain rfl := Option.some.inj h
        exact hmem (kind_matchDouble start _ _ _ _) (by decide)
      · obtain rfl := Option.some.inj h
        exact hmem (kind_matchDouble start _ _ _ _) (by decide)

/-- What starts with a minus sign is an arrow if the next byte says so. -/
theorem kind_lexSymbol_minus {token : Token}
    (h : (s.lexSymbol filename start '-').1 = some token) :
    token.kind = .arrow ↔ s.cursor.rest.head? = some '>' := by
  obtain rfl := Option.some.inj h
  simp only [matchFirst, accept]
  by_cases hminus : s.cursor.rest.head? = some '-'
  · simp [makeToken, hminus]
  · by_cases hequal : s.cursor.rest.head? = some '='
    · simp [makeToken, hequal]
    · by_cases hgreater : s.cursor.rest.head? = some '>'
      · simp [makeToken, hgreater]
      · simp [makeToken, hminus, hequal, hgreater]

end Scan

theorem not_mem_keywords : ∀ kind ∈ TokenKind.identifier :: keywords.map Prod.snd,
    kind ≠ .intLiteral ∧ kind ≠ .arrow := by decide

namespace Lexer

variable {text : List Char} {filename : String} {start : Cursor text} {ch : Char} {s : Scan text}
  {token : Token}

/-- A token that is neither a number nor a symbol is neither an integer nor an arrow, and only the
    symbols that start with a minus sign can be an arrow. -/
theorem kind_lexFrom (h : (lexFrom filename start ch s).1 = some token) :
    (token.kind = .intLiteral → isDigit ch = true ∧ token = (s.lexNumber filename start).1) ∧
      (token.kind = .arrow →
        ch = '-' ∧ (s.lexSymbol filename start ch).1 = some token) := by
  have hneither (hne : token.kind ≠ .intLiteral ∧ token.kind ≠ .arrow) :
      (token.kind = .intLiteral → isDigit ch = true ∧ token = (s.lexNumber filename start).1) ∧
        (token.kind = .arrow → ch = '-' ∧ (s.lexSymbol filename start ch).1 = some token) :=
    ⟨fun hkind => absurd hkind hne.1, fun hkind => absurd hkind hne.2⟩
  rw [lexFrom] at h
  dsimp only at h
  split_ifs at h with hdigit
  · obtain rfl := Option.some.inj h
    refine ⟨fun _ => ⟨hdigit, rfl⟩, fun harrow => ?_⟩
    rcases Scan.kind_lexNumber start s with hkind | hkind
    · rw [hkind] at harrow
      cases harrow
    · rw [hkind] at harrow
      cases harrow
  · obtain rfl := Option.some.inj h
    exact hneither (not_mem_keywords _ (Scan.kind_lexIdentifierOrKeyword start s))
  · obtain rfl := Option.some.inj h
    exact hneither ⟨fun hkind => (by cases hkind), fun hkind => (by cases hkind)⟩
  · obtain rfl := Option.some.inj h
    refine hneither ?_
    rw [Scan.kind_lexString]
    decide
  · obtain rfl := Option.some.inj h
    refine hneither ?_
    rw [Scan.kind_lexChar]
    decide
  · obtain ⟨hint, harrow⟩ := Scan.kind_lexSymbol h
    exact ⟨fun hkind => absurd hkind hint,
      fun hkind => ⟨by_contra fun hch => harrow hch hkind, h⟩⟩

/-- An arrow is read where its two bytes are. -/
theorem kind_lexFrom_arrow_iff (h : (lexFrom filename start ch s).1 = some token) :
    token.kind = .arrow ↔ ch = '-' ∧ s.cursor.rest.head? = some '>' := by
  constructor
  · intro hkind
    obtain ⟨rfl, hsymbol⟩ := (kind_lexFrom h).2 hkind
    exact ⟨rfl, (Scan.kind_lexSymbol_minus hsymbol).mp hkind⟩
  · rintro ⟨rfl, hgreater⟩
    exact (Scan.kind_lexSymbol_minus h).mpr hgreater

end Lexer

end Mirage.Syntax
