import Mirage.Lib.Text

/-!
# File URIs

The language server names a document by its path, and the client by a URI (`lsp/uri.cpp`). Any
byte of a path may be escaped in a URI, and the scheme and the host are written in letters of any
case, so that a path has many URIs; the server itself writes one of them. What cannot be an
escape stands for itself.

* `uriToPath_iff_names`: the path that the server takes a URI for is the one it names;
* `uriToPath_pathToUri_iff`: the paths that come back from the URIs written for them.
-/

namespace Mirage.Lsp.Uri

abbrev Byte := BitVec 8

/-! ## The functions -/

def fileScheme : List Byte := text "file://"

def localhost : List Byte := text "localhost"

def slash : Byte := 47

def percent : Byte := 37

def lower (c : Byte) : Byte := if 65 ≤ c ∧ c ≤ 90 then c + 32 else c

/-- The same text in letters of any case. -/
def iequalsAscii (a b : List Byte) : Bool := a.map lower = b.map lower

def hexDigit (c : Byte) : Option Nat :=
  if 48 ≤ c ∧ c ≤ 57 then some (c.toNat - 48)
  else if 97 ≤ c ∧ c ≤ 102 then some (c.toNat - 97 + 10)
  else if 65 ≤ c ∧ c ≤ 70 then some (c.toNat - 65 + 10)
  else none

/-- The byte that two digits stand for. -/
def escaped (a b : Byte) : Option Byte := do
  let hi ← hexDigit a
  let lo ← hexDigit b
  return BitVec.ofNat 8 (16 * hi + lo)

def percentDecode : List Byte → List Byte
  | [] => []
  | [c] => [c]
  | [c, d] => [c, d]
  | c :: a :: b :: s =>
    match if c = percent then escaped a b else none with
    | some d => d :: percentDecode s
    | none => c :: percentDecode (a :: b :: s)

/-- The bytes that are escaped in the URIs of the server: `%`, ` `, `#`, `?` and what is not
    ASCII. -/
def isEscaped (c : Byte) : Bool := c = percent || c = 32 || c = 35 || c = 63 || 128 ≤ c

def hexByte (n : Nat) : Byte := (text "0123456789ABCDEF").getD n 0

def escape (c : Byte) : List Byte := [percent, hexByte (c.toNat / 16), hexByte (c.toNat % 16)]

def percentEncode (s : List Byte) : List Byte :=
  s.flatMap fun c => if isEscaped c then escape c else [c]

/-- The part behind the host of this machine, if it is named. -/
def withoutHost (rest : List Byte) : List Byte :=
  if rest[localhost.length]? = some slash ∧
      iequalsAscii (rest.take localhost.length) localhost then rest.drop localhost.length
  else rest

/-- The path of a document, empty for a URI that the server cannot handle. -/
def uriToPath (uri : List Byte) : List Byte :=
  if iequalsAscii (uri.take fileScheme.length) fileScheme then
    let rest := withoutHost (uri.drop fileScheme.length)
    if rest.head? = some slash then percentDecode rest else []
  else []

def pathToUri (path : List Byte) : List Byte := fileScheme ++ percentEncode path

/-! ## What a URI names -/

/-- The spellings of a text: a byte stands for itself or is escaped. A percent sign that no two
    digits follow stands for itself. -/
inductive Spells : List Byte → List Byte → Prop
  | nil : Spells [] []
  | plain {c : Byte} {s path : List Byte} (hc : c ≠ percent) (h : Spells s path) :
    Spells (c :: s) (c :: path)
  | escape {a b c : Byte} {s path : List Byte} (hc : escaped a b = some c) (h : Spells s path) :
    Spells (percent :: a :: b :: s) (c :: path)
  | stray {s path : List Byte} (hs : ∀ a b s', s = a :: b :: s' → escaped a b = none)
    (h : Spells s path) : Spells (percent :: s) (percent :: path)

/-- A URI names a path: the scheme, this machine or nothing, and a spelling of the path that
    begins with a slash. -/
def Names (uri path : List Byte) : Prop :=
  ∃ scheme host s, uri = scheme ++ (host ++ s) ∧ iequalsAscii scheme fileScheme = true ∧
    (host = [] ∨ iequalsAscii host localhost = true) ∧ s.head? = some slash ∧ Spells s path

/-! ## Decoding -/

theorem percentDecode_plain {c : Byte} (hc : c ≠ percent) (s : List Byte) :
    percentDecode (c :: s) = c :: percentDecode s := by
  rcases s with _ | ⟨a, _ | ⟨b, s⟩⟩
  · rfl
  · rfl
  · rw [percentDecode, if_neg hc]

theorem percentDecode_escape {a b c : Byte} (hc : escaped a b = some c) (s : List Byte) :
    percentDecode (percent :: a :: b :: s) = c :: percentDecode s := by
  rw [percentDecode, if_pos rfl, hc]

theorem percentDecode_stray {s : List Byte}
    (hs : ∀ a b s', s = a :: b :: s' → escaped a b = none) :
    percentDecode (percent :: s) = percent :: percentDecode s := by
  rcases s with _ | ⟨a, _ | ⟨b, s⟩⟩
  · rfl
  · rfl
  · rw [percentDecode, if_pos rfl, hs a b s rfl]

/-- A spelling is decoded to what it spells. -/
theorem Spells.decode {s path : List Byte} (h : Spells s path) : percentDecode s = path := by
  induction h with
  | nil => rfl
  | plain hc _ ih => rw [percentDecode_plain hc, ih]
  | escape hc _ ih => rw [percentDecode_escape hc, ih]
  | stray hs _ ih => rw [percentDecode_stray hs, ih]

/-- Every text is a spelling. -/
theorem spells_percentDecode (s : List Byte) : Spells s (percentDecode s) := by
  induction hlength : s.length using Nat.strong_induction_on generalizing s with
  | _ length ih =>
    subst hlength
    rcases s with _ | ⟨c, s⟩
    · exact .nil
    · by_cases hc : c = percent
      · subst hc
        by_cases hs : ∃ a b s' d, s = a :: b :: s' ∧ escaped a b = some d
        · obtain ⟨a, b, s', d, rfl, hd⟩ := hs
          rw [percentDecode_escape hd]
          exact .escape hd (ih _ (by simp only [List.length_cons]; omega) _ rfl)
        · have hs : ∀ a b s', s = a :: b :: s' → escaped a b = none := fun a b s' he =>
            Option.eq_none_iff_forall_ne_some.2 fun d hd => hs ⟨a, b, s', d, he, hd⟩
          rw [percentDecode_stray hs]
          exact .stray hs (ih _ (Nat.lt_succ_self _) _ rfl)
      · rw [percentDecode_plain hc]
        exact .plain hc (ih _ (Nat.lt_succ_self _) _ rfl)

/-! ## Encoding -/

theorem hexDigit_hexByte {n : Nat} (h : n < 16) : hexDigit (hexByte n) = some n := by
  revert n
  decide

theorem escaped_hexByte (c : Byte) :
    escaped (hexByte (c.toNat / 16)) (hexByte (c.toNat % 16)) = some c := by
  have hlt := c.isLt
  rw [escaped, hexDigit_hexByte (by omega), hexDigit_hexByte (by omega)]
  refine congrArg some (BitVec.eq_of_toNat_eq ?_)
  rw [BitVec.toNat_ofNat, Nat.div_add_mod, Nat.mod_eq_of_lt hlt]

/-- What is encoded is a spelling of the text. -/
theorem spells_percentEncode (path : List Byte) : Spells (percentEncode path) path := by
  induction path with
  | nil => exact .nil
  | cons c path ih =>
    rw [percentEncode, List.flatMap_cons]
    split
    · exact .escape (escaped_hexByte c) ih
    · rename_i hc
      refine .plain (fun he => hc ?_) ih
      rw [he]
      rfl

theorem head_percentEncode {path : List Byte} (h : path.head? = some slash) :
    (percentEncode path).head? = some slash := by
  obtain ⟨path, rfl⟩ := List.head?_eq_some_iff.1 h
  rfl

/-! ## The path of a URI -/

theorem length_of_iequalsAscii {a b : List Byte} (h : iequalsAscii a b = true) :
    a.length = b.length := by
  have hmap := congrArg List.length (of_decide_eq_true h)
  rwa [List.length_map, List.length_map] at hmap

/-- Behind this machine or nothing, the path is found. -/
theorem withoutHost_append {host s : List Byte}
    (hhost : host = [] ∨ iequalsAscii host localhost = true) (hs : s.head? = some slash) :
    withoutHost (host ++ s) = s := by
  rcases hhost with rfl | hhost
  · obtain ⟨s, rfl⟩ := List.head?_eq_some_iff.1 hs
    refine if_neg fun h => ?_
    -- a slash is not the first letter of the host
    have hhead := congrArg List.head? (of_decide_eq_true h.2)
    exact absurd (Option.some.inj hhead) (by decide)
  · have hlength := length_of_iequalsAscii hhost
    have hat : (host ++ s)[localhost.length]? = some slash := by
      rw [← hlength, List.getElem?_append_right (Nat.le_refl _), Nat.sub_self,
        ← List.head?_eq_getElem?,
        hs]
    rw [withoutHost, ← hlength, List.take_left, List.drop_left]
    exact if_pos ⟨by rw [hlength, hat], hhost⟩

/-- What a path is found in. -/
theorem exists_host (rest : List Byte) : ∃ host, rest = host ++ withoutHost rest ∧
    (host = [] ∨ iequalsAscii host localhost = true) := by
  rw [withoutHost]
  split
  · rename_i h
    exact ⟨rest.take localhost.length, (List.take_append_drop _ rest).symm, .inr h.2⟩
  · exact ⟨[], rfl, .inl rfl⟩

theorem Spells.head_slash {s path : List Byte} (h : Spells s path) (hs : s.head? = some slash) :
    path.head? = some slash := by
  cases h with
  | nil => exact hs
  | plain => exact hs
  | escape => exact absurd (Option.some.inj hs) (by decide)
  | stray => exact hs

theorem Names.head_slash {uri path : List Byte} (h : Names uri path) :
    path.head? = some slash := by
  obtain ⟨scheme, host, s, -, -, -, hs, hspells⟩ := h
  exact hspells.head_slash hs

theorem uriToPath_of_names {uri path : List Byte} (h : Names uri path) : uriToPath uri = path := by
  obtain ⟨scheme, host, s, rfl, hscheme, hhost, hs, hspells⟩ := h
  have hlength := length_of_iequalsAscii hscheme
  rw [uriToPath, ← hlength, List.take_left, List.drop_left, if_pos hscheme]
  simp only [withoutHost_append hhost hs, hs, if_true]
  exact hspells.decode

theorem names_of_uriToPath {uri path : List Byte} (h : uriToPath uri = path) (hne : path ≠ []) :
    Names uri path := by
  subst h
  rw [uriToPath] at hne ⊢
  split at hne
  · rename_i hscheme
    dsimp only at hne
    split at hne
    · rename_i hslash
      obtain ⟨host, hrest, hhost⟩ := exists_host (uri.drop fileScheme.length)
      refine ⟨_, host, _, ?_, hscheme, hhost, hslash, ?_⟩
      · rw [← hrest, List.take_append_drop]
      · rw [if_pos hscheme]
        simp only [hslash, if_true]
        exact spells_percentDecode _
    · exact absurd rfl hne
  · exact absurd rfl hne

/-- The server takes a URI for a document exactly when it names one, and for the document that
    it names. -/
theorem uriToPath_iff_names {uri path : List Byte} :
    uriToPath uri = path ∧ path ≠ [] ↔ Names uri path := by
  refine ⟨fun h => names_of_uriToPath h.1 h.2, fun h => ⟨uriToPath_of_names h, fun hnil => ?_⟩⟩
  have hhead := h.head_slash
  rw [hnil] at hhead
  cases hhead

/-- A path comes back from the URI written for it exactly when it is absolute, or empty. -/
theorem uriToPath_pathToUri_iff {path : List Byte} :
    uriToPath (pathToUri path) = path ↔ path = [] ∨ path.head? = some slash := by
  constructor
  · intro h
    exact or_iff_not_imp_left.2 fun hne => (names_of_uriToPath h hne).head_slash
  · rintro (rfl | h)
    · rfl
    · exact uriToPath_of_names ⟨fileScheme, [], percentEncode path, rfl, by decide, .inl rfl,
        head_percentEncode h, spells_percentEncode path⟩

end Mirage.Lsp.Uri
