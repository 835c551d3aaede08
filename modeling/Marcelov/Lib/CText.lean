import Marcelov.Lib.Stdio

/-!
# Reading C arrays

A lexer for C source without comments and strings, and a reader of definitions
`type name[] = { constants };`, with hexadecimal constants and no comma after the last one.

`lex_append` cuts a text in two where no word goes across. `readArrays` is a function of the
tokens, so a text has one reading at most.
-/

namespace Marcelov.Lib

/-! ## Tokens -/

inductive CToken where
  | word (chars : List UInt8)
  | punct (c : UInt8)
  deriving DecidableEq

def isalpha (c : UInt8) : Bool := (0x41 ≤ c && c ≤ 0x5a) || (0x61 ≤ c && c ≤ 0x7a)

/-- The characters of identifiers and constants. -/
def isWordChar (c : UInt8) : Bool := isalpha c || isdigit c || c == 0x5f

/-- A character before a word that the tokens begin with. -/
def consWord (c : UInt8) : List CToken → List CToken
  | .word w :: tokens => .word (c :: w) :: tokens
  | tokens => .word [c] :: tokens

def lex : List UInt8 → List CToken
  | [] => []
  | c :: text =>
    if isspace c then lex text
    else if isWordChar c then
      if text.head?.any isWordChar then consWord c (lex text) else .word [c] :: lex text
    else .punct c :: lex text

theorem isspace_of_isWordChar {c : UInt8} (h : isWordChar c = true) : isspace c = false := by
  simp only [isWordChar, isalpha, isdigit, isspace, UInt8.le_iff_toNat_le, Bool.or_eq_true,
    Bool.and_eq_true, decide_eq_true_eq, Bool.or_eq_false_iff, beq_eq_false_iff_ne, beq_iff_eq,
    ne_eq, ← UInt8.toNat_inj, Bool.and_eq_false_imp, decide_eq_false_iff_not,
    UInt8.reduceToNat] at h ⊢
  omega

theorem isWordChar_of_isxdigit {c : UInt8} (h : isxdigit c = true) : isWordChar c = true := by
  simp only [isWordChar, isalpha, isdigit, isxdigit, UInt8.le_iff_toNat_le, Bool.or_eq_true,
    Bool.and_eq_true, decide_eq_true_eq, beq_iff_eq, ← UInt8.toNat_inj, UInt8.reduceToNat] at h ⊢
  omega

section

variable {c : UInt8} {text w a b : List UInt8} {tokens : List CToken}

theorem lex_space (h : isspace c = true) : lex (c :: text) = lex text := by rw [lex, if_pos h]

theorem lex_wordChar (h : isWordChar c = true) : lex (c :: text) =
    if text.head?.any isWordChar then consWord c (lex text) else .word [c] :: lex text := by
  rw [lex, if_neg (by simp [isspace_of_isWordChar h]), if_pos h]

theorem lex_punct (h : isspace c = false) (h' : isWordChar c = false) :
    lex (c :: text) = .punct c :: lex text := by
  rw [lex, if_neg (by simp [h]), if_neg (by simp [h'])]

theorem lex_eq_word_cons (h : text.head?.any isWordChar = true) :
    ∃ w tokens, lex text = .word w :: tokens := by
  cases text with
  | nil => cases h
  | cons c text =>
    rw [lex_wordChar h]
    split_ifs
    · cases lex text with
      | nil => exact ⟨_, _, rfl⟩
      | cons token tokens => cases token <;> exact ⟨_, _, rfl⟩
    · exact ⟨_, _, rfl⟩

/-- No word goes across the cut between the texts. -/
def CutsWords (a b : List UInt8) : Prop :=
  a.getLast?.any isWordChar = false ∨ b.head?.any isWordChar = false

instance (a b : List UInt8) : Decidable (CutsWords a b) :=
  inferInstanceAs (Decidable (_ = false ∨ _ = false))

theorem lex_append (h : CutsWords a b) : lex (a ++ b) = lex a ++ lex b := by
  induction a with
  | nil => rfl
  | cons c a ih =>
    cases a with
    | nil =>
      rw [List.cons_append, List.nil_append]
      by_cases hspace : isspace c = true
      · simp [lex, hspace]
      · rw [Bool.not_eq_true] at hspace
        by_cases hword : isWordChar c = true
        · have hb : b.head?.any isWordChar = false := by simpa [CutsWords, hword] using h
          simp [lex, hspace, hword, hb]
        · rw [Bool.not_eq_true] at hword
          simp [lex, hspace, hword]
    | cons d a =>
      have hrest : lex (d :: a ++ b) = lex (d :: a) ++ lex b := ih (by simpa [CutsWords] using h)
      rw [List.cons_append]
      by_cases hspace : isspace c = true
      · rw [lex_space hspace, lex_space hspace, hrest]
      · rw [Bool.not_eq_true] at hspace
        by_cases hword : isWordChar c = true
        · rw [lex_wordChar hword, lex_wordChar hword, hrest]
          by_cases hd : isWordChar d = true
          · have hhead : (d :: a).head?.any isWordChar = true := hd
            obtain ⟨w, tokens, hlex⟩ := lex_eq_word_cons hhead
            simp [hd, hlex, consWord]
          · simp [hd]
        · rw [Bool.not_eq_true] at hword
          rw [lex_punct hspace hword, lex_punct hspace hword, hrest, List.cons_append]

theorem lex_word (hne : w ≠ []) (h : ∀ c ∈ w, isWordChar c = true) : lex w = [.word w] := by
  induction w with
  | nil => exact absurd rfl hne
  | cons c w ih =>
    rw [lex_wordChar (h c List.mem_cons_self)]
    cases w with
    | nil => rfl
    | cons d w =>
      have hd : isWordChar d = true := h d (by simp)
      rw [ih nofun fun e he => h e (List.mem_cons_of_mem c he)]
      simp [hd, consWord]

end

/-! ## Constants -/

def hexDigit (c : UInt8) : ℕ :=
  if isdigit c then c.toNat - 0x30 else if c ≤ 0x46 then c.toNat - 0x37 else c.toNat - 0x57

/-- The number that the digits write, the highest first. -/
def hexValue (digits : List UInt8) : ℕ := digits.foldl (fun v c => 16 * v + hexDigit c) 0

theorem hexDigit_lt {c : UInt8} (h : isxdigit c = true) : hexDigit c < 16 := by
  simp only [hexDigit, isxdigit, isdigit, UInt8.le_iff_toNat_le, Bool.or_eq_true,
    Bool.and_eq_true, decide_eq_true_eq, UInt8.reduceToNat] at h ⊢
  split_ifs <;> omega

/-- The value of a hexadecimal constant. -/
def constant : List UInt8 → Option ℕ
  | zero :: x :: digits =>
    if zero = '0'.toUInt8 ∧ x = 'x'.toUInt8 ∧ digits ≠ [] ∧ digits.all isxdigit then
      some (hexValue digits)
    else none
  | _ => none

def CToken.isConstant : CToken → Bool
  | .word w => (constant w).isSome
  | .punct _ => false

def countConstants (text : List UInt8) : ℕ := (lex text).countP CToken.isConstant

theorem countConstants_append {a b : List UInt8} (h : CutsWords a b) :
    countConstants (a ++ b) = countConstants a + countConstants b := by
  rw [countConstants, lex_append h, List.countP_append]
  rfl

/-- An identifier does not begin with a digit. -/
def isIdentifier : List UInt8 → Bool
  | [] => false
  | c :: w => !isdigit c && (c :: w).all isWordChar

theorem constant_of_isIdentifier {w : List UInt8} (h : isIdentifier w = true) :
    constant w = none := by
  rcases w with - | ⟨c, - | ⟨d, w⟩⟩
  · rfl
  · rfl
  · refine if_neg ?_
    rintro ⟨rfl, -⟩
    cases h

/-! ## Definitions of arrays -/

structure ArrayDef where
  name : List UInt8
  elements : List ℕ
  deriving DecidableEq

section

variable (type : List UInt8)

mutual

/-- Definitions of arrays of the type. -/
def readArrays : List CToken → Option (List ArrayDef)
  | [] => some []
  | .word t :: .word name :: .punct a :: .punct b :: .punct e :: .punct o :: tokens =>
    if t = type ∧ isIdentifier name ∧ [a, b, e, o] = ascii ['[', ']', '=', '{'] then
      (readElements tokens).map fun (elements, arrays) => ⟨name, elements⟩ :: arrays
    else none
  | _ => none

/-- The elements of an array, from the opening brace on, and the definitions after it. -/
def readElements : List CToken → Option (List ℕ × List ArrayDef)
  | .word w :: tokens =>
    match constant w, readMore tokens with
    | some v, some (elements, arrays) => some (v :: elements, arrays)
    | _, _ => none
  | .punct c :: .punct d :: tokens =>
    if [c, d] = ascii ['}', ';'] then (readArrays tokens).map fun arrays => ([], arrays) else none
  | _ => none

def readMore : List CToken → Option (List ℕ × List ArrayDef)
  | .punct c :: .word w :: tokens =>
    match constant w, readMore tokens with
    | some v, some (elements, arrays) =>
      if c = ','.toUInt8 then some (v :: elements, arrays) else none
    | _, _ => none
  | .punct c :: .punct d :: tokens =>
    if [c, d] = ascii ['}', ';'] then (readArrays tokens).map fun arrays => ([], arrays) else none
  | _ => none

end

/-- The elements after another one. -/
def moreTokens (words : List (List UInt8)) : List CToken :=
  words.flatMap fun w => [.punct ','.toUInt8, .word w]

/-- The list of elements. -/
def elementTokens : List (List UInt8) → List CToken
  | [] => []
  | w :: words => .word w :: moreTokens words

/-- The definition of an array with the constants `words`. -/
def arrayTokens (name : List UInt8) (words : List (List UInt8)) : List CToken :=
  [.word type, .word name] ++ (ascii ['[', ']', '=', '{']).map .punct ++ elementTokens words ++
    (ascii ['}', ';']).map .punct

variable {name w : List UInt8} {words : List (List UInt8)} {values : List ℕ} {v : ℕ}
  (tokens : List CToken)

theorem readMore_end : readMore type ((ascii ['}', ';']).map .punct ++ tokens) =
    (readArrays type tokens).map fun arrays => ([], arrays) := by
  show readMore type (.punct _ :: .punct _ :: tokens) = _
  rw [readMore]
  exact if_pos rfl

theorem readElements_end : readElements type ((ascii ['}', ';']).map .punct ++ tokens) =
    (readArrays type tokens).map fun arrays => ([], arrays) := by
  show readElements type (.punct _ :: .punct _ :: tokens) = _
  rw [readElements]
  exact if_pos rfl

theorem readMore_moreTokens (h : words.map constant = values.map some) :
    readMore type (moreTokens words ++ (ascii ['}', ';']).map .punct ++ tokens) =
      (readArrays type tokens).map fun arrays => (values, arrays) := by
  induction words generalizing values with
  | nil =>
    obtain rfl : values = [] := by simpa using h.symm
    exact readMore_end type tokens
  | cons w words ih =>
    cases values with
    | nil => cases h
    | cons v values =>
      obtain ⟨hw, hwords⟩ := List.cons.inj h
      show readMore type (.punct ','.toUInt8 :: .word w ::
        (moreTokens words ++ (ascii ['}', ';']).map .punct ++ tokens)) = _
      rw [readMore, hw, ih hwords]
      cases readArrays type tokens <;> rfl

theorem readElements_elementTokens (h : words.map constant = values.map some) :
    readElements type (elementTokens words ++ (ascii ['}', ';']).map .punct ++ tokens) =
      (readArrays type tokens).map fun arrays => (values, arrays) := by
  cases words with
  | nil =>
    obtain rfl : values = [] := by simpa using h.symm
    exact readElements_end type tokens
  | cons w words =>
    cases values with
    | nil => cases h
    | cons v values =>
      obtain ⟨hw, hwords⟩ := List.cons.inj h
      show readElements type (.word w ::
        (moreTokens words ++ (ascii ['}', ';']).map .punct ++ tokens)) = _
      rw [readElements, hw, readMore_moreTokens type tokens hwords]
      cases readArrays type tokens <;> rfl

/-- A definition is read as its name and the values of its constants. -/
theorem readArrays_arrayTokens (hname : isIdentifier name = true)
    (h : words.map constant = values.map some) :
    readArrays type (arrayTokens type name words ++ tokens) =
      (readArrays type tokens).map fun arrays => ⟨name, values⟩ :: arrays := by
  show readArrays type (.word type :: .word name :: .punct _ :: .punct _ :: .punct _ :: .punct _ ::
    (elementTokens words ++ (ascii ['}', ';']).map .punct ++ tokens)) = _
  rw [readArrays, if_pos ⟨rfl, hname, rfl⟩, readElements_elementTokens type tokens h]
  cases readArrays type tokens <;> rfl

end

end Marcelov.Lib
