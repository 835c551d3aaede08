import Mathlib.Data.List.Basic

/-!
# Reading words from a file

The character classes of `ctype.h` in the C locale, and a file read by `fgetc` with one
character of push-back and an end-of-file indicator, as in `stdio.h`. A word of a file is ended
by a whitespace character or by the end of the file: `EndsWord` says what can follow a word,
`afterWord` what is left of the file once the word has been read, and `word_unique` that a text
has only one word at its beginning.
-/

namespace Marcelov.Lib

/-! ## Characters -/

/-- The bytes of a text of ASCII characters. -/
def ascii (text : List Char) : List UInt8 := text.map Char.toUInt8

def isspace (c : UInt8) : Bool := c == 0x20 || (0x09 ≤ c && c ≤ 0x0d)

def isdigit (c : UInt8) : Bool := 0x30 ≤ c && c ≤ 0x39

def isxdigit (c : UInt8) : Bool := isdigit c || (0x41 ≤ c && c ≤ 0x46) || (0x61 ≤ c && c ≤ 0x66)

theorem isspace_of_isxdigit {c : UInt8} (h : isxdigit c = true) : isspace c = false := by
  simp only [isxdigit, isdigit, isspace, UInt8.le_iff_toNat_le, Bool.or_eq_true, Bool.and_eq_true,
    decide_eq_true_eq, Bool.or_eq_false_iff, beq_eq_false_iff_ne, ne_eq, ← UInt8.toNat_inj,
    Bool.and_eq_false_imp, decide_eq_false_iff_not, UInt8.reduceToNat] at h ⊢
  omega

/-! ## Files -/

/-- A file open for reading: the characters not read yet, and the end-of-file indicator. -/
structure InFile where
  rest : List UInt8
  eof : Bool
  eof_rest : eof = true → rest = []

def InFile.ofBytes (bytes : List UInt8) : InFile := ⟨bytes, false, nofun⟩

def InFile.atEnd : InFile := ⟨[], true, fun _ => rfl⟩

/-- `fgetc`, with `none` for `EOF`. A file with characters left does not have its indicator set. -/
def fgetc (f : InFile) : Option UInt8 × InFile :=
  match f.rest with
  | [] => (none, .atEnd)
  | c :: rest => (some c, .ofBytes rest)

/-- `ungetc`, which leaves the file as it is for `EOF` and clears the indicator for a character. -/
def ungetc (c : Option UInt8) (f : InFile) : InFile :=
  match c with
  | none => f
  | some c => .ofBytes (c :: f.rest)

section

variable {f : InFile}

@[simp] theorem rest_ofBytes (bytes : List UInt8) : (InFile.ofBytes bytes).rest = bytes := rfl

@[simp] theorem eof_ofBytes (bytes : List UInt8) : (InFile.ofBytes bytes).eof = false := rfl

@[simp] theorem eof_atEnd : InFile.atEnd.eof = true := rfl

theorem fgetc_nil (h : f.rest = []) : fgetc f = (none, .atEnd) := by rw [fgetc, h]

theorem fgetc_cons {c : UInt8} {rest : List UInt8} (h : f.rest = c :: rest) :
    fgetc f = (some c, .ofBytes rest) := by rw [fgetc, h]

end

/-- A file with `text` left, after its next character is read and pushed back. -/
def afterPeek (text : List UInt8) : InFile :=
  ungetc (fgetc (.ofBytes text)).1 (fgetc (.ofBytes text)).2

@[simp] theorem afterPeek_nil : afterPeek [] = .atEnd := rfl

@[simp] theorem afterPeek_cons (c : UInt8) (text : List UInt8) :
    afterPeek (c :: text) = .ofBytes (c :: text) := rfl

@[simp] theorem rest_afterPeek (text : List UInt8) : (afterPeek text).rest = text := by
  cases text <;> rfl

theorem eof_afterPeek {text : List UInt8} : (afterPeek text).eof = true ↔ text = [] := by
  cases text <;> simp

theorem ungetc_fgetc (f : InFile) : ungetc (fgetc f).1 (fgetc f).2 = afterPeek f.rest := by
  cases h : f.rest with
  | nil => rw [fgetc_nil h]; rfl
  | cons c text => rw [fgetc_cons h]; rfl

theorem fst_fgetc (f : InFile) : (fgetc f).1 = f.rest.head? := by
  cases h : f.rest with
  | nil => rw [fgetc_nil h]; rfl
  | cons c text => rw [fgetc_cons h]; rfl

/-! ## Words -/

/-- The text can follow a word: it is empty, or begins with a whitespace character. -/
def EndsWord (t : List UInt8) : Prop := t.head?.all isspace = true

instance (t : List UInt8) : Decidable (EndsWord t) := inferInstanceAs (Decidable (_ = true))

/-- The file after a word that `t` follows, once the character that ends the word is read. -/
def afterWord (t : List UInt8) : InFile := (fgetc (.ofBytes t)).2

@[simp] theorem afterWord_nil : afterWord [] = .atEnd := rfl

@[simp] theorem afterWord_cons (c : UInt8) (t : List UInt8) : afterWord (c :: t) = .ofBytes t := rfl

@[simp] theorem rest_afterWord (t : List UInt8) : (afterWord t).rest = t.tail := by
  cases t <;> rfl

theorem eof_afterWord {t : List UInt8} : (afterWord t).eof = true ↔ t = [] := by
  cases t <;> simp

theorem endsWord_nil : EndsWord [] := rfl

theorem endsWord_cons {c : UInt8} {t : List UInt8} : EndsWord (c :: t) ↔ isspace c = true := by
  simp [EndsWord]

theorem word_unique {w w' t t' : List UInt8} (h : w ++ t = w' ++ t')
    (hw : ∀ c ∈ w, isspace c = false) (hw' : ∀ c ∈ w', isspace c = false) (ht : EndsWord t)
    (ht' : EndsWord t') : w = w' ∧ t = t' := by
  induction w generalizing w' with
  | nil =>
    cases w' with
    | nil => exact ⟨rfl, h⟩
    | cons c w' =>
      rw [List.nil_append, List.cons_append] at h
      have hspace : isspace c = true := endsWord_cons.1 (h ▸ ht)
      exact absurd hspace (by simp [hw' c List.mem_cons_self])
  | cons c w ih =>
    cases w' with
    | nil =>
      rw [List.nil_append, List.cons_append] at h
      have hspace : isspace c = true := endsWord_cons.1 (h ▸ ht')
      exact absurd hspace (by simp [hw c List.mem_cons_self])
    | cons d w' =>
      obtain ⟨rfl, htail⟩ := List.cons.inj h
      obtain ⟨rfl, rfl⟩ := ih htail (fun a ha => hw a (List.mem_cons_of_mem _ ha))
        fun a ha => hw' a (List.mem_cons_of_mem _ ha)
      exact ⟨rfl, rfl⟩

end Marcelov.Lib
