import Mathlib.Data.List.TakeWhile
import Marcelov.DataFile
import Marcelov.Lib.CText

/-!
# The arrays written

What `to_data_file` writes for the sections of its input, read as C source: one array of
`uint8_t` for each section, under its label, with the bytes of its tokens.

A section is written as the digits of all its tokens one after the other (`putDigits_append`), so
`lex_putDigits` needs one induction only, over pairs of digits; it carries `bytes_current_line`,
which is zero before the first element of an array and never again. `linesFit_putDigits` is the
same induction over the lines.
-/

namespace Marcelov

open Lib

/-- An identifier that fits in the token. -/
def IsName (label : List UInt8) : Prop :=
  isIdentifier label = true ∧ label.length ≤ maxTokenSize - 1

/-- The bytes of a token, each by two digits. -/
def tokenBytes : List UInt8 → List UInt8
  | high :: low :: digits => UInt8.ofNat (hexValue [high, low]) :: tokenBytes digits
  | _ => []

def Section.array (s : Section) : ArrayDef :=
  ⟨s.label, (s.tokens.flatMap tokenBytes).map UInt8.toNat⟩

def uint8Type : List UInt8 := ascii ['u', 'i', 'n', 't', '8', '_', 't']

def LinesFit (text : List UInt8) : Prop :=
  ∀ line ∈ text.splitOn '\n'.toUInt8, countConstants line ≤ bytesPerLine

/-- The program exits with 0, and its output defines the arrays of the sections, with at most
16 bytes in a line. -/
structure WritesArrays (bytes : List UInt8) (sections : List Section) : Prop where
  exits : (toDataFile bytes).code = 0
  reads : readArrays uint8Type (lex (toDataFile bytes).toFile) = some (sections.map Section.array)
  lines : LinesFit (toDataFile bytes).toFile

/-! ## The digits of a section -/

/-- The constants written for the digits. -/
def digitWords : List UInt8 → List (List UInt8)
  | high :: low :: digits => ['0'.toUInt8, 'x'.toUInt8, high, low] :: digitWords digits
  | _ => []

section

variable {digits token : List UInt8} {n : ℕ}

theorem tokenBytes_append (h : token.length % 2 = 0) (digits : List UInt8) :
    tokenBytes (token ++ digits) = tokenBytes token ++ tokenBytes digits := by
  fun_induction tokenBytes token with
  | case1 high low token ih =>
    have heven : token.length % 2 = 0 := by
      simp only [List.length_cons] at h
      omega
    simp [tokenBytes, ih heven]
  | case2 token hodd =>
    rw [eq_nil_of_even h hodd]
    rfl

theorem toNat_byte {high low : UInt8} (hhigh : isxdigit high = true) (hlow : isxdigit low = true) :
    (UInt8.ofNat (hexValue [high, low])).toNat = hexValue [high, low] := by
  have hlt : hexValue [high, low] < 256 := by
    have hhigh' := hexDigit_lt hhigh
    have hlow' := hexDigit_lt hlow
    simp only [hexValue, List.foldl_cons, List.foldl_nil]
    omega
  rw [UInt8.toNat_ofNat', Nat.mod_eq_of_lt hlt]

theorem constants_digitWords (h : ∀ c ∈ digits, isxdigit c = true) :
    (digitWords digits).map constant = ((tokenBytes digits).map UInt8.toNat).map some := by
  fun_induction tokenBytes digits with
  | case1 high low digits ih =>
    have hhigh : isxdigit high = true := h high (by simp)
    have hlow : isxdigit low = true := h low (by simp)
    have hconstant : constant ['0'.toUInt8, 'x'.toUInt8, high, low] =
        some (hexValue [high, low]) := if_pos (by simp [hhigh, hlow])
    have hrest := ih fun c hc => h c (by simp [hc])
    rw [digitWords, List.map_cons, List.map_cons, List.map_cons, hconstant, toNat_byte hhigh hlow,
      hrest]
  | case2 digits hodd =>
    rw [digitWords, List.map_nil]
    · rfl
    · exact hodd

theorem isWordChar_digitWord {high low : UInt8} (hhigh : isxdigit high = true)
    (hlow : isxdigit low = true) : ∀ c ∈ ascii ['0', 'x'] ++ [high, low], isWordChar c = true := by
  intro c hc
  simp only [ascii, List.map_cons, List.map_nil, List.cons_append, List.nil_append,
    List.mem_cons, List.not_mem_nil, or_false] at hc
  rcases hc with rfl | rfl | rfl | rfl
  · rfl
  · rfl
  · exact isWordChar_of_isxdigit hhigh
  · exact isWordChar_of_isxdigit hlow

theorem lex_digitWord {high low : UInt8} (hhigh : isxdigit high = true)
    (hlow : isxdigit low = true) :
    lex (ascii ['0', 'x'] ++ [high, low]) = [.word ['0'.toUInt8, 'x'.toUInt8, high, low]] :=
  lex_word (by simp [ascii]) (isWordChar_digitWord hhigh hlow)

/-- Before a further element there is a comma. -/
theorem lex_putSeparator (h : n ≠ 0) : lex (putSeparator n).1 = [.punct ','.toUInt8] ∧
    ∀ text, CutsWords (putSeparator n).1 text := by
  rw [putSeparator]
  split_ifs
  · exact ⟨rfl, fun _ => Or.inl rfl⟩
  · exact ⟨rfl, fun _ => Or.inl rfl⟩

/-- What goes on after an element does not begin with a letter or digit. -/
theorem cutsWords_putDigits (text digits : List UInt8) (h : n ≠ 0) :
    CutsWords text (putDigits digits n).1 := by
  refine Or.inr ?_
  rcases digits with - | ⟨high, - | ⟨low, digits⟩⟩
  · rfl
  · rfl
  · rw [putDigits, putSeparator]
    split_ifs <;> rfl

theorem lex_putDigits_succ (h : ∀ c ∈ digits, isxdigit c = true) (hn : n ≠ 0) :
    lex (putDigits digits n).1 = moreTokens (digitWords digits) := by
  fun_induction putDigits digits n with
  | case1 high low digits n ih =>
    have hhigh : isxdigit high = true := h high (by simp)
    have hlow : isxdigit low = true := h low (by simp)
    have hrest := ih (fun c hc => h c (by simp [hc])) (Nat.succ_ne_zero _)
    obtain ⟨hcomma, hcut⟩ := lex_putSeparator hn
    have hcut' (text : List UInt8) := cutsWords_putDigits text digits
      (Nat.succ_ne_zero (putSeparator n).2)
    rw [List.append_assoc (putSeparator n).1, lex_append (hcut' _), lex_append (hcut _), hcomma,
      lex_digitWord hhigh hlow, hrest]
    rfl
  | case2 digits n hodd =>
    rw [digitWords]
    · rfl
    · exact hodd

/-- **The elements of an array.** -/
theorem lex_putDigits (h : ∀ c ∈ digits, isxdigit c = true) :
    lex (putDigits digits 0).1 = elementTokens (digitWords digits) := by
  rcases digits with - | ⟨high, - | ⟨low, digits⟩⟩
  · rfl
  · rfl
  · have hhigh : isxdigit high = true := h high (by simp)
    have hlow : isxdigit low = true := h low (by simp)
    have hrest : lex (putDigits digits 1).1 = moreTokens (digitWords digits) :=
      lex_putDigits_succ (fun c hc => h c (by simp [hc])) Nat.one_ne_zero
    show lex (ascii ['0', 'x'] ++ [high, low] ++ (putDigits digits 1).1) = _
    rw [lex_append (cutsWords_putDigits _ _ Nat.one_ne_zero), lex_digitWord hhigh hlow, hrest]
    rfl

end

/-! ## A section -/

section

variable {P : List UInt8 → Prop} {text rest : List UInt8} {tokens : List (List UInt8)}
  {sections : List Section} {s : Section}

/-- A label and tokens as `Sections` has them. -/
structure Section.Valid (s : Section) : Prop where
  label : IsName s.label
  tokens : ∀ token ∈ s.tokens, IsToken token

theorem Tokens.forall (h : Tokens text tokens rest) : ∀ token ∈ tokens, IsToken token := by
  induction h with
  | nil => nofun
  | cons htoken _ _ ih => exact List.forall_mem_cons.2 ⟨htoken, ih⟩

theorem Sections.valid (h : Sections IsName text sections rest) : ∀ s ∈ sections, s.Valid := by
  induction h with
  | nil => nofun
  | cons hlabel _ htokens _ ih => exact List.forall_mem_cons.2 ⟨⟨hlabel, htokens.forall⟩, ih⟩

theorem IsName.isWordChar {label : List UInt8} (h : IsName label) :
    ∀ c ∈ label, isWordChar c = true := by
  obtain ⟨hid, -⟩ := h
  cases label with
  | nil => cases hid
  | cons c label => exact List.all_eq_true.1 (Bool.and_eq_true_iff.1 hid).2

theorem IsName.isLabel {label : List UInt8} (h : IsName label) :
    IsLabel (maxTokenSize - 1) label := by
  refine ⟨?_, h.2, fun c hc => isspace_of_isWordChar (h.isWordChar c hc)⟩
  rintro rfl
  cases h.1

theorem IsName.takeWhile {label : List UInt8} (h : IsName label) :
    label.takeWhile (· ≠ 0) = label := by
  refine List.takeWhile_eq_self_iff.2 fun c hc => ?_
  have hword := h.isWordChar c hc
  refine decide_eq_true fun hzero => ?_
  rw [hzero] at hword
  cases hword

theorem Section.Valid.digits (h : s.Valid) : ∀ c ∈ s.tokens.flatten, isxdigit c = true := by
  intro c hc
  obtain ⟨token, htoken, hc⟩ := List.mem_flatten.1 hc
  exact (h.tokens token htoken).2 c hc

theorem tokenBytes_flatten (h : ∀ token ∈ tokens, IsToken token) :
    tokenBytes tokens.flatten = tokens.flatMap tokenBytes := by
  induction tokens with
  | nil => rfl
  | cons token tokens ih =>
    obtain ⟨htoken, htokens⟩ := List.forall_mem_cons.1 h
    rw [List.flatten_cons, tokenBytes_append htoken.even, ih htokens, List.flatMap_cons]

theorem lex_putHeader {label : List UInt8} (h : IsName label) : lex (putHeader label) =
    [.word uint8Type, .word label] ++ (ascii ['[', ']', '=', '{']).map .punct := by
  have hne : label ≠ [] := h.isLabel.1
  rw [putHeader, h.takeWhile, lex_append (Or.inr rfl), lex_append (Or.inl rfl),
    lex_word hne h.isWordChar]
  rfl

theorem lex_putSection (h : s.Valid) :
    lex (putSection s) = arrayTokens uint8Type s.label (digitWords s.tokens.flatten) := by
  rw [putSection, lex_append (Or.inr rfl), List.append_assoc, lex_append (Or.inr rfl),
    lex_append (Or.inl rfl), lex_putHeader h.label, lex_putDigits h.digits]
  rfl

theorem lex_putSections (h : ∀ s ∈ sections, s.Valid) : lex (sections.flatMap putSection) =
    sections.flatMap fun s => arrayTokens uint8Type s.label (digitWords s.tokens.flatten) := by
  induction sections with
  | nil => rfl
  | cons s sections ih =>
    obtain ⟨hs, hsections⟩ := List.forall_mem_cons.1 h
    have hcut : CutsWords (putSection s) (sections.flatMap putSection) := by
      refine Or.inl ?_
      rw [putSection, List.getLast?_append]
      rfl
    rw [List.flatMap_cons, List.flatMap_cons, lex_append hcut, lex_putSection hs, ih hsections]

/-- **The arrays are read back.** -/
theorem readArrays_putSections (h : ∀ s ∈ sections, s.Valid) :
    readArrays uint8Type (lex (sections.flatMap putSection)) =
      some (sections.map Section.array) := by
  rw [lex_putSections h]
  induction sections with
  | nil => rfl
  | cons s sections ih =>
    obtain ⟨hs, hsections⟩ := List.forall_mem_cons.1 h
    have hwords := constants_digitWords hs.digits
    rw [tokenBytes_flatten hs.tokens] at hwords
    rw [List.flatMap_cons, readArrays_arrayTokens uint8Type _ hs.label.1 hwords, ih hsections]
    rfl

end

/-! ## The lines -/

section

variable {line text digits : List UInt8} {sections : List Section} {s : Section} {n : ℕ}

theorem linesFit_of_not_mem (h : '\n'.toUInt8 ∉ line)
    (hcount : countConstants line ≤ bytesPerLine) : LinesFit line := by
  rw [LinesFit, List.splitOn_eq_singleton h]
  exact List.forall_mem_singleton.2 hcount

theorem linesFit_append {a b : List UInt8} :
    LinesFit (a ++ '\n'.toUInt8 :: b) ↔ LinesFit a ∧ LinesFit b := by
  rw [LinesFit, List.splitOn_append_cons_self, List.forall_mem_append]
  rfl

theorem countConstants_digitWord {high low : UInt8} (hhigh : isxdigit high = true)
    (hlow : isxdigit low = true) : countConstants (ascii ['0', 'x'] ++ [high, low]) = 1 := by
  rw [countConstants, lex_digitWord hhigh hlow]
  simp [CToken.isConstant, constant, hhigh, hlow]

theorem newline_not_mem_word {w : List UInt8} (h : ∀ c ∈ w, isWordChar c = true) :
    '\n'.toUInt8 ∉ w := by
  intro hmem
  have hword := h _ hmem
  cases hword

/-- A line with `n` constants that is not at its end; without a constant it ends in a space. -/
structure OpenLine (n : ℕ) (line : List UInt8) : Prop where
  newline : '\n'.toUInt8 ∉ line
  count : countConstants line = n
  cuts : n = 0 → ∀ text, CutsWords line text

theorem OpenLine.linesFit (h : OpenLine n line) (hn : n ≤ bytesPerLine) : LinesFit line :=
  linesFit_of_not_mem h.newline (h.count ▸ hn)

theorem openLine_tab : OpenLine 0 ['\t'.toUInt8] := by
  refine ⟨by decide, rfl, ?_⟩
  intro _ text
  exact Or.inl rfl

section

variable {high low : UInt8}

theorem OpenLine.first (h : OpenLine 0 line) (hhigh : isxdigit high = true)
    (hlow : isxdigit low = true) : OpenLine 1 (line ++ (ascii ['0', 'x'] ++ [high, low])) := by
  have hnewline := newline_not_mem_word (isWordChar_digitWord hhigh hlow)
  refine ⟨List.not_mem_append h.newline hnewline, ?_, ?_⟩
  · rw [countConstants_append (h.cuts rfl _), h.count, countConstants_digitWord hhigh hlow]
  · intro hzero
    cases hzero

theorem OpenLine.next (h : OpenLine n line) (hhigh : isxdigit high = true)
    (hlow : isxdigit low = true) :
    OpenLine (n + 1) (line ++ (ascii [',', ' '] ++ (ascii ['0', 'x'] ++ [high, low]))) := by
  have hnewline := newline_not_mem_word (isWordChar_digitWord hhigh hlow)
  refine ⟨List.not_mem_append h.newline (List.not_mem_append (by decide) hnewline), ?_, ?_⟩
  · rw [countConstants_append (Or.inr rfl), countConstants_append (Or.inl rfl), h.count,
      countConstants_digitWord hhigh hlow]
    rfl
  · intro hzero
    cases hzero

end

/-- The lines from one that has `n` constants on. -/
theorem linesFit_putDigits (hline : OpenLine n line) (hn : n ≤ bytesPerLine)
    (h : ∀ c ∈ digits, isxdigit c = true) : LinesFit (line ++ (putDigits digits n).1) := by
  fun_induction putDigits digits n generalizing line with
  | case1 high low digits n ih =>
    have hhigh : isxdigit high = true := h high (by simp)
    have hlow : isxdigit low = true := h low (by simp)
    have hrest : ∀ c ∈ digits, isxdigit c = true := fun c hc => h c (by simp [hc])
    by_cases hfull : bytesPerLine ≤ n
    · -- the line ends, and the element is the first of the next one
      have hsep : putSeparator n = (ascii [',', '\n', '\t'], 0) := if_pos hfull
      rw [hsep] at ih ⊢
      have hcomma : LinesFit (line ++ [','.toUInt8]) := by
        refine linesFit_of_not_mem (List.not_mem_append hline.newline (by decide)) ?_
        rw [countConstants_append (Or.inr rfl), hline.count]
        exact hn
      have hnext := ih (openLine_tab.first hhigh hlow) (by decide) hrest
      have hlines := linesFit_append.2 ⟨hcomma, hnext⟩
      simpa [ascii] using hlines
    · by_cases hzero : n = 0
      · have hsep : putSeparator n = ([], 0) := by
          rw [putSeparator, if_neg hfull, if_neg (not_not_intro hzero), hzero]
        rw [hsep] at ih ⊢
        rw [hzero] at hline
        have hnext := ih (hline.first hhigh hlow) (by decide) hrest
        simpa using hnext
      · have hsep : putSeparator n = (ascii [',', ' '], n) := by
          rw [putSeparator, if_neg hfull, if_pos hzero]
        rw [hsep] at ih ⊢
        have hnext := ih (hline.next hhigh hlow) (Nat.lt_of_not_le hfull) hrest
        simpa using hnext
  | case2 digits n hodd =>
    rw [List.append_nil]
    exact hline.linesFit hn

theorem countConstants_label {label : List UInt8} (h : IsName label) :
    countConstants (uint8Type ++ ascii [' '] ++ label ++ ascii ['[', ']', ' ', '=', ' ', '{']) =
      0 := by
  have hname : constant label = none := constant_of_isIdentifier h.1
  have hlabel : countConstants label = 0 := by
    rw [countConstants, lex_word h.isLabel.1 h.isWordChar]
    simp [CToken.isConstant, hname]
  rw [countConstants_append (Or.inr rfl), countConstants_append (Or.inl rfl), hlabel]
  decide

theorem linesFit_putSection (h : s.Valid) (htext : LinesFit text) :
    LinesFit (putSection s ++ text) := by
  have hsplit : putSection s ++ text =
      uint8Type ++ ascii [' '] ++ s.label ++ ascii ['[', ']', ' ', '=', ' ', '{'] ++ '\n'.toUInt8 ::
        (['\t'.toUInt8] ++ (putDigits s.tokens.flatten 0).1 ++ '\n'.toUInt8 ::
          (ascii ['}', ';'] ++ '\n'.toUInt8 :: text)) := by
    rw [putSection, putHeader, h.label.takeWhile]
    simp [ascii, uint8Type, putFooter]
  rw [hsplit, linesFit_append, linesFit_append, linesFit_append]
  refine ⟨?_, ?_, ?_, htext⟩
  · have hzero := countConstants_label h.label
    refine linesFit_of_not_mem ?_ (by rw [hzero]; exact Nat.zero_le _)
    have hlabel : '\n'.toUInt8 ∉ s.label := newline_not_mem_word h.label.isWordChar
    exact List.not_mem_append (List.not_mem_append (by decide) hlabel) (by decide)
  · exact linesFit_putDigits openLine_tab (Nat.zero_le _) h.digits
  · exact linesFit_of_not_mem (by decide) (by decide)

theorem linesFit_putSections (h : ∀ s ∈ sections, s.Valid) :
    LinesFit (sections.flatMap putSection) := by
  induction sections with
  | nil => exact linesFit_of_not_mem nofun (Nat.zero_le _)
  | cons s sections ih =>
    obtain ⟨hs, hsections⟩ := List.forall_mem_cons.1 h
    exact linesFit_putSection hs (ih hsections)

end

/-! ## The result -/

/-- **Round trip.** For a file made of sections whose labels are identifiers, the program exits
with 0 and writes the arrays that the sections stand for, in order. -/
theorem toDataFile_writesArrays {bytes : List UInt8} {sections : List Section}
    (h : Sections IsName bytes sections []) : WritesArrays bytes sections := by
  have hrun : toDataFile bytes = ⟨0, sections.flatMap putSection, ""⟩ :=
    copySections_of_sections (h.mono fun _ => IsName.isLabel) (Or.inl rfl) rfl
  constructor
  · rw [hrun]
  · rw [hrun]
    exact readArrays_putSections h.valid
  · rw [hrun]
    exact linesFit_putSections h.valid

/-- A file with a section of one token, and a label at its end. -/
theorem toDataFile_writesArrays_two :
    WritesArrays (ascii ['$', 'a', ' ', 'f', 'F', '\n', '$', 'b'])
      [⟨ascii ['a'], [ascii ['f', 'F']]⟩, ⟨ascii ['b'], []⟩] := by
  have hlast : Sections IsName ('$'.toUInt8 :: (ascii ['b'] ++ [])) [⟨ascii ['b'], []⟩] [] :=
    .cons (s := ⟨ascii ['b'], []⟩) ⟨rfl, by decide⟩ endsWord_nil .nil .nil
  have htokens : Tokens (ascii ['f', 'F'] ++ ascii ['\n', '$', 'b']) [ascii ['f', 'F']]
      (ascii ['$', 'b']) := .cons ⟨Or.inl rfl, List.all_eq_true.1 rfl⟩ rfl .nil
  have hsections : Sections IsName
      ('$'.toUInt8 :: (ascii ['a'] ++ ascii [' ', 'f', 'F', '\n', '$', 'b']))
      [⟨ascii ['a'], [ascii ['f', 'F']]⟩, ⟨ascii ['b'], []⟩] [] :=
    .cons (s := ⟨ascii ['a'], [ascii ['f', 'F']]⟩) ⟨rfl, by decide⟩ rfl htokens hlast
  exact toDataFile_writesArrays hsections

end Marcelov
