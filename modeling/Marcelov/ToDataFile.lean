import Marcelov.Lib.Stdio

/-!
# The font converter

`to_data_file.c`, which turns a text of hex words into C arrays: `try_get_label` and
`try_get_hex` read a word each, and `main` copies the words of one section after the other. Both
files are open, and what is written before an `exit(1)` is part of the outcome.

`tryGetLabel_some_iff` to `tryGetHex_none_iff` say for each of the two functions what it has read
when it returns. Every turn of the loops of `main` takes a character from the file, so they end.
-/

namespace Marcelov

open Lib

def maxTokenSize : ℕ := 128

/-- What ends the program with `exit(1)`. -/
inductive Fatal where
  | tokenTooBig (bufsiz : ℕ)
  | nonHexDigits
  | expectedLabel
  | wordSize (bits : ℕ)

/-- The text for `stderr`. -/
def Fatal.message : Fatal → String
  | tokenTooBig bufsiz => s!"FATAL: Token was too big (more than {bufsiz} characters)\n"
  | nonHexDigits => "FATAL: Numeric token had non-hex digits\n"
  | expectedLabel => "FATAL: Expected label but got something else\n"
  | wordSize bits => s!"FATAL: Unexpected word size ({bits} bits)\n"

/-- What the program leaves: its exit code, the file `to` and what it prints to `stderr`. -/
structure Outcome where
  code : ℕ
  toFile : List UInt8
  stderr : String

/-- `exit(1)`, with `toFile` written so far. -/
def Fatal.exit (e : Fatal) (toFile : List UInt8) : Outcome := ⟨1, toFile, e.message⟩

/-! ## Reading words -/

/-- The loop of `try_get_label` and `try_get_hex`: `buf` is written, `room` characters fit after
it, and a character that `ok` refuses is fatal. -/
def getWord (ok : UInt8 → Bool) (bufsiz : ℕ) :
    ℕ → List UInt8 → InFile → Except Fatal (List UInt8 × InFile)
  | 0, _, _ => .error (.tokenTooBig bufsiz)
  | room + 1, buf, f =>
    match fgetc f with
    | (none, f) => .ok (buf, f)
    | (some c, f) =>
      if isspace c then .ok (buf, f)
      else if ok c then getWord ok bufsiz room (buf ++ [c]) f
      else .error .nonHexDigits

/-- From `*written = 0` on: the token is there where `*written != 0` is returned. -/
def getToken (ok : UInt8 → Bool) (bufsiz : ℕ) (f : InFile) :
    Except Fatal (Option (List UInt8) × InFile) :=
  match getWord ok bufsiz bufsiz [] f with
  | .error e => .error e
  | .ok (buf, f) => .ok (if buf.length ≠ 0 then some buf else none, f)

def tryGetLabel (f : InFile) (bufsiz : ℕ) : Except Fatal (Option (List UInt8) × InFile) :=
  let (c, f) := fgetc f
  if c ≠ some '$'.toUInt8 then .ok (none, ungetc c f) else getToken (fun _ => true) bufsiz f

def tryGetHex (f : InFile) (bufsiz : ℕ) : Except Fatal (Option (List UInt8) × InFile) :=
  let (c, f) := fgetc f
  let f := ungetc c f
  if c.any isxdigit then getToken isxdigit bufsiz f else .ok (none, f)

/-- `t` follows the word `w` in `text`; the word has less than `room` characters, all of them
accepted by `ok`. -/
structure Word (ok : UInt8 → Bool) (room : ℕ) (text w t : List UInt8) : Prop where
  text_eq : text = w ++ t
  length_lt : w.length < room
  chars : ∀ c ∈ w, isspace c = false ∧ ok c = true
  ends : EndsWord t

section

variable {ok : UInt8 → Bool} {bufsiz room : ℕ} {buf buf' w t : List UInt8} {f f' : InFile}

theorem getWord_of_word (h : Word ok room f.rest w t) :
    getWord ok bufsiz room buf f = .ok (buf ++ w, afterWord t) := by
  obtain ⟨htext, hroom, hchars, hends⟩ := h
  induction w generalizing room buf f with
  | nil =>
    obtain ⟨room, rfl⟩ := Nat.exists_eq_succ_of_ne_zero (Nat.ne_of_gt hroom)
    cases t with
    | nil => simp [getWord, fgetc_nil htext]
    | cons c t => simp [getWord, fgetc_cons htext, endsWord_cons.1 hends]
  | cons c w ih =>
    obtain ⟨room, rfl⟩ := Nat.exists_eq_succ_of_ne_zero (Nat.ne_of_gt (Nat.zero_lt_of_lt hroom))
    obtain ⟨hspace, hok⟩ := hchars c List.mem_cons_self
    have hrest : getWord ok bufsiz room (buf ++ [c]) (.ofBytes (w ++ t)) =
        .ok (buf ++ [c] ++ w, afterWord t) :=
      ih rfl (Nat.lt_of_succ_lt_succ hroom) fun a ha => hchars a (List.mem_cons_of_mem c ha)
    simp [getWord, fgetc_cons htext, hspace, hok, hrest]

theorem word_of_getWord (h : getWord ok bufsiz room buf f = .ok (buf', f')) :
    ∃ w t, Word ok room f.rest w t ∧ buf' = buf ++ w ∧ f' = afterWord t := by
  induction room generalizing buf f with
  | zero => cases h
  | succ room ih =>
    rcases hrest : f.rest with - | ⟨c, rest⟩
    · simp only [getWord, fgetc_nil hrest, Except.ok.injEq, Prod.mk.injEq] at h
      obtain ⟨rfl, rfl⟩ := h
      exact ⟨[], [], ⟨rfl, room.succ_pos, nofun, endsWord_nil⟩, by simp, rfl⟩
    · simp only [getWord, fgetc_cons hrest] at h
      split_ifs at h with hspace hok
      · simp only [Except.ok.injEq, Prod.mk.injEq] at h
        obtain ⟨rfl, rfl⟩ := h
        exact ⟨[], c :: rest, ⟨rfl, room.succ_pos, nofun, endsWord_cons.2 hspace⟩, by simp, rfl⟩
      · obtain ⟨w, t, hw, rfl, rfl⟩ := ih h
        obtain ⟨htext, hroom, hchars, hends⟩ := hw
        refine ⟨c :: w, t, ⟨?_, Nat.succ_lt_succ hroom, ?_, hends⟩, by simp, rfl⟩
        · rw [List.cons_append, ← htext]
          rfl
        · intro a ha
          rcases List.mem_cons.1 ha with rfl | ha
          · exact ⟨by simpa using hspace, hok⟩
          · exact hchars a ha

theorem getToken_some_iff : getToken ok bufsiz f = .ok (some w, f') ↔
    ∃ t, Word ok bufsiz f.rest w t ∧ w ≠ [] ∧ f' = afterWord t := by
  unfold getToken
  constructor
  · intro h
    split at h
    · cases h
    · next buf g hget =>
      obtain ⟨w', t, hword, hbuf, rfl⟩ := word_of_getWord hget
      obtain rfl : buf = w' := hbuf
      split_ifs at h with hne
      · cases h
        exact ⟨t, hword, List.ne_nil_of_length_pos (Nat.pos_of_ne_zero hne), rfl⟩
      · cases h
  · rintro ⟨t, hword, hne, rfl⟩
    simp [getWord_of_word hword, hne]

theorem getToken_none_iff : getToken ok bufsiz f = .ok (none, f') ↔
    0 < bufsiz ∧ EndsWord f.rest ∧ f' = afterWord f.rest := by
  unfold getToken
  constructor
  · intro h
    split at h
    · cases h
    · next buf g hget =>
      obtain ⟨w, t, hword, hbuf, rfl⟩ := word_of_getWord hget
      obtain rfl : buf = w := hbuf
      obtain ⟨htext, hroom, -, hends⟩ := hword
      split_ifs at h with hne
      · cases h
      · obtain rfl : buf = [] := by simpa using hne
        obtain rfl : f.rest = t := htext
        cases h
        exact ⟨hroom, hends, rfl⟩
  · rintro ⟨hroom, hends, rfl⟩
    have hword : Word ok bufsiz f.rest [] f.rest := ⟨rfl, hroom, nofun, hends⟩
    simp [getWord_of_word hword]

end

def NoHex (text : List UInt8) : Prop := text.head?.any isxdigit = false

section

variable {bufsiz : ℕ} {w : List UInt8} {f f' : InFile}

theorem tryGetHex_eq (f : InFile) (bufsiz : ℕ) : tryGetHex f bufsiz =
    if f.rest.head?.any isxdigit then getToken isxdigit bufsiz (afterPeek f.rest)
    else .ok (none, afterPeek f.rest) := by
  rw [← fst_fgetc, ← ungetc_fgetc]
  rfl

theorem tryGetHex_some_iff : tryGetHex f bufsiz = .ok (some w, f') ↔
    ∃ t, Word isxdigit bufsiz f.rest w t ∧ w ≠ [] ∧ f' = afterWord t := by
  rw [tryGetHex_eq]
  split_ifs with hhex
  · rw [getToken_some_iff, rest_afterPeek]
  · constructor
    · intro h
      cases h
    · rintro ⟨t, ⟨htext, -, hchars, -⟩, hne, -⟩
      obtain ⟨c, w, rfl⟩ := List.exists_cons_of_ne_nil hne
      refine absurd ?_ hhex
      simp [htext, (hchars c List.mem_cons_self).2]

theorem tryGetHex_none_iff :
    tryGetHex f bufsiz = .ok (none, f') ↔ NoHex f.rest ∧ f' = afterPeek f.rest := by
  rw [tryGetHex_eq, NoHex]
  by_cases hhex : f.rest.head?.any isxdigit = true
  · rw [if_pos hhex, getToken_none_iff, rest_afterPeek, hhex]
    constructor
    · rintro ⟨-, hends, -⟩
      -- a digit does not end a word
      cases hrest : f.rest with
      | nil => simp [hrest] at hhex
      | cons c text =>
        rw [hrest] at hhex hends
        have hdigit : isspace c = false := isspace_of_isxdigit (by simpa using hhex)
        simp [endsWord_cons.1 hends] at hdigit
    · intro h
      cases h.1
  · rw [if_neg hhex]
    simp [hhex, eq_comm]

theorem tryGetLabel_of_dollar {text : List UInt8} (h : f.rest = '$'.toUInt8 :: text) :
    tryGetLabel f bufsiz = getToken (fun _ => true) bufsiz (.ofBytes text) := by
  simp [tryGetLabel, fgetc_cons h]

theorem tryGetLabel_of_ne (h : f.rest.head? ≠ some '$'.toUInt8) :
    tryGetLabel f bufsiz = .ok (none, afterPeek f.rest) := by
  rw [← fst_fgetc] at h
  rw [← ungetc_fgetc]
  exact if_pos h

theorem tryGetLabel_some_iff : tryGetLabel f bufsiz = .ok (some w, f') ↔
    ∃ text t, f.rest = '$'.toUInt8 :: text ∧ Word (fun _ => true) bufsiz text w t ∧ w ≠ [] ∧
      f' = afterWord t := by
  by_cases hhead : f.rest.head? = some '$'.toUInt8
  · obtain ⟨text, hrest⟩ := List.head?_eq_some_iff.1 hhead
    rw [tryGetLabel_of_dollar hrest, getToken_some_iff, hrest]
    simp
  · rw [tryGetLabel_of_ne hhead]
    constructor
    · intro h
      cases h
    · rintro ⟨text, t, hrest, -⟩
      exact absurd (by rw [hrest]; rfl) hhead

/-- Without a label the file is at its end in two cases: nothing was left, or a `$` was. -/
theorem eof_of_tryGetLabel_none (h : tryGetLabel f bufsiz = .ok (none, f')) :
    f'.eof = true ↔ f.rest = [] ∨ f.rest = ['$'.toUInt8] := by
  by_cases hhead : f.rest.head? = some '$'.toUInt8
  · obtain ⟨text, hrest⟩ := List.head?_eq_some_iff.1 hhead
    rw [tryGetLabel_of_dollar hrest, getToken_none_iff] at h
    obtain ⟨-, -, rfl⟩ := h
    rw [eof_afterWord, hrest]
    simp
  · rw [tryGetLabel_of_ne hhead] at h
    cases h
    rw [eof_afterPeek]
    refine (or_iff_left ?_).symm
    intro hrest
    exact hhead (by rw [hrest]; rfl)

theorem tryGetLabel_atEnd (h : f.rest = [] ∨ f.rest = ['$'.toUInt8]) (hpos : 0 < bufsiz) :
    tryGetLabel f bufsiz = .ok (none, .atEnd) := by
  rcases h with h | h
  · rw [tryGetLabel_of_ne (by simp [h]), h]
    rfl
  · rw [tryGetLabel_of_dollar h, getToken_none_iff]
    exact ⟨hpos, endsWord_nil, rfl⟩

theorem Word.tail_lt {ok : UInt8 → Bool} {room : ℕ} {text w t : List UInt8}
    (h : Word ok room text w t) (hne : w ≠ []) : t.tail.length < text.length := by
  have hpos : 0 < w.length := List.length_pos_iff.2 hne
  rw [h.text_eq, List.length_append, List.length_tail]
  omega

theorem rest_lt_of_tryGetHex (h : tryGetHex f bufsiz = .ok (some w, f')) :
    f'.rest.length < f.rest.length := by
  obtain ⟨t, hword, hne, rfl⟩ := tryGetHex_some_iff.1 h
  rw [rest_afterWord]
  exact hword.tail_lt hne

theorem rest_lt_of_tryGetLabel (h : tryGetLabel f bufsiz = .ok (some w, f')) :
    f'.rest.length < f.rest.length := by
  obtain ⟨text, t, hrest, hword, hne, rfl⟩ := tryGetLabel_some_iff.1 h
  rw [rest_afterWord, hrest, List.length_cons]
  exact Nat.lt_succ_of_lt (hword.tail_lt hne)

end

/-! ## Writing the arrays -/

def bytesPerLine : ℕ := 16

/-- What is written before a byte, and `bytes_current_line` after that. -/
def putSeparator (bytesCurrentLine : ℕ) : List UInt8 × ℕ :=
  if bytesPerLine ≤ bytesCurrentLine then (ascii [',', '\n', '\t'], 0)
  else if bytesCurrentLine ≠ 0 then (ascii [',', ' '], bytesCurrentLine)
  else ([], bytesCurrentLine)

/-- The loop over the digits of a token, whose number is even: what it writes, and
`bytes_current_line` after it. -/
def putDigits : List UInt8 → ℕ → List UInt8 × ℕ
  | high :: low :: digits, bytesCurrentLine =>
    ((putSeparator bytesCurrentLine).1 ++ ascii ['0', 'x'] ++ [high, low] ++
        (putDigits digits ((putSeparator bytesCurrentLine).2 + 1)).1,
      (putDigits digits ((putSeparator bytesCurrentLine).2 + 1)).2)
  | _, bytesCurrentLine => ([], bytesCurrentLine)

theorem eq_nil_of_even {digits : List UInt8} (h : digits.length % 2 = 0)
    (hpair : ∀ high low rest, digits = high :: low :: rest → False) : digits = [] := by
  rcases digits with - | ⟨high, - | ⟨low, rest⟩⟩
  · rfl
  · cases h
  · exact (hpair high low rest rfl).elim

/-- `bytes_current_line` goes on from one token to the next. -/
theorem putDigits_append {token : List UInt8} (h : token.length % 2 = 0) (digits : List UInt8)
    (n : ℕ) : putDigits (token ++ digits) n =
      ((putDigits token n).1 ++ (putDigits digits (putDigits token n).2).1,
        (putDigits digits (putDigits token n).2).2) := by
  fun_induction putDigits token n with
  | case1 high low token n ih =>
    have heven : token.length % 2 = 0 := by
      simp only [List.length_cons] at h
      omega
    have hrest := ih heven
    simp only [List.cons_append, putDigits, List.append_assoc]
    rw [hrest]
  | case2 token n hodd =>
    rw [eq_nil_of_even h hodd]
    rfl

/-- The loop over the tokens of a section: what it writes, and the file after it. -/
def copyTokens (f : InFile) (bytesCurrentLine : ℕ) : List UInt8 × Except Fatal InFile :=
  match _h : tryGetHex f maxTokenSize with
  | .error e => ([], .error e)
  | .ok (none, f') => ([], .ok f')
  | .ok (some token, f') =>
    if token.length ≠ 16 ∧ token.length ≠ 8 ∧ token.length ≠ 4 ∧ token.length ≠ 2 then
      ([], .error (.wordSize (token.length * 4)))
    else
      let digits := putDigits token bytesCurrentLine
      let rest := copyTokens f' digits.2
      (digits.1 ++ rest.1, rest.2)
termination_by f.rest.length
decreasing_by exact rest_lt_of_tryGetHex _h

theorem rest_le_of_copyTokens {f f' : InFile} {bytesCurrentLine : ℕ}
    (h : (copyTokens f bytesCurrentLine).2 = .ok f') : f'.rest.length ≤ f.rest.length := by
  fun_induction copyTokens f bytesCurrentLine with
  | case1 => cases h
  | case2 f _ g hget =>
    cases h
    obtain ⟨-, rfl⟩ := tryGetHex_none_iff.1 hget
    exact Nat.le_of_eq (congrArg List.length (rest_afterPeek f.rest))
  | case3 => cases h
  | case4 f _ token g hget _ digits rest ih =>
    exact Nat.le_trans (ih h) (Nat.le_of_lt (rest_lt_of_tryGetHex hget))

/-- `uint8_t %.*s[] = ` and the opening brace. `printf` stops at a NUL. -/
def putHeader (label : List UInt8) : List UInt8 :=
  ascii ['u', 'i', 'n', 't', '8', '_', 't', ' '] ++ label.takeWhile (· ≠ 0) ++
    ascii ['[', ']', ' ', '=', ' ', '{', '\n']

def putFooter : List UInt8 := ascii ['\n', '}', ';', '\n']

/-- The `do` loop of `main`. -/
def copySections (f : InFile) : Outcome :=
  match _h : tryGetLabel f maxTokenSize with
  | .error e => e.exit []
  | .ok (none, f') => if f'.eof then ⟨0, [], ""⟩ else Fatal.expectedLabel.exit []
  | .ok (some label, f') =>
    let tokens := copyTokens f' 0
    let head := putHeader label ++ ascii ['\t'] ++ tokens.1
    match _h' : tokens.2 with
    | .error e => e.exit head
    | .ok f'' =>
      let rest := copySections f''
      ⟨rest.code, head ++ putFooter ++ rest.toFile, rest.stderr⟩
termination_by f.rest.length
decreasing_by exact Nat.lt_of_le_of_lt (rest_le_of_copyTokens _h') (rest_lt_of_tryGetLabel _h)

/-- The program, for the bytes of its input file. -/
def toDataFile (bytes : List UInt8) : Outcome := copySections (.ofBytes bytes)

end Marcelov
