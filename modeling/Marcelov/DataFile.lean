import Marcelov.ToDataFile

/-!
# The data files

The grammar of the files given to `to_data_file`: sections, each of them a `$`, a label and
tokens of hex digits. `Tokens` and `Sections` are relations between a text, what its beginning
says, and the rest of it; a word is ended by one whitespace character, or by the end of the text,
after which only an empty rest is left.

A text says one thing only (`Sections.unique`), and the program copies what it says
(`copySections_of_sections`). It takes a `$` at the end of the file for the end, and refuses a
label of `MAX_TOKEN_SIZE` characters: `acceptsGrammar_iff` says that it accepts and refuses the
right files apart from these.
-/

namespace Marcelov

open Lib

/-- 2, 4, 8 or 16 hex digits. -/
def IsToken (token : List UInt8) : Prop :=
  (token.length = 2 ∨ token.length = 4 ∨ token.length = 8 ∨ token.length = 16) ∧
    ∀ c ∈ token, isxdigit c = true

/-- One to `n` characters that are not whitespace. -/
def IsLabel (n : ℕ) (label : List UInt8) : Prop :=
  label ≠ [] ∧ label.length ≤ n ∧ ∀ c ∈ label, isspace c = false

structure Section where
  label : List UInt8
  tokens : List (List UInt8)

/-- The text is `tokens`, each with the character that ends it, and `rest`. -/
inductive Tokens : List UInt8 → List (List UInt8) → List UInt8 → Prop
  | nil {rest : List UInt8} : Tokens rest [] rest
  | cons {token t rest : List UInt8} {tokens : List (List UInt8)} :
      IsToken token → EndsWord t → Tokens t.tail tokens rest →
      Tokens (token ++ t) (token :: tokens) rest

/-- The text is `sections`, with labels that meet `P`, and `rest`. -/
inductive Sections (P : List UInt8 → Prop) : List UInt8 → List Section → List UInt8 → Prop
  | nil {rest : List UInt8} : Sections P rest [] rest
  | cons {s : Section} {t text rest : List UInt8} {sections : List Section} :
      P s.label → EndsWord t → Tokens t.tail s.tokens text → Sections P text sections rest →
      Sections P ('$'.toUInt8 :: (s.label ++ t)) (s :: sections) rest

/-! ## A text says one thing -/

section

variable {P Q : List UInt8 → Prop} {text rest rest' token : List UInt8}
  {tokens tokens' : List (List UInt8)} {sections sections' : List Section}

theorem IsToken.ne_nil (h : IsToken token) : token ≠ [] := by
  obtain ⟨hlen, -⟩ := h
  apply List.ne_nil_of_length_pos
  omega

theorem IsToken.even (h : IsToken token) : token.length % 2 = 0 := by
  obtain ⟨hlen, -⟩ := h
  omega

theorem IsToken.isspace (h : IsToken token) : ∀ c ∈ token, isspace c = false :=
  fun c hc => isspace_of_isxdigit (h.2 c hc)

theorem IsToken.not_noHex (h : IsToken token) (t : List UInt8) : ¬ NoHex (token ++ t) := by
  intro hno
  obtain ⟨c, token, rfl⟩ := List.exists_cons_of_ne_nil h.ne_nil
  simp [NoHex, h.2 c List.mem_cons_self] at hno

theorem Tokens.unique (h : Tokens text tokens rest) (h' : Tokens text tokens' rest')
    (hrest : NoHex rest) (hrest' : NoHex rest') : tokens = tokens' ∧ rest = rest' := by
  induction h generalizing tokens' with
  | nil =>
    cases h' with
    | nil => exact ⟨rfl, rfl⟩
    | cons htoken => exact absurd hrest (htoken.not_noHex _)
  | @cons token t rest tokens htoken hends hmore ih =>
    generalize htext : token ++ t = text at h'
    cases h' with
    | nil => exact absurd (htext ▸ hrest') (htoken.not_noHex t)
    | cons htoken' hends' hmore' =>
      obtain ⟨rfl, rfl⟩ := word_unique htext htoken.isspace htoken'.isspace hends hends'
      obtain ⟨rfl, rfl⟩ := ih hmore' hrest
      exact ⟨rfl, rfl⟩

/-- The end of the sections: the end of the text, or a lone `$` before it. -/
def AtEnd (rest : List UInt8) : Prop := rest = [] ∨ rest = ['$'.toUInt8]

theorem AtEnd.noHex (h : AtEnd rest) : NoHex rest := by
  rcases h with rfl | rfl <;> rfl

theorem Sections.noHex (h : Sections P text sections rest) (hrest : AtEnd rest) : NoHex text := by
  cases h with
  | nil => exact hrest.noHex
  | cons => rfl

theorem Sections.mono (hPQ : ∀ label, P label → Q label) (h : Sections P text sections rest) :
    Sections Q text sections rest := by
  induction h with
  | nil => exact .nil
  | cons hlabel hends htokens _ ih => exact .cons (hPQ _ hlabel) hends htokens ih

theorem not_atEnd_section {label t : List UInt8} (hlabel : label ≠ []) :
    ¬ AtEnd ('$'.toUInt8 :: (label ++ t)) := by
  simp [AtEnd, hlabel]

theorem Sections.unique {n : ℕ} (h : Sections (IsLabel n) text sections rest)
    (h' : Sections (IsLabel n) text sections' rest') (hrest : AtEnd rest) (hrest' : AtEnd rest') :
    sections = sections' ∧ rest = rest' := by
  induction h generalizing sections' with
  | nil =>
    cases h' with
    | nil => exact ⟨rfl, rfl⟩
    | cons hlabel => exact absurd hrest (not_atEnd_section hlabel.1)
  | @cons s t text rest sections hlabel hends htokens hmore ih =>
    generalize htext : '$'.toUInt8 :: (s.label ++ t) = text at h'
    cases h' with
    | nil => exact absurd (htext ▸ hrest') (not_atEnd_section hlabel.1)
    | @cons s' _ _ _ _ hlabel' hends' htokens' hmore' =>
      obtain ⟨hlabels, rfl⟩ :=
        word_unique (List.cons.inj htext).2 hlabel.2.2 hlabel'.2.2 hends hends'
      obtain ⟨htokens, rfl⟩ := htokens.unique htokens' (hmore.noHex hrest) (hmore'.noHex hrest')
      obtain ⟨rfl, rfl⟩ := ih hmore' hrest
      have hs : s = s' := by
        cases s
        cases s'
        simp_all
      exact ⟨by rw [hs], rfl⟩

end

/-! ## What the program takes -/

section

variable {text rest token : List UInt8} {tokens : List (List UInt8)} {sections : List Section}
  {f f' : InFile} {n : ℕ}

theorem IsToken.word {t : List UInt8} (h : IsToken token) (ht : EndsWord t) :
    Word isxdigit maxTokenSize (token ++ t) token t := by
  refine ⟨rfl, ?_, fun c hc => ⟨h.isspace c hc, h.2 c hc⟩, ht⟩
  rw [maxTokenSize]
  rcases h.1 with hlen | hlen | hlen | hlen <;> omega

theorem copyTokens_none (h : tryGetHex f maxTokenSize = .ok (none, f')) (n : ℕ) :
    copyTokens f n = ([], .ok f') := by
  rw [copyTokens]
  split <;> simp_all

theorem copyTokens_some (h : tryGetHex f maxTokenSize = .ok (some token, f'))
    (htoken : IsToken token) (n : ℕ) :
    copyTokens f n = ((putDigits token n).1 ++ (copyTokens f' (putDigits token n).2).1,
      (copyTokens f' (putDigits token n).2).2) := by
  rw [copyTokens]
  split
  · simp_all
  · simp_all
  · next token' g hget =>
    rw [h] at hget
    cases hget
    exact if_neg (by have := htoken.1; omega)

/-- **The loop over the tokens** writes the bytes of the tokens, and leaves what follows them. -/
theorem copyTokens_of_tokens (h : Tokens text tokens rest) (hrest : NoHex rest)
    (hf : f.rest = text) (n : ℕ) :
    copyTokens f n = ((putDigits tokens.flatten n).1, .ok (afterPeek rest)) := by
  induction h generalizing f n with
  | nil =>
    rw [copyTokens_none (tryGetHex_none_iff.2 ⟨hf ▸ hrest, rfl⟩), hf]
    rfl
  | @cons token t rest tokens htoken hends hmore ih =>
    have hget : tryGetHex f maxTokenSize = .ok (some token, afterWord t) :=
      tryGetHex_some_iff.2 ⟨t, hf ▸ htoken.word hends, htoken.ne_nil, rfl⟩
    rw [copyTokens_some hget htoken, ih hrest (rest_afterWord t), List.flatten_cons,
      putDigits_append htoken.even]

theorem tokens_of_copyTokens (h : (copyTokens f n).2 = .ok f') :
    ∃ tokens rest, Tokens f.rest tokens rest ∧ NoHex rest ∧ f' = afterPeek rest := by
  fun_induction copyTokens f n with
  | case1 => cases h
  | case2 f n g hget =>
    cases h
    obtain ⟨hno, rfl⟩ := tryGetHex_none_iff.1 hget
    exact ⟨[], f.rest, .nil, hno, rfl⟩
  | case3 => cases h
  | case4 f n token g hget hlen digits rest ih =>
    obtain ⟨t, hword, -, rfl⟩ := tryGetHex_some_iff.1 hget
    obtain ⟨tokens, rest, htokens, hno, rfl⟩ := ih h
    have htoken : IsToken token := ⟨by omega, fun c hc => (hword.chars c hc).2⟩
    rw [rest_afterWord] at htokens
    refine ⟨token :: tokens, rest, ?_, hno, rfl⟩
    rw [hword.text_eq]
    exact .cons htoken hword.ends htokens

theorem IsLabel.word {label t : List UInt8} (h : IsLabel (maxTokenSize - 1) label)
    (ht : EndsWord t) : Word (fun _ => true) maxTokenSize (label ++ t) label t := by
  refine ⟨rfl, ?_, fun c hc => ⟨h.2.2 c hc, rfl⟩, ht⟩
  exact Nat.lt_of_le_of_lt h.2.1 (by decide)

theorem Word.isLabel {label t : List UInt8} (h : Word (fun _ => true) maxTokenSize text label t)
    (hne : label ≠ []) : IsLabel (maxTokenSize - 1) label :=
  ⟨hne, Nat.le_sub_one_of_lt h.length_lt, fun c hc => (h.chars c hc).1⟩

def putSection (s : Section) : List UInt8 :=
  putHeader s.label ++ ascii ['\t'] ++ (putDigits s.tokens.flatten 0).1 ++ putFooter

theorem copySections_none (h : tryGetLabel f maxTokenSize = .ok (none, f')) :
    copySections f = if f'.eof then ⟨0, [], ""⟩ else Fatal.expectedLabel.exit [] := by
  rw [copySections]
  split <;> simp_all

theorem copySections_some {label out : List UInt8} {f'' : InFile}
    (h : tryGetLabel f maxTokenSize = .ok (some label, f'))
    (htokens : copyTokens f' 0 = (out, .ok f'')) :
    copySections f = ⟨(copySections f'').code,
      putHeader label ++ ascii ['\t'] ++ out ++ putFooter ++ (copySections f'').toFile,
      (copySections f'').stderr⟩ := by
  rw [copySections]
  split
  · simp_all
  · simp_all
  · next label' g hget =>
    rw [h] at hget
    cases hget
    dsimp only
    split <;> simp_all

/-- **The loop of `main`** on sections with labels that fit: the file ends there, or in a `$`. -/
theorem copySections_of_sections (h : Sections (IsLabel (maxTokenSize - 1)) text sections rest)
    (hrest : AtEnd rest) (hf : f.rest = text) :
    copySections f = ⟨0, sections.flatMap putSection, ""⟩ := by
  induction h generalizing f with
  | nil =>
    rw [copySections_none (tryGetLabel_atEnd (hf ▸ hrest) (by decide))]
    rfl
  | @cons s t text rest sections hlabel hends htokens hmore ih =>
    have hget : tryGetLabel f maxTokenSize = .ok (some s.label, afterWord t) :=
      tryGetLabel_some_iff.2 ⟨s.label ++ t, t, hf, hlabel.word hends, hlabel.1, rfl⟩
    have hcopy := copyTokens_of_tokens htokens (hmore.noHex hrest) (rest_afterWord t) 0
    rw [copySections_some hget hcopy, ih hrest (rest_afterPeek text), List.flatMap_cons]
    rfl

theorem sections_of_copySections (h : (copySections f).code = 0) :
    ∃ sections rest, Sections (IsLabel (maxTokenSize - 1)) f.rest sections rest ∧ AtEnd rest := by
  fun_induction copySections f with
  | case1 => cases h
  | case2 f g hget heof =>
    exact ⟨[], f.rest, .nil, (eof_of_tryGetLabel_none hget).1 heof⟩
  | case3 => cases h
  | case4 => cases h
  | case5 f label g hget tokens head g' htokens rest ih =>
    obtain ⟨text, t, hrest, hword, hne, rfl⟩ := tryGetLabel_some_iff.1 hget
    obtain ⟨words, rest', hwords, -, rfl⟩ := tokens_of_copyTokens htokens
    obtain ⟨sections, rest, hsections, hend⟩ := ih h
    rw [rest_afterPeek] at hsections
    rw [rest_afterWord] at hwords
    refine ⟨⟨label, words⟩ :: sections, rest, ?_, hend⟩
    rw [hrest, hword.text_eq]
    exact .cons (s := ⟨label, words⟩) (hword.isLabel hne) hword.ends hwords hsections

theorem copySections_code (f : InFile) : (copySections f).code = 0 ∨ (copySections f).code = 1 := by
  fun_induction copySections f with
  | case1 => exact Or.inr rfl
  | case2 => exact Or.inl rfl
  | case3 => exact Or.inr rfl
  | case4 => exact Or.inr rfl
  | case5 _ _ _ _ _ _ _ _ _ ih => exact ih

end

/-! ## The result -/

/-- The file is made of sections with labels of at most `n` characters. -/
def IsDataFile (n : ℕ) (bytes : List UInt8) : Prop :=
  ∃ sections, Sections (IsLabel n) bytes sections []

/-- The program exits with 0 for the files of the grammar, and with 1 for all others. -/
structure AcceptsGrammar (bytes : List UInt8) : Prop where
  accepts : IsDataFile maxTokenSize bytes → (toDataFile bytes).code = 0
  refuses : ¬ IsDataFile maxTokenSize bytes → (toDataFile bytes).code = 1

def EndsInDollar (bytes : List UInt8) : Prop :=
  ∃ sections, Sections (IsLabel (maxTokenSize - 1)) bytes sections ['$'.toUInt8]

/-- A file of the grammar with a label of `MAX_TOKEN_SIZE` characters. -/
def HasFullLabel (bytes : List UInt8) : Prop :=
  ∃ sections, Sections (IsLabel maxTokenSize) bytes sections [] ∧
    ∃ s ∈ sections, s.label.length = maxTokenSize

section

variable {bytes text rest : List UInt8} {sections : List Section} {n : ℕ}

theorem IsLabel.succ {label : List UInt8} (h : IsLabel (maxTokenSize - 1) label) :
    IsLabel maxTokenSize label :=
  ⟨h.1, Nat.le_trans h.2.1 (Nat.sub_le _ _), h.2.2⟩

/-- Sections whose labels are all shorter than `MAX_TOKEN_SIZE`. -/
theorem Sections.shorter (h : Sections (IsLabel maxTokenSize) text sections rest)
    (hshort : ∀ s ∈ sections, s.label.length ≠ maxTokenSize) :
    Sections (IsLabel (maxTokenSize - 1)) text sections rest := by
  induction h with
  | nil => exact .nil
  | @cons s _ _ _ sections hlabel hends htokens _ ih =>
    have hlt : s.label.length ≤ maxTokenSize - 1 :=
      Nat.le_sub_one_of_lt (Nat.lt_of_le_of_ne hlabel.2.1 (hshort s List.mem_cons_self))
    refine .cons ⟨hlabel.1, hlt, hlabel.2.2⟩ hends htokens ?_
    exact ih fun s' hs' => hshort s' (List.mem_cons_of_mem s hs')

theorem Sections.length_le (h : Sections (IsLabel n) text sections rest) :
    ∀ s ∈ sections, s.label.length ≤ n := by
  induction h with
  | nil => nofun
  | cons hlabel _ _ _ ih =>
    intro s hs
    rcases List.mem_cons.1 hs with rfl | hs
    · exact hlabel.2.1
    · exact ih s hs

theorem toDataFile_code_iff (bytes : List UInt8) :
    (toDataFile bytes).code = 0 ↔ IsDataFile (maxTokenSize - 1) bytes ∨ EndsInDollar bytes := by
  constructor
  · intro h
    obtain ⟨sections, rest, hsections, rfl | rfl⟩ := sections_of_copySections h
    · exact Or.inl ⟨sections, hsections⟩
    · exact Or.inr ⟨sections, hsections⟩
  · rintro (⟨sections, hsections⟩ | ⟨sections, hsections⟩)
    · rw [toDataFile, copySections_of_sections hsections (Or.inl rfl) rfl]
    · rw [toDataFile, copySections_of_sections hsections (Or.inr rfl) rfl]

theorem EndsInDollar.not_isDataFile (h : EndsInDollar bytes) : ¬ IsDataFile maxTokenSize bytes := by
  obtain ⟨sections, hsections⟩ := h
  rintro ⟨sections', hsections'⟩
  have hunique := (hsections.mono fun _ => IsLabel.succ).unique hsections' (Or.inr rfl) (Or.inl rfl)
  cases hunique.2

theorem EndsInDollar.not_acceptsGrammar (h : EndsInDollar bytes) : ¬ AcceptsGrammar bytes := by
  intro haccepts
  have hzero := (toDataFile_code_iff bytes).2 (Or.inr h)
  have hone := haccepts.refuses h.not_isDataFile
  rw [hzero] at hone
  cases hone

theorem HasFullLabel.isDataFile (h : HasFullLabel bytes) : IsDataFile maxTokenSize bytes := by
  obtain ⟨sections, hsections, -⟩ := h
  exact ⟨sections, hsections⟩

/-- The label of `MAX_TOKEN_SIZE` characters is there however the file is read. -/
theorem HasFullLabel.not_isDataFile (h : HasFullLabel bytes) :
    ¬ IsDataFile (maxTokenSize - 1) bytes := by
  obtain ⟨sections, hsections, s, hs, hlength⟩ := h
  rintro ⟨sections', hsections'⟩
  obtain ⟨rfl, -⟩ :=
    hsections.unique (hsections'.mono fun _ => IsLabel.succ) (Or.inl rfl) (Or.inl rfl)
  have hle := hsections'.length_le s hs
  rw [hlength] at hle
  exact absurd hle (by decide)

theorem HasFullLabel.not_acceptsGrammar (h : HasFullLabel bytes) : ¬ AcceptsGrammar bytes := by
  intro haccepts
  have hzero := haccepts.accepts h.isDataFile
  rcases (toDataFile_code_iff bytes).1 hzero with hshort | hdollar
  · exact h.not_isDataFile hshort
  · exact hdollar.not_isDataFile h.isDataFile

theorem IsDataFile.shorter_or_full (h : IsDataFile maxTokenSize bytes) :
    IsDataFile (maxTokenSize - 1) bytes ∨ HasFullLabel bytes := by
  obtain ⟨sections, hsections⟩ := h
  by_cases hfull : ∃ s ∈ sections, s.label.length = maxTokenSize
  · exact Or.inr ⟨sections, hsections, hfull⟩
  · push Not at hfull
    exact Or.inl ⟨sections, hsections.shorter hfull⟩

end

/-- **The program accepts exactly its grammar**, and ends, for every input but two kinds: files
that end in a lone `$`, which it accepts, and files of the grammar with a label of
`MAX_TOKEN_SIZE` characters, which it refuses. -/
theorem acceptsGrammar_iff (bytes : List UInt8) :
    AcceptsGrammar bytes ↔ ¬ EndsInDollar bytes ∧ ¬ HasFullLabel bytes := by
  constructor
  · intro h
    exact ⟨fun hdollar => hdollar.not_acceptsGrammar h, fun hfull => hfull.not_acceptsGrammar h⟩
  · rintro ⟨hdollar, hfull⟩
    have hcode := toDataFile_code_iff bytes
    constructor
    · intro hfile
      exact hcode.2 (Or.inl (hfile.shorter_or_full.resolve_right hfull))
    · intro hfile
      refine (copySections_code (.ofBytes bytes)).resolve_left fun hzero => hfile ?_
      obtain ⟨sections, hsections⟩ := (hcode.1 hzero).resolve_right hdollar
      exact ⟨sections, hsections.mono fun _ => IsLabel.succ⟩

/-- A file that is a lone `$` is accepted. -/
theorem not_acceptsGrammar_dollar : ¬ AcceptsGrammar ['$'.toUInt8] :=
  EndsInDollar.not_acceptsGrammar ⟨[], .nil⟩

/-- A file that is a label of `MAX_TOKEN_SIZE` characters is refused, although the message says
that the token has more. -/
theorem not_acceptsGrammar_full {label : List UInt8} (hlength : label.length = maxTokenSize)
    (hchars : ∀ c ∈ label, isspace c = false) : ¬ AcceptsGrammar ('$'.toUInt8 :: label) := by
  have hlabel : IsLabel maxTokenSize label := by
    refine ⟨?_, Nat.le_of_eq hlength, hchars⟩
    rintro rfl
    cases hlength
  have hsections :
      Sections (IsLabel maxTokenSize) ('$'.toUInt8 :: (label ++ [])) [⟨label, []⟩] [] :=
    .cons (s := ⟨label, []⟩) hlabel endsWord_nil .nil .nil
  rw [List.append_nil] at hsections
  exact HasFullLabel.not_acceptsGrammar ⟨_, hsections, _, List.mem_singleton_self _, hlength⟩

end Marcelov
