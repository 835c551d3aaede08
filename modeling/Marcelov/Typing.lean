import Marcelov.Terminal

/-!
# Typing a text

Which keys type a given text: `scancodesFor` presses and releases one key for each character, with
Shift around it where the table has the character in its second column, and Enter for a newline.
`typing_round_trip` says that they do type it, from any state in which Shift is up: no character is
lost or entered twice, wherever the lines wrap and however often the ring has come round.
-/

namespace Marcelov

open Lib

/-! ## Keys for characters -/

def keyFor (c : UInt8) : Option (UInt8 × Bool) :=
  scancodeEntries.findSome? fun (scancode, info) =>
    if info.mainValue = 0 then none
    else if info.mainValue = c then some (scancode, false)
    else if info.specialValue = c then some (scancode, true)
    else none

def breakOf (scancode : UInt8) : UInt8 := scancode ||| 0x80

def strokesFor (c : UInt8) : List UInt8 :=
  if c = 0x0a then [0x1c, breakOf 0x1c]
  else
    match keyFor c with
    | some (scancode, false) => [scancode, breakOf scancode]
    | some (scancode, true) => [0x2a, scancode, breakOf scancode, breakOf 0x2a]
    | none => []

/-- The bytes of the keys that type a text. -/
def scancodesFor (s : List UInt8) : List UInt8 := s.flatMap strokesFor

/-- What can be typed: the printable ASCII characters, and the newline. -/
def Typeable (c : UInt8) : Prop := c = 0x0a ∨ (32 ≤ c.toNat ∧ c.toNat < 127)

instance (c : UInt8) : Decidable (Typeable c) := inferInstanceAs (Decidable (_ ∨ _))

/-- The key types the character, and its break code does nothing. -/
structure TypesWith (c scancode : UInt8) (shift : Bool) : Prop where
  main : (scancodeDefs scancode).mainValue ≠ 0
  value : (if shift then (scancodeDefs scancode).specialValue
    else (scancodeDefs scancode).mainValue) = c
  ignored : scancodeDefs (breakOf scancode) = ⟨0, 0⟩

instance (c scancode : UInt8) (shift : Bool) : Decidable (TypesWith c scancode shift) :=
  decidable_of_iff
    ((scancodeDefs scancode).mainValue ≠ 0 ∧
      (if shift then (scancodeDefs scancode).specialValue
        else (scancodeDefs scancode).mainValue) = c ∧
      scancodeDefs (breakOf scancode) = ⟨0, 0⟩)
    ⟨fun ⟨h₁, h₂, h₃⟩ => ⟨h₁, h₂, h₃⟩, fun ⟨h₁, h₂, h₃⟩ => ⟨h₁, h₂, h₃⟩⟩

/-- **Every printable ASCII character has a key.** -/
theorem exists_keyFor {c : UInt8} (h : 32 ≤ c.toNat ∧ c.toNat < 127) :
    ∃ scancode shift, keyFor c = some (scancode, shift) ∧ TypesWith c scancode shift := by
  have htable : ∀ n < 127, 32 ≤ n →
      (keyFor n.toUInt8).any (fun p => decide (TypesWith n.toUInt8 p.1 p.2)) = true := by
    decide +kernel
  have hc : c.toNat.toUInt8 = c := UInt8.ofNat_toNat
  have hany := htable c.toNat h.2 h.1
  rw [hc, Option.any_eq_true] at hany
  obtain ⟨⟨scancode, shift⟩, hkey, htypes⟩ := hany
  exact ⟨scancode, shift, hkey, of_decide_eq_true htypes⟩

/-! ## One character -/

section

variable {font : Font} {fb : FbGeometry} {T : Terminal fb}

def Page.typed (font : Font) (p : Page fb) (c : UInt8) : Page fb :=
  (if c = 0x0a then p.newLine else p.putchar font c).draw

theorem key_of_ignored {scancode : UInt8} (h : scancodeDefs scancode = ⟨0, 0⟩) :
    T.key font scancode = T := by
  rw [Terminal.key, h]
  rfl

theorem key_of_typed {c scancode : UInt8} (h : TypesWith c scancode T.shift) :
    T.key font scancode = { T with page := (T.page.putchar font c).draw } := by
  rw [Terminal.key]
  dsimp only
  rw [if_neg h.main, h.value]

theorem run_strokesFor (p : Page fb) {c : UInt8} (hc : Typeable c) :
    run (Terminal.key font) ⟨p, false⟩ (strokesFor c) = ⟨p.typed font c, false⟩ := by
  unfold strokesFor Page.typed
  by_cases hnl : c = 0x0a
  · rw [if_pos hnl, if_pos hnl]
    rfl
  · obtain ⟨scancode, shift, hkey, htypes⟩ := exists_keyFor (hc.resolve_left hnl)
    rw [if_neg hnl, if_neg hnl, hkey]
    cases shift with
    | false =>
      simp only [run_cons, run_nil]
      rw [key_of_typed (T := ⟨p, false⟩) htypes, key_of_ignored htypes.ignored]
    | true =>
      have hdown : Terminal.key font (⟨p, false⟩ : Terminal fb) 0x2a = ⟨p, true⟩ := rfl
      simp only [run_cons, run_nil]
      rw [hdown, key_of_typed (T := ⟨p, true⟩) htypes, key_of_ignored htypes.ignored]
      rfl

theorem run_scancodesFor (p : Page fb) {s : List UInt8} (hs : ∀ c ∈ s, Typeable c) :
    run (Terminal.key font) ⟨p, false⟩ (scancodesFor s) = ⟨run (Page.typed font) p s, false⟩ := by
  induction s generalizing p with
  | nil => rfl
  | cons c s ih =>
    rw [scancodesFor, List.flatMap_cons, run_append, run_strokesFor p (hs c List.mem_cons_self)]
    exact ih _ fun c' hc' => hs c' (List.mem_cons_of_mem c hc')

end

/-! ## The characters of a text -/

section

variable (font : Font) (fb : FbGeometry)

/-- The characters of a text, whatever lines they are on. -/
def Text.chars (t : Text) : List UInt8 := t.lines.flatten

def Text.typed (t : Text) (c : UInt8) : Text :=
  if c = 0x0a then t.newLine else t.putchar font fb c

theorem Text.chars_newLine (t : Text) : t.newLine.chars = t.chars := by
  rw [Text.chars, Text.lines_newLine, List.flatten_append]
  exact List.append_nil _

theorem Text.chars_append (t : Text) (c : UInt8) : (t.append c).chars = t.chars ++ [c] := by
  simp [Text.chars, Text.lines, Text.append]

theorem Text.chars_putchar (t : Text) {c : UInt8} (hc : c ≠ 0) :
    (t.putchar font fb c).chars = t.chars ++ [c] := by
  unfold Text.putchar
  rw [if_neg hc]
  dsimp only
  rw [Text.chars_append]
  congr 1
  split_ifs <;> simp only [Text.chars_newLine]

theorem Text.chars_typed (t : Text) {c : UInt8} (hc : Typeable c) :
    (t.typed font fb c).chars = t.chars ++ if c = 0x0a then [] else [c] := by
  unfold Text.typed
  by_cases hnl : c = 0x0a
  · rw [if_pos hnl, if_pos hnl, List.append_nil, Text.chars_newLine]
  · have hne : c ≠ 0 := by
      rintro rfl
      exact absurd hc (by decide)
    rw [if_neg hnl, if_neg hnl, Text.chars_putchar font fb t hne]

theorem Text.chars_run_typed (t : Text) {s : List UInt8} (hs : ∀ c ∈ s, Typeable c) :
    (run (Text.typed font fb) t s).chars = t.chars ++ s.filter (· ≠ 0x0a) := by
  induction s generalizing t with
  | nil => exact (List.append_nil _).symm
  | cons c s ih =>
    rw [run_cons, ih _ fun c' hc' => hs c' (List.mem_cons_of_mem c hc'),
      Text.chars_typed font fb t (hs c List.mem_cons_self), List.append_assoc, List.filter_cons]
    by_cases hnl : c = 0x0a <;> simp [hnl]

theorem Page.text_run_typed {fb : FbGeometry} (p : Page fb) (s : List UInt8) :
    (run (Page.typed font) p s).text = run (Text.typed font fb) p.text s := by
  refine run_simulation (R := fun (p : Page fb) t => p.text = t) rfl (fun p t c h => ?_) s
  unfold Page.typed Text.typed
  show (if c = 0x0a then p.newLine else p.putchar font c).text = _
  split_ifs
  · rw [Page.text_newLine, h]
  · rw [Page.text_putchar, h]

end

theorem mirrors_typed (font : Font) {fb : FbGeometry} {d : Display} {T : Terminal fb}
    {s : List UInt8} (h : Mirrors d T) (hup : T.shift = false) (hs : ∀ c ∈ s, Typeable c) :
    Mirrors (runKeys font fb d (scancodesFor s)) ⟨run (Page.typed font) T.page s, false⟩ := by
  obtain ⟨p, shift⟩ := T
  obtain rfl : shift = false := hup
  rw [← run_scancodesFor p hs]
  exact mirrors_runKeys h _

/-- **What is typed is what is held.** In every state after `main` has printed `lines` and any
keys were pressed, if Shift is up: the keys for a printable text leave Shift up and the
scrollback with the last lines of the text so far and the new one together, in which every
character typed comes once, in order and after all the characters before. -/
theorem typing_round_trip (font : Font) (fb : FbGeometry) (canvas : ℕ → Rgb)
    (lines : List (List UInt8)) (scs s : List UInt8) (hs : ∀ c ∈ s, Typeable c)
    (hshift : (runKeys font fb (firstScreen font fb canvas lines) scs).sb.isShiftPressed =
      false) :
    let t := (run (Terminal.key font) (Terminal.first font fb lines) scs).page.text
    let t' := run (Text.typed font fb) t s
    let sb := (runKeys font fb (firstScreen font fb canvas lines) (scs ++ scancodesFor s)).sb
    t'.chars = t.chars ++ s.filter (· ≠ 0x0a) ∧
      sb.retained.map (fun r => readRow (sb.scrollbuffer r)) =
        t'.lines.drop (t'.lines.length - 1024) ∧
      sb.currColumn = t'.last.length ∧
      sb.isShiftPressed = false := by
  intro t t' sb
  have hm : Mirrors (runKeys font fb (firstScreen font fb canvas lines) scs)
      (run (Terminal.key font) (Terminal.first font fb lines) scs) :=
    mirrors_runKeys (mirrors_first canvas lines) scs
  have hm' := mirrors_typed font hm (hm.shift_eq.symm.trans hshift) hs
  rw [runKeys, runKeys, ← run_append] at hm'
  have htext : _ = t' := Page.text_run_typed font _ s
  have hrep : Represents sb t' := htext ▸ hm'.shows.represents
  exact ⟨Text.chars_run_typed font fb t hs, hrep.read, hrep.column, hm'.shift_eq⟩

/-- Below a line printed, with CapsLock pressed twice: `Hi`, and `!` on a line of its own. -/
theorem typing_round_trip_hi :
    let sb := (runKeys .monaco mainFb (firstScreen .monaco mainFb (fun _ => black) [[0x6f, 0x6b]])
      ([0x3a, 0x3a] ++ scancodesFor [0x48, 0x69, 0x0a, 0x21])).sb
    sb.retained.map (fun r => readRow (sb.scrollbuffer r)) = [[0x6f, 0x6b], [0x48, 0x69], [0x21]] ∧
      sb.currColumn = 1 := by
  have h := typing_round_trip .monaco mainFb (fun _ => black) [[0x6f, 0x6b]] [0x3a, 0x3a]
    [0x48, 0x69, 0x0a, 0x21] (by simp [Typeable]) rfl
  exact ⟨h.2.1.trans (by decide), h.2.2.1.trans (by decide)⟩

end Marcelov
