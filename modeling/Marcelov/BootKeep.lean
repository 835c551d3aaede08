import Marcelov.BootPrint
import Marcelov.Text

/-!
# What is printed and typed is kept

`Marcelov.BootPrint` runs the calls of `main` with keys between their statements. Here the text is
run beside it: a character goes to the end of the text when it is stored, by `main` or by a key,
and a new line begins when `curr_line` moves. `kept_iff_safe` says which steps keep the text on the
rows: all but three that `main` or a key takes while the other is at work. `boot_keeps_text` is
about the runs without them.
-/

namespace Marcelov

open Lib Scrollback

/-! ## The text on the rows -/

/-- The last lines of the text, as many as there are rows, are at the beginning of their rows, and
the cursor is behind the last of them. -/
structure Written (s : Scrollback) (t : Text) : Prop where
  isLine : ∀ l ∈ t.lines, IsLine l
  currLine : s.currLine = t.earlier.length % maxLinesRemembered
  currColumn : s.currColumn = t.last.length
  rows : ∀ i l, t.lines[i]? = some l → t.lines.length ≤ i + maxLinesRemembered →
    ∀ j (h : j < l.length), s.scrollbuffer (i % maxLinesRemembered) j = l[j]

theorem getElem?_lines_earlier (t : Text) : t.lines[t.earlier.length]? = some t.last := by
  rw [Text.lines, List.getElem?_append_right le_rfl, Nat.sub_self]
  rfl

namespace Written

variable {s s' : Scrollback} {t : Text} {l : List UInt8}

theorem init : Written Scrollback.init Text.init where
  isLine := by
    intro l hl
    obtain rfl := List.mem_singleton.1 hl
    exact isLine_nil
  currLine := rfl
  currColumn := rfl
  rows := by
    intro i l hl _ j hj
    obtain rfl := List.mem_singleton.1 (List.mem_of_getElem? hl)
    exact absurd hj (Nat.not_lt_zero j)

theorem congr (h : Written s t) (hs : SameRows s s') : Written s' t := by
  obtain ⟨hline, hcurr, hcol, hrows⟩ := h
  exact ⟨hline, hs.currLine.trans hcurr, hs.currColumn.trans hcol, by rwa [hs.scrollbuffer]⟩

theorem isLine_last (h : Written s t) : IsLine t.last :=
  h.isLine t.last (List.mem_append_right _ (List.mem_singleton_self _))

theorem currRow (h : Written s t) {j : ℕ} (hj : j < t.last.length) : s.currRow j = t.last[j] := by
  have hlength := t.length_lines
  have hrow := h.rows t.earlier.length t.last (getElem?_lines_earlier t)
    (hlength.trans_le (Nat.add_le_add_left (by decide) _)) j hj
  rwa [← h.currLine] at hrow

/-- **A row is read up to its line**, and from the first column on. -/
theorem prefix_readRow (h : Written s t) {i : ℕ} (hl : t.lines[i]? = some l)
    (hi : t.lines.length ≤ i + maxLinesRemembered) :
    l <+: readRow (s.scrollbuffer (i % maxLinesRemembered)) := by
  rw [readRow_eq_append (h.isLine l (List.mem_of_getElem? hl)) (h.rows i l hl hi)]
  exact List.prefix_append l _

/-- Where the row is exact, the last line is all there is to read. -/
theorem readRow_currRow (h : Written s t) (hexact : RowExact s) : readRow s.currRow = t.last := by
  have hline := h.isLine_last
  have hle : t.last.length ≤ 256 := hline.length_le
  have hnul : s.currRow t.last.length = 0 :=
    hexact.zeros t.last.length h.currColumn.le hle
  obtain ⟨n, hn⟩ : ∃ n, maxLineLen + 1 - t.last.length = n + 1 :=
    ⟨maxLineLen - t.last.length, Nat.succ_sub hle⟩
  rw [readRow_eq_append hline fun j hj => h.currRow hj, hn, List.range'_succ, List.map_cons,
    List.takeWhile_cons_of_neg (by simp [hnul]), List.append_nil]

/-! ### A new line -/

/-- The next row is taken for an empty line, whatever is on it. -/
theorem advance (h : Written s t) (hline : s'.currLine = s.nextLine) (hcol : s'.currColumn = 0)
    (hrows : ∀ r ≠ s.nextLine, s'.scrollbuffer r = s.scrollbuffer r) : Written s' t.newLine := by
  have hlength := t.length_lines
  have hnext : s.nextLine = t.lines.length % maxLinesRemembered := by
    rw [nextLine, h.currLine, hlength, Nat.mod_add_mod]
  refine ⟨fun l hl => ?_, hline.trans hnext, hcol, fun i l hl hi j hj => ?_⟩
  · rw [Text.lines_newLine, List.mem_append, List.mem_singleton] at hl
    rcases hl with hl | rfl
    · exact h.isLine l hl
    · exact isLine_nil
  · rw [Text.lines_newLine] at hl hi
    rw [List.length_append, List.length_singleton] at hi
    rcases Nat.lt_or_ge i t.lines.length with hlt | hge
    · rw [List.getElem?_append_left hlt] at hl
      have hne : i % maxLinesRemembered ≠ s.nextLine := by
        rw [hnext]
        unfold maxLinesRemembered at hi ⊢
        omega
      rw [hrows _ hne]
      exact h.rows i l hl (by omega) j hj
    · rw [List.getElem?_append_right hge] at hl
      obtain rfl := List.mem_singleton.1 (List.mem_of_getElem? hl)
      exact absurd hj (Nat.not_lt_zero j)

theorem newLine (h : Written s t) : Written (scrollbackNewLine s) t.newLine := by
  refine h.advance (newLine_currLine s) (newLine_currColumn s) fun r hr => ?_
  rw [newLine_scrollbuffer, Function.update_of_ne hr]

theorem newLine_resetColumn (h : Written s.resetColumn t) :
    Written (scrollbackNewLine s).resetColumn t.newLine := by
  have hline := newLine_currLine s
  have hrows (r : ℕ) (hr : r ≠ s.nextLine) :
      (scrollbackNewLine s).scrollbuffer r = s.scrollbuffer r := by
    rw [newLine_scrollbuffer, Function.update_of_ne hr]
  obtain ⟨s', hs'⟩ : ∃ s', scrollbackNewLine s = s' := ⟨_, rfl⟩
  rw [hs'] at hline hrows ⊢
  exact h.advance hline rfl hrows

/-! ### A store to the current row -/

/-- The last line becomes the one that the current row begins with. -/
theorem edit (h : Written s t) (hl : IsLine l) (hrow : ∀ j (hj : j < l.length), s'.currRow j = l[j])
    (hline : s'.currLine = s.currLine) (hcol : s'.currColumn = l.length)
    (hrows : ∀ r ≠ s.currLine, s'.scrollbuffer r = s.scrollbuffer r) :
    Written s' ⟨t.earlier, l⟩ := by
  have hlength := t.length_lines
  refine ⟨fun l' hl' => ?_, hline.trans h.currLine, hcol, fun i l' hl' hi j hj => ?_⟩
  · rcases List.mem_append.1 hl' with hl' | hl'
    · exact h.isLine l' (List.mem_append_left _ hl')
    · obtain rfl := List.mem_singleton.1 hl'
      exact hl
  · rw [Text.length_lines] at hi
    rcases Nat.lt_trichotomy i t.earlier.length with hlt | rfl | hgt
    · have hold : t.lines[i]? = some l' := by
        rw [Text.lines, List.getElem?_append_left hlt] at hl' ⊢
        exact hl'
      have hne : i % maxLinesRemembered ≠ s.currLine := by
        rw [h.currLine]
        unfold maxLinesRemembered at hi ⊢
        dsimp only at hi
        omega
      rw [hrows _ hne]
      exact h.rows i l' hold (by rw [hlength]; exact hi) j hj
    · obtain rfl := Option.some.inj ((getElem?_lines_earlier ⟨t.earlier, l⟩).symm.trans hl')
      rw [← h.currLine, ← hline]
      exact hrow j hj
    · have hnone : (Text.lines ⟨t.earlier, l⟩)[i]? = none := by
        rw [List.getElem?_eq_none_iff, Text.length_lines]
        exact hgt
      rw [hnone] at hl'
      cases hl'

theorem clearColumn (h : Written s t) {i : ℕ} (hi : s.currColumn ≤ i) :
    Written (s.clearColumn i) t := by
  refine h.edit (l := t.last) h.isLine_last (fun j hj => ?_) rfl h.currColumn fun r hr =>
    Function.update_of_ne hr _ _
  have hne : j ≠ i := by
    rw [h.currColumn] at hi
    omega
  rw [Scrollback.clearColumn, currRow_store, Function.update_of_ne hne]
  exact h.currRow hj

theorem putColumn (h : Written s t) {c : UInt8} (hc : c ≠ 0) (hlen : t.last.length < 256) :
    Written (s.putColumn c) (t.append c) := by
  have hrow : (s.putColumn c).currRow = Function.update s.currRow s.currColumn c :=
    currRow_store s s.currColumn c
  refine h.edit (l := t.last ++ [c]) (h.isLine_last.snoc hlen hc) (fun j hj => ?_) rfl ?_
    fun r hr => Function.update_of_ne hr _ _
  · rw [hrow, h.currColumn]
    by_cases hlast : j = t.last.length
    · subst hlast
      rw [Function.update_self, List.getElem_concat_length rfl]
    · have hlt : j < t.last.length := by
        rw [List.length_append, List.length_singleton] at hj
        omega
      rw [Function.update_of_ne hlast, List.getElem_append_left hlt]
      exact h.currRow hlt
  · rw [putColumn_currColumn, h.currColumn, List.length_append, List.length_singleton]

theorem deleteLast (h : Written s t) (scancode : UInt8) :
    Written (Marcelov.deleteLast scancode s).1 t.deleteLast := by
  unfold Marcelov.deleteLast
  by_cases hcol : s.currColumn = 0
  · have hnil : t.last = [] := List.length_eq_zero_iff.1 (h.currColumn ▸ hcol)
    rw [if_pos hcol, Text.deleteLast, hnil, List.dropLast_nil, ← hnil]
    exact h
  · rw [if_neg hcol]
    have hrow : (({ s with currColumn := s.currColumn - 1 }).store (s.currColumn - 1) 0).currRow =
        Function.update s.currRow (s.currColumn - 1) 0 := currRow_store _ _ _
    refine h.edit (l := t.last.dropLast) h.isLine_last.dropLast (fun j hj => ?_) rfl ?_
      fun r hr => Function.update_of_ne hr _ _
    · rw [List.length_dropLast] at hj
      rw [hrow, h.currColumn, Function.update_of_ne hj.ne, List.getElem_dropLast]
      exact h.currRow (by omega)
    · rw [List.length_dropLast, ← h.currColumn]
      rfl

theorem tracks : Tracks Written where
  isLine h := h.isLine_last
  column h := h.currColumn
  begins h _ hj := h.currRow hj
  newLine h := h.newLine
  putColumn h hc hlen := h.putColumn hc hlen

end Written

/-! ### Keys -/

section

variable {font : Font} {fb : FbGeometry} {d : Display} {t : Text}

/-- **One operation** keeps the text on the rows, in whatever order they are. -/
theorem written_exec (h : Written d.sb t) (op : Op) :
    Written (op.exec font fb d).sb (t.exec font fb op) := by
  cases op <;> simp only [Op.exec, Op.edit, Text.exec]
  case putchar c => exact Written.tracks.putchar font fb h c
  case newLine => exact h.newLine
  case deleteLast => exact h.deleteLast 0x0e
  case moveUp => exact h.congr (sameText_moveUp 0x48 d.sb).sameRows
  case moveDown => exact h.congr (sameText_moveDown 0x50 d.sb).sameRows
  case toggleShift => exact h.congr (sameText_toggleShift 0x2a d.sb).sameRows
  case draw => exact h.congr (sameText_draw font fb d).sameRows

def Op.putsNone : Op → Bool
  | .putchar _ => false
  | .newLine | .deleteLast | .moveUp | .moveDown | .toggleShift | .draw => true

theorem Scrollback.SameRows.resetColumn {s s' : Scrollback} (h : SameRows s s') :
    SameRows s.resetColumn s'.resetColumn := ⟨h.scrollbuffer, h.currLine, rfl⟩

/-- Before the cursor is put at the beginning of an empty line, any operation but a character. -/
theorem written_exec_resetColumn (h : Written d.sb.resetColumn t) {op : Op}
    (hop : op.putsNone = true) :
    Written (op.exec font fb d).sb.resetColumn (t.exec font fb op) := by
  cases op <;> simp only [Op.exec, Op.edit, Text.exec]
  case putchar c => cases hop
  case newLine => exact h.newLine_resetColumn
  case deleteLast =>
    have hnil : t.last = [] := List.length_eq_zero_iff.1 h.currColumn.symm
    rw [Text.deleteLast, hnil, List.dropLast_nil]
    refine h.edit isLine_nil (fun j hj => absurd hj (Nat.not_lt_zero j)) ?_ rfl fun r hr => ?_
    · unfold Marcelov.deleteLast
      split_ifs <;> rfl
    · unfold Marcelov.deleteLast
      split_ifs
      · rfl
      · exact Function.update_of_ne hr _ _
  case moveUp => exact h.congr (sameText_moveUp 0x48 d.sb).sameRows.resetColumn
  case moveDown => exact h.congr (sameText_moveDown 0x50 d.sb).sameRows.resetColumn
  case toggleShift => exact h.congr (sameText_toggleShift 0x2a d.sb).sameRows.resetColumn
  case draw => exact h.congr (sameText_draw font fb d).sameRows.resetColumn

theorem putsNone_specialOps (s : Scrollback) (i : ℕ) :
    ∀ op ∈ specialOps s i, op.putsNone = true := by
  unfold specialOps
  split
  case h_5 => split_ifs <;> decide
  all_goals decide

theorem written_key (h : Written d.sb t) (scancode : UInt8) :
    Written (keyboardProcessScancode font fb d scancode).sb
      (run (Text.exec font fb) t (keyOps d.sb scancode)) := by
  rw [keyboardProcessScancode_eq]
  exact run_simulation (R := fun (d : Display) t => Written d.sb t) h
    (fun _ _ op h => written_exec h op) _

/-- A key that types no character keeps it there also before the cursor is put at the beginning of
an empty line. -/
theorem written_key_resetColumn {scancode : UInt8} (h : Written d.sb.resetColumn t)
    (hkey : (scancodeDefs scancode).mainValue = 0) :
    Written (keyboardProcessScancode font fb d scancode).sb.resetColumn
      (run (Text.exec font fb) t (keyOps d.sb scancode)) := by
  have hops : ∀ op ∈ keyOps d.sb scancode, op.putsNone = true := by
    rw [keyOps, if_pos hkey]
    exact putsNone_specialOps d.sb _
  rw [keyboardProcessScancode_eq]
  exact run_simulation_of_mem (R := fun (d : Display) t => Written d.sb.resetColumn t) h
    fun _ _ op hop h => written_exec_resetColumn h (hops op hop)

end

/-! ## `main` and the keys -/

/-- `main` has moved `curr_line`, and `curr_column` is still that of the line before. -/
def Pc.atOldColumn : Pc → Bool
  | .nlColumn _ => true
  | _ => false

/-- The scrollback with the cursor in the line that `curr_line` is at. -/
def Pc.settled (pc : Pc) (s : Scrollback) : Scrollback :=
  if pc.atOldColumn then s.resetColumn else s

/-- What a step makes of the text. -/
def Boot.write (font : Font) (fb : FbGeometry) (m : Boot) (t : Text) : BootEvent → Text
  | .main =>
    match m.pc with
    | .putStore c => t.append c
    | .nlLine _ => t.newLine
    | _ => t
  | .irq scancode => run (Text.exec font fb) t (keyOps m.display.sb scancode)

/-- A step of `main` or a key, with the text beside it. -/
def bootWrite (font : Font) (fb : FbGeometry) (p : Boot × Text) (e : BootEvent) : Boot × Text :=
  (bootStep font fb p.1 e, p.1.write font fb p.2 e)

/-- A statement of `main` that is safe with the cursor where it is, or a key that types no
character between the first two statements of a new line. -/
def SafeStep (m : Boot) : BootEvent → Prop
  | .main => m.pc.Safe m.display.sb.currColumn
  | .irq scancode => m.pc.atOldColumn = true → (scancodeDefs scancode).mainValue = 0

instance (m : Boot) : ∀ e, Decidable (SafeStep m e)
  | .main => inferInstanceAs (Decidable (m.pc.Safe m.display.sb.currColumn))
  | .irq scancode => inferInstanceAs (Decidable
      (m.pc.atOldColumn = true → (scancodeDefs scancode).mainValue = 0))

/-- The current row is in order as far as `main` has come with it, and the text is on the rows. -/
structure Kept (m : Boot) (t : Text) : Prop where
  intact : Intact m
  written : Written (m.pc.settled m.display.sb) t

section

variable {font : Font} {fb : FbGeometry} {m : Boot} {t : Text}

theorem Return.atOldColumn_pc (r : Return) : r.pc.atOldColumn = false := by
  cases r <;> rfl

theorem written_main (h : Kept m t) (hsafe : SafeStep m .main) :
    let m' := bootStep font fb m .main
    Written (m'.pc.settled m'.display.sb) (m.write font fb t .main) := by
  obtain ⟨hintact, hwritten⟩ := h
  obtain ⟨pc, calls, d⟩ := m
  cases pc with
  | idle =>
    cases calls with
    | nil => exact hwritten
    | cons call calls =>
      cases call with
      | putchar c => exact hwritten
      | newLine => exact hwritten
  | putStore c =>
    have hlen : t.last.length < 256 := by
      rw [← hwritten.currColumn]
      exact hsafe
    exact hwritten.putColumn (hintact.char_ne c rfl) hlen
  | nlLine r => exact hwritten.advance rfl rfl fun _ _ => rfl
  | nlColumn r => exact hwritten
  | nlStartSet r => exact hwritten.congr ⟨rfl, rfl, rfl⟩
  | nlTopSet r => exact hwritten.congr ⟨rfl, rfl, rfl⟩
  | downSet r => exact hwritten.congr ⟨rfl, rfl, rfl⟩
  | nlClear r i =>
    simp only [bootStep, Boot.mainStep]
    split_ifs with hlt
    · exact hwritten.clearColumn (hsafe hlt)
    · show Written (r.pc.settled d.sb) t
      rw [Pc.settled, r.atOldColumn_pc]
      exact hwritten
  | putMeasure c => exact hwritten
  | _ =>
    simp only [bootStep, Boot.mainStep]
    split_ifs <;> exact hwritten

/-- A key keeps the text on the rows, if it is no character at the cursor of the line before. -/
theorem written_irq {scancode : UInt8} (h : Written (m.pc.settled m.display.sb) t)
    (hsafe : SafeStep m (.irq scancode)) :
    let m' := bootStep font fb m (.irq scancode)
    Written (m'.pc.settled m'.display.sb) (m.write font fb t (.irq scancode)) := by
  show Written (m.pc.settled (keyboardProcessScancode font fb m.display scancode).sb) _
  unfold Pc.settled at h ⊢
  by_cases hcol : m.pc.atOldColumn = true
  · rw [if_pos hcol] at h ⊢
    exact written_key_resetColumn h (hsafe hcol)
  · rw [if_neg hcol] at h ⊢
    exact written_key h scancode

theorem last_putchar_ne (t : Text) {c : UInt8} (hc : c ≠ 0) :
    (t.putchar font fb c).last ≠ [] := by
  rw [Text.putchar, if_neg hc]
  exact List.append_ne_nil_of_right_ne_nil _ (List.cons_ne_nil c [])

/-- A character at the cursor of the line before is lost. -/
theorem safe_of_written_irq {scancode : UInt8}
    (h : let m' := bootStep font fb m (.irq scancode)
      Written (m'.pc.settled m'.display.sb) (m.write font fb t (.irq scancode))) :
    SafeStep m (.irq scancode) := by
  intro hcol
  by_contra hkey
  have hchar : typedChar m.display.sb scancode ≠ 0 := by
    intro hzero
    have hbounds := (typedChar_bounds (s := m.display.sb) hkey).1
    rw [hzero] at hbounds
    exact absurd hbounds (by decide)
  have hwrite : m.write font fb t (.irq scancode) =
      t.putchar font fb (typedChar m.display.sb scancode) := by
    rw [Boot.write, keyOps, if_neg hkey]
    rfl
  have hcolumn (s : Scrollback) : (m.pc.settled s).currColumn = 0 := by
    rw [Pc.settled, if_pos hcol]
    rfl
  have hlen := (hcolumn _).symm.trans h.currColumn
  rw [hwrite] at hlen
  exact last_putchar_ne t hchar (List.length_eq_zero_iff.1 hlen.symm)

/-- **Exactly the safe steps** keep the row in order and the text on the rows. -/
theorem kept_iff_safe (h : Kept m t) (e : BootEvent) :
    Kept (bootStep font fb m e) (m.write font fb t e) ↔ SafeStep m e := by
  cases e with
  | main =>
    exact ⟨fun h' => (intact_main_iff h.intact).1 h'.intact,
      fun hsafe => ⟨intact_main h.intact hsafe, written_main h hsafe⟩⟩
  | irq scancode =>
    exact ⟨fun h' => safe_of_written_irq h'.written,
      fun hsafe => ⟨intact_irq h.intact scancode, written_irq h.written hsafe⟩⟩

end

theorem kept_init (canvas : ℕ → Rgb) (lines : List (List UInt8)) :
    Kept (Boot.init canvas lines) Text.init :=
  ⟨intact_init canvas lines, Written.init⟩

/-! ## Runs -/

/-- What is printed and typed in a run, in the order in which it is stored. -/
def bootText (font : Font) (fb : FbGeometry) (canvas : ℕ → Rgb) (lines : List (List UInt8))
    (events : List BootEvent) : Text :=
  (run (bootWrite font fb) (Boot.init canvas lines, Text.init) events).2

theorem run_bootWrite_fst (font : Font) (fb : FbGeometry) (p : Boot × Text)
    (events : List BootEvent) :
    (run (bootWrite font fb) p events).1 = run (bootStep font fb) p.1 events :=
  run_simulation (R := fun (p : Boot × Text) m => p.1 = m) rfl
    (fun p m e h => by rw [bootWrite, h]) events

/-- The row is in order and the text is on the rows in every state of a run exactly when every
step of it is safe. -/
theorem kept_always_iff (font : Font) (fb : FbGeometry) (canvas : ℕ → Rgb)
    (lines : List (List UInt8)) (events : List BootEvent) :
    (∀ pre, pre <+: events → Kept (run (bootStep font fb) (Boot.init canvas lines) pre)
        (bootText font fb canvas lines pre)) ↔
      Guarded (bootStep font fb) SafeStep (Boot.init canvas lines) events := by
  let p : Boot × Text := (Boot.init canvas lines, Text.init)
  have halways : (∀ pre, pre <+: events → Kept (run (bootWrite font fb) p pre).1
      (run (bootWrite font fb) p pre).2) ↔
        Guarded (bootWrite font fb) (fun p e => SafeStep p.1 e) p events :=
    always_iff_guarded (I := fun p : Boot × Text => Kept p.1 p.2) (kept_init canvas lines)
      (fun _ e h => kept_iff_safe h e) events
  have hfst (p : Boot × Text) (e : BootEvent) :
      (bootWrite font fb p e).1 = bootStep font fb p.1 e := rfl
  have hguarded : Guarded (bootWrite font fb) (fun p e => SafeStep p.1 e) p events ↔
      Guarded (bootStep font fb) SafeStep (Boot.init canvas lines) events :=
    guarded_map_iff (f := Prod.fst) (G := SafeStep) hfst p events
  simp only [run_bootWrite_fst] at halways
  exact halways.trans hguarded

/-- **Printing with the keyboard on.** Whatever `main` prints and whichever keys are handled
between its statements, as long as every step is safe: between any two calls of `main` the
current row consists of `curr_column` characters, followed only by zeros, and they are the last
line of what was printed and typed. Each line before it, as far back as there are rows, is whole at
the beginning of its row. -/
theorem boot_keeps_text (font : Font) (fb : FbGeometry) (canvas : ℕ → Rgb)
    (lines : List (List UInt8)) (events : List BootEvent)
    (hsafe : Guarded (bootStep font fb) SafeStep (Boot.init canvas lines) events) :
    ∀ pre, pre <+: events →
      let m := run (bootStep font fb) (Boot.init canvas lines) pre
      let t := bootText font fb canvas lines pre
      m.pc = .idle → RowExact m.display.sb ∧ readRow m.display.sb.currRow = t.last ∧
        ∀ i l, t.lines[i]? = some l → t.lines.length ≤ i + maxLinesRemembered →
          l <+: readRow (m.display.sb.scrollbuffer (i % maxLinesRemembered)) := by
  intro pre hpre m t hidle
  have hkept : Kept m t := (kept_always_iff font fb canvas lines events).2 hsafe pre hpre
  have hexact : RowExact m.display.sb :=
    (hkept.intact.filled 257 (by rw [hidle]; rfl)).2.rowExact hkept.intact.bounded
  have hwritten : Written m.display.sb t := by
    have h := hkept.written
    rw [hidle] at h
    exact h
  exact ⟨hexact, hwritten.readRow_currRow hexact,
    fun i l hl hi => hwritten.prefix_readRow hl hi⟩

/-- `main` prints a letter, and the user types one in the middle of it. -/
def typingRun : List BootEvent := [.main, .main, .main, .irq 0x10, .main, .main, .main]

theorem boot_keeps_text_typing :
    let m := run (bootStep .monaco mainFb) (Boot.init (fun _ => black) [[0x61]]) typingRun
    readRow m.display.sb.currRow = [0x71, 0x61] :=
  (boot_keeps_text .monaco mainFb (fun _ => black) [[0x61]] typingRun (by decide +kernel) typingRun
    (List.prefix_refl _) (by decide +kernel)).2.1

/-! ### What `main` prints -/

def literal (s : String) : List UInt8 := s.toList.map fun c => c.toNat.toUInt8

def greeting : List (List UInt8) := [
  literal "Hola! Esto es una prueba :)",
  literal "",
  literal "Los docentes de orga2 son:",
  literal "  - agus",
  literal "  - bruno",
  literal "  - bruno",
  literal "  - ed",
  literal "  - eze",
  literal "  - fd",
  literal "  - furfi",
  literal "  - gaspi",
  literal "  - kevin",
  literal "  - maca",
  literal "  - marcos",
  literal "  - mega",
  literal "  - pache",
  literal "  - stef",
  literal "  - tincho",
  literal "  - tomas"]

/-- The first line and the new line after it up to the clearing loop, a letter typed there, and
the clearing loop. -/
def erasingRun : List BootEvent :=
  List.replicate 168 .main ++ .irq 0x10 :: List.replicate 257 .main

/-- A letter typed while `main` is about to clear the row is erased, under the cursor that
counts it. -/
theorem typed_letter_erased :
    let m := run (bootStep .monaco mainFb) (Boot.init (fun _ => black) greeting) erasingRun
    m.pc = .idle ∧ ¬ RowExact m.display.sb := by
  have hrun :
      let m := run (bootStep .monaco mainFb) (Boot.init (fun _ => black) greeting) erasingRun
      m.pc = .idle ∧ 0 < m.display.sb.currColumn ∧ m.display.sb.currRow 0 = 0 := by
    decide +kernel
  generalize run (bootStep .monaco mainFb) (Boot.init (fun _ => black) greeting) erasingRun = m
    at hrun ⊢
  obtain ⟨hidle, hcolumn, hzero⟩ := hrun
  exact ⟨hidle, fun h => h.chars 0 hcolumn hzero⟩

end Marcelov
