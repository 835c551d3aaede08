import Marcelov.BootPrint

/-!
# Printing stays inside the buffer

`Marcelov.BootPrint` says when printing with the keyboard on leaves the row in order. This is
what holds in any case: a key between `if (MAX_LINE_LEN <= curr_column)` and the store may fill
the row up, and the character of `main` then goes where the row is terminated, but no further.
`boot_stays_in_rows` is the result, for all interleavings of `main` and keys.
-/

namespace Marcelov

open Lib Scrollback

/-- The cursor is at column `b` or before, and every store so far was to a byte of `scrollbuffer`,
in its own row. -/
structure Contained (b : ℕ) (s : Scrollback) : Prop where
  column_le : s.currColumn ≤ b
  stores : ∀ p ∈ s.stores, p.1 < maxLinesRemembered ∧ p.2 < maxLineLen + 1

section

variable {s s' : Scrollback} {b b' : ℕ}

theorem Contained.mono (h : Contained b s) (hb : b ≤ b') : Contained b' s :=
  ⟨h.column_le.trans hb, h.stores⟩

theorem Contained.congr (h : Contained b s) (hs : SameText s s') : Contained b s' :=
  ⟨hs.currColumn ▸ h.column_le, hs.stores ▸ h.stores⟩

theorem stores_store (h : Contained b s) {column : ℕ} (hcol : column < maxLineLen + 1)
    (c : UInt8) :
    ∀ p ∈ (s.store column c).stores, p.1 < maxLinesRemembered ∧ p.2 < maxLineLen + 1 := by
  intro p hp
  rcases List.mem_append.1 hp with hp | hp
  · exact h.stores p hp
  · rw [List.mem_singleton.1 hp]
    exact ⟨s.currLine_lt, hcol⟩

theorem contained_newLine (h : Contained b s) : Contained 0 (scrollbackNewLine s) := by
  refine ⟨(newLine_currColumn s).le, fun p hp => ?_⟩
  rw [newLine_stores, List.mem_append] at hp
  rcases hp with hp | hp
  · exact h.stores p hp
  · obtain ⟨j, hj, rfl⟩ := List.mem_map.1 hp
    exact ⟨nextLine_lt _, (List.mem_range.1 hj).trans (Nat.lt_succ_self _)⟩

theorem contained_putColumn (h : Contained b s) (hb : b < maxLineLen + 1) (c : UInt8) :
    Contained (b + 1) (s.putColumn c) :=
  ⟨Nat.succ_le_succ h.column_le, stores_store h (h.column_le.trans_lt hb) c⟩

theorem contained_clearColumn (h : Contained b s) {i : ℕ} (hi : i < maxLineLen) :
    Contained b (s.clearColumn i) :=
  ⟨h.column_le, stores_store h (hi.trans (Nat.lt_succ_self _)) 0⟩

/-- A whole `scrollback_putchar` leaves the cursor in the row, wherever it was. -/
theorem contained_putchar (font : Font) (fb : FbGeometry) (h : Contained b s) {c : UInt8}
    (hc : c ≠ 0) : Contained maxLineLen (scrollbackPutchar font fb s c) := by
  rw [scrollbackPutchar, if_neg hc]
  have hfull : Contained 255 s.wrapFull := by
    unfold wrapFull
    split_ifs with hcol
    · exact (contained_newLine h).mono (Nat.zero_le _)
    · exact ⟨Nat.le_of_lt_succ (Nat.lt_of_not_le hcol), h.stores⟩
  refine contained_putColumn (b := 255) ?_ (by decide) c
  unfold wrapWide
  split_ifs
  exacts [(contained_newLine hfull).mono (Nat.zero_le _), hfull]

theorem contained_deleteLast (h : Contained b s) (hb : b ≤ maxLineLen + 1) (scancode : UInt8) :
    Contained b (deleteLast scancode s).1 := by
  unfold deleteLast
  split_ifs with hcol
  · exact h
  · have hle : s.currColumn - 1 ≤ b := (Nat.sub_le _ _).trans h.column_le
    have hmoved : Contained b { s with currColumn := s.currColumn - 1 } := ⟨hle, h.stores⟩
    have hlt : s.currColumn - 1 < maxLineLen + 1 :=
      (Nat.sub_one_lt hcol).trans_le (h.column_le.trans hb)
    exact ⟨hle, stores_store hmoved hlt 0⟩

end

section

variable {font : Font} {fb : FbGeometry} {b : ℕ}

theorem contained_exec {d : Display} (h : Contained b d.sb) (hlo : maxLineLen ≤ b)
    (hhi : b ≤ maxLineLen + 1) (op : Op) : Contained b (op.exec font fb d).sb := by
  cases op <;> simp only [Op.exec, Op.edit]
  case putchar c =>
    by_cases hc : c = 0
    · rw [scrollbackPutchar, if_pos hc]
      exact h
    · exact (contained_putchar font fb h hc).mono hlo
  case newLine => exact (contained_newLine h).mono (Nat.zero_le _)
  case deleteLast => exact contained_deleteLast h hhi 0x0e
  case moveUp => exact h.congr (sameText_moveUp 0x48 d.sb)
  case moveDown => exact h.congr (sameText_moveDown 0x50 d.sb)
  case toggleShift => exact h.congr (sameText_toggleShift 0x2a d.sb)
  case draw => exact h.congr (sameText_draw font fb d)

theorem contained_key {d : Display} (h : Contained b d.sb) (hlo : maxLineLen ≤ b)
    (hhi : b ≤ maxLineLen + 1) (scancode : UInt8) :
    Contained b (keyboardProcessScancode font fb d scancode).sb := by
  rw [keyboardProcessScancode_eq]
  exact run_invariant (I := fun d : Display => Contained b d.sb) h
    (fun _ op h => contained_exec h hlo hhi op) _

/-! ## `main` -/

/-- How far the cursor can be when `main` is at `pc`: one column past the row, except between
the test for a full row and the store. -/
def Pc.columnBound : Pc → ℕ
  | .idle | .putNul _ | .putFull _ | .nlLine _ | .nlColumn _ => maxLineLen + 1
  | _ => maxLineLen

theorem Pc.columnBound_bounds (pc : Pc) :
    maxLineLen ≤ pc.columnBound ∧ pc.columnBound ≤ maxLineLen + 1 := by
  cases pc <;> simp [Pc.columnBound]

def BootContained (m : Boot) : Prop := Contained m.pc.columnBound m.display.sb

theorem Return.columnBound_pc (r : Return) : maxLineLen ≤ r.pc.columnBound :=
  r.pc.columnBound_bounds.1

/-- **A statement of `main`** stores inside the buffer, safe or not. -/
theorem bootContained_main {m : Boot} (h : BootContained m) :
    BootContained (m.mainStep font fb) := by
  obtain ⟨pc, calls, d⟩ := m
  have hcol : d.sb.currColumn ≤ pc.columnBound := h.column_le
  cases pc with
  | idle =>
    cases calls with
    | nil => exact h
    | cons call calls => cases call <;> exact h
  | putNul c =>
    simp only [Boot.mainStep]
    split_ifs <;> exact h
  | putFull c =>
    simp only [Boot.mainStep]
    split_ifs with hfull
    · exact h
    · exact ⟨Nat.le_of_lt (Nat.lt_of_not_le hfull), h.stores⟩
  | putMeasure c => exact h
  | putWide c lineWidth =>
    simp only [Boot.mainStep]
    split_ifs
    · exact h.mono (Nat.le_succ _)
    · exact h
  | putStore c => exact contained_putColumn h (Nat.lt_succ_self _) c
  | nlLine r => exact ⟨h.column_le, h.stores⟩
  | nlColumn r => exact ⟨Nat.zero_le _, h.stores⟩
  | nlStartTest r =>
    simp only [Boot.mainStep]
    split_ifs <;> exact h
  | nlStartSet r => exact ⟨h.column_le, h.stores⟩
  | nlTopTest r =>
    simp only [Boot.mainStep]
    split_ifs <;> exact h
  | nlTopSet r => exact ⟨h.column_le, h.stores⟩
  | nlStickyTest r =>
    simp only [Boot.mainStep]
    split_ifs <;> exact h
  | downTest r =>
    simp only [Boot.mainStep]
    split_ifs <;> exact h
  | downSet r => exact ⟨h.column_le, h.stores⟩
  | nlClear r i =>
    simp only [Boot.mainStep]
    by_cases hi : i < maxLineLen
    · rw [if_pos hi]
      exact contained_clearColumn h hi
    · rw [if_neg hi]
      exact Contained.mono h r.columnBound_pc

theorem bootContained_step {m : Boot} (h : BootContained m) (e : BootEvent) :
    BootContained (bootStep font fb m e) := by
  cases e with
  | main => exact bootContained_main h
  | irq scancode =>
    obtain ⟨hlo, hhi⟩ := m.pc.columnBound_bounds
    exact contained_key h hlo hhi scancode

theorem measureReads_le (font : Font) (str : ℕ → UInt8) (size pos : ℕ) :
    ∀ j ∈ fbMeasureLineWidthReads font str size pos, j ≤ pos + size := by
  induction size generalizing pos with
  | zero => simp [fbMeasureLineWidthReads]
  | succ size ih =>
    intro j hj
    rcases List.mem_cons.1 hj with rfl | hj
    · exact Nat.le_add_right _ _
    · split_ifs at hj
      · cases hj
      · have hnext : (font.charWidthPostInc str pos).2 ≤ pos + 1 := by
          cases font with
          | monaco => exact Nat.le_succ _
          | cream12 pastWidths => exact le_rfl
        have hle := ih _ j hj
        omega

end

/-- **Printing stays inside the buffer.** Whatever `main` prints and whichever keys are handled
between its statements: every store was to a byte of `scrollbuffer` and in the row that it names,
the cursor is never more than one column past a row, and when `main` measures its line it reads
no byte past the end of the row. -/
theorem boot_stays_in_rows (font : Font) (fb : FbGeometry) (canvas : ℕ → Rgb)
    (lines : List (List UInt8)) (events : List BootEvent) :
    let m := run (bootStep font fb) (Boot.init canvas lines) events
    let s := m.display.sb
    (∀ p ∈ s.stores, p.1 < 1024 ∧ p.2 < 257) ∧
      s.currColumn ≤ 257 ∧
      ∀ c, m.pc = .putMeasure c →
        ∀ j ∈ fbMeasureLineWidthReads font s.currRow s.currColumn 0, j < 257 := by
  intro m s
  have h : BootContained m := run_invariant (I := BootContained)
    (s := Boot.init canvas lines) ⟨Nat.zero_le _, fun _ hp => absurd hp List.not_mem_nil⟩
    (fun _ e h => bootContained_step h e) events
  refine ⟨h.stores, h.column_le.trans m.pc.columnBound_bounds.2, fun c hpc j hj => ?_⟩
  have hcol : s.currColumn ≤ maxLineLen := by
    simpa [hpc, Pc.columnBound] using h.column_le
  have hread := measureReads_le font s.currRow s.currColumn 0 j hj
  have hbound : maxLineLen = 256 := rfl
  omega

end Marcelov
