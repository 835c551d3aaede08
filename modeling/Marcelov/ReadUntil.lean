import Mathlib.Order.Basic
import Marcelov.Lib.Loop

/-!
# Reading from the console

`read_until` of `kernel.c`, over any stream of results of `sbi_console_getchar`. The function never
looks at its delimiter, and where its loop ends at the size limit there is no `return`: what is left
is the way out through an error. `readsUntil_iff` says that this way, taken before a delimiter has
come, is the only one on which the function does what its name says.
-/

namespace Marcelov

open Lib

/-- What `read_until` leaves: the bytes at `dst`, the value at `written_size` if the pointer is not
null, how many results it has taken from the console, and the value of its `return`, if it comes to
one. -/
structure ReadResult where
  stored : List (BitVec 8)
  writtenSize : Option (BitVec 64)
  consumed : ℕ
  ret : Option (BitVec 64)

section

variable (stream : ℕ → BitVec 64)

/-- The loop of `read_until`, with `room` bytes left. -/
def readUntilLoop : ℕ → ReadResult → ReadResult
  | 0, r => r
  | room + 1, r =>
    let c := stream r.consumed
    if c.toInt < 0 then { r with consumed := r.consumed + 1, ret := some c }
    else readUntilLoop room
      { r with
        stored := r.stored ++ [c.setWidth 8]
        writtenSize := r.writtenSize.map (· + 1)
        consumed := r.consumed + 1 }

def readUntil (_delimiter : BitVec 8) (dstSize : ℕ) (writtenSize : Option (BitVec 64)) :
    ReadResult :=
  readUntilLoop stream dstSize ⟨[], writtenSize, 0, none⟩

/-! ## What it should do -/

def IsChar (k : ℕ) : Prop := 0 ≤ (stream k).toInt

instance (k : ℕ) : Decidable (IsChar stream k) := inferInstanceAs (Decidable (0 ≤ _))

/-- The characters among the first `n` results. -/
def received (n : ℕ) : List (BitVec 8) :=
  (((List.range n).map stream).filter fun c => 0 ≤ c.toInt).map (BitVec.setWidth 8)

def IsDelimiter (delimiter : BitVec 8) (k : ℕ) : Prop :=
  IsChar stream k ∧ (stream k).setWidth 8 = delimiter

/-- The result at `k` is an error, before the size limit and before any delimiter or other error. -/
def ErrorFirst (delimiter : BitVec 8) (dstSize k : ℕ) : Prop :=
  k < dstSize ∧ ¬ IsChar stream k ∧ ∀ j < k, IsChar stream j ∧ ¬ IsDelimiter stream delimiter j

/-- `read_until` stores what it receives, up to the size limit, takes nothing after the delimiter,
counts what it stores, and returns the error if one comes first, else a number that is none. -/
structure ReadsUntil (delimiter : BitVec 8) (dstSize : ℕ) (writtenSize : Option (BitVec 64)) :
    Prop where
  stored_le : (readUntil stream delimiter dstSize writtenSize).stored.length ≤ dstSize
  stored_eq : (readUntil stream delimiter dstSize writtenSize).stored =
    received stream (readUntil stream delimiter dstSize writtenSize).consumed
  consumed_le : ∀ k, IsDelimiter stream delimiter k →
    (readUntil stream delimiter dstSize writtenSize).consumed ≤ k + 1
  written_eq : (readUntil stream delimiter dstSize writtenSize).writtenSize =
    writtenSize.map (· + BitVec.ofNat 64
      (readUntil stream delimiter dstSize writtenSize).stored.length)
  ret_error : ∀ k, ErrorFirst stream delimiter dstSize k →
    (readUntil stream delimiter dstSize writtenSize).ret = some (stream k)
  ret_else : (¬ ∃ k, ErrorFirst stream delimiter dstSize k) →
    ∃ c, (readUntil stream delimiter dstSize writtenSize).ret = some c ∧ 0 ≤ c.toInt

end

/-! ## The loop -/

def afterChars (stream : ℕ → BitVec 64) (writtenSize : Option (BitVec 64)) (k : ℕ) :
    ReadResult where
  stored := (List.range k).map fun j => (stream j).setWidth 8
  writtenSize := writtenSize.map (· + BitVec.ofNat 64 k)
  consumed := k
  ret := none

section

variable {stream : ℕ → BitVec 64} {writtenSize : Option (BitVec 64)} {delimiter : BitVec 8}
  {k dstSize : ℕ}

theorem readUntilLoop_of_char (h : IsChar stream k) (room : ℕ) :
    readUntilLoop stream (room + 1) (afterChars stream writtenSize k) =
      readUntilLoop stream room (afterChars stream writtenSize (k + 1)) := by
  rw [readUntilLoop]
  refine (if_neg (Int.not_lt.2 h)).trans (congrArg _ ?_)
  simp [afterChars, List.range_succ, Option.map_map, Function.comp_def, BitVec.ofNat_add,
    BitVec.add_assoc]

theorem readUntilLoop_of_error (h : ¬ IsChar stream k) (room : ℕ) :
    readUntilLoop stream (room + 1) (afterChars stream writtenSize k) =
      { afterChars stream writtenSize k with consumed := k + 1, ret := some (stream k) } := by
  rw [readUntilLoop]
  exact if_pos (Int.not_le.1 h)

theorem readUntil_chars (h : ∀ j < k, IsChar stream j) (room : ℕ) :
    readUntil stream delimiter (k + room) writtenSize =
      readUntilLoop stream room (afterChars stream writtenSize k) := by
  induction k generalizing room with
  | zero =>
    rw [readUntil, Nat.zero_add, afterChars]
    cases writtenSize <;> simp
  | succ k ih =>
    have hrest : ∀ j < k, IsChar stream j := fun j hj => h j (Nat.lt_succ_of_lt hj)
    rw [Nat.succ_add_eq_add_succ, ih hrest, readUntilLoop_of_char (h k k.lt_succ_self)]

theorem readUntil_of_error (hk : k < dstSize) (h : ∀ j < k, IsChar stream j)
    (herror : ¬ IsChar stream k) :
    readUntil stream delimiter dstSize writtenSize =
      { afterChars stream writtenSize k with consumed := k + 1, ret := some (stream k) } := by
  obtain ⟨room, rfl⟩ := Nat.exists_eq_add_of_lt hk
  rw [Nat.add_assoc, readUntil_chars h, readUntilLoop_of_error herror]

/-- The way out at the size limit, where there is nothing to return. -/
theorem readUntil_of_full (h : ∀ j < dstSize, IsChar stream j) :
    readUntil stream delimiter dstSize writtenSize = afterChars stream writtenSize dstSize :=
  readUntil_chars h 0

theorem received_error (h : ∀ j < k, IsChar stream j) (herror : ¬ IsChar stream k) :
    received stream (k + 1) = (List.range k).map fun j => (stream j).setWidth 8 := by
  have hchars : ((List.range k).map stream).filter (fun c => 0 ≤ c.toInt) =
      (List.range k).map stream := by
    rw [List.filter_eq_self]
    intro c hc
    obtain ⟨j, hj, rfl⟩ := List.mem_map.1 hc
    exact decide_eq_true (h j (List.mem_range.1 hj))
  have hnegative : (stream k).toInt < 0 := Int.not_le.1 herror
  have hlast : [stream k].filter (fun c => 0 ≤ c.toInt) = [] :=
    List.filter_cons_of_neg (by simpa using hnegative)
  rw [received, List.range_succ, List.map_append, List.filter_append, hchars, List.map_singleton,
    hlast, List.append_nil, List.map_map]
  rfl

theorem ErrorFirst.unique {j : ℕ} (hj : ErrorFirst stream delimiter dstSize j)
    (hk : ErrorFirst stream delimiter dstSize k) : j = k :=
  first_unique (fun m hm => (hj.2.2 m hm).1) hj.2.1 (fun m hm => (hk.2.2 m hm).1) hk.2.1

theorem ErrorFirst.readsUntil (h : ErrorFirst stream delimiter dstSize k) :
    ReadsUntil stream delimiter dstSize writtenSize := by
  obtain ⟨hk, herror, hbefore⟩ := h
  have hchars : ∀ j < k, IsChar stream j := fun j hj => (hbefore j hj).1
  have hread : readUntil stream delimiter dstSize writtenSize = _ :=
    readUntil_of_error hk hchars herror
  have hlength : (afterChars stream writtenSize k).stored.length = k := by simp [afterChars]
  constructor
  · rw [hread, hlength]
    exact Nat.le_of_lt hk
  · rw [hread]
    exact (received_error hchars herror).symm
  · intro j hj
    rw [hread]
    refine Nat.succ_le_succ (Nat.not_lt.1 fun hlt => ?_)
    exact (hbefore j hlt).2 hj
  · rw [hread, hlength]
    rfl
  · intro j hj
    rw [hread, hj.unique ⟨hk, herror, hbefore⟩]
  · intro hnone
    exact absurd ⟨k, hk, herror, hbefore⟩ hnone

end

/-! ## The result -/

/-- **`read_until` does what it should** exactly where an error comes before the delimiter and
before the size limit. -/
theorem readsUntil_iff (stream : ℕ → BitVec 64) (delimiter : BitVec 8) (dstSize : ℕ)
    (writtenSize : Option (BitVec 64)) :
    ReadsUntil stream delimiter dstSize writtenSize ↔
      ∃ k, ErrorFirst stream delimiter dstSize k := by
  constructor
  · intro h
    by_contra hnone
    obtain ⟨c, hret, hc⟩ := h.ret_else hnone
    rcases forall_or_exists_first (IsChar stream) dstSize with hfull | ⟨k, hk, hchars, herror⟩
    · rw [readUntil_of_full hfull] at hret
      cases hret
    · rw [readUntil_of_error hk hchars herror] at hret
      obtain rfl : stream k = c := Option.some.inj hret
      exact herror hc
  · rintro ⟨k, hk⟩
    exact hk.readsUntil

/-- A line of one letter, and more after it: the delimiter does not end it. -/
theorem not_readsUntil_line :
    ¬ ReadsUntil (fun k => if k = 1 then 0x0a else 0x61) 0x0a 4 none := by
  intro h
  have hline : IsDelimiter (fun k => if k = 1 then 0x0a else 0x61) 0x0a 1 := ⟨by decide, by decide⟩
  exact absurd (h.consumed_le 1 hline) (by decide)

end Marcelov
