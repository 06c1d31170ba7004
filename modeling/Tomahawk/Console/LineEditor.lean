import Tomahawk.Lib.CString

/-!
# The line editor of the console

`tty_readline` of `tty.c`: it takes the scancodes of the keyboard one by one, edits a line with
them and, at Enter or Escape, stores the line or an empty string in the buffer of its caller.
What it draws on the screen is left out.
-/

namespace Tomahawk.Console

open Tomahawk.Lib

/-- `TTY_LINE_MAX` -/
def ttyLineMax : ℕ := 128

/-- `TTY_HISTORY_SIZE` -/
abbrev ttyHistorySize : ℕ := 8

/-- The fields of `tty_t` that editing uses. `lineBuf` is the first `line_len` bytes of the
buffer, `savedLine` the first `saved_len` bytes of the saved one. -/
structure Tty where
  lineBuf : List UInt8
  cursor : ℕ
  history : Fin ttyHistorySize → CStr
  histCount : ℕ
  histWrite : Fin ttyHistorySize
  histBrowse : ℤ
  savedLine : List UInt8
  e0Prefix : Bool
  echoMask : UInt8

/-- `tty_init` -/
def ttyInit : Tty where
  lineBuf := []
  cursor := 0
  history := fun _ => .empty
  histCount := 0
  histWrite := 0
  histBrowse := -1
  savedLine := []
  e0Prefix := false
  echoMask := 0

/-- `sc_to_ascii`, up to its last entry that is not 0. -/
def scToAscii : List UInt8 :=
  [0, 27, 49, 50, 51, 52, 53, 54, 55, 56, 57, 48, 45, 61, 8, 9,
    113, 119, 101, 114, 116, 121, 117, 105, 111, 112, 91, 93, 10, 0, 97, 115,
    100, 102, 103, 104, 106, 107, 108, 59, 39, 96, 0, 92, 122, 120, 99, 118,
    98, 110, 109, 44, 46, 47, 0, 42, 0, 32]

/-- `sc_to_ascii_shift`, up to its last entry that is not 0. -/
def scToAsciiShift : List UInt8 :=
  [0, 27, 33, 64, 35, 36, 37, 94, 38, 42, 40, 41, 95, 43, 8, 9,
    81, 87, 69, 82, 84, 89, 85, 73, 79, 80, 123, 125, 10, 0, 65, 83,
    68, 70, 71, 72, 74, 75, 76, 58, 34, 126, 0, 124, 90, 88, 67, 86,
    66, 78, 77, 60, 62, 63, 0, 42, 0, 32]

/-- The state of a call of `tty_readline`: the terminal and the modifier keys. -/
structure Editing where
  tty : Tty
  shiftHeld : Bool
  capsLock : Bool

/-- How a key ends: the call goes on, or it returns `n` with these bytes in its buffer. -/
inductive KeyEnd where
  | continues (e : Editing)
  | returned (tty : Tty) (n : ℤ) (stored : List UInt8)

/-- Put a line into the buffer, with the cursor behind it. -/
def Tty.setLine (t : Tty) (line : List UInt8) : Tty :=
  { t with lineBuf := line, cursor := line.length }

/-- The slot of the history that is `back` lines before the last one. -/
def Tty.slot (t : Tty) (back : ℤ) : Fin ttyHistorySize :=
  ⟨((t.histWrite.val - 1 - back + ttyHistorySize) % ttyHistorySize).toNat, by
    have hnonneg := Int.emod_nonneg (t.histWrite.val - 1 - back + ttyHistorySize)
      (show (ttyHistorySize : ℤ) ≠ 0 by decide)
    have hlt := Int.emod_lt_of_pos (t.histWrite.val - 1 - back + ttyHistorySize)
      (show (0 : ℤ) < ttyHistorySize by decide)
    omega⟩

/-- `tty_load_history_entry` -/
def ttyLoadHistoryEntry (t : Tty) (idx : Fin ttyHistorySize) (maxlen : ℕ) : Tty :=
  t.setLine ((t.history idx).take (maxlen - 1)).bytes

/-- `tty_history_push`: empty lines are skipped. -/
def ttyHistoryPush (t : Tty) : Tty :=
  if t.lineBuf = [] then t
  else { t with
    history := Function.update t.history t.histWrite (.ofBytes (t.lineBuf.take (ttyLineMax - 1)))
    histWrite := t.histWrite + 1
    histCount := if t.histCount < ttyHistorySize then t.histCount + 1 else t.histCount }

/-- The up arrow: the next older line of the history. -/
def Tty.older (t : Tty) (maxlen : ℕ) : Tty :=
  if t.histCount = 0 then t
  else if t.histBrowse = -1 then
    let t := { t with savedLine := t.lineBuf, histBrowse := 0 }
    ttyLoadHistoryEntry t (t.slot t.histBrowse) maxlen
  else if t.histBrowse < t.histCount - 1 then
    let t := { t with histBrowse := t.histBrowse + 1 }
    ttyLoadHistoryEntry t (t.slot t.histBrowse) maxlen
  else t

/-- The down arrow: the next newer line, or the line saved before browsing. -/
def Tty.newer (t : Tty) (maxlen : ℕ) : Tty :=
  if t.histBrowse < 0 then t
  else
    let t := { t with histBrowse := t.histBrowse - 1 }
    if t.histBrowse < 0 then t.setLine t.savedLine
    else ttyLoadHistoryEntry t (t.slot t.histBrowse) maxlen

/-- The keys with the prefix E0: the arrows, Home, End and Delete. -/
def extendedKey (t : Tty) (maxlen : ℕ) (sc : UInt8) : Tty :=
  if sc = 0x4B then { t with cursor := t.cursor - 1 }
  else if sc = 0x4D then if t.cursor < t.lineBuf.length then { t with cursor := t.cursor + 1 } else t
  else if sc = 0x48 then t.older maxlen
  else if sc = 0x50 then t.newer maxlen
  else if sc = 0x47 then { t with cursor := 0 }
  else if sc = 0x4F then { t with cursor := t.lineBuf.length }
  else if sc = 0x53 then { t with lineBuf := t.lineBuf.eraseIdx t.cursor }
  else t

/-- The character of a make code: with Caps Lock, Shift is inverted for the letters. -/
def keyChar (shiftHeld capsLock : Bool) (sc : UInt8) : UInt8 :=
  let lower := scToAscii.getD sc.toNat 0
  let useShift := if capsLock ∧ 97 ≤ lower ∧ lower ≤ 122 then !shiftHeld else shiftHeld
  if useShift then scToAsciiShift.getD sc.toNat 0 else lower

/-- A key without the prefix, by its character. -/
def plainKey (e : Editing) (maxlen : ℕ) (ch : UInt8) : KeyEnd :=
  let t := e.tty
  if ch = 0 then .continues e
  else if ch = 27 then .returned t (-1) [0]
  else if ch = 10 ∨ ch = 13 then
    let t := ttyHistoryPush { t with cursor := t.lineBuf.length }
    let n := if maxlen ≤ t.lineBuf.length then maxlen - 1 else t.lineBuf.length
    .returned t n (t.lineBuf.take n ++ [0])
  else if ch = 8 then
    if 0 < t.cursor then
      .continues { e with
        tty := { t with lineBuf := t.lineBuf.eraseIdx (t.cursor - 1), cursor := t.cursor - 1 } }
    else .continues e
  else if ch = 9 then .continues e
  else if 32 ≤ ch ∧ ch < 127 ∧ t.lineBuf.length < maxlen - 1 then
    .continues { e with
      tty := { t with lineBuf := t.lineBuf.insertIdx t.cursor ch, cursor := t.cursor + 1 } }
  else .continues e

/-- One turn of the loop of `tty_readline`, for a byte from the keyboard controller. -/
def readlineKey (e : Editing) (maxlen : ℕ) (sc : UInt8) : KeyEnd :=
  if sc = 0xE0 then .continues { e with tty := { e.tty with e0Prefix := true } }
  else if sc = 0x2A ∨ sc = 0x36 then .continues { e with shiftHeld := true }
  else if sc = 0xAA ∨ sc = 0xB6 then .continues { e with shiftHeld := false }
  else if sc = 0x3A then .continues { e with capsLock := !e.capsLock }
  else if sc &&& 0x80 ≠ 0 then .continues { e with tty := { e.tty with e0Prefix := false } }
  else if e.tty.e0Prefix then
    .continues { e with tty := extendedKey { e.tty with e0Prefix := false } maxlen sc }
  else plainKey e maxlen (keyChar e.shiftHeld e.capsLock sc)

/-- The loop of `tty_readline` on the bytes that the controller delivers: `none` while the call
waits for more, and otherwise the result, the bytes it stored and the bytes that are left. -/
def readlineLoop (maxlen : ℕ) : Editing → List UInt8 → Option (Tty × ℤ × List UInt8 × List UInt8)
  | _, [] => none
  | e, sc :: keys =>
    match readlineKey e maxlen sc with
    | .continues e => readlineLoop maxlen e keys
    | .returned t n stored => some (t, n, stored, keys)

/-- `tty_readline`. A buffer of at most one byte, or none, is left alone. -/
def ttyReadline (t : Tty) (hasBuf : Bool) (maxlen : ℤ) (keys : List UInt8) :
    Option (Tty × ℤ × List UInt8 × List UInt8) :=
  if !hasBuf || decide (maxlen ≤ 1) then some (t, 0, [], keys)
  else
    let t := { t with
      lineBuf := [], cursor := 0, e0Prefix := false, histBrowse := -1, savedLine := [] }
    readlineLoop (min maxlen.toNat ttyLineMax) ⟨t, false, false⟩ keys

/-- `tty_readline_masked` -/
def ttyReadlineMasked (t : Tty) (hasBuf : Bool) (maxlen : ℤ) (maskChar : UInt8)
    (keys : List UInt8) : Option (Tty × ℤ × List UInt8 × List UInt8) :=
  match ttyReadline { t with echoMask := maskChar } hasBuf maxlen keys with
  | none => none
  | some (t, r) => some ({ t with echoMask := 0 }, r)

/-! ## The buffer of the caller -/

variable {e : Editing} {t t' : Tty} {maxlen : ℕ} {n : ℤ} {sc ch : UInt8}
  {keys rest stored : List UInt8} {hasBuf : Bool} {len : ℤ}

theorem plainKey_stored (hmax : 1 ≤ maxlen) (h : plainKey e maxlen ch = .returned t n stored) :
    stored.length ≤ maxlen := by
  unfold plainKey at h
  dsimp only at h
  split_ifs at h with hzero hesc henter
  · obtain ⟨-, -, rfl⟩ := KeyEnd.returned.inj h
    exact hmax
  all_goals
    obtain ⟨-, -, rfl⟩ := KeyEnd.returned.inj h
    simp only [List.length_append, List.length_take, List.length_singleton]
    omega

/-- Only Enter and Escape end the call, and the bytes they store fit the buffer. -/
theorem readlineKey_stored (hmax : 1 ≤ maxlen)
    (h : readlineKey e maxlen sc = .returned t n stored) : stored.length ≤ maxlen := by
  unfold readlineKey at h
  split_ifs at h
  exact plainKey_stored hmax h

/-- A call stores no more than fits the buffer, whatever was typed. -/
theorem readlineLoop_stored (hmax : 1 ≤ maxlen)
    (h : readlineLoop maxlen e keys = some (t, n, stored, rest)) : stored.length ≤ maxlen := by
  induction keys generalizing e with
  | nil => simp [readlineLoop] at h
  | cons sc keys ih =>
    rw [readlineLoop] at h
    cases hkey : readlineKey e maxlen sc with
    | continues e' =>
      rw [hkey] at h
      exact ih h
    | returned t' n' stored' =>
      rw [hkey] at h
      obtain ⟨rfl, rfl, rfl, rfl⟩ : t' = t ∧ n' = n ∧ stored' = stored ∧ keys = rest := by
        simpa using h
      exact readlineKey_stored hmax hkey

/-- The most that a call stores in a buffer of this length. -/
def readlineReach (len : ℤ) : ℕ := if len ≤ 1 then 0 else min len.toNat ttyLineMax

/-- `tty_readline` stays within the length that it is given. -/
theorem ttyReadline_stored (h : ttyReadline t hasBuf len keys = some (t', n, stored, rest)) :
    stored.length ≤ readlineReach len := by
  unfold ttyReadline at h
  split_ifs at h with hnone
  · obtain ⟨-, -, rfl, -⟩ : t = t' ∧ 0 = n ∧ [] = stored ∧ keys = rest := by simpa using h
    exact Nat.zero_le _
  · obtain ⟨-, hlen⟩ : hasBuf = true ∧ 1 < len := by simpa using hnone
    rw [readlineReach, if_neg (by omega)]
    exact readlineLoop_stored (by simp only [ttyLineMax]; omega) h

/-! ## A line that fills the buffer -/

/-- A make code that is neither the prefix nor a modifier counts by its character. -/
theorem readlineKey_plain (maxlen : ℕ) (sc : UInt8) (he0 : e.tty.e0Prefix = false)
    (hsc : sc ∉ [0xE0, 0x2A, 0x36, 0xAA, 0xB6, 0x3A]) (hmake : sc &&& 0x80 = 0) :
    readlineKey e maxlen sc = plainKey e maxlen (keyChar e.shiftHeld e.capsLock sc) := by
  simp only [List.mem_cons, List.not_mem_nil, or_false, not_or] at hsc
  obtain ⟨hlead, hleft, hright, hleft', hright', hcaps⟩ := hsc
  simp [readlineKey, hlead, hleft, hright, hleft', hright', hcaps, hmake, he0]

/-- Enter, if the line fits the buffer. -/
theorem plainKey_enter (h : e.tty.lineBuf.length < maxlen) :
    ∃ t, plainKey e maxlen 10 =
      .returned t e.tty.lineBuf.length (e.tty.lineBuf ++ [0]) := by
  have hpush : (ttyHistoryPush { e.tty with cursor := e.tty.lineBuf.length }).lineBuf =
      e.tty.lineBuf := by
    unfold ttyHistoryPush
    split_ifs <;> rfl
  refine ⟨ttyHistoryPush { e.tty with cursor := e.tty.lineBuf.length }, ?_⟩
  simp [plainKey, hpush, Nat.not_le.mpr h]

/-- A printable character, if there is room for it. -/
theorem plainKey_insert (hch : 32 ≤ ch ∧ ch < 127) (h : e.tty.lineBuf.length < maxlen - 1) :
    plainKey e maxlen ch = .continues { e with
      tty := { e.tty with
        lineBuf := e.tty.lineBuf.insertIdx e.tty.cursor ch, cursor := e.tty.cursor + 1 } } := by
  have hne : ∀ b : UInt8, b < 32 → ch ≠ b := by
    rintro b hb rfl
    exact absurd hch.1 (UInt8.not_le.mpr hb)
  have hzero := hne 0 (by decide)
  have hesc := hne 27 (by decide)
  have hlf := hne 10 (by decide)
  have hcr := hne 13 (by decide)
  have hbs := hne 8 (by decide)
  have htab := hne 9 (by decide)
  simp only [plainKey, hzero, hesc, hlf, hcr, hbs, htab, if_false, or_self, hch, h, and_self, if_true]

/-- The keys of `n` times the letter a, and Enter. -/
def typed (n : ℕ) : List UInt8 := List.replicate n 0x1E ++ [0x1C]

/-- Letters typed up to the end of the buffer are stored, with the terminator. -/
theorem readlineLoop_typed {r : ℕ} (hshift : e.shiftHeld = false) (hcaps : e.capsLock = false)
    (he0 : e.tty.e0Prefix = false) (hcursor : e.tty.cursor ≤ e.tty.lineBuf.length)
    (hr : e.tty.lineBuf.length + r + 1 = maxlen) :
    ∃ t n stored, readlineLoop maxlen e (typed r) = some (t, n, stored, []) ∧
      stored.length = maxlen := by
  induction r generalizing e with
  | zero =>
    have hchar : keyChar e.shiftHeld e.capsLock 0x1C = 10 := by
      rw [hshift, hcaps]
      decide
    have hfits : e.tty.lineBuf.length < maxlen := by omega
    obtain ⟨t, henter⟩ := plainKey_enter hfits
    have hkey := readlineKey_plain maxlen 0x1C he0 (by decide) (by decide)
    rw [hchar, henter] at hkey
    refine ⟨t, e.tty.lineBuf.length, e.tty.lineBuf ++ [0], ?_, ?_⟩
    · simp only [typed, List.replicate_zero, List.nil_append, readlineLoop, hkey]
    · simp only [List.length_append, List.length_singleton]
      omega
  | succ r ih =>
    have hchar : keyChar e.shiftHeld e.capsLock 0x1E = 97 := by
      rw [hshift, hcaps]
      decide
    have hkey := readlineKey_plain maxlen 0x1E he0 (by decide) (by decide)
    rw [hchar, plainKey_insert (by decide) (show _ < maxlen - 1 by omega)] at hkey
    have hlen := List.length_insertIdx_of_le_length (a := (97 : UInt8)) hcursor
    have hrest := ih (e := { e with tty := { e.tty with
      lineBuf := e.tty.lineBuf.insertIdx e.tty.cursor 97, cursor := e.tty.cursor + 1 } })
      hshift hcaps he0 (by dsimp only; omega) (by dsimp only; omega)
    simp only [typed, List.replicate_succ, List.cons_append, readlineLoop, hkey]
    exact hrest

/-- A line can fill the buffer. -/
theorem ttyReadline_typed (t : Tty) (hlen : 1 < len) :
    ∃ t' n stored, ttyReadline t true len (typed (readlineReach len - 1)) =
      some (t', n, stored, []) ∧ stored.length = readlineReach len := by
  have hreach : readlineReach len = min len.toNat ttyLineMax := if_neg (by omega)
  have hmax : 1 ≤ min len.toNat ttyLineMax := by
    simp only [ttyLineMax]
    omega
  unfold ttyReadline
  rw [if_neg (by simpa using hlen), hreach]
  exact readlineLoop_typed rfl rfl rfl le_rfl (by simp only [List.length_nil]; omega)

end Tomahawk.Console
