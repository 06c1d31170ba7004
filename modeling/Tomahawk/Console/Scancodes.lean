import Tomahawk.Console.LineEditor

/-!
# Prefixes and modifiers

What `tty_readline` takes each byte for, and what the bytes before it say that it is. The loop
keeps one flag for the prefix E0 and one for both Shift keys. So they differ when a modifier stands
behind a prefix, and when a character comes while one Shift key is still held after the other was
released.
-/

namespace Tomahawk.Console

variable {e e' : Editing} {maxlen : ℕ} {sc ch : UInt8} {a b keys : List UInt8}

/-- The state of a call after some bytes, unless it has returned. -/
def readlineState (maxlen : ℕ) : Editing → List UInt8 → Option Editing
  | e, [] => some e
  | e, sc :: keys =>
    match readlineKey e maxlen sc with
    | .continues e => readlineState maxlen e keys
    | .returned _ _ _ => none

/-- The state in which the loop of `tty_readline` begins. -/
def Tty.editing (t : Tty) : Editing :=
  ⟨{ t with lineBuf := [], cursor := 0, e0Prefix := false, histBrowse := -1, savedLine := [] },
    false, false⟩

/-- What a byte is taken for: the prefix, a Shift key that goes down or up, Caps Lock, the release
of another key, an extended key, or a character from the plain or the shifted table. -/
inductive Treatment where
  | lead
  | shift (down : Bool)
  | caps
  | release
  | extended
  | character (shifted : Bool)
  deriving DecidableEq

/-- The table for a make code: with Caps Lock, Shift is inverted for the letters. -/
def shiftedTable (shift caps : Bool) (sc : UInt8) : Bool :=
  let lower := scToAscii.getD sc.toNat 0
  if caps ∧ 97 ≤ lower ∧ lower ≤ 122 then !shift else shift

/-- What `tty_readline` takes a byte for. -/
def Editing.treats (e : Editing) (sc : UInt8) : Treatment :=
  if sc = 0xE0 then .lead
  else if sc = 0x2A ∨ sc = 0x36 then .shift true
  else if sc = 0xAA ∨ sc = 0xB6 then .shift false
  else if sc = 0x3A then .caps
  else if sc &&& 0x80 ≠ 0 then .release
  else if e.tty.e0Prefix then .extended
  else .character (shiftedTable e.shiftHeld e.capsLock sc)

/-- What is done with a byte that is taken for something. -/
def Treatment.act (e : Editing) (maxlen : ℕ) (sc : UInt8) : Treatment → KeyEnd
  | .lead => .continues { e with tty := { e.tty with e0Prefix := true } }
  | .shift down => .continues { e with shiftHeld := down }
  | .caps => .continues { e with capsLock := !e.capsLock }
  | .release => .continues { e with tty := { e.tty with e0Prefix := false } }
  | .extended => .continues { e with tty := extendedKey { e.tty with e0Prefix := false } maxlen sc }
  | .character shifted =>
    plainKey e maxlen ((if shifted then scToAsciiShift else scToAscii).getD sc.toNat 0)

theorem readlineKey_eq_act (e : Editing) (maxlen : ℕ) (sc : UInt8) :
    readlineKey e maxlen sc = (e.treats sc).act e maxlen sc := by
  unfold readlineKey Editing.treats
  split_ifs
  all_goals try rfl
  simp only [Treatment.act, keyChar, shiftedTable]
  congr 1
  split_ifs <;> rfl

/-- What the bytes of a call say: the last one was E0, which of the Shift keys are held, whether
the last byte of a Shift key was a press, and whether Caps Lock is on. -/
structure Held where
  extended : Bool
  left : Bool
  right : Bool
  last : Bool
  caps : Bool

/-- The next byte. Behind the prefix it belongs to another key than Shift and Caps Lock. -/
def Held.next (h : Held) (sc : UInt8) : Held :=
  if h.extended then { h with extended := sc == 0xE0 }
  else if sc = 0x2A then { h with left := true, last := true }
  else if sc = 0x36 then { h with right := true, last := true }
  else if sc = 0xAA then { h with left := false, last := false }
  else if sc = 0xB6 then { h with right := false, last := false }
  else if sc = 0x3A then { h with caps := !h.caps }
  else { h with extended := sc == 0xE0 }

/-- What the bytes of a call say after all of them. -/
def heldAfter (keys : List UInt8) : Held := keys.foldl Held.next ⟨false, false, false, false, false⟩

/-- What a byte is by the bytes before it: it belongs to an extended key if the last one was E0,
and a character is shifted if at least one Shift key is held. -/
def Held.reads (h : Held) (sc : UInt8) : Treatment :=
  if sc = 0xE0 then .lead
  else if h.extended then if sc &&& 0x80 ≠ 0 then .release else .extended
  else if sc = 0x2A ∨ sc = 0x36 then .shift true
  else if sc = 0xAA ∨ sc = 0xB6 then .shift false
  else if sc = 0x3A then .caps
  else if sc &&& 0x80 ≠ 0 then .release
  else .character (shiftedTable (h.left || h.right) h.caps sc)

/-- The bytes of the Shift keys and of Caps Lock. -/
def modifiers : List UInt8 := [0x2A, 0x36, 0xAA, 0xB6, 0x3A]

/-- The byte is no modifier behind a prefix; and if it is the make code of a character, then the
last byte of a Shift key was a press exactly if one of them is held. -/
def Held.Clear (h : Held) (sc : UInt8) : Prop :=
  (sc ∈ modifiers → h.extended = false) ∧
    (sc ∉ modifiers → sc &&& 0x80 = 0 → h.extended = false → h.last = (h.left || h.right))

instance (h : Held) (sc : UInt8) : Decidable (h.Clear sc) := inferInstanceAs (Decidable (_ ∧ _))

/-- The flags of the loop are what the bytes say, where the one for Shift only knows the last
byte of a Shift key. -/
structure Editing.Knows (e : Editing) (h : Held) : Prop where
  e0Prefix : e.tty.e0Prefix = h.extended
  shiftHeld : e.shiftHeld = h.last
  capsLock : e.capsLock = h.caps

theorem extendedKey_e0Prefix (t : Tty) (maxlen : ℕ) (sc : UInt8) :
    (extendedKey t maxlen sc).e0Prefix = t.e0Prefix := by
  unfold extendedKey Tty.older Tty.newer ttyLoadHistoryEntry Tty.setLine
  dsimp only
  split_ifs <;> rfl

/-- A character leaves the flags alone. -/
theorem plainKey_flags (h : plainKey e maxlen ch = .continues e') :
    e'.tty.e0Prefix = e.tty.e0Prefix ∧ e'.shiftHeld = e.shiftHeld ∧ e'.capsLock = e.capsLock := by
  unfold plainKey at h
  dsimp only at h
  split_ifs at h <;> obtain rfl := KeyEnd.continues.inj h <;> exact ⟨rfl, rfl, rfl⟩

/-- Shift always decides the table. -/
theorem shiftedTable_inj {x y caps : Bool} :
    shiftedTable x caps sc = shiftedTable y caps sc ↔ x = y := by
  unfold shiftedTable
  dsimp only
  split_ifs <;> simp

/-- A byte is taken for what it is exactly if it is clear. -/
theorem Editing.Knows.treats_eq {h : Held} (hknows : e.Knows h) (sc : UInt8) :
    e.treats sc = h.reads sc ↔ h.Clear sc := by
  obtain ⟨he0, hshift, hcaps⟩ := hknows
  unfold Editing.treats Held.reads Held.Clear
  rw [he0, hshift, hcaps]
  by_cases hmod : sc ∈ modifiers
  · have hkeys := hmod
    simp only [modifiers, List.mem_cons, List.not_mem_nil, or_false] at hkeys
    rcases hkeys with rfl | rfl | rfl | rfl | rfl <;> cases h.extended <;> simp [hmod] <;> decide
  · have hkeys := hmod
    simp only [modifiers, List.mem_cons, List.not_mem_nil, or_false, not_or] at hkeys
    by_cases hlead : sc = 0xE0
    · have hbreak : (0xE0 : UInt8) &&& 0x80 ≠ 0 := by decide
      simp [hlead, hbreak, modifiers]
    · by_cases hbreak : sc &&& 0x80 = 0 <;> cases h.extended <;>
        simp [hmod, hkeys, hlead, hbreak, shiftedTable_inj]

/-- A byte that is no modifier behind a prefix keeps the flags right. -/
theorem Editing.Knows.key {h : Held} (hknows : e.Knows h)
    (hkey : readlineKey e maxlen sc = .continues e')
    (hclear : sc ∈ modifiers → h.extended = false) : e'.Knows (h.next sc) := by
  obtain ⟨he0, hshift, hcaps⟩ := hknows
  unfold readlineKey at hkey
  unfold Held.next
  split_ifs at hkey with hlead hpress hrelease hthird hbreak hext
  · cases hkey
    subst hlead
    cases h.extended <;> exact ⟨rfl, hshift, hcaps⟩
  · cases hkey
    rcases hpress with rfl | rfl <;> rw [hclear (by decide)] at he0 ⊢ <;> exact ⟨he0, rfl, hcaps⟩
  · cases hkey
    rcases hrelease with rfl | rfl <;> rw [hclear (by decide)] at he0 ⊢ <;> exact ⟨he0, rfl, hcaps⟩
  · cases hkey
    subst hthird
    rw [hclear (by decide)] at he0 ⊢
    exact ⟨he0, hshift, congrArg (!·) hcaps⟩
  all_goals
    rw [not_or] at hpress hrelease
    simp only [hpress, hrelease, hthird, if_false, ite_self, beq_eq_false_iff_ne.mpr hlead]
  · cases hkey
    exact ⟨rfl, hshift, hcaps⟩
  · cases hkey
    exact ⟨extendedKey_e0Prefix _ _ _, hshift, hcaps⟩
  · obtain ⟨hflag, hheld, hlock⟩ := plainKey_flags hkey
    exact ⟨hflag.trans (by simpa using hext), hheld.trans hshift, hlock.trans hcaps⟩

theorem readlineState_append : readlineState maxlen e (a ++ b) =
    (readlineState maxlen e a).bind fun e => readlineState maxlen e b := by
  induction a generalizing e with
  | nil => rfl
  | cons sc a ih =>
    rw [List.cons_append, readlineState, readlineState]
    cases readlineKey e maxlen sc with
    | continues e' => exact ih
    | returned => rfl

/-- The last byte of a call that goes on. -/
theorem readlineState_concat (h : readlineState maxlen e (a ++ [sc]) = some e') :
    ∃ e₁, readlineState maxlen e a = some e₁ ∧ readlineKey e₁ maxlen sc = .continues e' := by
  rw [readlineState_append, Option.bind_eq_some_iff] at h
  obtain ⟨e₁, ha, hsc⟩ := h
  refine ⟨e₁, ha, ?_⟩
  rw [readlineState] at hsc
  cases hkey : readlineKey e₁ maxlen sc with
  | continues e₂ =>
    rw [hkey] at hsc
    obtain rfl : e₂ = e' := Option.some.inj hsc
    rfl
  | returned =>
    rw [hkey] at hsc
    cases hsc

/-- The flags are right before a byte if each byte before it is clear, given that the flags are
right there. -/
theorem knows_take (t : Tty)
    (hclear : ∀ i (hi : i < keys.length) e, readlineState maxlen t.editing (keys.take i) = some e →
      e.Knows (heldAfter (keys.take i)) → (heldAfter (keys.take i)).Clear keys[i])
    (i : ℕ) (hi : i ≤ keys.length) (e : Editing)
    (hstate : readlineState maxlen t.editing (keys.take i) = some e) :
    e.Knows (heldAfter (keys.take i)) := by
  induction i generalizing e with
  | zero =>
    obtain rfl : t.editing = e := Option.some.inj hstate
    exact ⟨rfl, rfl, rfl⟩
  | succ i ih =>
    have hi : i < keys.length := hi
    rw [List.take_succ_eq_append_getElem hi] at hstate ⊢
    obtain ⟨e₁, hbefore, hkey⟩ := readlineState_concat hstate
    have hknows := ih hi.le e₁ hbefore
    rw [heldAfter, List.foldl_concat]
    exact hknows.key hkey (hclear i hi e₁ hbefore hknows).1

/-- The loop of `tty_readline` acts on a byte by what it takes it for. In a call that reads all of
the bytes, it takes each of them for what it is by the bytes before it exactly if no modifier
follows a prefix, and at every character the last byte of a Shift key was a press if and only if
one of the keys is held. -/
theorem scancodes_read_iff (t : Tty) (maxlen : ℕ) (keys : List UInt8)
    (hread : (readlineState maxlen t.editing keys.dropLast).isSome) :
    (∀ e sc, readlineKey e maxlen sc = (e.treats sc).act e maxlen sc) ∧
      ((∀ i (hi : i < keys.length) e,
          readlineState maxlen t.editing (keys.take i) = some e →
          e.treats keys[i] = (heldAfter (keys.take i)).reads keys[i]) ↔
        ∀ i (hi : i < keys.length), (heldAfter (keys.take i)).Clear keys[i]) := by
  refine ⟨fun e sc => readlineKey_eq_act e maxlen sc, fun hall i hi => ?_,
    fun hall i hi e hstate => ?_⟩
  · -- The call has not returned before the byte.
    have hstate : ∃ e, readlineState maxlen t.editing (keys.take i) = some e := by
      have htake : keys.dropLast.take i = keys.take i := by
        rw [List.dropLast_eq_take, List.take_take, min_eq_left (by omega)]
      rw [← List.take_append_drop i keys.dropLast, htake, readlineState_append] at hread
      cases hcase : readlineState maxlen t.editing (keys.take i) with
      | none => simp [hcase] at hread
      | some e => exact ⟨e, rfl⟩
    obtain ⟨e, hstate⟩ := hstate
    have hknows := knows_take t (fun j hj e₁ hbefore hknows =>
      (hknows.treats_eq _).mp (hall j hj e₁ hbefore)) i hi.le e hstate
    exact (hknows.treats_eq _).mp (hall i hi e hstate)
  · have hknows := knows_take t (fun j hj _ _ _ => hall j hj) i hi.le e hstate
    exact (hknows.treats_eq _).mpr (hall i hi)

/-- Both Shift keys are pressed and released, and a letter, a left arrow, Caps Lock, a shifted
digit, a letter and Enter follow. -/
def mixedKeys : List UInt8 :=
  [0x2A, 0x36, 0xAA, 0xB6, 0x1E, 0xE0, 0x4B, 0xE0, 0xCB, 0x3A, 0x36, 0x02, 0xB6, 0x1E, 0x1C]

/-- With Caps Lock on, the last letter is a capital one. -/
theorem scancodes_read_mixed :
    ∃ e, readlineState 16 ttyInit.editing (mixedKeys.take 13) = some e ∧
      e.treats 0x1E = .character true := by
  have hstate : (readlineState 16 ttyInit.editing (mixedKeys.take 13)).isSome := by decide +kernel
  obtain ⟨e, he⟩ := Option.isSome_iff_exists.mp hstate
  have hread := (scancodes_read_iff ttyInit 16 mixedKeys (by decide +kernel)).2.mpr (by decide)
  exact ⟨e, he, hread 13 (by decide) e he⟩

/-- In E0 2A the second byte is taken for Shift, although it belongs to an extended key; and after
2A 36 AA a letter is not shifted, although the right Shift key is held. -/
theorem scancodes_misread :
    ((readlineState 16 ttyInit.editing [0xE0]).map (·.treats 0x2A) = some (.shift true) ∧
        (heldAfter [0xE0]).reads 0x2A = .extended) ∧
      (readlineState 16 ttyInit.editing [0x2A, 0x36, 0xAA]).map (·.treats 0x1E) =
          some (.character false) ∧
        (heldAfter [0x2A, 0x36, 0xAA]).reads 0x1E = .character true := by
  decide +kernel

end Tomahawk.Console
