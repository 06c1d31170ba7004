import Tomahawk.Console.Scancodes

/-!
# What a masked call leaves behind

`tty_readline_masked` hides the characters on the screen only: at Enter, the line goes into the
history like any other. A call that is cancelled leaves no trace of what was typed.
-/

namespace Tomahawk.Console

open Tomahawk.Lib

/-- A call of the line editor, with the mask character if it is `tty_readline_masked`, and the
bytes that the controller delivers to it. -/
structure TtyCall where
  mask : Option UInt8
  hasBuf : Bool
  maxlen : ℤ
  keys : List UInt8

/-- The terminal after a call, if it returns, and what it returned. -/
def TtyCall.run (c : TtyCall) (t : Tty) : Option (Tty × ℤ × List UInt8 × List UInt8) :=
  match c.mask with
  | none => ttyReadline t c.hasBuf c.maxlen c.keys
  | some m => ttyReadlineMasked t c.hasBuf c.maxlen m c.keys

/-- The terminal after calls that all return. -/
def ttyCalls (t : Tty) (calls : List TtyCall) : Option Tty :=
  calls.foldlM (fun t c => (c.run t).map (·.1)) t

/-- A key without its character, if that is printable. -/
def keyShape (sc : UInt8) : Option UInt8 :=
  if 32 ≤ keyChar false false sc ∧ keyChar false false sc < 127 then none else some sc

/-- The calls differ at most in the characters typed under a mask. -/
def TtyCall.SameButTyped (c d : TtyCall) : Prop :=
  c = d ∨ c.mask ≠ none ∧ d = { c with keys := d.keys } ∧
    c.keys.map keyShape = d.keys.map keyShape

variable {e : Editing} {t t' u u' : Tty} {maxlen : ℕ} {sc ch : UInt8} {keys : List UInt8}
  {hasBuf : Bool} {len : ℤ} {r r' : ℤ × List UInt8 × List UInt8} {c d : TtyCall}

/-- Only the make code 1C is Enter. -/
theorem keyChar_enter (shift caps : Bool) (sc : UInt8)
    (h : keyChar shift caps sc = 10 ∨ keyChar shift caps sc = 13) : sc = 0x1C := by
  revert sc
  refine forall_uint8 ?_
  cases shift <;> cases caps <;> decide +kernel

theorem extendedKey_editing (t : Tty) (maxlen : ℕ) (sc : UInt8) :
    (extendedKey t maxlen sc).editing = t.editing := by
  unfold extendedKey Tty.older Tty.newer ttyLoadHistoryEntry Tty.setLine
  dsimp only
  split_ifs <;> rfl

/-- The terminal after a key. -/
def KeyEnd.tty : KeyEnd → Tty
  | .continues e => e.tty
  | .returned t _ _ => t

theorem plainKey_editing (hch : ¬(ch = 10 ∨ ch = 13)) :
    (plainKey e maxlen ch).tty.editing = e.tty.editing := by
  unfold plainKey
  dsimp only
  split_ifs <;> rfl

/-- No key but Enter changes the history: a call after it begins as one before it would. -/
theorem readlineKey_editing (e : Editing) (maxlen : ℕ) (hsc : sc ≠ 0x1C) :
    (readlineKey e maxlen sc).tty.editing = e.tty.editing := by
  have hchar := mt (keyChar_enter e.shiftHeld e.capsLock sc) hsc
  unfold readlineKey
  split_ifs
  all_goals first
    | rfl
    | exact extendedKey_editing _ _ _
    | exact plainKey_editing hchar

theorem readlineLoop_editing (henter : 0x1C ∉ keys)
    (h : readlineLoop maxlen e keys = some (t, r)) : t.editing = e.tty.editing := by
  induction keys generalizing e with
  | nil => simp [readlineLoop] at h
  | cons sc keys ih =>
    rw [List.mem_cons, not_or] at henter
    have hkey := readlineKey_editing e maxlen (Ne.symm henter.1)
    rw [readlineLoop] at h
    cases hend : readlineKey e maxlen sc with
    | continues e' =>
      rw [hend] at h hkey
      exact (ih henter.2 h).trans hkey
    | returned t' n stored =>
      rw [hend] at h hkey
      obtain rfl : t' = t := (Prod.ext_iff.mp (Option.some.inj h)).1
      exact hkey

theorem ttyReadline_editing (henter : 0x1C ∉ keys)
    (h : ttyReadline t hasBuf len keys = some (t', r)) : t'.editing = t.editing := by
  unfold ttyReadline at h
  split_ifs at h
  · obtain rfl : t = t' := (Prod.ext_iff.mp (Option.some.inj h)).1
    rfl
  · exact readlineLoop_editing henter h

theorem ttyReadlineMasked_some {m : UInt8}
    (h : ttyReadlineMasked t hasBuf len m keys = some (t', r)) :
    ∃ u, ttyReadline { t with echoMask := m } hasBuf len keys = some (u, r) ∧
      t' = { u with echoMask := 0 } := by
  unfold ttyReadlineMasked at h
  split at h
  · simp at h
  · next u r' hread =>
    obtain ⟨rfl, rfl⟩ := Prod.ext_iff.mp (Option.some.inj h)
    exact ⟨u, hread, rfl⟩

section

variable (hsame : t.editing = t'.editing)
include hsame

theorem editing_echoMask (m : UInt8) :
    { t with echoMask := m }.editing = { t' with echoMask := m }.editing :=
  congrArg (fun e : Editing => { e.tty with echoMask := m }.editing) hsame

/-- A call depends on nothing but the history. -/
theorem ttyReadline_congr (hasBuf : Bool) (len : ℤ) (keys : List UInt8) :
    (ttyReadline t hasBuf len keys).map (fun r => (r.1.editing, r.2)) =
      (ttyReadline t' hasBuf len keys).map fun r => (r.1.editing, r.2) := by
  unfold ttyReadline
  split_ifs
  · exact congrArg (fun e => some (e, _)) hsame
  · exact congrArg (fun e => (readlineLoop _ e keys).map fun r => (r.1.editing, r.2)) hsame

theorem ttyReadline_same (h : ttyReadline t hasBuf len keys = some (u, r))
    (h' : ttyReadline t' hasBuf len keys = some (u', r')) : u.editing = u'.editing := by
  have hcongr := ttyReadline_congr hsame hasBuf len keys
  rw [h, h'] at hcongr
  exact (Prod.ext_iff.mp (Option.some.inj hcongr)).1

/-- Two calls that differ only in typed characters, and then without Enter, leave the same
history. -/
theorem TtyCall.SameButTyped.run (hcd : c.SameButTyped d) (hcancel : c ≠ d → 0x1C ∉ c.keys)
    (hc : c.run t = some (u, r)) (hd : d.run t' = some (u', r')) : u.editing = u'.editing := by
  unfold TtyCall.run at hc hd
  by_cases heq : c = d
  · subst heq
    cases hm : c.mask with
    | none =>
      rw [hm] at hc hd
      exact ttyReadline_same hsame hc hd
    | some m =>
      rw [hm] at hc hd
      obtain ⟨v, hv, rfl⟩ := ttyReadlineMasked_some hc
      obtain ⟨v', hv', rfl⟩ := ttyReadlineMasked_some hd
      exact editing_echoMask (ttyReadline_same (editing_echoMask hsame m) hv hv') 0
  · obtain ⟨hmask, hshape, htyped⟩ := hcd.resolve_left heq
    obtain ⟨m, hm⟩ := Option.ne_none_iff_exists'.mp hmask
    have hm' : d.mask = some m := by rw [hshape, hm]
    rw [hm] at hc
    rw [hm'] at hd
    obtain ⟨v, hv, rfl⟩ := ttyReadlineMasked_some hc
    obtain ⟨v', hv', rfl⟩ := ttyReadlineMasked_some hd
    -- Enter is not printable, so the other call does not see it either.
    have henter := hcancel heq
    have henter' : 0x1C ∉ d.keys := by
      intro hmem
      have hshape : keyShape 0x1C ∈ c.keys.map keyShape := htyped ▸ List.mem_map_of_mem hmem
      obtain ⟨sc, hsc, hkey⟩ := List.mem_map.mp hshape
      rw [show keyShape 0x1C = some 0x1C by decide, keyShape, Option.ite_none_left_eq_some,
        Option.some.injEq] at hkey
      exact henter (hkey.2 ▸ hsc)
    refine editing_echoMask ?_ 0
    calc v.editing = { t with echoMask := m }.editing := ttyReadline_editing henter hv
      _ = { t' with echoMask := m }.editing := editing_echoMask hsame m
      _ = v'.editing := (ttyReadline_editing henter' hv').symm

/-- So do two sequences of such calls. -/
theorem ttyCalls_same {calls calls' : List TtyCall}
    (hcalls : List.Forall₂ (fun c d => c.SameButTyped d ∧ (c ≠ d → 0x1C ∉ c.keys)) calls calls')
    (h : ttyCalls t calls = some u) (h' : ttyCalls t' calls' = some u') :
    u.editing = u'.editing := by
  induction hcalls generalizing t t' with
  | nil =>
    obtain rfl : t = u := Option.some.inj h
    obtain rfl : t' = u' := Option.some.inj h'
    exact hsame
  | @cons c d calls calls' hcd _ ih =>
    simp only [ttyCalls, List.foldlM_cons, Option.bind_eq_bind, Option.bind_eq_some_iff,
      Option.map_eq_some_iff] at h h'
    obtain ⟨_, ⟨⟨v, r⟩, hv, rfl⟩, hrest⟩ := h
    obtain ⟨_, ⟨⟨v', r'⟩, hv', rfl⟩, hrest'⟩ := h'
    exact ih (hcd.1.run hsame hcd.2 hv hv') hrest hrest'

end

/-- If every masked call whose characters differ is left without Enter, then later calls display
and return the same, whatever keys they get. -/
theorem masked_input_forgotten (t u u' : Tty) (calls calls' : List TtyCall)
    (hcalls : List.Forall₂ (fun c d => c.SameButTyped d ∧ (c ≠ d → 0x1C ∉ c.keys)) calls calls')
    (h : ttyCalls t calls = some u) (h' : ttyCalls t calls' = some u')
    (hasBuf : Bool) (maxlen : ℤ) (keys : List UInt8) :
    (ttyReadline u hasBuf maxlen keys).map (·.2) = (ttyReadline u' hasBuf maxlen keys).map (·.2) ∧
      ∀ m, readlineState m u.editing keys = readlineState m u'.editing keys := by
  have hsame := ttyCalls_same rfl hcalls h h'
  refine ⟨?_, fun m => by rw [hsame]⟩
  have hcongr := congrArg (Option.map Prod.snd) (ttyReadline_congr hsame hasBuf maxlen keys)
  rw [Option.map_map, Option.map_map] at hcongr
  exact hcongr

theorem masked_input_escaped :
    ∃ u u' : Tty, ttyCalls ttyInit [⟨some 42, true, 64, [0x1E, 0x01]⟩] = some u ∧
      ttyCalls ttyInit [⟨some 42, true, 64, [0x30, 0x01]⟩] = some u' ∧
      (ttyReadline u true 64 [0xE0, 0x48, 0x1C]).map (·.2) =
        (ttyReadline u' true 64 [0xE0, 0x48, 0x1C]).map (·.2) := by
  obtain ⟨u, h⟩ := Option.isSome_iff_exists.mp
    (show (ttyCalls ttyInit [⟨some 42, true, 64, [0x1E, 0x01]⟩]).isSome by decide)
  obtain ⟨u', h'⟩ := Option.isSome_iff_exists.mp
    (show (ttyCalls ttyInit [⟨some 42, true, 64, [0x30, 0x01]⟩]).isSome by decide)
  refine ⟨u, u', h, h', (masked_input_forgotten ttyInit u u' _ _
    (.cons ⟨.inr ⟨?_, rfl, ?_⟩, ?_⟩ .nil) h h' true 64 _).1⟩
  · simp
  · decide
  · intro _
    decide

/-- A masked line that was entered: Up and Enter return it. -/
theorem masked_input_recalled :
    ((ttyCalls ttyInit [⟨some 42, true, 64, [0x1E, 0x1C]⟩]).bind fun t =>
        (ttyReadline t true 64 [0xE0, 0x48, 0x1C]).map (·.2.2.1)) = some [97, 0] ∧
      ((ttyCalls ttyInit [⟨some 42, true, 64, [0x30, 0x1C]⟩]).bind fun t =>
        (ttyReadline t true 64 [0xE0, 0x48, 0x1C]).map (·.2.2.1)) = some [98, 0] := by
  decide

end Tomahawk.Console
