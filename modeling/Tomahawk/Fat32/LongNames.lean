import Tomahawk.Fat32.Integrity
import Mathlib.Data.List.GetD

/-!
# Long names

A long name stands in front of its short entry, in pieces of thirteen characters from the last one
to the first one. The iterator collects the pieces in a buffer that it clears at the piece with the
mark of the last one, so what stood in front of it does not matter.
-/

namespace Tomahawk.Fat32

open Function Tomahawk.Lib

/-- The character at a position of a long name: behind the name a terminator and then padding. -/
def lfnUnit (name : List UInt8) (k : ℕ) : ℕ :=
  if k < name.length then (name.getD k 0).toNat else if k = name.length then 0 else 0xFFFF

/-- The number of pieces of a long name. -/
def lfnCount (name : List UInt8) : ℕ := (name.length + 12) / 13

/-- The slot holds the piece `seq` of a long name. -/
structure EncodesPiece (name : List UInt8) (checksum : UInt8) (seq : ℕ) (de : Bytes) : Prop where
  ord : de 0 = UInt8.ofNat (if seq = lfnCount name then 0x40 + seq else seq)
  attr : dirAttr de = 0x0F
  sum : de 13 = checksum
  chars : lfnChars de = (List.range' ((seq - 1) * 13) 13).map (lfnUnit name)

/-- The slots hold the pieces of a long name from `seq` down to the first one. -/
def EncodesFrom (name : List UInt8) (checksum : UInt8) : ℕ → List Bytes → Prop
  | 0, slots => slots = []
  | seq + 1, slots => ∃ de rest, slots = de :: rest ∧
    EncodesPiece name checksum (seq + 1) de ∧ EncodesFrom name checksum seq rest

/-- The slots hold a long name whose short entry has a checksum. -/
def EncodesName (name : List UInt8) (checksum : UInt8) (slots : List Bytes) : Prop :=
  EncodesFrom name checksum (lfnCount name) slots

variable {name : List UInt8} {checksum : UInt8} {buf de : Bytes} {slots : List Bytes} {lfn : Lfn}
  {seq : ℕ}

/-! ## One piece -/

/-- The marks of the pieces. -/
theorem lfn_ord : ∀ seq < 21, seq ≠ 0 →
    UInt8.ofNat seq ≠ 0 ∧ UInt8.ofNat seq ≠ direntFree ∧ UInt8.ofNat seq &&& 0x40 = 0 ∧
      (UInt8.ofNat seq &&& 0x1F).toNat = seq ∧ UInt8.ofNat (0x40 + seq) ≠ 0 ∧
      UInt8.ofNat (0x40 + seq) ≠ direntFree ∧ UInt8.ofNat (0x40 + seq) &&& 0x40 ≠ 0 ∧
      (UInt8.ofNat (0x40 + seq) &&& 0x1F).toNat = seq := by
  decide

/-- The characters of a piece go to their places; behind the terminator the buffer stays. -/
theorem lfnPut_unit (hascii : ∀ c ∈ name, c ≠ 0 ∧ c < 128) (buf : Bytes) {pos n : ℕ}
    (hpos : pos ≤ name.length) (k : ℕ) :
    lfnPut buf pos ((List.range' pos n).map (lfnUnit name)) k =
      if pos ≤ k ∧ k < pos + n ∧ k ≤ name.length then name.getD k 0 else buf k := by
  induction n generalizing buf pos with
  | zero =>
    rw [if_neg (by omega)]
    rfl
  | succ n ih =>
    rw [List.range'_succ, List.map_cons, lfnPut]
    by_cases hlt : pos < name.length
    · have hunit : lfnUnit name pos = (name.getD pos 0).toNat := if_pos hlt
      have hmem : name.getD pos 0 ∈ name := by
        rw [List.getD_eq_getElem _ _ hlt]
        exact List.getElem_mem hlt
      obtain ⟨hne, hsmall⟩ := hascii _ hmem
      have hnat : (name.getD pos 0).toNat ≠ 0 := fun h => hne (UInt8.toNat_inj.mp h)
      have hsmall' : (name.getD pos 0).toNat < 128 := UInt8.lt_iff_toNat_lt.mp hsmall
      rw [hunit, if_neg (by omega), if_pos hsmall', UInt8.ofNat_toNat, ih _ (by omega)]
      by_cases hk : k = pos
      · subst hk
        rw [if_neg (by omega), if_pos (by omega), update_self]
      · rw [update_of_ne hk]
        split_ifs <;> first | rfl | omega
    · have hunit : lfnUnit name pos = 0 := by
        rw [lfnUnit, if_neg hlt, if_pos (by omega)]
      rw [hunit, if_pos (.inl rfl)]
      by_cases hk : k = pos
      · subst hk
        rw [if_pos (by omega), update_self, List.getD_eq_default _ _ (by omega)]
      · rw [update_of_ne hk, if_neg (by omega)]

/-- The pieces of the name behind the first `seq` ones are in the buffer. -/
structure Collected (name : List UInt8) (checksum : UInt8) (seq : ℕ) (lfn : Lfn) : Prop where
  active : lfn.active = true
  sum : lfn.checksum = checksum
  buf : ∀ k, seq * 13 ≤ k → lfn.buf k = name.getD k 0

theorem EncodesPiece.isLfn (h : EncodesPiece name checksum seq de) : isLfn de = true := by
  rw [Fat32.isLfn, h.attr]
  rfl

section Piece

variable (h : EncodesPiece name checksum (seq + 1) de) (hname : lfnCount name ≤ 20)
  (hseq : seq + 1 ≤ lfnCount name)
include h hname hseq

theorem EncodesPiece.inUse : de 0 ≠ 0 ∧ de 0 ≠ direntFree := by
  obtain ⟨h₁, h₂, -, -, h₃, h₄, -⟩ := lfn_ord (seq + 1) (by omega) (by omega)
  rw [h.ord]
  split_ifs
  · exact ⟨h₃, h₄⟩
  · exact ⟨h₁, h₂⟩

/-- The buffer into which a piece goes: a clear one for the last piece of the name. -/
theorem EncodesPiece.base (hlfn : seq + 1 = lfnCount name ∨ Collected name checksum (seq + 1) lfn) :
    ∃ base : Lfn, Collected name checksum (seq + 1) base ∧
      (name.length < (seq + 1) * 13 → ∀ k, base.buf k = 0) ∧
      lfn.add de = { base with buf := lfnExtract de base.buf (seq + 1) } := by
  obtain ⟨-, -, hmark, hnumber, -, -, hmark', hnumber'⟩ := lfn_ord (seq + 1) (by omega) (by omega)
  have hord := h.ord
  by_cases hlast : seq + 1 = lfnCount name
  · rw [if_pos hlast] at hord
    refine ⟨⟨true, checksum, fun _ => 0⟩, ⟨rfl, rfl, fun k hk => ?_⟩, fun _ _ => rfl, ?_⟩
    · rw [List.getD_eq_default]
      unfold lfnCount at hlast
      omega
    · simp only [Lfn.add, hord, hnumber', h.sum, bne_iff_ne, if_pos hmark']
      rw [if_pos ⟨trivial, by omega, by omega⟩]
  · have hcollected := hlfn.resolve_left hlast
    rw [if_neg hlast] at hord
    refine ⟨lfn, hcollected, fun hshort => ?_, ?_⟩
    · unfold lfnCount at hlast hseq
      omega
    · simp only [Lfn.add, hord, hnumber, hmark, bne_self_eq_false, Bool.false_eq_true, if_false]
      rw [if_pos ⟨hcollected.active, by omega, by omega⟩]

/-- The iterator takes a piece if it is the last one of the name, or a later one was taken. -/
theorem EncodesPiece.add (hascii : ∀ c ∈ name, c ≠ 0 ∧ c < 128)
    (hlfn : seq + 1 = lfnCount name ∨ Collected name checksum (seq + 1) lfn) :
    Collected name checksum seq (lfn.add de) := by
  obtain ⟨base, hbase, hclear, hadd⟩ := h.base hname hseq hlfn
  have hplace : seq * 13 ≤ name.length := by
    unfold lfnCount at hseq
    omega
  rw [hadd]
  refine ⟨hbase.active, hbase.sum, fun k hk => ?_⟩
  have hchars : lfnChars de = (List.range' (seq * 13) 13).map (lfnUnit name) := h.chars
  change lfnPut base.buf (seq * 13) (lfnChars de) k = name.getD k 0
  rw [hchars, lfnPut_unit hascii _ hplace]
  split_ifs with hin
  · rfl
  · by_cases hbehind : (seq + 1) * 13 ≤ k
    · exact hbase.buf k hbehind
    · rw [hclear (by omega), List.getD_eq_default _ _ (by omega)]

end Piece

/-! ## The whole name -/

/-- The pieces that are left go into the buffer, whatever was in it before the last piece. -/
theorem EncodesFrom.collected (h : EncodesFrom name checksum seq slots)
    (hascii : ∀ c ∈ name, c ≠ 0 ∧ c < 128) (hname : lfnCount name ≤ 20)
    (hseq : seq ≤ lfnCount name)
    (hlfn : seq = lfnCount name ∧ seq ≠ 0 ∨ Collected name checksum seq lfn) :
    (∀ d ∈ slots, d 0 ≠ 0 ∧ d 0 ≠ direntFree ∧ isLfn d = true) ∧
      Collected name checksum 0 (slots.foldl Lfn.after lfn) := by
  induction seq generalizing slots lfn with
  | zero =>
    obtain rfl : slots = [] := h
    exact ⟨by simp, hlfn.resolve_left fun hzero => hzero.2 rfl⟩
  | succ seq ih =>
    obtain ⟨de, rest, rfl, hpiece, hrest⟩ := h
    obtain ⟨hend, hfree⟩ := hpiece.inUse hname hseq
    have hafter : lfn.after de = lfn.add de := by
      rw [Lfn.after, if_neg hfree, if_pos hpiece.isLfn]
    have hadd := hpiece.add hname hseq hascii (hlfn.imp_left And.left)
    obtain ⟨hslots, hdone⟩ := ih hrest (by omega) (.inr hadd)
    rw [List.foldl_cons, hafter]
    refine ⟨fun d hd => ?_, hdone⟩
    rcases List.mem_cons.mp hd with rfl | hd
    · exact ⟨hend, hfree, hpiece.isLfn⟩
    · exact hslots d hd

/-- Pieces of names are not reported. -/
theorem reported_pieces (h : ∀ d ∈ slots, d 0 ≠ 0 ∧ d 0 ≠ direntFree ∧ isLfn d = true) (lfn : Lfn)
    (p : ℕ) : reported lfn p slots = [] := by
  induction slots generalizing lfn p with
  | nil => rfl
  | cons d slots ih =>
    obtain ⟨hend, hfree, hlfn⟩ := h d (by simp)
    rw [reported, if_neg hend, if_neg hfree, if_pos hlfn]
    exact ih (fun d hd => h d (by simp [hd])) _ _

/-- When all pieces are in the buffer, it holds the name. -/
theorem Collected.ofBytes {name : CStr} (h : Collected name.bytes checksum 0 lfn)
    (hlength : name.bytes.length ≤ 255) : CStr.ofBytes (lfn.buf.slice 0 255) = name := by
  have hslice : lfn.buf.slice 0 255 =
      name.bytes ++ List.replicate (255 - name.bytes.length) 0 := by
    refine List.ext_getElem (by simp; omega) fun k hk hk' => ?_
    simp only [Bytes.slice, List.getElem_map, List.getElem_range]
    rw [h.buf _ (by omega), Nat.zero_add, List.getElem_append]
    split_ifs with hlt
    · exact List.getD_eq_getElem _ _ hlt
    · rw [List.getD_eq_default _ _ (by omega), List.getElem_replicate]
  obtain ⟨bytes, hnul⟩ := name
  have hbytes := bne_of_notMem hnul
  have hzeros : (List.replicate (255 - bytes.length) (0 : UInt8)).takeWhile (· != 0) = [] := by
    cases 255 - bytes.length with
    | zero => rfl
    | succ n => rfl
  simp only [CStr.ofBytes, hslice, List.takeWhile_append_of_pos hbytes, hzeros, List.append_nil]

/-- The callback that collects what the iterator reports. -/
def collectCallback (es : List Entry) (e : Entry) : List Entry × Bool := (es ++ [e], false)

theorem foldUntil_collectCallback (es es' : List Entry) :
    foldUntil collectCallback es es' = es ++ es' := by
  induction es' generalizing es with
  | nil => rw [foldUntil, List.append_nil]
  | cons e es' ih =>
    rw [foldUntil, collectCallback]
    rw [ih, List.append_assoc]
    rfl

/-- The iterator reports a long name for the short entry behind its pieces, wherever they stand in
the directory and whatever stands in front of them. -/
theorem long_name_reported (frames : ℕ) (v : Volume) (c : ℕ) (l : List ℕ) (name : CStr)
    (before pieces rest : List Bytes) (short : Bytes) (hsound : v.geo.Sound)
    (hchain : v.Chain c l) (hframes : frames ≠ 0)
    (hslots : dirSlots v l = before ++ (pieces ++ short :: rest))
    (hbefore : ∀ d ∈ before, d 0 ≠ 0) (hascii : ∀ b ∈ name.bytes, b < 128)
    (hlength : 1 ≤ name.bytes.length ∧ name.bytes.length ≤ 255)
    (hpieces : EncodesName name.bytes (lfnChecksum (dirName short)) pieces)
    (hshort : LiveSlot short) :
    ∃ later, iterateDir frames v c collectCallback [] = some (0,
      (reported Lfn.start 0 before).map Live.entry ++
        ⟨name, short, (before.length + pieces.length) * 32 % 2 ^ 32⟩ :: later) := by
  have hchars : ∀ b ∈ name.bytes, b ≠ 0 ∧ b < 128 :=
    fun b hb => ⟨fun hzero => name.noNul (hzero ▸ hb), hascii b hb⟩
  have hcount : lfnCount name.bytes ≤ 20 ∧ lfnCount name.bytes ≠ 0 := by
    unfold lfnCount
    omega
  obtain ⟨hlfn, hcollected⟩ :
      (∀ d ∈ pieces, d 0 ≠ 0 ∧ d 0 ≠ direntFree ∧ isLfn d = true) ∧
        Collected name.bytes (lfnChecksum (dirName short)) 0
          (pieces.foldl Lfn.after (before.foldl Lfn.after Lfn.start)) :=
    EncodesFrom.collected hpieces hchars hcount.1 le_rfl (.inl ⟨rfl, hcount.2⟩)
  have hname : Lfn.name (pieces.foldl Lfn.after (before.foldl Lfn.after Lfn.start)) short = name := by
    rw [Lfn.name, if_pos ⟨hcollected.active, hcollected.sum.symm⟩]
    exact hcollected.ofBytes hlength.2
  rw [hchain.iterateDir_eq hsound hframes, foldUntil_collectCallback, List.nil_append, listing,
    hslots, reported_append hbefore, reported_append fun d hd => (hlfn d hd).1,
    reported_pieces hlfn, List.nil_append, reported_live hshort, hname, List.map_append,
    List.map_cons, Live.entry, Nat.zero_add]
  exact ⟨_, rfl⟩

/-- `"AAAAAAAAAAAAAb"` -/
def nameAb : CStr := ⟨List.replicate 13 65 ++ [98], by decide⟩

/-- A slot with a piece of a long name. -/
def pieceOf (ord checksum : UInt8) (chars : List UInt8) : Bytes := fun k =>
  (ord :: chars.take 10 ++ [0x0F, 0, checksum] ++ (chars.drop 10).take 12 ++ [0, 0] ++
    chars.drop 22).getD k 0

/-- The root directory with the two pieces of that name, the last one first, in front of the entry
for `"A"`. -/
def longNameVolume : Volume :=
  let sum := lfnChecksum (strToShortname nameA)
  { emptyVolume with
    disk := storeDirent (direntFor nameA attrArchive 0) (1024 + 64)
      (storeDirent (pieceOf 0x01 sum (List.replicate 13 [65, 0]).flatten) (1024 + 32)
        (storeDirent (pieceOf 0x42 sum ([98, 0, 0, 0] ++ List.replicate 22 0xFF)) 1024
          emptyVolume.disk)) }

theorem long_name_reported_twoPieces : ∃ later,
    iterateDir 1 longNameVolume 2 collectCallback [] =
      some (0, ⟨nameAb, direntAt (longNameVolume.data 2) 2, 64⟩ :: later) := by
  have hpieces : EncodesName nameAb.bytes
      (lfnChecksum (dirName (direntAt (longNameVolume.data 2) 2)))
      [direntAt (longNameVolume.data 2) 0, direntAt (longNameVolume.data 2) 1] :=
    ⟨_, _, rfl, ⟨by decide, by decide, by decide +kernel, by decide +kernel⟩,
      _, [], rfl, ⟨by decide, by decide, by decide +kernel, by decide +kernel⟩, rfl⟩
  exact long_name_reported 1 longNameVolume 2 [2] nameAb [] _
    ((List.range' 3 13).map (direntAt (longNameVolume.data 2))) _ smallGeometry_sound (by decide)
    (by decide) rfl (by simp) (by decide +kernel) (by decide) hpieces
    ⟨by decide, by decide, by decide, by decide⟩

/-! ## The bounds of the buffer -/

/-- The character is part of a long name. -/
def IsUnit (c : ℕ) : Prop := c ≠ 0 ∧ c ≠ 0xFFFF

/-- The iterator extracts the piece of a long name that has begun. -/
def Lfn.Extracts (lfn : Lfn) (de : Bytes) (seq : ℕ) : Prop :=
  (lfn.active = true ∨ de 0 &&& 0x40 ≠ 0) ∧ (de 0 &&& 0x1F).toNat = seq ∧ 1 ≤ seq ∧ seq ≤ 20

/-- The iterator stores to or reads from the index of `lfn_buf` when it comes to an entry: the
beginning of a name clears the buffer, a piece goes behind those of smaller numbers up to its
terminator, and `strlen` reads up to the first zero. -/
def Lfn.Touches (lfn : Lfn) (de : Bytes) (k : ℕ) : Prop :=
  de 0 ≠ direntFree ∧
    if isLfn de then
      de 0 &&& 0x40 ≠ 0 ∧ k < 256 ∨ ∃ seq, lfn.Extracts de seq ∧ ∃ j < 13,
        k = (seq - 1) * 13 + j ∧ ∀ c ∈ (lfnChars de).take j, IsUnit c
    else isVolumeId de = false ∧ lfn.active = true ∧ lfnChecksum (dirName de) = lfn.checksum ∧
      ∀ j < k, lfn.buf j ≠ 0

/-- The entry is the twentieth piece of a long name and has more than eight characters. -/
def Lfn.Overruns (lfn : Lfn) (de : Bytes) : Prop :=
  de 0 ≠ direntFree ∧ isLfn de = true ∧ lfn.Extracts de 20 ∧ ∀ c ∈ (lfnChars de).take 9, IsUnit c

/-- A buffer index keeps its byte or gets a zero, or the characters up to it are stored. -/
theorem lfnPut_cases (buf : Bytes) (pos : ℕ) (cs : List ℕ) (k : ℕ) :
    lfnPut buf pos cs k = buf k ∨ lfnPut buf pos cs k = 0 ∨
      pos ≤ k ∧ k < pos + cs.length ∧ ∀ c ∈ cs.take (k - pos + 1), IsUnit c := by
  induction cs generalizing buf pos with
  | nil => exact .inl rfl
  | cons c cs ih =>
    rw [lfnPut]
    by_cases hend : c = 0 ∨ c = 0xFFFF
    · rw [if_pos hend]
      by_cases hk : k = pos
      · exact .inr (.inl (by rw [hk, update_self]))
      · exact .inl (update_of_ne hk _ _)
    · have hunit : IsUnit c := not_or.mp hend
      rw [if_neg hend]
      rcases ih (update buf pos (if c < 128 then UInt8.ofNat c else 63)) (pos + 1) with
        hsame | hzero | ⟨hpos, hlt, hall⟩
      · by_cases hk : k = pos
        · subst hk
          exact .inr (.inr ⟨le_rfl, by simp, by simpa using hunit⟩)
        · exact .inl (hsame.trans (update_of_ne hk _ _))
      · exact .inr (.inl hzero)
      · refine .inr (.inr ⟨by omega, by rw [List.length_cons]; omega, ?_⟩)
        rw [show k - pos + 1 = k - (pos + 1) + 1 + 1 by omega, List.take_succ_cons]
        exact List.forall_mem_cons.mpr ⟨hunit, hall⟩

/-- Without an overrun the last byte of the buffer stays zero. -/
theorem Lfn.after_last (h : lfn.active = true → lfn.buf 255 = 0) (hover : ¬ lfn.Overruns de)
    (hactive : (lfn.after de).active = true) : (lfn.after de).buf 255 = 0 := by
  unfold Lfn.after at hactive ⊢
  split_ifs at hactive ⊢ with hfree hlfn
  · cases hactive
  swap
  · cases hactive
  unfold Lfn.add at hactive ⊢
  set base : Lfn := if de 0 &&& 0x40 != 0 then ⟨true, de 13, fun _ => 0⟩ else lfn with hbase
  have hbegun : base.active = true → (lfn.active = true ∨ de 0 &&& 0x40 ≠ 0) ∧ base.buf 255 = 0 := by
    rw [hbase]
    split_ifs with hlast
    · exact fun _ => ⟨.inr (bne_iff_ne.mp hlast), rfl⟩
    · exact fun hactive => ⟨.inl hactive, h hactive⟩
  dsimp only at hactive ⊢
  split_ifs at hactive ⊢ with hextract
  · obtain ⟨hbegins, hzero⟩ := hbegun hextract.1
    rcases lfnPut_cases base.buf (((de 0 &&& 0x1F).toNat - 1) * 13) (lfnChars de) 255 with
      hsame | hput | ⟨hpos, hlt, hall⟩
    · exact hsame.trans hzero
    · exact hput
    · have hlength : (lfnChars de).length = 13 := rfl
      have hseq : (de 0 &&& 0x1F).toNat = 20 := by omega
      rw [hseq] at hall
      exact absurd ⟨hfree, hlfn, ⟨hbegins, hseq, by decide, le_rfl⟩, hall⟩ hover
  · exact (hbegun hactive).2

/-- An entry makes the iterator leave the buffer if and only if it is an overrun. -/
theorem Lfn.touches_iff (h : lfn.active = true → lfn.buf 255 = 0) :
    (∀ k, lfn.Touches de k → k < 256) ↔ ¬ lfn.Overruns de := by
  constructor
  · rintro hall ⟨hfree, hlfn, hextract, hunits⟩
    have htouch : lfn.Touches de 256 := by
      refine ⟨hfree, ?_⟩
      rw [if_pos hlfn]
      exact .inr ⟨20, hextract, 9, by decide, rfl, hunits⟩
    exact absurd (hall 256 htouch) (by decide)
  · rintro hover k ⟨hfree, htouch⟩
    by_contra hk
    split_ifs at htouch with hlfn
    · rcases htouch with ⟨-, hlt⟩ | ⟨seq, hextract, j, hj, rfl, hunits⟩
      · exact hk hlt
      · have hseq := hextract.2.2.2
        obtain rfl : seq = 20 := by omega
        exact hover ⟨hfree, hlfn, hextract, fun c hc =>
          hunits c ((List.take_subset_take_left _ (by omega)) hc)⟩
    · exact htouch.2.2.2 255 (by omega) (h htouch.2.1)

theorem guarded_touches_iff (h : lfn.active = true → lfn.buf 255 = 0) :
    Guarded Lfn.after (fun lfn de => ∀ k, lfn.Touches de k → k < 256) lfn slots ↔
      Guarded Lfn.after (fun lfn de => ¬ lfn.Overruns de) lfn slots := by
  induction slots generalizing lfn with
  | nil => exact Iff.rfl
  | cons de slots ih =>
    rw [Guarded, Guarded, Lfn.touches_iff h]
    exact and_congr_right fun hover => ih (Lfn.after_last h hover)

/-- The iterator stays inside its buffer for long names, and reports names of at most 255
characters, if and only if no entry in front of the end of the directory is an overrun. -/
theorem long_name_buffer_iff (slots : List Bytes) :
    (Guarded Lfn.after (fun lfn de => ∀ k, lfn.Touches de k → k < 256) Lfn.start
        (slots.takeWhile (· 0 != 0)) ∧
      ∀ e ∈ reported Lfn.start 0 slots, e.name.bytes.length ≤ 255) ↔
    Guarded Lfn.after (fun lfn de => ¬ lfn.Overruns de) Lfn.start (slots.takeWhile (· 0 != 0)) := by
  rw [guarded_touches_iff fun h => absurd h Bool.false_ne_true]
  refine and_iff_left fun e he => ?_
  obtain ⟨as, bs, -, -, -, -, hname⟩ := mem_reported he
  rw [hname]
  exact length_lfnName _ _

/-- A twentieth piece of thirteen characters, with the mark of the last piece. -/
def piece20 : Bytes := fun k => if k = 11 then 0x0F else 0x54

theorem long_name_buffer_overrun : Lfn.start.Touches piece20 256 := by
  refine ⟨by decide, ?_⟩
  exact .inr ⟨20, ⟨.inr (by decide), by decide, by decide, le_rfl⟩, 9, by decide, rfl,
    by unfold IsUnit; decide⟩

end Tomahawk.Fat32
