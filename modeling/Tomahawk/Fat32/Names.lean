import Tomahawk.Lib.CString
import Mathlib.Data.List.DropRight

/-!
# Names of directory entries

Short names with eight and three bytes, the flags for their case, the long names in front of
them, and the comparison of names that ignores case.
-/

namespace Tomahawk.Fat32

open Tomahawk.Lib

/-- `' '` -/
def space : UInt8 := 32

/-- `'.'` -/
def dot : UInt8 := 46

/-- `fat32_toupper`. -/
def toUpper (c : UInt8) : UInt8 := if 97 ≤ c ∧ c ≤ 122 then c - 32 else c

/-- `fat32_name_cmp_ci`. -/
def nameCmpCi : List UInt8 → List UInt8 → ℤ
  | a :: as, b :: bs =>
    if toUpper a ≠ toUpper b then (toUpper a).toNat - (toUpper b).toNat else nameCmpCi as bs
  | as, bs => (toUpper (as.headD 0)).toNat - (toUpper (bs.headD 0)).toNat

/-- A letter of a name whose case flag is set. -/
def lowerIf (lower : Bool) (c : UInt8) : UInt8 :=
  if lower && decide (65 ≤ c ∧ c ≤ 90) then c + 32 else c

/-- One part of a short name without the spaces at its end. -/
def trimSpaces (part : List UInt8) : List UInt8 := part.rdropWhile (· == space)

/-- `fat32_shortname_to_str` on the eleven bytes of a name. -/
def shortnameToStr (raw : List UInt8) (ntRes : UInt8) : CStr :=
  let name := trimSpaces (raw.take 8)
  let ext := trimSpaces ((raw.drop 8).take 3)
  CStr.ofBytes (name.map (lowerIf (ntRes &&& 0x08 != 0)) ++
    if ext = [] then [] else dot :: ext.map (lowerIf (ntRes &&& 0x10 != 0)))

/-- The part of a name before its last dot. -/
def basePart (name : List UInt8) : List UInt8 :=
  if dot ∈ name then (name.rdropWhile (· != dot)).dropLast else name

/-- The part of a name after its last dot. -/
def extPart (name : List UInt8) : List UInt8 :=
  if dot ∈ name then name.rtakeWhile (· != dot) else []

/-- A part of a short name, filled up with spaces. -/
def padSpaces (n : ℕ) (part : List UInt8) : List UInt8 :=
  part.take n ++ List.replicate (n - part.length) space

/-- `fat32_str_to_shortname`. Spaces and dots are left out before the last dot. -/
def strToShortname (name : CStr) : List UInt8 :=
  padSpaces 8 (((basePart name.bytes).map toUpper).filter fun c => c ≠ space ∧ c ≠ dot) ++
    padSpaces 3 ((extPart name.bytes).map toUpper)

/-- The part has letters, and all of them are small. -/
def isLowerPart (part : List UInt8) : Bool :=
  (part.any fun c => decide (97 ≤ c ∧ c ≤ 122)) && !part.any fun c => decide (65 ≤ c ∧ c ≤ 90)

/-- `fat32_compute_nt_res`. -/
def computeNtRes (name : CStr) : UInt8 :=
  (if isLowerPart (basePart name.bytes) then 0x08 else 0) |||
    if isLowerPart (extPart name.bytes) then 0x10 else 0

/-- `fat32_lfn_checksum`. -/
def lfnChecksum (raw : List UInt8) : UInt8 :=
  raw.foldl (fun (sum : UInt8) c => (if sum &&& 1 != 0 then (0x80 : UInt8) else 0) + (sum >>> 1) + c) 0

/-- The thirteen characters of a long-name entry. -/
def lfnChars (de : Bytes) : List ℕ :=
  [1, 3, 5, 7, 9, 14, 16, 18, 20, 22, 24, 28, 30].map fun off => de.le off 2

/-- The loops of `fat32_lfn_extract` from one position of the buffer on. -/
def lfnPut (buf : Bytes) (pos : ℕ) : List ℕ → Bytes
  | [] => buf
  | c :: cs =>
    if c = 0 ∨ c = 0xFFFF then Function.update buf pos 0
    else lfnPut (Function.update buf pos (if c < 128 then UInt8.ofNat c else 63)) (pos + 1) cs

/-- `fat32_lfn_extract`. -/
def lfnExtract (de buf : Bytes) (seqNum : ℕ) : Bytes :=
  lfnPut buf ((seqNum - 1) * 13) (lfnChars de)

/-- Names are equal but for the case of their letters. -/
def SameName (a b : CStr) : Prop := a.bytes.map toUpper = b.bytes.map toUpper

instance (a b : CStr) : Decidable (SameName a b) := inferInstanceAs (Decidable (_ = _))

variable {c : UInt8} {name : List UInt8}

theorem toUpper_eq_zero (h : toUpper c = 0) : c = 0 := by
  have hall : ∀ c : UInt8, toUpper c = 0 → c = 0 := forall_uint8 (by decide +kernel)
  exact hall c h

theorem length_padSpaces (n : ℕ) (part : List UInt8) : (padSpaces n part).length = n := by
  rw [padSpaces, List.length_append, List.length_take, List.length_replicate]
  omega

theorem length_strToShortname (name : CStr) : (strToShortname name).length = 11 := by
  rw [strToShortname, List.length_append, length_padSpaces, length_padSpaces]

theorem mem_padSpaces {n : ℕ} {part : List UInt8} (h : c ∈ padSpaces n part) :
    c ∈ part ∨ c = space := by
  rcases List.mem_append.mp h with hmem | hmem
  · exact .inl (List.mem_of_mem_take hmem)
  · exact .inr (List.eq_of_mem_replicate hmem)

theorem mem_of_mem_basePart (h : c ∈ basePart name) :
    c ∈ name := by
  unfold basePart at h
  split_ifs at h
  · have hsub := List.rdropWhile_prefix (· != dot) name
    exact hsub.mem (List.mem_of_mem_dropLast h)
  · exact h

theorem mem_of_mem_extPart (h : c ∈ extPart name) : c ∈ name := by
  unfold extPart at h
  split_ifs at h
  · exact (List.rtakeWhile_suffix (· != dot) name).mem h
  · simp at h

/-- Short names have no zero bytes. -/
theorem zero_notMem_strToShortname (name : CStr) : 0 ∉ strToShortname name := by
  have hupper : ∀ part : List UInt8, (∀ c ∈ part, c ∈ name.bytes) → 0 ∉ part.map toUpper := by
    intro part hpart hmem
    obtain ⟨c, hc, hzero⟩ := List.mem_map.mp hmem
    rw [toUpper_eq_zero hzero] at hc
    exact name.noNul (hpart 0 hc)
  intro hmem
  rcases List.mem_append.mp hmem with hbase | hext
  · rcases mem_padSpaces hbase with hpart | hspace
    · exact hupper _ (fun c => mem_of_mem_basePart) (List.mem_of_mem_filter hpart)
    · exact absurd hspace (by decide)
  · rcases mem_padSpaces hext with hpart | hspace
    · exact hupper _ (fun c => mem_of_mem_extPart) hpart
    · exact absurd hspace (by decide)

/-- The short name that is made of a name is not that of `.` or `..`. -/
theorem head?_strToShortname (name : CStr) : (strToShortname name).head? ≠ some dot := by
  intro hhead
  have hmem : dot ∈ padSpaces 8
      (((basePart name.bytes).map toUpper).filter fun c => c ≠ space ∧ c ≠ dot) := by
    have hne : padSpaces 8
        (((basePart name.bytes).map toUpper).filter fun c => c ≠ space ∧ c ≠ dot) ≠ [] :=
      List.ne_nil_of_length_pos (by rw [length_padSpaces]; omega)
    rw [strToShortname, List.head?_append_of_ne_nil _ hne] at hhead
    exact List.mem_of_mem_head? hhead
  rcases mem_padSpaces hmem with hpart | hspace
  · simp at hpart
  · exact absurd hspace (by decide)

theorem toNat_toUpper_ne {c : UInt8} (h : c ≠ 0) : (toUpper c).toNat ≠ (toUpper 0).toNat :=
  fun heq => h (toUpper_eq_zero (UInt8.toNat_inj.mp heq))

/-- The comparison of names finds out whether they are the same. -/
theorem nameCmpCi_eq_zero {a b : CStr} : nameCmpCi a.bytes b.bytes = 0 ↔ SameName a b := by
  obtain ⟨a, ha⟩ := a
  obtain ⟨b, hb⟩ := b
  simp only [SameName]
  induction a generalizing b with
  | nil =>
    cases b with
    | nil => simp [nameCmpCi]
    | cons c cs =>
      have hc := toNat_toUpper_ne (c := c) fun h => hb (by simp [h])
      simp only [nameCmpCi, List.headD_nil, List.headD_cons, List.map_nil, List.map_cons]
      exact iff_of_false (by omega) (by simp)
  | cons d ds ih =>
    cases b with
    | nil =>
      have hd := toNat_toUpper_ne (c := d) fun h => ha (by simp [h])
      simp only [nameCmpCi, List.headD_nil, List.headD_cons, List.map_nil, List.map_cons]
      exact iff_of_false (by omega) (by simp)
    | cons c cs =>
      rw [nameCmpCi]
      by_cases heq : toUpper d = toUpper c
      · rw [if_neg (by simpa using heq), ih (fun h => ha (by simp [h])) cs
          fun h => hb (by simp [h])]
        simp [heq]
      · rw [if_pos heq]
        constructor
        · intro h
          exact absurd (UInt8.toNat_inj.mp (by omega)) heq
        · intro h
          exact absurd (List.cons.inj h).1 heq

end Tomahawk.Fat32
