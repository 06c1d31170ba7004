import Tomahawk.Lib.Bytes

/-!
# Stores to memory

The bytes that a piece of code stores, each with its address. `storesAt` puts bytes at
consecutive addresses, which wrap around at the end of the address space, and `Avoids` says that
none of the addresses of a range is in a set.
-/

namespace Tomahawk.Lib

variable {w : ℕ}

/-- Stores of bytes, in the order in which they are made. -/
abbrev Stores (w : ℕ) := List (BitVec w × UInt8)

/-- Store bytes from an address on. -/
def storesAt (p : BitVec w) (l : List UInt8) : Stores w :=
  l.mapIdx fun i b => (p + BitVec.ofNat w i, b)

/-- The little-endian number in the `n` bytes from an address on. -/
def loadLe (mem : BitVec w → UInt8) (p : BitVec w) : ℕ → ℕ
  | 0 => 0
  | n + 1 => (mem p).toNat + 256 * loadLe mem (p + 1) n

/-- The low `n` bytes of a number, the lowest first. -/
def leBytes (n : ℕ) (v : ℤ) : List UInt8 :=
  (List.range n).map fun i => UInt8.ofNat ((v % 256 ^ n).toNat / 256 ^ i)

@[simp] theorem length_leBytes (n : ℕ) (v : ℤ) : (leBytes n v).length = n := by simp [leBytes]

/-- None of the `n` addresses from `p` on is in the set. -/
def Avoids (S : BitVec w → Prop) (p : BitVec w) (n : ℕ) : Prop :=
  ∀ i < n, ¬ S (p + BitVec.ofNat w i)

instance (S : BitVec w → Prop) [DecidablePred S] (p : BitVec w) (n : ℕ) :
    Decidable (Avoids S p n) :=
  inferInstanceAs (Decidable (∀ i < n, ¬ S (p + BitVec.ofNat w i)))

/-- None of the stores is to an address of the set. -/
def Spares (S : BitVec w → Prop) (stores : Stores w) : Prop := ∀ x ∈ stores, ¬ S x.1

-- The list is searched, not the type of its elements, which is finite too.
instance (S : BitVec w → Prop) [DecidablePred S] (stores : Stores w) :
    Decidable (Spares S stores) :=
  List.decidableBAll (fun x : BitVec w × UInt8 => ¬ S x.1) stores

variable {S : BitVec w → Prop} {p : BitVec w} {n : ℕ} {l : List UInt8} {a b : Stores w}

theorem Spares.nil : Spares S [] := fun _ hx => absurd hx List.not_mem_nil

theorem Spares.append (ha : Spares S a) (hb : Spares S b) : Spares S (a ++ b) := by
  intro x hx
  rcases List.mem_append.mp hx with hx | hx
  · exact ha x hx
  · exact hb x hx

theorem Avoids.mono {m : ℕ} (h : Avoids S p n) (hm : m ≤ n) : Avoids S p m :=
  fun i hi => h i (by omega)

/-- The addresses of the stores. -/
theorem mem_storesAt {x : BitVec w × UInt8} (h : x ∈ storesAt p l) :
    ∃ i < l.length, x.1 = p + BitVec.ofNat w i := by
  obtain ⟨i, hi, rfl⟩ := List.mem_mapIdx.mp h
  exact ⟨i, hi, rfl⟩

/-- Bytes that fit a range that avoids the set spare the set. -/
theorem Avoids.storesAt (h : Avoids S p n) (hl : l.length ≤ n) : Spares S (Lib.storesAt p l) := by
  intro x hx
  obtain ⟨i, hi, haddr⟩ := mem_storesAt hx
  rw [haddr]
  exact h i (by omega)

/-- There is a store to each of the `n` addresses from `p` on. -/
def Fills (stores : Stores w) (p : BitVec w) (n : ℕ) : Prop :=
  ∀ i < n, ∃ x ∈ stores, x.1 = p + BitVec.ofNat w i

theorem fills_storesAt (hl : n ≤ l.length) : Fills (storesAt p l) p n := by
  intro i hi
  have hil : i < l.length := by omega
  exact ⟨_, List.mem_mapIdx.mpr ⟨i, hil, rfl⟩, rfl⟩

/-- Stores that fill a range spare only sets that the range avoids. -/
theorem Spares.avoids (h : Spares S a) (hfills : Fills a p n) : Avoids S p n := by
  intro i hi
  obtain ⟨x, hx, haddr⟩ := hfills i hi
  rw [← haddr]
  exact h x hx

theorem Fills.append_left (h : Fills a p n) : Fills (a ++ b) p n := fun i hi => by
  obtain ⟨x, hx, haddr⟩ := h i hi
  exact ⟨x, List.mem_append_left _ hx, haddr⟩

theorem Fills.append_right (h : Fills b p n) : Fills (a ++ b) p n := fun i hi => by
  obtain ⟨x, hx, haddr⟩ := h i hi
  exact ⟨x, List.mem_append_right _ hx, haddr⟩

end Tomahawk.Lib
