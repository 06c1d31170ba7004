import Tomahawk.Fat32.Allocation
import Tomahawk.Fat32.Spending
import Tomahawk.Lib.Walk

/-!
# Walks on a corrupt volume

Which operations end when the FAT holds anything. `fat32_chain_length` counts its steps, but the
scan of a directory, the search for a free slot and the walks to the last cluster of a chain do
not. They end exactly if the walk along the FAT meets a stop, and then early, since an entry has 28
bits.
-/

namespace Tomahawk.Fat32

open Tomahawk.Lib

/-! ## Walks along the FAT -/

/-- The entry of a cluster on a device of some blocks; 0 behind the end of the device. -/
def nextOn (blocks : ℕ) (v : Volume) (c : ℕ) : ℕ :=
  match readBytes blocks v.disk (v.geo.fatOffset 0 c) 4 with
  | none => 0
  | some entry => entry.le 0 4 % 2 ^ 28

/-- A number at which the walks stop. -/
def ChainEnd (c : ℕ) : Prop := ¬ (2 ≤ c ∧ ¬ isEoc c)

/-- The device has the cluster. -/
def OnDevice (blocks : ℕ) (v : Volume) (c : ℕ) : Prop :=
  v.geo.clusterOffset c + v.geo.clusterSize ≤ blocks * Block.blockSize

instance (blocks : ℕ) (v : Volume) (c : ℕ) : Decidable (OnDevice blocks v c) :=
  inferInstanceAs (Decidable (_ ≤ _))

/-- A slot of the cluster is the end of a directory. -/
def HasEndMark (v : Volume) (c : ℕ) : Prop :=
  ∃ i < v.geo.clusterSize / 32, clusterBuf v c (i * 32) = 0

/-- A cluster at which the scan of a directory stops, whatever it looks for. -/
def ScanStops (blocks : ℕ) (v : Volume) (c : ℕ) : Prop :=
  ChainEnd c ∨ ¬ OnDevice blocks v c ∨ HasEndMark v c

/-- Following the FAT, the scan of a directory stops. -/
def ScanEnds (blocks : ℕ) (v : Volume) (start : ℕ) : Prop :=
  ∃ n, ScanStops blocks v ((nextOn blocks v)^[n] start)

/-- Following the FAT from a cluster, the chain ends. -/
def WalkEnds (blocks : ℕ) (v : Volume) (start : ℕ) : Prop :=
  ∃ n, ChainEnd ((nextOn blocks v)^[n + 1] start)

variable {F : Faults} {s : Call} {v : Volume} {blocks c start : ℕ} {n idx i offset value : ℕ}
  {t : Call} {name : CStr}

theorem nextOn_mem (c : ℕ) : nextOn blocks v c ∈ Finset.range (2 ^ 28) := by
  rw [Finset.mem_range, nextOn]
  split
  · decide
  · exact Nat.mod_lt _ (by decide)

/-- What is reached along the FAT is reached within the steps of a walk. -/
theorem exists_early {p : ℕ → Prop} (h : ∃ n, p ((nextOn blocks v)^[n] start)) :
    ∃ n < walkSteps, p ((nextOn blocks v)^[n] start) := by
  obtain ⟨n, hn, hstop⟩ := exists_iterate_le nextOn_mem h
  rw [Finset.card_range] at hn
  exact ⟨n, Nat.lt_succ_of_le hn, hstop⟩

theorem not_scanStops : ¬ ScanStops blocks v c ↔
    (2 ≤ c ∧ ¬ isEoc c) ∧ OnDevice blocks v c ∧ ¬ HasEndMark v c := by
  unfold ScanStops ChainEnd
  tauto

/-! ## The walks of the driver -/

section Reads

variable (hread : ∀ k, F.read k = false)
include hread

theorem Faults.fatRead_nextOn (s : Call) (c : ℕ) :
    F.fatRead s c = ({ s with reads := s.reads + 1 }, nextOn F.blocks s.vol c) := by
  unfold fatRead readBytes nextOn
  rw [hread, if_neg Bool.false_ne_true]
  cases Fat32.readBytes F.blocks s.vol.disk (s.vol.geo.fatOffset 0 c) 4 <;> rfl

theorem Faults.readCluster_eq (hc : 2 ≤ c) :
    F.readCluster s c = ({ s with reads := s.reads + 1 },
      if OnDevice F.blocks s.vol c then some (clusterBuf s.vol c) else .none) := by
  unfold readCluster readBytes
  rw [if_neg (by omega), hread, if_neg Bool.false_ne_true]
  rfl

/-- The walk to the last cluster ends where the chain does. -/
theorem Faults.lastLoop_isSome : (F.lastLoop n s c).isSome ↔
    ∃ k < n, ChainEnd ((nextOn F.blocks s.vol)^[k + 1] c) := by
  induction n generalizing s c with
  | zero => simp [lastLoop]
  | succ n ih =>
    rw [lastLoop, fatRead_nextOn hread, Nat.exists_lt_succ_left]
    dsimp only
    by_cases hgo : 2 ≤ nextOn F.blocks s.vol c ∧ ¬ isEoc (nextOn F.blocks s.vol c)
    · rw [if_pos hgo, @ih { s with reads := s.reads + 1 }]
      exact (or_iff_right fun hend => hend hgo).symm
    · rw [if_neg hgo]
      exact iff_of_true rfl (.inl hgo)

theorem Faults.lastLoop_some (h : WalkEnds F.blocks s.vol c) :
    ∃ r, F.lastLoop walkSteps s c = some r :=
  Option.isSome_iff_exists.mp ((Faults.lastLoop_isSome hread).mpr (exists_early h))

theorem Faults.lastLoop_none (h : ¬ WalkEnds F.blocks s.vol c) (n : ℕ) :
    F.lastLoop n s c = .none := by
  rw [← Option.not_isSome_iff_eq_none, lastLoop_isSome hread]
  rintro ⟨k, -, hend⟩
  exact h ⟨k, hend⟩

end Reads

/-! ## Scanning a directory -/

theorem exists_slot_succ {buf : Bytes} : (∃ k < n + 1, buf ((i + k) * 32) = 0) ↔
    buf (i * 32) = 0 ∨ ∃ k < n, buf ((i + 1 + k) * 32) = 0 := by
  simp only [Nat.exists_lt_succ_left, Nat.add_zero, Nat.add_assoc, Nat.add_comm 1]

section Scan

variable {σ : Type} {f : σ → Entry → σ × Bool} {buf : Bytes} {base n i : ℕ} {lfn : Lfn} {ctx : σ}

/-- The scan of a cluster stops at the end of the directory, if not before. It stops only there, if
no entry is the one it looks for. -/
theorem scanSlots_isLeft :
    ((∃ k < n, buf ((i + k) * 32) = 0) → (scanSlots f buf base n i lfn ctx).isLeft) ∧
      ((∀ ctx lfn de offset, (f ctx ⟨Lfn.name lfn de, de, offset⟩).2 = false) →
        (scanSlots f buf base n i lfn ctx).isLeft → ∃ k < n, buf ((i + k) * 32) = 0) := by
  induction n generalizing i lfn ctx with
  | zero => simp [scanSlots]
  | succ n ih =>
    rw [scanSlots, exists_slot_succ]
    dsimp only
    by_cases hend : direntAt buf i 0 = 0
    · rw [if_pos hend]
      exact ⟨fun _ => rfl, fun _ _ => .inl hend⟩
    rw [if_neg hend, or_iff_right (show ¬ buf (i * 32) = 0 from hend)]
    split_ifs with hfree hlfn hlabel hstop
    · exact ih
    · exact ih
    · exact ih
    · refine ⟨fun _ => rfl, fun hf _ => ?_⟩
      rw [hf] at hstop
      exact absurd hstop Bool.false_ne_true
    · exact ih

variable (hread : ∀ k, F.read k = false)
include hread

/-- The scan of a directory ends at a stop, if not before. It ends only there, if it looks for
something that is not in the directory. -/
theorem Faults.iterateLoop_isSome :
    ((∃ k < n, ScanStops F.blocks s.vol ((nextOn F.blocks s.vol)^[k] c)) →
        (F.iterateLoop f n s c idx lfn ctx).isSome) ∧
      ((∀ ctx lfn de offset, (f ctx ⟨Lfn.name lfn de, de, offset⟩).2 = false) →
        (F.iterateLoop f n s c idx lfn ctx).isSome →
          ∃ k < n, ScanStops F.blocks s.vol ((nextOn F.blocks s.vol)^[k] c)) := by
  induction n generalizing s c idx lfn ctx with
  | zero => simp [iterateLoop]
  | succ n ih =>
    have hslots := @scanSlots_isLeft σ f (clusterBuf s.vol c) (idx * s.vol.geo.clusterSize)
      (s.vol.geo.clusterSize / 32) 0 lfn ctx
    simp only [Nat.zero_add] at hslots
    rw [iterateLoop, Nat.exists_lt_succ_left]
    by_cases hgo : 2 ≤ c ∧ ¬ isEoc c
    swap
    · rw [if_neg hgo]
      exact ⟨fun _ => rfl, fun _ _ => .inl (.inl hgo)⟩
    rw [if_pos hgo, readCluster_eq hread hgo.1]
    by_cases hon : OnDevice F.blocks s.vol c
    swap
    · rw [if_neg hon]
      exact ⟨fun _ => rfl, fun _ _ => .inl (.inr (.inl hon))⟩
    rw [if_pos hon]
    dsimp only
    split
    · next hscan =>
      rw [hscan] at hslots
      exact ⟨fun _ => rfl, fun hf _ => .inl (.inr (.inr (hslots.2 hf rfl)))⟩
    · next hscan =>
      -- An end mark would have stopped the scan of the cluster.
      have hmark : ¬ HasEndMark s.vol c := fun hmark => by simpa [hscan] using hslots.1 hmark
      have hnot : ¬ ScanStops F.blocks s.vol ((nextOn F.blocks s.vol)^[0] c) :=
        not_scanStops.mpr ⟨hgo, hon, hmark⟩
      rw [fatRead_nextOn hread, or_iff_right hnot]
      exact @ih { s with reads := s.reads + 1 + 1 } _ _ _ _

end Scan

/-- A slot that ends the directory is free. -/
theorem no_endMark_of_freeSlot {buf : Bytes} (h : freeSlot buf n i = none) :
    ¬ ∃ k < n, buf ((i + k) * 32) = 0 := by
  induction n generalizing i with
  | zero => simp
  | succ n ih =>
    rw [freeSlot] at h
    split_ifs at h with hfree
    rw [exists_slot_succ, not_or]
    exact ⟨fun hzero => hfree (.inl hzero), ih h⟩

/-- The search for a free slot ends where the scan does, if not before. It reaches the number of
clusters only at the end of the chain. -/
theorem Faults.findFreeLoop_some (hread : ∀ k, F.read k = false)
    (h : ∃ k < n, ScanStops F.blocks s.vol ((nextOn F.blocks s.vol)^[k] c)) :
    ∃ t r, F.findFreeLoop n s c idx = some (t, r) ∧
      ∀ m, r = some (.inr m) → ∃ k, ChainEnd ((nextOn F.blocks s.vol)^[k] c) := by
  induction n generalizing s c idx with
  | zero => simp at h
  | succ n ih =>
    rw [findFreeLoop]
    rw [Nat.exists_lt_succ_left] at h
    by_cases hgo : 2 ≤ c ∧ ¬ isEoc c
    · rw [if_pos hgo, readCluster_eq hread hgo.1]
      by_cases hon : OnDevice F.blocks s.vol c
      · rw [if_pos hon]
        dsimp only
        cases hslot : freeSlot (clusterBuf s.vol c) (s.vol.geo.clusterSize / 32) 0 with
        | some i => exact ⟨_, _, rfl, fun m hm => by cases hm⟩
        | none =>
          have hmark : ¬ HasEndMark s.vol c := by simpa [HasEndMark] using no_endMark_of_freeSlot hslot
          rw [fatRead_nextOn hread]
          obtain ⟨t, r, heq, hend⟩ := @ih { s with reads := s.reads + 1 + 1 } _ (idx + 1)
            (h.resolve_left (not_scanStops.mpr ⟨hgo, hon, hmark⟩))
          exact ⟨t, r, heq, fun m hm => (hend m hm).imp' (· + 1) fun _ hj => hj⟩
      · rw [if_neg hon]
        exact ⟨_, _, rfl, fun m hm => by cases hm⟩
    · rw [if_neg hgo]
      exact ⟨s, _, rfl, fun _ _ => ⟨0, hgo⟩⟩

/-! ## A new cluster ends its chain -/

/-- The entry of a cluster is in front of the cluster. -/
theorem Geometry.Sound.entry_before {g : Geometry} (h : g.Sound) (hc : 2 ≤ c) :
    g.fatOffset 0 c + 4 ≤ g.clusterOffset c := by
  have hroot := h.root
  have hentries := h.entries
  have hregions := Nat.mul_le_mul_right g.bytesPerSec
    ((Nat.add_le_add_left (Nat.mul_le_mul_right g.fatSizeSectors h.fats) _).trans h.regions)
  have hslots : (c - 2) * 64 ≤ (c - 2) * g.secPerClus * g.bytesPerSec := by
    rw [Nat.mul_assoc, Nat.mul_comm g.secPerClus]
    exact Nat.mul_le_mul_left _ h.twoSlots
  unfold Geometry.IsData at hroot
  rw [Nat.one_mul, Nat.add_mul] at hregions
  unfold Geometry.fatOffset Geometry.clusterOffset
  simp only [Nat.zero_mul, Nat.add_zero, Nat.add_mul g.dataStartSector]
  omega

theorem nextOn_congr {w : Volume} (hgeo : w.geo = v.geo)
    (hdisk : ∀ k < 4, w.disk (v.geo.fatOffset 0 c + k) = v.disk (v.geo.fatOffset 0 c + k)) :
    nextOn blocks w c = nextOn blocks v c := by
  unfold nextOn readBytes
  rw [hgeo]
  split_ifs
  · have hbytes : Bytes.le (fun k => w.disk (v.geo.fatOffset 0 c + k)) 0 4 =
        Bytes.le (fun k => v.disk (v.geo.fatOffset 0 c + k)) 0 4 :=
      Bytes.le_congr fun k _ hk => hdisk k (by omega)
    simp only [hbytes]
  · rfl

theorem Faults.writeEntry_true (h : F.writeEntry s offset value = (t, true)) :
    t.vol = { s.vol with disk := putEntry offset value s.vol.disk } ∧
      offset + 4 ≤ F.blocks * Block.blockSize := by
  unfold writeEntry readBytes Fat32.readBytes at h
  split at h
  · cases h
  rename_i heq
  obtain ⟨rfl, hbytes⟩ := Prod.mk.inj heq
  have hon : offset + 4 ≤ F.blocks * Block.blockSize := by
    by_contra hoff
    rw [if_neg hoff, ite_self] at hbytes
    cases hbytes
  obtain ⟨rfl, -⟩ := Prod.mk.inj h
  exact ⟨rfl, hon⟩

/-- All copies are written when the loop succeeds. -/
theorem Faults.fatWriteLoop_true (h : F.fatWriteLoop c value n i s = (t, true)) :
    t.vol = { s.vol with
      disk := (List.range' i n).foldl
        (fun disk j => putEntry (s.vol.geo.fatOffset j c) value disk) s.vol.disk } ∧
    (n ≠ 0 → s.vol.geo.fatOffset i c + 4 ≤ F.blocks * Block.blockSize) := by
  induction n generalizing i s with
  | zero =>
    cases h
    exact ⟨rfl, fun hne => absurd rfl hne⟩
  | succ n ih =>
    rw [fatWriteLoop] at h
    split at h
    · cases h
    · rename_i hwrite
      obtain ⟨hvol, hon⟩ := writeEntry_true hwrite
      refine ⟨?_, fun _ => hon⟩
      rw [(ih h).1, hvol]
      rfl

section

variable (hsound : s.vol.geo.Sound)
include hsound

/-- An entry that was written is read back, also where it is no entry of a data cluster. -/
theorem Faults.fatWrite_nextOn (h : F.fatWrite s c value = (t, true)) :
    t.vol.geo = s.vol.geo ∧ nextOn F.blocks t.vol c = value % 2 ^ 28 := by
  obtain ⟨n, hn⟩ : ∃ n, s.vol.geo.numFats = n + 1 :=
    ⟨s.vol.geo.numFats - 1, by have := hsound.fats; omega⟩
  rw [fatWrite, hn] at h
  obtain ⟨hvol, hon⟩ := fatWriteLoop_true h
  rw [hvol, nextOn, Fat32.readBytes, if_pos (hon (Nat.succ_ne_zero n))]
  refine ⟨rfl, ?_⟩
  have hentry : Bytes.le (fun k => (List.range' 0 (n + 1)).foldl
      (fun disk j => putEntry (s.vol.geo.fatOffset j c) value disk) s.vol.disk
        (s.vol.geo.fatOffset 0 c + k)) 0 4 = Bytes.le (fun k =>
      putEntry (s.vol.geo.fatOffset 0 c) value s.vol.disk (s.vol.geo.fatOffset 0 c + k)) 0 4 := by
    refine Bytes.le_congr fun k _ hk => ?_
    rw [List.range'_succ, List.foldl_cons]
    -- The later copies are behind the first one.
    refine putEntries_of_disjoint _ _ _ fun j hj => .inl ?_
    have hentries := hsound.entries
    have hstride := Nat.mul_le_mul_right (s.vol.geo.fatSizeSectors * s.vol.geo.bytesPerSec)
      (List.mem_range'_1.mp hj).1
    rw [← Nat.mul_assoc j] at hstride
    unfold Geometry.fatOffset
    rw [Nat.zero_mul, Nat.add_zero, Nat.add_mul]
    omega
  exact (congrArg (· % 2 ^ 28) hentry).trans (le_putEntry _ _ _)

/-- A cluster that was allocated ends its chain. -/
theorem Faults.allocScan_nextOn {start total new : ℕ} (h : F.allocScan start total n i s = (t, new))
    (hnew : new ≠ 0) : nextOn F.blocks t.vol new = clusterEoc := by
  induction n generalizing i s with
  | zero => exact absurd (congrArg Prod.snd h).symm hnew
  | succ n ih =>
    rw [allocScan] at h
    dsimp only at h
    have husound := (F.reads_fatRead s (allocCandidate start total i)).geo ▸ hsound
    split_ifs at h
    · split at h
      · exact absurd (congrArg Prod.snd h).symm hnew
      · next hwrite =>
        cases h
        exact (fatWrite_nextOn husound hwrite).2
    · exact ih husound h

/-- Zeroing a cluster leaves its entry. -/
theorem Faults.nextOn_zeroFresh :
    nextOn F.blocks (F.zeroFresh s c).vol c = nextOn F.blocks s.vol c := by
  refine nextOn_congr (F.spends_zeroFresh s c).geo fun k hk => ?_
  rw [zeroFresh]
  rcases F.allocFrame_cases s with heq | heq <;> rw [heq]
  · rfl
  · simp only [writeCluster, Call.freeFrame]
    split_ifs with hc
    · rfl
    · have hbefore := hsound.entry_before (c := c) (by omega)
      have hlt : s.vol.geo.fatOffset 0 c + k < s.granted.vol.geo.clusterOffset c := by
        rw [show s.granted.vol = s.vol from rfl]
        omega
      dsimp only
      rw [Bytes.copyIn_of_lt hlt]
      rfl

/-- The first cluster of a file begins a chain that ends, if the chain of the file does. -/
theorem Faults.firstCluster_walkEnds {vp wp : Vnode}
    (hends : vp.startCluster < 2 ∨ WalkEnds F.blocks s.vol vp.startCluster)
    (h : F.firstCluster s vp = (t, some wp)) : WalkEnds F.blocks t.vol wp.startCluster := by
  unfold firstCluster at h
  split_ifs at h with hstart
  · obtain ⟨rfl, hwp⟩ := Prod.mk.inj h
    cases hwp
    exact hends.resolve_left (by omega)
  · split at h
    · cases h
    next u new hnew halloc =>
    obtain ⟨rfl, hwp⟩ := Prod.mk.inj h
    cases hwp
    have hentry : nextOn F.blocks (F.zeroFresh u new).vol new = clusterEoc :=
      (nextOn_zeroFresh ((spends_allocCluster halloc).geo ▸ hsound)).trans
        (allocScan_nextOn hsound halloc hnew)
    refine ⟨0, fun hgo => hgo.2 ?_⟩
    rw [Function.iterate_one, hentry]
    exact isEoc_clusterEoc

end

/-! ## Operations that end -/

/-- A bound for the reads of a call on `total` clusters whose request ends at `size`. -/
def readBound (total size : ℕ) : ℕ := 7 * walkSteps + (size + 2) * (total + 1024)

theorem readBound_eq (total size : ℕ) : readBound total size =
    7 * walkSteps + size * (total + 765) + 259 * size + 2 * (total + 1024) := by
  rw [readBound, Nat.add_mul, show total + 1024 = total + 765 + 259 by omega, Nat.mul_add size]
  omega

/-- With enough turns the call ends, after so many reads at most. -/
def EndsWithin {α : Type} (bound : ℕ) (call : ℕ → Option (Call × α)) : Prop :=
  ∃ turns t r, call turns = some (t, r) ∧ t.reads ≤ bound

theorem not_endsWithin {α : Type} {bound : ℕ} {call : ℕ → Option (Call × α)}
    (h : ∀ turns, call turns = none) : ¬ EndsWithin bound call := by
  rintro ⟨turns, t, r, heq, -⟩
  rw [h] at heq
  cases heq

/-- The operations on a directory and a file end, after a number of reads that the number of data
clusters and the request bound. -/
structure OperationsEnd (F : Faults) (v : Volume) (dir file : Vnode) : Prop where
  lookup : ∀ name, EndsWithin (readBound v.geo.totalDataClusters 0)
    fun turns => F.vopLookup turns (.start v) dir name
  readdir : ∀ offset, EndsWithin (readBound v.geo.totalDataClusters 0)
    fun turns => F.vopReaddir turns (.start v) dir offset
  create : ∀ name, EndsWithin (readBound v.geo.totalDataClusters 0)
    fun turns => F.vopCreate turns (.start v) dir name
  writeAt : ∀ src nbyte offset, EndsWithin (readBound v.geo.totalDataClusters (offset + nbyte))
    fun turns => F.vopWriteAt turns (.start v) file src nbyte offset

section Ends

variable {dir file : Vnode} (hread : ∀ k, F.read k = false)
include hread

/-- Iterating over a directory whose scan ends. -/
theorem Faults.iterateDir_some {σ : Type} {f : σ → Entry → σ × Bool} {ctx : σ}
    (h : ScanEnds F.blocks s.vol start) :
    ∃ t r, F.iterateDir walkSteps s start f ctx = some (t, r) := by
  rw [iterateDir]
  rcases F.allocFrame_cases s with heq | heq <;> rw [heq]
  · exact ⟨_, _, rfl⟩
  · obtain ⟨⟨t, r⟩, hloop⟩ : ∃ r,
        F.iterateLoop f walkSteps s.granted start 0 Lfn.start ctx = some r :=
      Option.isSome_iff_exists.mp ((iterateLoop_isSome hread).1 (exists_early h))
    simp only [hloop]
    exact ⟨_, _, rfl⟩

theorem Faults.vopLookup_some (h : ScanEnds F.blocks s.vol dir.startCluster) :
    ∃ t r, F.vopLookup walkSteps s dir name = some (t, r) := by
  obtain ⟨t, ⟨rc, found⟩, heq⟩ : ∃ t r,
      F.iterateDir walkSteps s dir.startCluster (nameCallback name) .none = some (t, r) :=
    iterateDir_some hread h
  simp only [vopLookup, heq]
  split_ifs
  · exact ⟨_, _, rfl⟩
  · cases found <;> exact ⟨_, _, rfl⟩
  · exact ⟨_, _, rfl⟩

theorem Faults.vopReaddir_some (h : ScanEnds F.blocks s.vol dir.startCluster) :
    ∃ t r, F.vopReaddir walkSteps s dir offset = some (t, r) ∧
      t.reads ≤ s.reads + 2 * walkSteps := by
  obtain ⟨t, ⟨rc, ctx⟩, heq⟩ : ∃ t r,
      F.iterateDir walkSteps s dir.startCluster (readdirCallback offset) ⟨0, .none⟩ =
        some (t, r) := iterateDir_some hread h
  have hreads := (reads_iterateDir heq).reads
  simp only [vopReaddir, heq]
  split_ifs
  · exact ⟨_, _, rfl, hreads⟩
  · cases ctx.found <;> exact ⟨_, _, rfl, hreads⟩
  · exact ⟨_, _, rfl, Nat.le_add_right _ _⟩

/-- The search for a slot, and the walk behind it when there is none. -/
theorem Faults.findFreeDirent_some (h : ScanEnds F.blocks s.vol start)
    (hlast : ChainEnd start → WalkEnds F.blocks s.vol start) :
    ∃ t r, F.findFreeDirent walkSteps s start = some (t, r) := by
  rw [findFreeDirent]
  rcases F.allocFrame_cases s with heq | heq <;> rw [heq]
  · exact ⟨_, _, rfl⟩
  obtain ⟨t, r, hloop, hend⟩ : ∃ t r, F.findFreeLoop walkSteps s.granted start 0 = some (t, r) ∧
      ∀ m, r = some (.inr m) → ∃ k, ChainEnd ((nextOn F.blocks s.vol)^[k] start) :=
    findFreeLoop_some (s := s.granted) hread (exists_early h)
  have hvol : t.vol = s.vol := (reads_findFreeLoop hloop).1.vol
  simp only [hloop]
  rcases r with _ | off | idx
  · exact ⟨_, _, rfl⟩
  · exact ⟨_, _, rfl⟩
  -- The chain ends behind the first cluster, or the first number is no cluster.
  have hwalk : WalkEnds F.blocks t.freeFrame.vol start := by
    obtain ⟨k, hk⟩ := hend idx rfl
    rw [show t.freeFrame.vol = s.vol from hvol]
    cases k with
    | zero => exact hlast hk
    | succ k => exact ⟨k, hk⟩
  obtain ⟨⟨u, last⟩, heq'⟩ := lastLoop_some hread hwalk
  simp only [heq']
  split <;> exact ⟨_, _, rfl⟩

/-- Creating an entry in a directory whose scan and whose chain end. -/
theorem Faults.vopCreate_some (h : ScanEnds F.blocks s.vol dir.startCluster)
    (hlast : ChainEnd dir.startCluster → WalkEnds F.blocks s.vol dir.startCluster) :
    ∃ t r, F.vopCreate walkSteps s dir name = some (t, r) := by
  obtain ⟨t, ⟨rc, existing⟩, heq⟩ : ∃ t r, F.vopLookup walkSteps s dir name = some (t, r) :=
    vopLookup_some hread h
  have hvol := (spends_vopLookup heq).1
  obtain ⟨u, r, heq'⟩ :=
    findFreeDirent_some (s := t) hread (hvol ▸ h) (hvol ▸ hlast)
  simp only [vopCreate, heq, heq']
  split_ifs
  · exact ⟨_, _, rfl⟩
  · cases r with
    | none => exact ⟨_, _, rfl⟩
    | some offset =>
      dsimp only
      split
      · exact ⟨_, _, rfl⟩
      · split <;> exact ⟨_, _, rfl⟩
  · exact ⟨_, _, rfl⟩

/-- Writing to a file whose chain ends. -/
theorem Faults.vopWriteAt_some {src : Bytes} {nbyte : ℕ} (hsound : s.vol.geo.Sound)
    (hends : file.startCluster < 2 ∨ WalkEnds F.blocks s.vol file.startCluster) :
    ∃ t r, F.vopWriteAt walkSteps s file src nbyte offset = some (t, r) := by
  rw [vopWriteAt]
  split_ifs
  · exact ⟨s, _, rfl⟩
  · exact ⟨s, _, rfl⟩
  generalize hcall : F.firstCluster s file = r
  obtain ⟨t, _ | vp⟩ := r
  · exact ⟨t, _, rfl⟩
  have hwalk := firstCluster_walkEnds hsound hends hcall
  dsimp only
  generalize ((offset + nbyte) % 2 ^ 64 + t.vol.geo.clusterSize - 1) % 2 ^ 64 /
    t.vol.geo.clusterSize % 2 ^ 32 = needed
  obtain ⟨u, r, heq⟩ : ∃ u r, F.growFile walkSteps t vp.startCluster needed = some (u, r) := by
    rw [growFile, chainLength]
    have hvol : (F.chainLengthLoop (t.vol.geo.totalDataClusters + 1) t vp.startCluster 0).1.vol = _ :=
      (reads_chainLengthLoop rfl).1.vol
    dsimp only
    split_ifs
    · obtain ⟨⟨z, last⟩, heq⟩ := lastLoop_some hread (hvol ▸ hwalk)
      rw [heq]
      exact ⟨_, _, rfl⟩
    · exact ⟨_, _, rfl⟩
  rw [heq]
  cases r with
  | none => exact ⟨_, _, rfl⟩
  | some i =>
    dsimp only
    split_ifs <;> exact ⟨_, _, rfl⟩

end Ends

/-! ## Operations that do not end -/

/-- A name that no entry can have. -/
def longName : CStr where
  bytes := List.replicate 256 65
  noNul h := absurd (List.eq_of_mem_replicate h) (by decide)

theorem nameCallback_longName (ctx : Option Entry) (lfn : Lfn) (de : Bytes) (offset : ℕ) :
    (nameCallback longName ctx ⟨lfn.name de, de, offset⟩).2 = false := by
  rw [nameCallback, if_neg]
  rw [nameCmpCi_eq_zero]
  intro hsame
  have hlength := congrArg List.length hsame
  have hle := length_lfnName lfn de
  simp only [List.length_map, longName, List.length_replicate] at hlength
  omega

section Endless

variable {dir file : Vnode} (hread : ∀ k, F.read k = false)
include hread

theorem Faults.vopLookup_none (hframe : F.frame s.frames = false) (hdir : dir.isDir = true)
    (h : ¬ ScanEnds F.blocks s.vol dir.startCluster) (turns : ℕ) :
    F.vopLookup turns s dir longName = .none := by
  have hloop : F.iterateLoop (nameCallback longName) turns s.granted dir.startCluster 0 Lfn.start
      .none = .none := by
    rw [← Option.not_isSome_iff_eq_none]
    intro hsome
    obtain ⟨k, -, hstop⟩ := (iterateLoop_isSome hread).2 nameCallback_longName hsome
    exact h ⟨k, hstop⟩
  rw [vopLookup, if_neg (by simp [hdir]), iterateDir, allocFrame, hframe]
  simp only [Bool.false_eq_true, if_false, hloop]

/-- Where the first number of a directory is no cluster, its search for a slot goes to the walk at
once. -/
theorem Faults.vopCreate_none (hframe : ∀ k, F.frame k = false) (hdir : dir.isDir = true)
    (hend : ChainEnd dir.startCluster) (h : ¬ WalkEnds F.blocks s.vol dir.startCluster)
    (turns : ℕ) : F.vopCreate turns s dir longName = .none := by
  have hgranted : ∀ t, F.allocFrame t = (t.granted, true) := fun t => by
    rw [allocFrame, hframe, if_neg Bool.false_ne_true]
  rw [vopCreate, if_neg (by simp [hdir])]
  cases turns with
  | zero =>
    rw [vopLookup, if_neg (by simp [hdir]), iterateDir, hgranted]
    rfl
  | succ n =>
    have hlookup : F.vopLookup (n + 1) s dir longName = some (s.granted.freeFrame, -2, .none) := by
      rw [vopLookup, if_neg (by simp [hdir]), iterateDir, hgranted]
      dsimp only
      rw [iterateLoop, if_neg hend]
      rfl
    have hlast : F.lastLoop (n + 1) s.granted.freeFrame.granted.freeFrame dir.startCluster =
        .none :=
      lastLoop_none (s := s.granted.freeFrame.granted.freeFrame) hread h (n + 1)
    rw [hlookup]
    simp only [findFreeDirent, hgranted, findFreeLoop, if_neg hend, hlast]
    rfl

/-- A write far enough behind a chain that does not end. -/
theorem Faults.vopWriteAt_none (hsound : s.vol.geo.Sound) (hfile : file.isDir = false)
    (hstart : 2 ≤ file.startCluster) (h : ¬ WalkEnds F.blocks s.vol file.startCluster)
    (turns : ℕ) : F.vopWriteAt turns s file (fun _ => 0) 1
      ((s.vol.geo.totalDataClusters + 2) * s.vol.geo.clusterSize) = .none := by
  obtain ⟨size, hsize⟩ : ∃ size, size = s.vol.geo.clusterSize := ⟨_, rfl⟩
  obtain ⟨total, htotal⟩ : ∃ total, total = s.vol.geo.totalDataClusters := ⟨_, rfl⟩
  have hlow : 64 ≤ size := hsize ▸ hsound.twoSlots
  have hhigh : size ≤ 4096 := hsize ▸ hsound.page
  have hmarks : total + 2 ≤ 0x0FFFFFF7 := htotal ▸ hsound.marks
  have hsmall : (total + 2) * size ≤ 2 ^ 28 * 4096 := Nat.mul_le_mul (by omega) hhigh
  -- The request needs more clusters than the guard of the count allows.
  have hneeded : (((total + 2) * size + 1) % 2 ^ 64 + size - 1) % 2 ^ 64 / size % 2 ^ 32 =
      total + 3 := by
    have hnext : (total + 3) * size = (total + 2) * size + size := Nat.succ_mul (total + 2) size
    have hend : ((total + 2) * size + 1) % 2 ^ 64 + size - 1 = (total + 3) * size := by omega
    have hmod : (total + 3) * size % 2 ^ 64 = (total + 3) * size := Nat.mod_eq_of_lt (by omega)
    rw [hend, hmod, Nat.mul_div_cancel _ (by omega), Nat.mod_eq_of_lt (by omega)]
  rw [vopWriteAt, if_neg (by simp [hfile]), if_neg (by decide), firstCluster,
    if_pos hstart]
  dsimp only
  rw [← hsize, ← htotal, hneeded, growFile, chainLength]
  obtain ⟨⟨t, len⟩, hr⟩ : ∃ r,
      F.chainLengthLoop (s.vol.geo.totalDataClusters + 1) s file.startCluster 0 = r := ⟨_, rfl⟩
  obtain ⟨hwalk, hcount⟩ := reads_chainLengthLoop hr
  rw [hr]
  dsimp only
  rw [if_pos (by omega), lastLoop_none hread (hwalk.vol ▸ h)]

end Endless

/-- Whatever the FAT and the directory hold: looking up, enumerating, creating and writing end
after a bounded number of reads exactly if the scan of the directory meets a stop, and the walks to
the last cluster of the directory and of the file meet the end of the chain. -/
theorem fat32_operations_end_iff (F : Faults) (v : Volume) (dir file : Vnode)
    (hread : ∀ k, F.read k = false) (hframe : ∀ k, F.frame k = false) (hsound : v.geo.Sound)
    (hfats : v.geo.numFats ≤ 255) (hdir : dir.isDir = true) (hfile : file.isDir = false)
    (hentry : file.dirEntryOffset < 2 ^ 32) :
    OperationsEnd F v dir file ↔
      ScanEnds F.blocks v dir.startCluster ∧
      (ChainEnd dir.startCluster → WalkEnds F.blocks v dir.startCluster) ∧
      (file.startCluster < 2 ∨ WalkEnds F.blocks v file.startCluster) := by
  constructor
  · intro hends
    refine ⟨?_, fun hend => ?_, ?_⟩
    · by_contra hscan
      exact not_endsWithin (Faults.vopLookup_none (s := .start v) hread (hframe _) hdir hscan)
        (hends.lookup longName)
    · by_contra hwalk
      exact not_endsWithin (Faults.vopCreate_none (s := .start v) hread hframe hdir hend hwalk)
        (hends.create longName)
    · by_contra hnot
      obtain ⟨hstart, hwalk⟩ := not_or.mp hnot
      exact not_endsWithin
        (Faults.vopWriteAt_none (s := .start v) hread hsound hfile (by omega) hwalk)
        (hends.writeAt (fun _ => 0) 1 ((v.geo.totalDataClusters + 2) * v.geo.clusterSize))
  · rintro ⟨hscan, hlast, hwalk⟩
    have hcluster : 2 ^ 32 / v.geo.clusterSize ≤ 2 ^ 26 :=
      (Nat.div_le_div_left hsound.twoSlots (by decide)).trans (by decide)
    have hslot : file.dirEntryOffset / v.geo.clusterSize ≤ 2 ^ 26 :=
      (Nat.div_le_div_left hsound.twoSlots (by decide)).trans (by omega)
    have hstart : (Call.start v).reads = 0 ∧ (Call.start v).vol = v := ⟨rfl, rfl⟩
    have hbound := readBound_eq v.geo.totalDataClusters
    refine ⟨fun name => ?_, fun offset => ?_, fun name => ?_, fun src nbyte offset => ?_⟩
    · obtain ⟨t, r, heq⟩ := Faults.vopLookup_some (s := .start v) hread hscan
      refine ⟨walkSteps, t, r, heq, ?_⟩
      have hreads := (Faults.spends_vopLookup heq).2.1
      have hzero := hbound 0
      omega
    · obtain ⟨t, r, heq, hreads⟩ := Faults.vopReaddir_some (s := .start v) hread hscan
      refine ⟨walkSteps, t, r, heq, ?_⟩
      have hzero := hbound 0
      omega
    · obtain ⟨t, r, heq⟩ := Faults.vopCreate_some (s := .start v) hread hscan hlast
      refine ⟨walkSteps, t, r, heq, ?_⟩
      have hreads := (Faults.spends_vopCreate heq).1
      have hzero := hbound 0
      rw [hstart.1, hstart.2] at hreads
      unfold walkSteps at hreads hzero
      omega
    · obtain ⟨t, r, heq⟩ := Faults.vopWriteAt_some (s := .start v) hread hsound hwalk
      refine ⟨walkSteps, t, r, heq, ?_⟩
      have hreads := (Faults.spends_vopWriteAt heq).reads
      have hrequest : (offset + nbyte) * (v.geo.totalDataClusters + 3 * v.geo.numFats) ≤
          (offset + nbyte) * (v.geo.totalDataClusters + 765) :=
        Nat.mul_le_mul_left _ (by omega)
      have hsize := hbound (offset + nbyte)
      rw [hstart.1, hstart.2] at hreads
      unfold walkSteps at hreads hsize
      omega

/-- The chain of the root directory is a cycle, and the other bytes are all the same. -/
def cyclicVolume (fill : UInt8) : Volume :=
  { emptyVolume with disk := Bytes.putLe (fun _ => fill) 520 4 2 }

/-- The slots of the directory begin with an end mark. -/
theorem fat32_operations_end_cyclic : (cyclicVolume 0).fat 2 = 2 ∧
    OperationsEnd (.never 2) (cyclicVolume 0) (rootVnode smallGeometry) ⟨0, 0, attrArchive, 2, 0⟩ :=
  ⟨by decide, (fat32_operations_end_iff (.never 2) (cyclicVolume 0) (rootVnode smallGeometry)
    ⟨0, 0, attrArchive, 2, 0⟩ (fun _ => rfl) (fun _ => rfl) smallGeometry_sound (by decide)
    (by decide) (by decide) (by decide)).mpr
    ⟨⟨0, .inr (.inr ⟨0, by decide, by decide⟩)⟩,
      fun hend => absurd (show 2 ≤ 2 ∧ ¬ isEoc 2 by decide) hend, .inl (by decide)⟩⟩

/-- The chain of the root directory is a cycle, and its slots hold deleted entries. -/
def endlessVolume : Volume := cyclicVolume direntFree

theorem lookup_endless : endlessVolume.fat 2 = 2 ∧ ∀ turns,
    (Faults.never 2).vopLookup turns (.start endlessVolume) (rootVnode smallGeometry) longName =
      none := by
  refine ⟨by decide, fun turns => ?_⟩
  refine Faults.vopLookup_none (s := .start endlessVolume) (fun _ => rfl) rfl (by decide) ?_ turns
  have hcycle : nextOn 2 endlessVolume 2 = 2 := by decide
  rintro ⟨n, hstop⟩
  have hstay : (nextOn 2 endlessVolume)^[n] 2 = 2 := Function.iterate_fixed hcycle n
  replace hstop : ScanStops 2 endlessVolume ((nextOn 2 endlessVolume)^[n] 2) := hstop
  rw [hstay] at hstop
  rcases hstop with hend | hoff | ⟨i, hi, hzero⟩
  · exact hend (by decide)
  · exact hoff (by decide)
  · have hslot : Bytes.putLe (fun _ => direntFree) 520 4 2 (1024 + i * 32) = direntFree :=
      Bytes.putLe_of_le (by omega)
    exact absurd (hslot.symm.trans hzero) (by decide)

end Tomahawk.Fat32
