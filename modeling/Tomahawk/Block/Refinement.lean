import Tomahawk.Block.Structure
import Tomahawk.Lib.Run

/-!
# The cache is a flat array per device

`Rep` relates a cache to one array of bytes for each device. A cached buffer holds
the bytes of its block, and a block with no dirty buffer is on the device as in the
array. Reads return the bytes of the array, writes change a range of it, and
eviction, `bufferSyncAll` and `bufferInvalidate` leave it alone; so with devices that
never fail the cache refines the arrays, whatever it evicts on the way.
-/

namespace Tomahawk.Block

open Function Tomahawk.Lib

/-- The contents of the devices as the callers see them, by byte offset. -/
abbrev Flat := DevPtr → Bytes

/-- The bytes of a block are those of its range in the array. -/
def HoldsBlock (data : Bytes) (flat : Flat) (dev : DevPtr) (b : ℕ) : Prop :=
  ∀ k < blockSize, data k = flat dev (b * blockSize + k)

/-- The cache represents the arrays. The buffer `held`, if any, is between its
`buffer_get` and its `buffer_release`, and its data is not yet accounted for. -/
structure Rep (s : Cache) (L : Lists) (flat : Flat) (held : Option BufPtr) : Prop
    extends Linked s L where
  cover : ∀ i, held ≠ some i → i ∈ L.free ∨ i ∈ L.lru
  cached : ∀ i ∈ L.lru, s.dev i ≠ 0
  unused : ∀ i ∈ L.free, s.dev i = 0 ∧ (s.flags i).dirty = false
  unpinned : ∀ i, (s.flags i).pinned = false
  idle : ∀ i, held ≠ some i → (s.flags i).busy = false ∧ s.refCount i = 0
  content : ∀ i ∈ L.lru, held ≠ some i → HoldsBlock (s.data i) flat (s.dev i) (s.blockNum i)
  /-- A block without a dirty buffer is up to date on the device. -/
  backing : ∀ dev b, (∀ i ∈ L.lru, s.dev i = dev → s.blockNum i = b → (s.flags i).dirty = false) →
    HoldsBlock (s.disk dev b) flat dev b

/-- No device access fails. -/
def Devices.Reliable (env : Devices) : Prop := ∀ n, env.fault n = false

variable {env : Devices} {s s' : Cache} {L : Lists} {flat flat' : Flat} {i : BufPtr}
  {held : Option BufPtr} {t : Cache} {b off size fuel n done : ℕ} {data : Bytes}

/-- What the representation says of one buffer. -/
structure BufferOk (s : Cache) (L : Lists) (flat : Flat) (held : Option BufPtr) (i : BufPtr) :
    Prop where
  cover : held ≠ some i → i ∈ L.free ∨ i ∈ L.lru
  cached : i ∈ L.lru → s.dev i ≠ 0
  unused : i ∈ L.free → s.dev i = 0 ∧ (s.flags i).dirty = false
  unpinned : (s.flags i).pinned = false
  idle : held ≠ some i → (s.flags i).busy = false ∧ s.refCount i = 0
  content : i ∈ L.lru → held ≠ some i → HoldsBlock (s.data i) flat (s.dev i) (s.blockNum i)

section Change

variable {L' : Lists} {held' : Option BufPtr} (h : Rep s L flat held) (hlinked : Linked t L')
  (hheld : ∀ j ≠ i, held ≠ some j)
  (hlists : ∀ j ≠ i, (j ∈ L'.free ↔ j ∈ L.free) ∧ (j ∈ L'.lru ↔ j ∈ L.lru))
  (hsame : ∀ j ≠ i, t.dev j = s.dev j ∧ t.blockNum j = s.blockNum j ∧ t.flags j = s.flags j ∧
    t.refCount j = s.refCount j ∧ t.data j = s.data j)
include h hlinked hheld hlists hsame

/-- One buffer changes, and with it the arrays and the devices. -/
theorem Rep.change (hi : BufferOk t L' flat' held' i)
    (hcontent : ∀ j ∈ L.lru, j ≠ i → HoldsBlock (s.data j) flat (s.dev j) (s.blockNum j) →
      HoldsBlock (s.data j) flat' (s.dev j) (s.blockNum j))
    (hbacking : ∀ dev b,
      (∀ j ∈ L'.lru, t.dev j = dev → t.blockNum j = b → (t.flags j).dirty = false) →
        HoldsBlock (t.disk dev b) flat' dev b) :
    Rep t L' flat' held' := by
  have hall : ∀ j, BufferOk t L' flat' held' j := by
    intro j
    by_cases hj : j = i
    · rwa [hj]
    · obtain ⟨hfree, hlru⟩ := hlists j hj
      obtain ⟨hdev, hnum, hflags, href, hdata⟩ := hsame j hj
      constructor <;> simp only [hfree, hlru, hdev, hnum, hflags, href, hdata]
      · exact fun _ => h.cover j (hheld j hj)
      · exact h.cached j
      · exact h.unused j
      · exact h.unpinned j
      · exact fun _ => h.idle j (hheld j hj)
      · exact fun hmem _ => hcontent j hmem hj (h.content j hmem (hheld j hj))
  exact ⟨hlinked, fun j => (hall j).cover, fun j => (hall j).cached, fun j => (hall j).unused,
    fun j => (hall j).unpinned, fun j => (hall j).idle, fun j => (hall j).content, hbacking⟩

/-- One buffer changes, while the devices stay: its block must be up to date on the device, or it
is as dirty as it was. -/
theorem Rep.patch (hi : BufferOk t L' flat held' i) (hdisk : t.disk = s.disk)
    (hclean : i ∈ L.lru → (s.flags i).dirty = false ∨ i ∈ L'.lru ∧ t.dev i = s.dev i ∧
      t.blockNum i = s.blockNum i ∧ (t.flags i).dirty = (s.flags i).dirty) :
    Rep t L' flat held' := by
  refine h.change hlinked hheld hlists hsame hi (fun _ _ _ hold => hold) fun dev b hother => ?_
  rw [hdisk]
  refine h.backing dev b fun j hj hjd hjb => ?_
  by_cases hji : j = i
  · subst hji
    rcases hclean hj with hclean | ⟨hmem, hdev, hnum, hdirty⟩
    · exact hclean
    · rw [← hdirty]
      exact hother j hmem (hdev.trans hjd) (hnum.trans hjb)
  · obtain ⟨hdev, hnum, hflags, -, -⟩ := hsame j hji
    rw [← hflags]
    exact hother j ((hlists j hji).2.mpr hj) (hdev.trans hjd) (hnum.trans hjb)

end Change

/-- Writing back a dirty buffer of a reliable device. -/
theorem bufferSyncInternal_eq (henv : env.Reliable) (hdev : s.dev i ≠ 0)
    (hdirty : (s.flags i).dirty = true) :
    bufferSyncInternal env s i =
      ({ s with
        accesses := s.accesses + 1
        disk := update s.disk (s.dev i)
          (update (s.disk (s.dev i)) (s.blockNum i) (s.data i))
        flags := update s.flags i { s.flags i with dirty := false }
        stats := { s.stats with
          writes := s.stats.writes + 1
          dirtyBlocks := s.stats.dirtyBlocks - 1
          syncs := s.stats.syncs + 1 } }, 0) := by
  have hfault := henv s.accesses
  simp [bufferSyncInternal, writeBlock, hdev, hdirty, hfault]

section

variable (h : Rep s L flat none)
include h

/-- Writing back a buffer keeps the representation, and cleans the buffer. -/
theorem Rep.sync (henv : env.Reliable) (hi : i ∈ L.lru) (hdirty : (s.flags i).dirty = true) :
    Rep (bufferSyncInternal env s i).1 L flat none := by
  rw [bufferSyncInternal_eq henv (h.cached i hi) hdirty]
  refine h.change (i := i)
    (h.toLinked.of_same ⟨rfl, rfl, rfl, rfl, rfl, rfl⟩) (fun _ _ => by simp)
    (fun _ _ => ⟨Iff.rfl, Iff.rfl⟩) (fun j hj => by simp [update_of_ne hj])
    ⟨fun _ => .inr hi, h.cached i, fun hj => absurd hi (h.free_lru i hj),
      by simpa using h.unpinned i, by simpa using h.idle i (by simp), h.content i⟩
    (fun _ _ _ hold => hold) fun dev b hclean => ?_
  by_cases hkey : s.dev i = dev ∧ s.blockNum i = b
  · obtain ⟨rfl, rfl⟩ := hkey
    simpa using h.content i hi (by simp)
  · -- Every other block kept its copy on the device and its dirty buffers.
    have hdisk : update s.disk (s.dev i)
        (update (s.disk (s.dev i)) (s.blockNum i) (s.data i)) dev b = s.disk dev b := by
      by_cases hdev : dev = s.dev i
      · subst hdev
        have hb : b ≠ s.blockNum i := fun hb => hkey ⟨rfl, hb.symm⟩
        simp [update_of_ne hb]
      · simp [update_of_ne hdev]
    simp only [hdisk]
    refine h.backing dev b fun j hj hjd hjb => ?_
    have hji : j ≠ i := by
      rintro rfl
      exact hkey ⟨hjd, hjb⟩
    simpa [update_of_ne hji] using hclean j hj hjd hjb

/-- The write-back of a buffer, if it is dirty, leaves it clean. -/
theorem Rep.writeBack (henv : env.Reliable) (hi : i ∈ L.lru) :
    Rep (Block.writeBack env s i) L flat none ∧
      ((Block.writeBack env s i).flags i).dirty = false ∧ (Block.writeBack env s i).dev = s.dev ∧
      (Block.writeBack env s i).blockNum = s.blockNum := by
  unfold Block.writeBack
  by_cases hdirty : (s.flags i).dirty = true
  · rw [if_pos hdirty]
    refine ⟨h.sync henv hi hdirty, ?_⟩
    simp [bufferSyncInternal_eq henv (h.cached i hi) hdirty]
  · rw [if_neg hdirty]
    exact ⟨h, by simpa using hdirty, rfl, rfl⟩

/-- Taking a clean buffer off its lists and clearing its key leaves it loose. -/
theorem Rep.evict (hi : i ∈ L.lru) (hclean : (s.flags i).dirty = false) :
    (s.evict i).dev = update s.dev i 0 ∧ (s.evict i).blockNum = update s.blockNum i 0 ∧
      ∃ L', Rep (s.evict i) L' flat (some i) ∧ L'.free = L.free ∧
        ∀ j, j ∈ L'.lru ↔ j ≠ i ∧ j ∈ L.lru := by
  obtain ⟨next, head, heq, hlinked⟩ := h.toLinked.detach hi
  rw [heq] at hlinked
  unfold Cache.evict
  rw [heq]
  have hmem : ∀ j, j ∈ L.lru.erase i ↔ j ≠ i ∧ j ∈ L.lru := fun j => h.lru.nodup.mem_erase_iff
  refine ⟨rfl, rfl, { L with
    lru := L.lru.erase i
    chain := update L.chain (s.hashOf i) ((L.chain (s.hashOf i)).erase i) }, ?_, rfl, hmem⟩
  have hout : i ∉ L.lru.erase i := fun hj => ((hmem i).mp hj).1 rfl
  refine h.patch (i := i) (hlinked.congr rfl rfl rfl (fun _ _ => rfl) fun j hj => ?_)
    (fun _ _ => by simp) (fun j hj => by simp [hmem, hj]) (fun j hj => by simp [update_of_ne hj])
    ⟨fun hne => absurd rfl hne, fun hj => absurd hj hout, fun hj => absurd hi (h.free_lru i hj),
      by simp [BufFlags.none], fun hne => absurd rfl hne, fun hj => absurd hj hout⟩ rfl
    fun _ => .inl hclean
  simp [update_of_ne ((hmem j).mp hj).1]

/-- `buffer_alloc` gives a loose buffer and caches no new block. -/
theorem Rep.alloc (henv : env.Reliable) :
    ∃ s' i L', bufferAlloc env s = (s', some i) ∧ Rep s' L' flat (some i) ∧ i ∉ L'.free ∧
      i ∉ L'.lru ∧ ∀ j ∈ L'.lru, j ∈ L.lru ∧ s'.dev j = s.dev j ∧ s'.blockNum j = s.blockNum j := by
  rcases h.toLinked.bufferAlloc_cases env with ⟨i, f, hfree, hif, hil, halloc⟩ |
    ⟨hfree, ⟨hnone, -⟩ | ⟨i, hi, halloc⟩⟩
  · refine ⟨_, i, { L with free := f }, halloc, ?_, hif, hil, fun j hj => ⟨hj, rfl, rfl⟩⟩
    exact h.patch (i := i) (h.toLinked.popFree hfree) (fun _ _ => by simp)
      (fun j hj => by simp [hfree, hj]) (fun _ _ => ⟨rfl, rfl, rfl, rfl, rfl⟩)
      ⟨fun hne => absurd rfl hne, fun hj => absurd hj hil, fun hj => absurd hj hif, h.unpinned i,
        fun hne => absurd rfl hne, fun hj => absurd hj hil⟩ rfl fun hj => absurd hj hil
  · -- Nothing is free, so everything is cached, idle and evictable.
    have hmem : 0 ∈ L.lru := by simpa [hfree] using h.cover 0 (by simp)
    obtain ⟨hbusy, href⟩ := h.idle 0 (by simp)
    simpa [evictable, hbusy, href, h.unpinned 0] using hnone 0 hmem
  · obtain ⟨hrep, hclean, hdev, hnum⟩ := h.writeBack henv hi
    obtain ⟨hdev', hnum', L', hrep', hfree', hmem⟩ := hrep.evict hi hclean
    refine ⟨_, i, L', halloc, hrep', ?_, ?_, fun j hj => ?_⟩
    · simp [hfree', hfree]
    · simp [hmem]
    · obtain ⟨hji, hj⟩ := (hmem j).mp hj
      rw [hdev', hnum', hdev, hnum, update_of_ne hji, update_of_ne hji]
      exact ⟨hj, rfl, rfl⟩

/-- A buffer found in the cache is held, with its data unchanged. -/
theorem Rep.hold (hi : i ∈ L.lru) (valid : Bool) :
    (bufferHold s i valid).dev = s.dev ∧ (bufferHold s i valid).blockNum = s.blockNum ∧
      (bufferHold s i valid).data = s.data ∧ (bufferHold s i valid).refCount i = 1 ∧
      ∃ l, (∀ j, j ∈ l ↔ j ∈ L.lru) ∧
        Rep (bufferHold s i valid) { L with lru := l } flat (some i) := by
  set t : Cache := { s with
    refCount := update s.refCount i (s.refCount i + 1)
    flags := update s.flags i
      { s.flags i with busy := true, valid := (s.flags i).valid || valid } } with ht
  have hhold : bufferHold s i valid = lruTouch t i := rfl
  have hlinked : Linked t L :=
    h.toLinked.of_same ⟨rfl, rfl, rfl, rfl, rfl, rfl⟩
  obtain ⟨l, hmem, htouch⟩ := hlinked.touch hi
  -- Touching changes nothing but the LRU links.
  obtain ⟨d, hd⟩ : ∃ d, lruTouch t i = { t with lru := d } := by
    unfold lruTouch
    split_ifs
    · exact ⟨t.lru, rfl⟩
    · exact ⟨_, rfl⟩
  rw [hhold]
  rw [hd] at htouch ⊢
  refine ⟨rfl, rfl, rfl, ?_, l, hmem, ?_⟩
  · simp [ht, (h.idle i (by simp)).2]
  · exact h.patch (i := i) htouch (fun _ _ => by simp) (fun j _ => ⟨Iff.rfl, hmem j⟩)
      (fun j hj => by simp [ht, update_of_ne hj])
      ⟨fun hne => absurd rfl hne, fun _ => h.cached i hi, fun hj => absurd hi (h.free_lru i hj),
        by simpa [ht] using h.unpinned i, fun hne => absurd rfl hne, fun _ hne => absurd rfl hne⟩
      rfl fun _ => .inr ⟨(hmem i).mpr hi, rfl, rfl, by simp [ht]⟩

end

/-- The buffer `i` is held for block `b` of a device. -/
structure Holding (s : Cache) (L : Lists) (flat : Flat) (i : BufPtr) (dev : DevPtr) (b : ℕ) :
    Prop where
  rep : Rep s L flat (some i)
  mem : i ∈ L.lru
  dev : s.dev i = dev
  blockNum : s.blockNum i = b
  refCount : s.refCount i = 1

/-- A loose buffer is set up for a block. -/
def Cache.setUp (s : Cache) (i : BufPtr) (dev : DevPtr) (b : ℕ) (data : Bytes) (stats : CacheStats)
    (accesses : ℕ) : Cache :=
  { s with
    dev := update s.dev i dev
    blockNum := update s.blockNum i b
    refCount := update s.refCount i 1
    data := update s.data i data
    flags := update s.flags i { BufFlags.none with busy := true, valid := true }
    stats := stats
    accesses := accesses }

section

variable {dev : DevPtr}

/-- A loose buffer, set up for a block that is not cached and put on the lists, is held. -/
theorem Rep.attach (h : Rep s L flat (some i)) (hfree : i ∉ L.free) (hlru : i ∉ L.lru)
    (hdev : dev ≠ 0) (hkey : ∀ j ∈ L.lru, ¬ (s.dev j = dev ∧ s.blockNum j = b))
    {stats : CacheStats} {accesses : ℕ} (ht : t = s.setUp i dev b data stats accesses) :
    Holding (lruAddFront (bufferHashAdd t i) i)
      { L with
        lru := i :: L.lru
        chain := update L.chain (t.hashOf i) (i :: L.chain (t.hashOf i)) }
      flat i dev b := by
  have hself : t.dev i = dev ∧ t.blockNum i = b ∧ t.refCount i = 1 := by
    simp [ht, Cache.setUp]
  have hsame : ∀ j ≠ i, t.dev j = s.dev j ∧ t.blockNum j = s.blockNum j ∧
      t.flags j = s.flags j ∧ t.refCount j = s.refCount j ∧ t.data j = s.data j := by
    intro j hj
    simp [ht, Cache.setUp, update_of_ne hj]
  have hne : ∀ j ∈ L.lru, j ≠ i := by
    rintro j hj rfl
    exact hlru hj
  have htkey : ∀ j ∈ L.lru, t.dev j = s.dev j ∧ t.blockNum j = s.blockNum j :=
    fun j hj => ⟨(hsame j (hne j hj)).1, (hsame j (hne j hj)).2.1⟩
  have hlinked : Linked t L := by
    refine h.toLinked.congr ?_ ?_ ?_ (fun j _ => ?_) htkey <;> rw [ht] <;> rfl
  have hattach := hlinked.attach hfree hlru fun j hj hj' => by
    rw [(htkey j hj).1, (htkey j hj).2, hself.1, hself.2.1] at hj'
    exact hkey j hj hj'
  refine ⟨h.patch (i := i) hattach (fun j hj heq => hj (Option.some.inj heq).symm)
    (fun j hj => ⟨Iff.rfl, by simp [hj]⟩) hsame ?_ (by rw [ht]; rfl) fun hj => absurd hj hlru,
    List.mem_cons_self, hself.1, hself.2.1, hself.2.2⟩
  refine ⟨fun hne => absurd rfl hne, fun _ => hself.1.trans_ne hdev, fun hj => absurd hj hfree, ?_,
    fun hne => absurd rfl hne, fun _ hne => absurd rfl hne⟩
  change (t.flags i).pinned = false
  simp [ht, Cache.setUp, BufFlags.none]

/-- The counters are not part of the representation. -/
theorem Rep.setStats (h : Rep s L flat held) (stats : CacheStats) :
    Rep { s with stats := stats } L flat held :=
  { toLinked := h.toLinked.of_same ⟨rfl, rfl, rfl, rfl, rfl, rfl⟩
    cover := h.cover
    cached := h.cached
    unused := h.unused
    unpinned := h.unpinned
    idle := h.idle
    content := h.content
    backing := h.backing }

section

variable (h : Rep s L flat none) (henv : env.Reliable) (hdev : dev ≠ 0)
include h henv hdev

/-- A block that is not cached gets a buffer, and the device has its bytes. -/
theorem Rep.allocFor (hfind : bufferFind s dev b = none) :
    ∃ s₁ i, bufferAlloc env s = (s₁, some i) ∧ HoldsBlock (s₁.disk dev b) flat dev b ∧
      ∀ data stats accesses, ∃ L', Holding
        (lruAddFront (bufferHashAdd (s₁.setUp i dev b data stats accesses) i) i) L' flat i dev b := by
  obtain ⟨s₁, i, L', halloc, hrep, hfree, hlru, hkept⟩ := h.alloc henv
  have hkey : ∀ j ∈ L'.lru, ¬ (s₁.dev j = dev ∧ s₁.blockNum j = b) := by
    intro j hj hjk
    obtain ⟨hj', hjd, hjb⟩ := hkept j hj
    rw [hjd, hjb] at hjk
    exact h.toLinked.bufferFind_eq_none hfind j hj' hjk
  exact ⟨s₁, i, halloc, hrep.backing dev b fun j hj hjd hjb => absurd ⟨hjd, hjb⟩ (hkey j hj),
    fun _ _ _ => ⟨_, hrep.attach hfree hlru hdev hkey rfl⟩⟩

/-- `buffer_get` holds a buffer with the bytes of the block. -/
theorem Rep.get (b : ℕ) :
    ∃ s' i L', bufferGet env s dev b = (s', some i) ∧ Holding s' L' flat i dev b ∧
      HoldsBlock (s'.data i) flat dev b := by
  cases hfind : bufferFind s dev b with
  | some i =>
    obtain ⟨hi, rfl, rfl⟩ := h.toLinked.bufferFind_eq_some.mp hfind
    obtain ⟨hd, hn, hdata, href, l, hmem, hrep⟩ := h.hold hi false
    have hget : bufferGet env s (s.dev i) (s.blockNum i) =
        ({ bufferHold s i false with stats := { (bufferHold s i false).stats with
          hits := (bufferHold s i false).stats.hits + 1 } }, some i) := by
      simp only [bufferGet, hdev, if_false, hfind]
    refine ⟨_, i, _, hget, ⟨hrep.setStats _, ?_, ?_, ?_, href⟩, ?_⟩
    · exact (hmem i).mpr hi
    · exact congrFun hd i
    · exact congrFun hn i
    · simpa only [hdata] using h.content i hi (by simp)
  | none =>
    obtain ⟨s₁, i, halloc, hblock, hhold⟩ := (h.setStats
      { s.stats with misses := s.stats.misses + 1 }).allocFor henv hdev hfind
    obtain ⟨L', hhold⟩ := hhold (s₁.disk dev b) { s₁.stats with
      reads := s₁.stats.reads + 1
      cachedBlocks := s₁.stats.cachedBlocks + 1 } (s₁.accesses + 1)
    refine ⟨_, i, L', ?_, hhold, ?_⟩
    · have hfault := henv s₁.accesses
      simp [bufferGet, hdev, hfind, halloc, readBlock, hfault, Cache.setUp]
    · simpa [Cache.setUp, lruAddFront, bufferHashAdd] using hblock

/-- `buffer_get_new` holds a buffer for the block, with any bytes. -/
theorem Rep.getNew (b : ℕ) :
    ∃ s' i L', bufferGetNew env s dev b = (s', some i) ∧ Holding s' L' flat i dev b := by
  cases hfind : bufferFind s dev b with
  | some i =>
    obtain ⟨hi, rfl, rfl⟩ := h.toLinked.bufferFind_eq_some.mp hfind
    obtain ⟨hd, hn, hdata, href, l, hmem, hrep⟩ := h.hold hi true
    have hget : bufferGetNew env s (s.dev i) (s.blockNum i) = (bufferHold s i true, some i) := by
      simp only [bufferGetNew, hdev, if_false, hfind]
    exact ⟨_, i, _, hget, hrep, (hmem i).mpr hi, congrFun hd i, congrFun hn i, href⟩
  | none =>
    obtain ⟨s₁, i, halloc, -, hhold⟩ := h.allocFor henv hdev hfind
    obtain ⟨L', hhold⟩ := hhold (s₁.data i)
      { s₁.stats with cachedBlocks := s₁.stats.cachedBlocks + 1 } s₁.accesses
    refine ⟨_, i, L', ?_, hhold⟩
    simp [bufferGetNew, hdev, hfind, halloc, Cache.setUp]

end

/-- Releasing a held buffer whose bytes are right. -/
theorem Holding.release (h : Holding s L flat i dev b)
    (hdata : HoldsBlock (s.data i) flat dev b) : Rep (bufferRelease s i) L flat none := by
  refine h.rep.patch (i := i)
    (h.rep.toLinked.of_same ⟨rfl, rfl, rfl, rfl, rfl, rfl⟩)
    (fun j hj heq => hj (Option.some.inj heq).symm) (fun _ _ => ⟨Iff.rfl, Iff.rfl⟩)
    (fun j hj => by simp [bufferRelease, update_of_ne hj]) ?_ rfl
    fun _ => .inr ⟨h.mem, rfl, rfl, by simp [bufferRelease]⟩
  refine ⟨fun _ => .inr h.mem, h.rep.cached i, fun hj => absurd h.mem (h.rep.free_lru i hj), ?_, ?_,
    fun _ _ => ?_⟩
  · simpa [bufferRelease] using h.rep.unpinned i
  · simp [bufferRelease, h.refCount]
  · change HoldsBlock (s.data i) flat (s.dev i) (s.blockNum i)
    rw [h.dev, h.blockNum]
    exact hdata

/-- Marking a buffer dirty changes its dirty flag only. -/
theorem bufferMarkDirty_eq (s : Cache) (i : BufPtr) :
    ∃ flags stats, bufferMarkDirty s i = { s with flags := flags, stats := stats } ∧
      flags i = { s.flags i with dirty := true } ∧ ∀ j ≠ i, flags j = s.flags j := by
  unfold bufferMarkDirty
  split_ifs with hdirty
  · refine ⟨s.flags, s.stats, rfl, ?_, fun _ _ => rfl⟩
    rw [← hdirty]
  · exact ⟨_, _, rfl, by simp, fun j hj => by simp [update_of_ne hj]⟩

/-- Storing bytes in a held buffer and marking it dirty changes the array at its block. -/
theorem Holding.store (h : Holding s L flat i dev b) {d : Bytes}
    (hd : HoldsBlock d flat' dev b) (hother : ∀ dev' b', ¬ (dev' = dev ∧ b' = b) → ∀ k < blockSize,
      flat' dev' (b' * blockSize + k) = flat dev' (b' * blockSize + k)) :
    Rep (bufferRelease (bufferMarkDirty { s with data := update s.data i d } i) i) L flat'
      none := by
  obtain ⟨flags, stats, heq, hflagi, hflag⟩ :=
    bufferMarkDirty_eq { s with data := update s.data i d } i
  rw [heq]
  -- Other blocks are the same in both arrays.
  have htransfer : ∀ {data : Bytes} {dev' : DevPtr} {b' : ℕ}, ¬ (dev' = dev ∧ b' = b) →
      HoldsBlock data flat dev' b' → HoldsBlock data flat' dev' b' := by
    intro data dev' b' hne hdata k hk
    rw [hdata k hk, hother dev' b' hne k hk]
  suffices hrep : Rep _ L flat' (some i) from
    release ⟨hrep, h.mem, h.dev, h.blockNum, h.refCount⟩ (by simpa using hd)
  have hkey : ∀ j ∈ L.lru, j ≠ i → ¬ (s.dev j = dev ∧ s.blockNum j = b) := by
    rintro j hj hji ⟨hjd, hjb⟩
    exact hji (h.rep.key j hj i h.mem (hjd.trans h.dev.symm) (hjb.trans h.blockNum.symm))
  refine h.rep.change (i := i)
    (h.rep.toLinked.of_same ⟨rfl, rfl, rfl, rfl, rfl, rfl⟩)
    (fun j hj heq => hj (Option.some.inj heq).symm) (fun _ _ => ⟨Iff.rfl, Iff.rfl⟩)
    (fun j hj => ⟨rfl, rfl, hflag j hj, rfl, update_of_ne hj _ _⟩)
    ⟨fun hne => absurd rfl hne, h.rep.cached i, fun hj => absurd h.mem (h.rep.free_lru i hj), ?_,
      fun hne => absurd rfl hne, fun _ hne => absurd rfl hne⟩
    (fun j hj hji => htransfer (hkey j hj hji)) fun d' c hclean => ?_
  · change (flags i).pinned = false
    rw [hflagi]
    exact h.rep.unpinned i
  · -- The held buffer is dirty, so its block is not asked for.
    have hne : ¬ (d' = dev ∧ c = b) := by
      rintro ⟨rfl, rfl⟩
      have := hclean i h.mem h.dev h.blockNum
      simp [hflagi] at this
    refine htransfer hne (h.rep.backing d' c fun j hj hjd hjc => ?_)
    have hji : j ≠ i := by
      rintro rfl
      exact hne ⟨hjd.symm.trans h.dev, hjc.symm.trans h.blockNum⟩
    have := hclean j hj hjd hjc
    change (flags j).dirty = false at this
    rwa [hflag j hji] at this

/-- The bytes of a request that lie on the device. -/
def Devices.inRange (env : Devices) (dev : DevPtr) (offset n : ℕ) : ℕ :=
  min n (env.totalBlocks dev * blockSize - offset)

@[simp] theorem Devices.inRange_zero (env : Devices) (dev : DevPtr) (offset : ℕ) :
    env.inRange dev offset 0 = 0 := Nat.zero_min _

/-- Nothing lies behind the last block. -/
theorem Devices.inRange_of_le (hend : env.totalBlocks dev ≤ b) (off n : ℕ) :
    env.inRange dev (b * blockSize + off) n = 0 := by
  simp only [inRange, blockSize]
  omega

/-- A request is what it takes from its first block and a request from the next block. -/
theorem Devices.inRange_succ (hb : ¬ env.totalBlocks dev ≤ b)
    (hoff : off < blockSize) (n : ℕ) :
    env.inRange dev (b * blockSize + off) n =
      min (blockSize - off) n +
        env.inRange dev ((b + 1) * blockSize + 0) (n - min (blockSize - off) n) := by
  simp only [inRange, blockSize] at hoff ⊢
  omega

/-- The range after the first block starts at the next block, unless it is empty. -/
theorem Devices.inRange_rest (env : Devices) (dev : DevPtr) (b n : ℕ) (hoff : off < blockSize) :
    env.inRange dev ((b + 1) * blockSize + 0) (n - min (blockSize - off) n) = 0 ∨
      (b + 1) * blockSize + 0 = b * blockSize + off + min (blockSize - off) n := by
  by_cases hfull : blockSize - off ≤ n
  · right
    rw [Nat.min_eq_left hfull]
    simp only [blockSize] at hoff ⊢
    omega
  · left
    rw [Nat.min_eq_right (by omega), Nat.sub_self, inRange_zero]

/-- The loop of `block_read` appends the bytes of the array that lie on the device. -/
theorem Rep.readLoop (henv : env.Reliable) (hdev : dev ≠ 0) (dst : List UInt8)
    (b : ℕ) (h : Rep s L flat none) (hoff : off < blockSize) (hfuel : size ≤ dst.length + fuel) :
    ∃ s' L', blockReadLoop env dev size fuel s b off dst =
        (s', ((dst.length + env.inRange dev (b * blockSize + off) (size - dst.length) : ℕ) : ℤ),
          dst ++ (flat dev).slice (b * blockSize + off)
            (env.inRange dev (b * blockSize + off) (size - dst.length))) ∧
      Rep s' L' flat none := by
  induction fuel generalizing s L dst b off with
  | zero =>
    have hn : size - dst.length = 0 := by omega
    exact ⟨s, L, by simp [blockReadLoop, hn], h⟩
  | succ fuel ih =>
    rw [blockReadLoop]
    by_cases hdone : size ≤ dst.length
    · have hn : size - dst.length = 0 := by omega
      exact ⟨s, L, by simp [hdone, hn], h⟩
    rw [if_neg hdone]
    by_cases hend : env.totalBlocks dev ≤ b
    · exact ⟨s, L, by simp [hend, Devices.inRange_of_le hend], h⟩
    rw [if_neg hend]
    obtain ⟨s₁, i, L₁, hget, hhold, hdata⟩ := h.get henv hdev b
    have hrep := hhold.release hdata
    simp only [hget]
    set m := size - dst.length with hm
    set toCopy := min (blockSize - off) m with htc
    have hslice : (s₁.data i).slice off toCopy = (flat dev).slice (b * blockSize + off) toCopy := by
      apply Bytes.slice_congr
      intro k hk
      rw [hdata (off + k) (by omega), Nat.add_assoc]
    have hlen : (dst ++ (flat dev).slice (b * blockSize + off) toCopy).length =
        dst.length + toCopy := by simp
    rw [hslice]
    obtain ⟨s', L', hloop, hrep'⟩ :=
      ih (dst ++ (flat dev).slice (b * blockSize + off) toCopy) (b + 1) hrep (Nat.succ_pos _)
        (by rw [hlen]; omega)
    refine ⟨s', L', ?_, hrep'⟩
    have hleft : size - (dst.length + toCopy) = m - toCopy := by omega
    rw [hloop, hlen, hleft, List.append_assoc]
    -- The rest of the request starts at the next block.
    have hrest : (flat dev).slice ((b + 1) * blockSize + 0)
          (env.inRange dev ((b + 1) * blockSize + 0) (m - toCopy)) =
        (flat dev).slice (b * blockSize + off + toCopy)
          (env.inRange dev ((b + 1) * blockSize + 0) (m - toCopy)) := by
      rcases Devices.inRange_rest env dev b m hoff with h0 | heq
      · rw [htc, h0, Bytes.slice_zero, Bytes.slice_zero]
      · rw [heq]
    rw [hrest, Bytes.slice_append, ← Devices.inRange_succ hend hoff, Nat.add_assoc,
      ← Devices.inRange_succ hend hoff]

/-- Copying into one block of a device changes its range of the array. -/
theorem holdsBlock_copyIn (src : Bytes) (done : ℕ) (hn : off + n ≤ blockSize)
    (hdata : HoldsBlock data flat dev b ∨ off = 0 ∧ n = blockSize) :
    HoldsBlock (data.copyIn off n src done)
      (update flat dev ((flat dev).copyIn (b * blockSize + off) n src done)) dev b := by
  intro k hk
  rw [update_self]
  by_cases hin : off ≤ k ∧ k < off + n
  · rw [Bytes.copyIn_of_mem hin.1 hin.2, Bytes.copyIn_of_mem (by omega) (by omega)]
    congr 1
    omega
  · have hold : HoldsBlock data flat dev b := by
      rcases hdata with h | ⟨rfl, rfl⟩
      · exact h
      · omega
    by_cases hlow : k < off
    · rw [Bytes.copyIn_of_lt hlow, Bytes.copyIn_of_lt (by omega), hold k hk]
    · rw [Bytes.copyIn_of_le (by omega), Bytes.copyIn_of_le (by omega), hold k hk]

/-- Copying into one block of a device leaves every other block alone. -/
theorem copyIn_other {dev dev' : DevPtr} {b' : ℕ} {src : Bytes} (hn : off + n ≤ blockSize)
    (hne : ¬ (dev' = dev ∧ b' = b)) {k : ℕ} (hk : k < blockSize) :
    update flat dev ((flat dev).copyIn (b * blockSize + off) n src done) dev'
        (b' * blockSize + k) = flat dev' (b' * blockSize + k) := by
  by_cases hdev : dev' = dev
  · subst hdev
    rw [update_self]
    have hb : b' ≠ b := fun heq => hne ⟨rfl, heq⟩
    simp only [blockSize] at hn hk ⊢
    rcases Nat.lt_or_gt_of_ne hb with hb | hb
    · exact Bytes.copyIn_of_lt (by omega)
    · exact Bytes.copyIn_of_le (by omega)
  · rw [update_of_ne hdev]

section

variable (henv : env.Reliable) (h : Rep s L flat none)
include henv h

/-- The loop of `block_write` copies the bytes that lie on the device into the array. -/
theorem Rep.writeLoop (hdev : dev ≠ 0) (src : Bytes) (b : ℕ) (hoff : off < blockSize)
    (hfuel : size ≤ done + fuel) :
    ∃ s' L', blockWriteLoop env dev src size fuel s b off done =
        (s', ((done + env.inRange dev (b * blockSize + off) (size - done) : ℕ) : ℤ)) ∧
      Rep s' L' (update flat dev ((flat dev).copyIn (b * blockSize + off)
        (env.inRange dev (b * blockSize + off) (size - done)) src done)) none := by
  induction fuel generalizing s L flat b off done with
  | zero =>
    have hn : size - done = 0 := by omega
    exact ⟨s, L, by simp [blockWriteLoop, hn], by simpa [hn] using h⟩
  | succ fuel ih =>
    rw [blockWriteLoop]
    by_cases hdone : size ≤ done
    · have hn : size - done = 0 := by omega
      exact ⟨s, L, by simp [hdone, hn], by simpa [hn] using h⟩
    rw [if_neg hdone]
    by_cases hend : env.totalBlocks dev ≤ b
    · exact ⟨s, L, by simp [hend, Devices.inRange_of_le hend],
        by simpa [Devices.inRange_of_le hend] using h⟩
    rw [if_neg hend]
    set m := size - done with hm
    set toCopy := min (blockSize - off) m with htc
    have htc_le : off + toCopy ≤ blockSize := by omega
    -- Either way of getting the buffer, what is copied gives the right block.
    obtain ⟨s₁, i, L₁, hget, hhold, hdata⟩ : ∃ s₁ i L₁,
        bufferForWrite env s dev b off m = (s₁, some i) ∧ Holding s₁ L₁ flat i dev b ∧
        (HoldsBlock (s₁.data i) flat dev b ∨ off = 0 ∧ toCopy = blockSize) := by
      by_cases hfull : off = 0 ∧ blockSize ≤ m
      · obtain ⟨s₁, i, L₁, hget, hhold⟩ := h.getNew henv hdev b
        refine ⟨s₁, i, L₁, by rw [bufferForWrite, if_pos hfull, hget], hhold, .inr ⟨hfull.1, ?_⟩⟩
        rw [htc, hfull.1, Nat.sub_zero, Nat.min_eq_left hfull.2]
      · obtain ⟨s₁, i, L₁, hget, hhold, hdata⟩ := h.get henv hdev b
        exact ⟨s₁, i, L₁, by rw [bufferForWrite, if_neg hfull, hget], hhold, .inl hdata⟩
    simp only [hget]
    have hrep := hhold.store (holdsBlock_copyIn src done htc_le hdata)
      fun dev' b' hne k hk => copyIn_other htc_le hne hk
    obtain ⟨s', L', hloop, hrep'⟩ := ih hrep (b + 1) (Nat.succ_pos _)
      (show size ≤ done + toCopy + fuel by omega)
    have hleft : size - (done + toCopy) = m - toCopy := by omega
    refine ⟨s', L', ?_, ?_⟩
    · rw [hloop, hleft, Nat.add_assoc, ← Devices.inRange_succ hend hoff]
    · rw [hleft, update_self, update_idem] at hrep'
      rw [Devices.inRange_succ hend hoff, ← Bytes.copyIn_copyIn]
      rcases Devices.inRange_rest env dev b m hoff with h0 | heq
      · rw [h0, Bytes.copyIn_zero] at hrep' ⊢
        exact hrep'
      · rw [← heq]
        exact hrep'

/-- `block_read` returns the bytes of the array. -/
theorem Rep.blockRead (hdev : dev ≠ 0) (offset : ℕ) (hsize : size ≠ 0) :
    ∃ s' L', Block.blockRead env s dev offset size =
        (s', ((env.inRange dev offset size : ℕ) : ℤ),
          (flat dev).slice offset (env.inRange dev offset size)) ∧ Rep s' L' flat none := by
  obtain ⟨s', L', hloop, hrep⟩ := readLoop henv hdev [] (offset / blockSize) h
    (Nat.mod_lt offset (Nat.succ_pos _)) (Nat.le_add_left size 0)
  rw [Nat.div_add_mod'] at hloop
  exact ⟨s', L', by simpa [Block.blockRead, hdev, hsize] using hloop, hrep⟩

/-- `block_write` replaces the bytes of the array. -/
theorem Rep.blockWrite (hdev : dev ≠ 0) (offset : ℕ) (src : Bytes) (hsize : size ≠ 0) :
    ∃ s' L', Block.blockWrite env s dev offset src size =
        (s', ((env.inRange dev offset size : ℕ) : ℤ)) ∧
      Rep s' L' (update flat dev
        ((flat dev).copyIn offset (env.inRange dev offset size) src 0)) none := by
  obtain ⟨s', L', hloop, hrep⟩ := h.writeLoop henv hdev src (offset / blockSize)
    (Nat.mod_lt offset (Nat.succ_pos _)) (Nat.le_add_left size 0)
  rw [Nat.div_add_mod'] at hloop hrep
  exact ⟨s', L', by simpa [Block.blockWrite, hdev, hsize] using hloop, by simpa using hrep⟩

/-- One turn of `buffer_sync_all` keeps the representation, counts no error, and leaves
only its own buffer possibly cleaner. -/
theorem Rep.syncAllStep (dev : DevPtr) (n : ℕ) (i : BufPtr) :
    ∃ s', Block.syncAllStep env dev (s, n) i = (s', n) ∧ Rep s' L flat none ∧ s'.dev = s.dev ∧
      (s.dev i = dev → (s'.flags i).dirty = false) ∧
      ∀ j, (s.flags j).dirty = false → (s'.flags j).dirty = false := by
  unfold Block.syncAllStep
  by_cases hcase : (s.flags i).dirty = true ∧ (dev = 0 ∨ s.dev i = dev)
  · have hi : i ∈ L.lru := by
      rcases h.cover i (by simp) with hf | hl
      · simp [(h.unused i hf).2] at hcase
      · exact hl
    have hrep := h.sync henv hi hcase.1
    have heq := bufferSyncInternal_eq henv (h.cached i hi) hcase.1
    refine ⟨(bufferSyncInternal env s i).1, ?_, hrep, ?_, ?_, ?_⟩
    · rw [if_pos hcase]
      simp [heq]
    · simp [heq]
    · simp [heq]
    · intro j hj
      by_cases hji : j = i
      · subst hji
        simp [heq]
      · simp [heq, update_of_ne hji, hj]
  · refine ⟨s, by rw [if_neg hcase], h, rfl, fun hdev => ?_, fun _ hj => hj⟩
    by_contra hdirty
    exact hcase ⟨by simpa using hdirty, .inr hdev⟩

/-- The loop of `buffer_sync_all` over a list of buffers. -/
theorem Rep.syncAllLoop (dev : DevPtr) (n : ℕ) (l : List BufPtr) :
    ∃ s', l.foldl (Block.syncAllStep env dev) (s, n) = (s', n) ∧ Rep s' L flat none ∧
      s'.dev = s.dev ∧ (∀ i ∈ l, s.dev i = dev → (s'.flags i).dirty = false) ∧
      ∀ j, (s.flags j).dirty = false → (s'.flags j).dirty = false := by
  induction l generalizing s with
  | nil => exact ⟨s, rfl, h, rfl, by simp, fun _ hj => hj⟩
  | cons i l ih =>
    obtain ⟨s₁, hstep, hrep, hdev, hclean, hkeep⟩ := h.syncAllStep henv dev n i
    obtain ⟨s', hloop, hrep', hdev', hclean', hkeep'⟩ := ih hrep
    refine ⟨s', by rw [List.foldl_cons, hstep, hloop], hrep', hdev'.trans hdev, ?_,
      fun j hj => hkeep' j (hkeep j hj)⟩
    intro j hj hjd
    rcases List.mem_cons.mp hj with rfl | hj
    · exact hkeep' j (hclean hjd)
    · exact hclean' j hj (by rw [hdev, hjd])

/-- `buffer_sync_all` keeps the arrays and brings the blocks of the device up to date. -/
theorem Rep.syncAll (dev : DevPtr) :
    ∃ s', bufferSyncAll env s dev = (s', 0) ∧ Rep s' L flat none ∧
      ∀ b, HoldsBlock (s'.disk dev b) flat dev b := by
  obtain ⟨s', hloop, hrep, hdev, hclean, _⟩ :=
    h.syncAllLoop henv dev 0 (List.finRange bufferCacheSize)
  refine ⟨s', by simp [bufferSyncAll, hloop], hrep, fun b => ?_⟩
  refine hrep.backing dev b fun i _ hid _ => hclean i (List.mem_finRange i) ?_
  rwa [← hdev]

end

/-- A loose buffer without a device goes back to the free list. -/
theorem Rep.pushFree (h : Rep s L flat (some i)) (hfree : i ∉ L.free) (hlru : i ∉ L.lru)
    (hdev : s.dev i = 0) (hflags : s.flags i = .none) :
    Rep (s.giveBack i) { L with free := i :: L.free } flat none := by
  unfold Cache.giveBack
  refine h.patch (i := i)
    ((h.toLinked.pushFree hfree hlru).of_same ⟨rfl, rfl, rfl, rfl, rfl, rfl⟩)
    (fun j hj heq => hj (Option.some.inj heq).symm)
    (fun j hj => ⟨by simp [hj], Iff.rfl⟩) (fun j hj => by simp [update_of_ne hj])
    ⟨fun _ => .inl List.mem_cons_self, h.cached i, fun _ => ⟨hdev, by rw [hflags]; rfl⟩,
      h.unpinned i, fun _ => by simp [hflags, BufFlags.none], fun hj => absurd hj hlru⟩ rfl
    fun hj => absurd hj hlru

/-- One turn of `buffer_invalidate` keeps the representation. -/
theorem Rep.invalidateStep (h : Rep s L flat none) (henv : env.Reliable)
    (hdev : dev ≠ 0) (i : BufPtr) :
    ∃ L', Rep (Block.invalidateStep env dev s i) L' flat none := by
  by_cases hi : s.dev i = dev
  · have hmem : i ∈ L.lru := by
      rcases h.cover i (by simp) with hf | hl
      · exact absurd ((h.unused i hf).1.symm.trans hi).symm hdev
      · exact hl
    rw [← hi, h.toLinked.invalidateStep_eq env hmem]
    obtain ⟨hrep, hclean, -, -⟩ := h.writeBack henv hmem
    obtain ⟨hdev', -, L', hrep', hfree', hmem'⟩ := hrep.evict hmem hclean
    refine ⟨_, hrep'.pushFree ?_ ?_ ?_ ?_⟩
    · rw [hfree']
      exact fun hf => h.free_lru i hf hmem
    · simp [hmem']
    · rw [hdev', update_self]
    · simp [Cache.evict]
  · rw [Block.invalidateStep, if_neg hi]
    exact ⟨L, h⟩

/-- `buffer_invalidate` of a device keeps the arrays. -/
theorem Rep.invalidate (h : Rep s L flat none) (henv : env.Reliable)
    (hdev : dev ≠ 0) : ∃ L', Rep (bufferInvalidate env s dev) L' flat none := by
  unfold bufferInvalidate
  generalize List.finRange bufferCacheSize = l
  induction l generalizing s L with
  | nil => exact ⟨L, h⟩
  | cons i l ih =>
    obtain ⟨L', hrep⟩ := h.invalidateStep henv hdev i
    exact ih hrep

/-- The contents of the devices as arrays of bytes. -/
def flatOf (disk : DevPtr → ℕ → Bytes) : Flat := fun dev n => disk dev (n / blockSize) (n % blockSize)

end

/-- After `buffer_cache_init` the cache represents the contents of the devices. -/
theorem rep_bufferCacheInit (data : BufPtr → Bytes) (disk : DevPtr → ℕ → Bytes) :
    Rep (bufferCacheInit data disk) ⟨List.finRange bufferCacheSize, [], fun _ => []⟩
      (flatOf disk) none where
  free := by
    change IsList (fun i : BufPtr => if h : i.val + 1 < bufferCacheSize then some ⟨i.val + 1, h⟩
      else none) (some 0) _
    decide
  chain _ := rfl
  lru := ⟨rfl, rfl⟩
  mem_chain _ _ := by simp
  free_lru _ _ := by simp
  key _ hi := by simp at hi
  cover i _ := .inl (List.mem_finRange i)
  cached _ hi := by simp at hi
  unused _ _ := ⟨rfl, rfl⟩
  unpinned _ := rfl
  idle _ _ := ⟨rfl, rfl⟩
  content _ hi := by simp at hi
  backing dev b _ := by
    intro k hk
    have hdiv : (b * blockSize + k) / blockSize = b := by
      simp only [blockSize] at hk ⊢
      omega
    have hmod : (b * blockSize + k) % blockSize = k := by
      simp only [blockSize] at hk ⊢
      omega
    simp [flatOf, bufferCacheInit, hdiv, hmod]

/-- The calls of the block layer. -/
inductive CacheOp where
  | read (dev : DevPtr) (offset size : ℕ)
  | write (dev : DevPtr) (offset : ℕ) (src : List UInt8)
  | syncAll (dev : DevPtr)
  | invalidate (dev : DevPtr)
  deriving DecidableEq

/-- The device of a call. -/
def CacheOp.dev : CacheOp → DevPtr
  | read dev _ _ => dev
  | write dev _ _ => dev
  | syncAll dev => dev
  | invalidate dev => dev

/-- A caller's buffer as bytes by offset. -/
def bufferBytes (src : List UInt8) : Bytes := fun k => src.getD k 0

/-- A call on the cache, with its result and the bytes it stores for the caller. -/
def Cache.step (env : Devices) (s : Cache) : CacheOp → Cache × ℤ × List UInt8
  | .read dev offset size => blockRead env s dev offset size
  | .write dev offset src =>
    let r := blockWrite env s dev offset (bufferBytes src) src.length
    (r.1, r.2, [])
  | .syncAll dev =>
    let r := bufferSyncAll env s dev
    (r.1, r.2, [])
  | .invalidate dev => (bufferInvalidate env s dev, 0, [])

/-- The same call on plain arrays: a read returns the bytes of its range that lie on the
device, a write replaces them, and the rest does nothing. Empty requests are refused. -/
def Flat.step (env : Devices) (flat : Flat) : CacheOp → Flat × ℤ × List UInt8
  | .read dev offset size =>
    if size = 0 then (flat, -1, [])
    else
      let n := env.inRange dev offset size
      (flat, n, (flat dev).slice offset n)
  | .write dev offset src =>
    if src.length = 0 then (flat, -1, [])
    else
      let n := env.inRange dev offset src.length
      (update flat dev ((flat dev).copyIn offset n (bufferBytes src) 0), n, [])
  | .syncAll _ => (flat, 0, [])
  | .invalidate _ => (flat, 0, [])

/-- The cache represents the arrays and no buffer is in use. -/
def Represents (s : Cache) (flat : Flat) : Prop := ∃ L, Rep s L flat none

/-- One call answers as the arrays do and keeps representing them. Only `buffer_sync_all` takes the
null device, for all devices. -/
theorem Represents.step (henv : env.Reliable) (op : CacheOp) (h : Represents s flat)
    (hop : op.dev ≠ 0 ∨ op = .syncAll 0) :
    Represents (s.step env op).1 (flat.step env op).1 ∧
      (s.step env op).2 = (flat.step env op).2 := by
  obtain ⟨L, h⟩ := h
  cases op with
  | read dev offset size =>
    replace hop : dev ≠ 0 := hop.resolve_right (by simp)
    by_cases hsize : size = 0
    · simp only [Cache.step, Flat.step, Block.blockRead, hsize, or_true, if_true]
      exact ⟨⟨L, h⟩, trivial⟩
    obtain ⟨s', L', hread, hrep⟩ := h.blockRead henv hop offset hsize
    simp only [Cache.step, Flat.step, hread, hsize, if_false]
    exact ⟨⟨L', hrep⟩, trivial⟩
  | write dev offset src =>
    replace hop : dev ≠ 0 := hop.resolve_right (by simp)
    by_cases hsize : src.length = 0
    · simp only [Cache.step, Flat.step, Block.blockWrite, hsize, or_true, if_true]
      exact ⟨⟨L, h⟩, trivial⟩
    obtain ⟨s', L', hwrite, hrep⟩ := h.blockWrite henv hop offset (bufferBytes src) hsize
    simp only [Cache.step, Flat.step, hwrite, hsize, if_false]
    exact ⟨⟨L', hrep⟩, trivial⟩
  | syncAll dev =>
    obtain ⟨s', hsync, hrep, _⟩ := h.syncAll henv dev
    simp only [Cache.step, Flat.step, hsync]
    exact ⟨⟨L, hrep⟩, trivial⟩
  | invalidate dev =>
    replace hop : dev ≠ 0 := hop.resolve_right (by simp)
    obtain ⟨L', hrep⟩ := h.invalidate henv hop
    simp only [Cache.step, Flat.step]
    exact ⟨⟨L', hrep⟩, trivial⟩

/-- The cache refines the arrays. From `buffer_cache_init` on, with devices that never
fail, every sequence of calls returns what the arrays return, and a `buffer_sync_all` at
any point leaves the blocks of its device equal to its array. -/
theorem cache_refines_flat (env : Devices) (henv : env.Reliable) (data : BufPtr → Bytes)
    (disk : DevPtr → ℕ → Bytes) (ops : List CacheOp)
    (hops : ∀ op ∈ ops, op.dev ≠ 0 ∨ op = .syncAll 0) :
    (trace (Cache.step env) (bufferCacheInit data disk) ops).2 =
        (trace (Flat.step env) (flatOf disk) ops).2 ∧
      ∀ dev b k, k < blockSize →
        (trace (Cache.step env) (bufferCacheInit data disk) (ops ++ [.syncAll dev])).1.disk dev b k =
          (trace (Flat.step env) (flatOf disk) ops).1 dev (b * blockSize + k) := by
  have hinit : Represents (bufferCacheInit data disk) (flatOf disk) :=
    ⟨_, rep_bufferCacheInit data disk⟩
  obtain ⟨⟨L, hrep⟩, hout⟩ := trace_simulation
    (p := fun op : CacheOp => op.dev ≠ 0 ∨ op = .syncAll 0)
    (fun s flat op hs hop => Represents.step henv op hs hop) hinit hops
  refine ⟨hout, fun dev b k hk => ?_⟩
  obtain ⟨s', hsync, _, hdisk⟩ := hrep.syncAll henv dev
  rw [trace_append_fst]
  simp only [Cache.step, hsync]
  exact hdisk b k hk

/-- Two devices of three blocks each. -/
def twoDevices : Devices where
  totalBlocks := fun _ => 3
  fault := fun _ => false

/-- A write across a block boundary is read back from the device it went to. -/
theorem cache_refines_flat_boundary :
    (trace (Cache.step twoDevices) (bufferCacheInit (fun _ _ => 7) fun _ _ _ => 0)
      [.write 1 4094 [1, 2, 3, 4], .syncAll 0, .invalidate 1, .read 1 4093 6, .read 2 4093 2]).2 =
      [(4, []), (0, []), (0, []), (6, [0, 1, 2, 3, 4, 0]), (2, [0, 0])] := by
  rw [(cache_refines_flat twoDevices (fun _ => rfl) (fun _ _ => 7) (fun _ _ _ => 0) _
    (by decide)).1]
  decide

end Tomahawk.Block
