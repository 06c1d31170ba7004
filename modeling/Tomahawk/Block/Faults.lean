import Tomahawk.Block.Refinement

/-!
# The lists of the cache when devices fail

A failed read puts its buffer back on the free list, a failed write leaves a buffer dirty,
and an eviction drops a block that it could not write. The lists survive all of this, but a
buffer freed by a failed read keeps the device it was meant for. `buffer_invalidate` goes by
that field and puts the buffer on the free list again.
-/

namespace Tomahawk.Block

open Function Tomahawk.Lib

/-- Every buffer is free, or in the chain of its block and on the LRU list. -/
def Cache.Structured (s : Cache) : Prop :=
  ∃ L, Linked s L ∧ ∀ i, i ∈ L.free ∨ i ∈ L.lru

variable {s t : Cache} {L : Lists} {i : BufPtr} {dev : DevPtr} {b : ℕ}

theorem Cache.Structured.of_same (h : s.Structured) (hsame : SameLinks s t) : t.Structured := by
  obtain ⟨L, hlinked, hcover⟩ := h
  exact ⟨L, hlinked.of_same hsame, hcover⟩

theorem sameLinks_markDirty (s : Cache) (i : BufPtr) : SameLinks s (bufferMarkDirty s i) := by
  unfold bufferMarkDirty
  split_ifs <;> exact ⟨rfl, rfl, rfl, rfl, rfl, rfl⟩

/-- The buffer `i` is on no list, and every other one is on its lists. -/
structure Loose (s : Cache) (L : Lists) (i : BufPtr) : Prop where
  linked : Linked s L
  not_free : i ∉ L.free
  not_lru : i ∉ L.lru
  cover : ∀ j ≠ i, j ∈ L.free ∨ j ∈ L.lru

/-- What the loose buffer holds does not matter. -/
theorem Loose.congr (h : Loose s L i) (hhash : t.bufferHash = s.bufferHash)
    (hfree : t.freeBuffers = s.freeBuffers) (hlru : t.lru = s.lru)
    (hnext : t.hashNext = s.hashNext)
    (hkey : ∀ j ≠ i, t.dev j = s.dev j ∧ t.blockNum j = s.blockNum j) : Loose t L i := by
  have hkept : ∀ j ∈ L.lru, t.dev j = s.dev j ∧ t.blockNum j = s.blockNum j := by
    intro j hj
    refine hkey j ?_
    rintro rfl
    exact h.not_lru hj
  exact ⟨h.linked.congr hhash hfree hlru (fun _ _ => by rw [hnext]) hkept, h.not_free,
    h.not_lru, h.cover⟩

/-- A loose buffer goes back to the free list, whatever its fields are set to. -/
theorem Loose.pushFree (h : Loose s L i) (hhash : t.bufferHash = s.bufferHash)
    (hfree : t.freeBuffers = some i) (hlru : t.lru = s.lru)
    (hnext : t.hashNext = update s.hashNext i s.freeBuffers)
    (hkey : ∀ j ≠ i, t.dev j = s.dev j ∧ t.blockNum j = s.blockNum j) :
    Linked t { L with free := i :: L.free } := by
  refine (h.linked.pushFree h.not_free h.not_lru).congr hhash hfree hlru
    (fun _ _ => by rw [hnext]) fun j hj => hkey j ?_
  rintro rfl
  exact h.not_lru hj

theorem Loose.cover_pushFree (h : Loose s L i) (j : BufPtr) : j ∈ i :: L.free ∨ j ∈ L.lru := by
  by_cases hji : j = i
  · exact .inl (by simp [hji])
  · exact (h.cover j hji).imp_left (List.mem_cons_of_mem _)

/-- A loose buffer is put on the lists of its block, which no buffer holds. -/
theorem Loose.attach (h : Loose s L i)
    (hkey : ∀ j ∈ L.lru, ¬ (s.dev j = s.dev i ∧ s.blockNum j = s.blockNum i)) :
    (lruAddFront (bufferHashAdd s i) i).Structured := by
  refine ⟨_, h.linked.attach h.not_free h.not_lru hkey, fun j => ?_⟩
  by_cases hji : j = i
  · exact .inr (by simp [hji])
  · exact (h.cover j hji).imp_right (List.mem_cons_of_mem _)

/-- Taking a cached buffer off its lists leaves it loose, and keeps the other buffers. -/
theorem Linked.evict (h : Linked s L) (hcover : ∀ j, j ∈ L.free ∨ j ∈ L.lru) (hi : i ∈ L.lru) :
    ∃ L', Loose (s.evict i) L' i ∧ (∀ j, j ∈ L'.lru ↔ j ≠ i ∧ j ∈ L.lru) ∧
      ∀ j ≠ i, (s.evict i).dev j = s.dev j ∧ (s.evict i).blockNum j = s.blockNum j := by
  obtain ⟨next, head, heq, hlinked⟩ := h.detach hi
  rw [heq] at hlinked
  unfold Cache.evict
  rw [heq]
  have hmem : ∀ j, j ∈ L.lru.erase i ↔ j ≠ i ∧ j ∈ L.lru := fun j => h.lru.nodup.mem_erase_iff
  have hloose : Loose _ _ i := ⟨hlinked, fun hf => h.free_lru i hf hi, by simp [hmem],
    fun j hji => (hcover j).imp_right fun hj => (hmem j).mpr ⟨hji, hj⟩⟩
  refine ⟨_, hloose.congr rfl rfl rfl rfl ?_, hmem, ?_⟩
  all_goals
    intro j hji
    simp [update_of_ne hji]

/-- `buffer_alloc` fails, or gives a loose buffer and caches no new block. -/
theorem Linked.alloc (env : Devices) (h : Linked s L)
    (hcover : ∀ j, j ∈ L.free ∨ j ∈ L.lru) :
    bufferAlloc env s = (s, none) ∨
      ∃ t i L', bufferAlloc env s = (t, some i) ∧ Loose t L' i ∧
        ∀ j ∈ L'.lru, j ∈ L.lru ∧ t.dev j = s.dev j ∧ t.blockNum j = s.blockNum j := by
  rcases h.bufferAlloc_cases env with ⟨i, f, hfree, hif, hil, halloc⟩ |
    ⟨-, ⟨-, hnone⟩ | ⟨i, hi, halloc⟩⟩
  · refine .inr ⟨_, i, { L with free := f }, halloc, ⟨h.popFree hfree, hif, hil, ?_⟩,
      fun j hj => ⟨hj, rfl, rfl⟩⟩
    intro j hji
    simpa [hfree, hji] using hcover j
  · exact .inl hnone
  · have hsame := sameLinks_writeBack env s i
    obtain ⟨L', hloose, hmem, hkey⟩ := (h.of_same hsame).evict hcover hi
    refine .inr ⟨_, i, L', halloc, hloose, fun j hj => ?_⟩
    obtain ⟨hji, hj⟩ := (hmem j).mp hj
    rw [← hsame.dev, ← hsame.blockNum]
    exact ⟨hj, hkey j hji⟩

/-- A buffer found in the cache stays on its lists. -/
theorem Cache.Structured.hold (h : s.Structured) (hfind : bufferFind s dev b = some i)
    (valid : Bool) : (bufferHold s i valid).Structured := by
  obtain ⟨L, hlinked, hcover⟩ := h
  have hi := (hlinked.bufferFind_eq_some.mp hfind).1
  have hkept : SameLinks s { s with
      refCount := update s.refCount i (s.refCount i + 1)
      flags := update s.flags i
        { s.flags i with busy := true, valid := (s.flags i).valid || valid } } :=
    ⟨rfl, rfl, rfl, rfl, rfl, rfl⟩
  obtain ⟨l, hmem, htouch⟩ := (hlinked.of_same hkept).touch hi
  exact ⟨_, htouch, fun j => (hcover j).imp_right (hmem j).mpr⟩

/-- A miss either finds no buffer, or takes a loose one for a block that is not cached. -/
theorem Cache.Structured.miss (env : Devices) (h : s.Structured)
    (hfind : bufferFind s dev b = none) :
    bufferAlloc env s = (s, none) ∨
      ∃ t i L', bufferAlloc env s = (t, some i) ∧ Loose t L' i ∧
        ∀ j ∈ L'.lru, ¬ (t.dev j = dev ∧ t.blockNum j = b) := by
  obtain ⟨L, hlinked, hcover⟩ := h
  rcases hlinked.alloc env hcover with halloc | ⟨t, i, L', halloc, hloose, hkept⟩
  · exact .inl halloc
  · refine .inr ⟨t, i, L', halloc, hloose, fun j hj hkey => ?_⟩
    obtain ⟨hj, hdev, hnum⟩ := hkept j hj
    rw [hdev, hnum] at hkey
    exact hlinked.bufferFind_eq_none hfind j hj hkey

/-- `buffer_get` keeps the lists, also when the read fails. -/
theorem Cache.Structured.get (h : s.Structured) (env : Devices) (dev : DevPtr) (b : ℕ) :
    (bufferGet env s dev b).1.Structured := by
  unfold bufferGet
  split_ifs with hdev
  · exact h
  cases hfind : bufferFind s dev b with
  | some i => exact (h.hold hfind false).of_same ⟨rfl, rfl, rfl, rfl, rfl, rfl⟩
  | none =>
    have hcount : Cache.Structured
        { s with stats := { s.stats with misses := s.stats.misses + 1 } } :=
      h.of_same ⟨rfl, rfl, rfl, rfl, rfl, rfl⟩
    rcases hcount.miss env hfind with halloc | ⟨t, i, L', halloc, hloose, hkey⟩
    · simp only [halloc]
      exact hcount
    · simp only [halloc, readBlock]
      have hne : ∀ j ≠ i, update t.dev i dev j = t.dev j ∧
          update t.blockNum i b j = t.blockNum j := by
        intro j hji
        simp [update_of_ne hji]
      cases hfault : env.fault t.accesses with
      | true =>
        -- The buffer keeps the key that it was given, but is free again.
        exact ⟨_, hloose.pushFree rfl rfl rfl rfl hne, hloose.cover_pushFree⟩
      | false =>
        refine Loose.attach (hloose.congr rfl rfl rfl rfl hne) fun j hj => ?_
        have hji : j ≠ i := by
          rintro rfl
          exact hloose.not_lru hj
        simpa [update_of_ne hji] using hkey j hj

/-- `buffer_get_new` keeps the lists. -/
theorem Cache.Structured.getNew (h : s.Structured) (env : Devices) (dev : DevPtr) (b : ℕ) :
    (bufferGetNew env s dev b).1.Structured := by
  unfold bufferGetNew
  split_ifs with hdev
  · exact h
  cases hfind : bufferFind s dev b with
  | some i => exact h.hold hfind true
  | none =>
    rcases h.miss env hfind with halloc | ⟨t, i, L', halloc, hloose, hkey⟩
    · simp only [halloc]
      exact h
    · simp only [halloc]
      refine Loose.attach (hloose.congr rfl rfl rfl rfl fun j hji => ?_) fun j hj => ?_
      · simp [update_of_ne hji]
      · have hji : j ≠ i := by
          rintro rfl
          exact hloose.not_lru hj
        simpa [update_of_ne hji] using hkey j hj

/-- The loop of `block_read` keeps the lists. -/
theorem Cache.Structured.readLoop (env : Devices) (dev : DevPtr) (size fuel : ℕ) (b off : ℕ)
    (dst : List UInt8) (h : s.Structured) :
    (blockReadLoop env dev size fuel s b off dst).1.Structured := by
  induction fuel generalizing s b off dst with
  | zero => exact h
  | succ fuel ih =>
    have hget := h.get env dev b
    unfold blockReadLoop
    generalize bufferGet env s dev b = r at hget ⊢
    split
    · exact h
    split
    · exact h
    rcases r with ⟨t, _ | i⟩
    · exact hget
    · exact ih _ _ _ (hget.of_same ⟨rfl, rfl, rfl, rfl, rfl, rfl⟩)

/-- The loop of `block_write` keeps the lists. -/
theorem Cache.Structured.writeLoop (env : Devices) (dev : DevPtr) (src : Bytes) (size fuel : ℕ)
    (b off done : ℕ) (h : s.Structured) :
    (blockWriteLoop env dev src size fuel s b off done).1.Structured := by
  induction fuel generalizing s b off done with
  | zero => exact h
  | succ fuel ih =>
    have hget : (bufferForWrite env s dev b off (size - done)).1.Structured := by
      unfold bufferForWrite
      split_ifs
      · exact h.getNew env dev b
      · exact h.get env dev b
    unfold blockWriteLoop
    generalize bufferForWrite env s dev b off (size - done) = r at hget ⊢
    split
    · exact h
    split
    · exact h
    rcases r with ⟨t, _ | i⟩
    · exact hget
    · refine ih _ _ _ (of_same (s := bufferMarkDirty _ i) ?_
        ⟨rfl, rfl, rfl, rfl, rfl, rfl⟩)
      refine of_same ?_ (sameLinks_markDirty _ i)
      exact hget.of_same ⟨rfl, rfl, rfl, rfl, rfl, rfl⟩

/-- `buffer_sync_all` keeps the lists. -/
theorem Cache.Structured.syncAll (h : s.Structured) (env : Devices) (dev : DevPtr) :
    (bufferSyncAll env s dev).1.Structured := by
  have hloop : ∀ (l : List BufPtr) (r : Cache × ℕ), r.1.Structured →
      (l.foldl (syncAllStep env dev) r).1.Structured := by
    intro l
    induction l with
    | nil => exact fun _ hr => hr
    | cons i l ih =>
      intro r hr
      refine ih _ ?_
      unfold syncAllStep
      split_ifs
      · exact hr.of_same (sameLinks_sync env r.1 i)
      · exact hr
  simp only [bufferSyncAll]
  exact hloop (List.finRange bufferCacheSize) (s, 0) h

/-- One turn of `buffer_invalidate` frees a cached buffer of the device. -/
theorem Linked.invalidateStep (env : Devices) (h : Linked s L)
    (hcover : ∀ j, j ∈ L.free ∨ j ∈ L.lru)
    (dev : DevPtr) (hi : s.dev i = dev → i ∈ L.lru) :
    ∃ L', Linked (Block.invalidateStep env dev s i) L' ∧ (∀ j, j ∈ L'.free ∨ j ∈ L'.lru) ∧
      ∀ j ≠ i, (Block.invalidateStep env dev s i).dev j = s.dev j ∧ (j ∈ L.lru → j ∈ L'.lru) := by
  by_cases hdev : s.dev i = dev
  · rw [← hdev, h.invalidateStep_eq env (hi hdev)]
    have hsame := sameLinks_writeBack env s i
    obtain ⟨L', hloose, hmem, hkey⟩ := (h.of_same hsame).evict hcover (hi hdev)
    refine ⟨_, hloose.pushFree rfl rfl rfl rfl fun _ _ => ⟨rfl, rfl⟩, hloose.cover_pushFree,
      fun j hji => ⟨?_, fun hj => (hmem j).mpr ⟨hji, hj⟩⟩⟩
    rw [← hsame.dev]
    exact (hkey j hji).1
  · rw [Block.invalidateStep, if_neg hdev]
    exact ⟨L, h, hcover, fun j _ => ⟨rfl, id⟩⟩

/-- `buffer_invalidate` keeps the lists if no free buffer names the device. -/
theorem Cache.Structured.invalidate (h : s.Structured) (env : Devices) (dev : DevPtr)
    (hfound : ∀ i, s.dev i = dev → bufferFind s dev (s.blockNum i) = some i) :
    (bufferInvalidate env s dev).Structured := by
  -- The buffers still to come that name the device are cached.
  have hloop : ∀ (l : List BufPtr) (s : Cache) (L : Lists), l.Nodup → Linked s L →
      (∀ j, j ∈ L.free ∨ j ∈ L.lru) → (∀ j ∈ l, s.dev j = dev → j ∈ L.lru) →
      (l.foldl (invalidateStep env dev) s).Structured := by
    intro l
    induction l with
    | nil => exact fun s L _ hlinked hcover _ => ⟨L, hlinked, hcover⟩
    | cons i l ih =>
      intro s L hnodup hlinked hcover hcached
      obtain ⟨hil, hnodup⟩ := List.nodup_cons.mp hnodup
      obtain ⟨L', hlinked', hcover', hother⟩ :=
        hlinked.invalidateStep env hcover dev (hcached i List.mem_cons_self)
      refine ih _ L' hnodup hlinked' hcover' fun j hj hjdev => ?_
      have hji : j ≠ i := by
        rintro rfl
        exact hil hj
      obtain ⟨hdev, hlru⟩ := hother j hji
      exact hlru (hcached j (.tail _ hj) (hdev ▸ hjdev))
  obtain ⟨L, hlinked, hcover⟩ := h
  refine hloop _ s L (List.nodup_finRange _) hlinked hcover fun j _ hj => ?_
  exact (hlinked.bufferFind_eq_some.mp (hfound j hj)).1

/-- The calls that keep the lists: a device is invalidated only while every buffer that names
it is found in the cache. -/
def CacheMeets (s : Cache) : CacheOp → Prop
  | .invalidate dev => ∀ i, s.dev i = dev → bufferFind s dev (s.blockNum i) = some i
  | .read _ _ _ => True
  | .write _ _ _ => True
  | .syncAll _ => True

instance (s : Cache) : (op : CacheOp) → Decidable (CacheMeets s op)
  | .invalidate dev => inferInstanceAs
    (Decidable (∀ i, s.dev i = dev → bufferFind s dev (s.blockNum i) = some i))
  | .read _ _ _ => isTrue trivial
  | .write _ _ _ => isTrue trivial
  | .syncAll _ => isTrue trivial

/-- The state after a call. -/
def cacheStep (env : Devices) (s : Cache) (op : CacheOp) : Cache := (s.step env op).1

theorem Cache.Structured.step (h : s.Structured) (env : Devices) (op : CacheOp)
    (hmeets : CacheMeets s op) : (cacheStep env s op).Structured := by
  cases op with
  | read dev offset size =>
    simp only [cacheStep, Cache.step, blockRead]
    split_ifs
    · exact h
    · exact h.readLoop env dev size size _ _ []
  | write dev offset src =>
    simp only [cacheStep, Cache.step, blockWrite]
    split_ifs
    · exact h
    · exact h.writeLoop env dev (bufferBytes src) _ _ _ _ 0
  | syncAll dev =>
    simp only [cacheStep, Cache.step]
    exact h.syncAll env dev
  | invalidate dev =>
    simp only [cacheStep, Cache.step]
    exact h.invalidate env dev hmeets

theorem structured_bufferCacheInit (data : BufPtr → Bytes) (disk : DevPtr → ℕ → Bytes) :
    (bufferCacheInit data disk).Structured :=
  ⟨_, (rep_bufferCacheInit data disk).toLinked, fun i => .inl (List.mem_finRange i)⟩

/-- The structure of the cache, whichever device accesses fail: after every sequence of calls
each buffer is once on the free list, or once in the chain of its block and on the LRU list. -/
theorem cache_structure_kept (env : Devices) (data : BufPtr → Bytes)
    (disk : DevPtr → ℕ → Bytes) (ops : List CacheOp)
    (hmeets : Guarded (cacheStep env) CacheMeets (bufferCacheInit data disk) ops) :
    (run (cacheStep env) (bufferCacheInit data disk) ops).Structured :=
  run_invariant (fun _ op h => h.step env op) (structured_bufferCacheInit data disk) hmeets

/-- Devices of three blocks whose first access fails. -/
def firstFails : Devices where
  totalBlocks := fun _ => 3
  fault := fun n => n == 0

theorem cache_structure_kept_failedRead :
    Guarded (cacheStep firstFails) CacheMeets (bufferCacheInit (fun _ _ => 0) fun _ _ _ => 0)
        [.read 1 0 1, .read 1 0 1, .invalidate 1] ∧
      (run (cacheStep firstFails) (bufferCacheInit (fun _ _ => 0) fun _ _ _ => 0)
        [.read 1 0 1, .read 1 0 1, .invalidate 1]).Structured := by
  refine ⟨?hmeets, cache_structure_kept _ _ _ _ ?hmeets⟩
  decide

/-- An invalidation after a failed read puts the buffer on the free list twice: its link leads
back to itself. -/
theorem cache_structure_cyclic :
    ¬ (run (cacheStep firstFails) (bufferCacheInit (fun _ _ => 0) fun _ _ _ => 0)
      [.read 1 0 1, .invalidate 1]).Structured := by
  rintro ⟨L, hlinked, -⟩
  have hnodup := hlinked.free.nodup
  have hfree := hlinked.free
  rw [show Cache.freeBuffers _ = some 0 by decide +kernel] at hfree
  cases hl : L.free with
  | nil => simp [hl] at hfree
  | cons i l =>
    rw [hl] at hfree hnodup
    obtain ⟨heq, hrest⟩ := isList_cons.mp hfree
    cases heq
    have hhead' := hrest.head_eq
    rw [show Cache.hashNext _ 0 = some 0 by decide +kernel] at hhead'
    exact (List.nodup_cons.mp hnodup).1 (List.mem_of_head? hhead'.symm)

end Tomahawk.Block
