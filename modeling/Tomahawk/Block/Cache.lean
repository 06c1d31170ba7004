import Tomahawk.Lib.Bytes
import Tomahawk.Lib.LinkedList

/-!
# The buffer cache

`block_device.c` caches sixty-four blocks. Every buffer is on the free list or in
one hash chain and on the LRU list; the free list and the hash chains share the
link `hash_next`. The array `buffer_pool` is kept by field, and a device is a pointer
with its blocks in `disk`, where the offsets below `blockSize` are the bytes of a block.
Device accesses are numbered, and `fault` says which of them fail.
-/

namespace Tomahawk.Block

open Function Tomahawk.Lib

/-- `BLOCK_SIZE`. -/
abbrev blockSize : ℕ := 4096

/-- `BUFFER_CACHE_SIZE`. -/
abbrev bufferCacheSize : ℕ := 64

/-- `BUFFER_HASH_SIZE`. -/
abbrev bufferHashSize : ℕ := 32

/-- A `struct block_device *`; zero is the null pointer. -/
abbrev DevPtr := UInt64

/-- A `struct buffer_head *` that is not null, as an index of the pool. -/
abbrev BufPtr := Fin bufferCacheSize

/-- What the cache relies on: the sizes of the devices and which accesses fail. -/
structure Devices where
  totalBlocks : DevPtr → ℕ
  fault : ℕ → Bool

/-- The `BUF_*` flags of a buffer. -/
structure BufFlags where
  valid : Bool
  dirty : Bool
  busy : Bool
  pinned : Bool
  deriving DecidableEq

/-- No flag set. -/
def BufFlags.none : BufFlags := ⟨false, false, false, false⟩

/-- `struct buffer_cache_stats`. -/
structure CacheStats where
  hits : UInt64
  misses : UInt64
  reads : UInt64
  writes : UInt64
  syncs : UInt64
  cachedBlocks : UInt32
  dirtyBlocks : UInt32
  deriving DecidableEq

/-- The static variables of the cache, the blocks of the devices, and the number of
device accesses made so far. -/
structure Cache where
  dev : BufPtr → DevPtr
  blockNum : BufPtr → ℕ
  data : BufPtr → Bytes
  flags : BufPtr → BufFlags
  refCount : BufPtr → ℕ
  hashNext : BufPtr → Option BufPtr
  bufferHash : Fin bufferHashSize → Option BufPtr
  freeBuffers : Option BufPtr
  lru : DList BufPtr
  stats : CacheStats
  disk : DevPtr → ℕ → Bytes
  accesses : ℕ

/-- The callback `read_block`: the block, or `none` when the access fails. -/
def readBlock (env : Devices) (s : Cache) (dev : DevPtr) (blockNum : ℕ) : Cache × Option Bytes :=
  ({ s with accesses := s.accesses + 1 },
    if env.fault s.accesses then none else some (s.disk dev blockNum))

/-- The callback `write_block`: whether the access succeeded. -/
def writeBlock (env : Devices) (s : Cache) (dev : DevPtr) (blockNum : ℕ) (data : Bytes) :
    Cache × Bool :=
  let s' := { s with accesses := s.accesses + 1 }
  if env.fault s.accesses then (s', false)
  else
    ({ s' with disk := update s.disk dev (update (s.disk dev) blockNum data) },
      true)

/-- `buffer_hash_func`. -/
def bufferHashFunc (dev : DevPtr) (blockNum : ℕ) : Fin bufferHashSize :=
  let h := dev ^^^ UInt64.ofNat blockNum
  let h := h ^^^ (h >>> 16)
  let h := h * 0x85ebca6b
  let h := h ^^^ (h >>> 13)
  Fin.ofNat bufferHashSize (h &&& 31).toNat

/-- `lru_remove`. -/
def lruRemove (s : Cache) (i : BufPtr) : Cache := { s with lru := s.lru.remove i }

/-- `lru_add_front`. -/
def lruAddFront (s : Cache) (i : BufPtr) : Cache := { s with lru := s.lru.addFront i }

/-- `lru_touch`. -/
def lruTouch (s : Cache) (i : BufPtr) : Cache :=
  if s.lru.head = some i then s else lruAddFront (lruRemove s i) i

/-- The test of `buffer_find`. -/
def bufferMatches (s : Cache) (dev : DevPtr) (blockNum : ℕ) (i : BufPtr) : Bool :=
  s.dev i == dev && s.blockNum i == blockNum

/-- `buffer_find`: walk the hash chain of the block. -/
def bufferFind (s : Cache) (dev : DevPtr) (blockNum : ℕ) : Option BufPtr :=
  walkFind s.hashNext (bufferMatches s dev blockNum) bufferCacheSize
    (s.bufferHash (bufferHashFunc dev blockNum))

/-- `buffer_hash_add`. -/
def bufferHashAdd (s : Cache) (i : BufPtr) : Cache :=
  let hash := bufferHashFunc (s.dev i) (s.blockNum i)
  { s with
    hashNext := update s.hashNext i (s.bufferHash hash)
    bufferHash := update s.bufferHash hash (some i) }

/-- `buffer_hash_remove`: redirect the pointer that leads to the buffer. A buffer that
its chain does not hold is left alone. -/
def bufferHashRemove (s : Cache) (i : BufPtr) : Cache :=
  let hash := bufferHashFunc (s.dev i) (s.blockNum i)
  match removeLink s.hashNext bufferCacheSize (s.bufferHash hash) i with
  | some (next, head) =>
    { s with
      bufferHash := update s.bufferHash hash head
      hashNext := update next i none }
  | none => s

/-- `buffer_sync_internal`. -/
def bufferSyncInternal (env : Devices) (s : Cache) (i : BufPtr) : Cache × ℤ :=
  if s.dev i = 0 ∨ (s.flags i).dirty = false then (s, 0)
  else
    let r := writeBlock env s (s.dev i) (s.blockNum i) (s.data i)
    if r.2 then
      ({ r.1 with
        flags := update s.flags i { s.flags i with dirty := false }
        stats := { s.stats with
          writes := s.stats.writes + 1
          dirtyBlocks := s.stats.dirtyBlocks - 1
          syncs := s.stats.syncs + 1 } }, 0)
    else (r.1, -1)

/-- The test of the eviction scan in `buffer_alloc`. -/
def evictable (s : Cache) (i : BufPtr) : Bool :=
  !(s.flags i).busy && !(s.flags i).pinned && s.refCount i == 0

/-- `buffer_alloc`: take a free buffer, or evict the least recently used one that is
not in use, after writing it back. The result of the write is not looked at. -/
def bufferAlloc (env : Devices) (s : Cache) : Cache × Option BufPtr :=
  match s.freeBuffers with
  | some i =>
    ({ s with
      freeBuffers := s.hashNext i
      hashNext := update s.hashNext i none }, some i)
  | none =>
    match walkFind s.lru.prev (evictable s) bufferCacheSize s.lru.tail with
    | none => (s, none)
    | some i =>
      let s := if (s.flags i).dirty then (bufferSyncInternal env s i).1 else s
      let s := lruRemove (bufferHashRemove s i) i
      ({ s with
        dev := update s.dev i 0
        blockNum := update s.blockNum i 0
        flags := update s.flags i .none
        stats := { s.stats with cachedBlocks := s.stats.cachedBlocks - 1 } }, some i)

/-- The references and flags of a buffer found in the cache. -/
def bufferHold (s : Cache) (i : BufPtr) (valid : Bool) : Cache :=
  let s := { s with
    refCount := update s.refCount i (s.refCount i + 1)
    flags := update s.flags i
      { s.flags i with busy := true, valid := (s.flags i).valid || valid } }
  lruTouch s i

/-- `buffer_get`. -/
def bufferGet (env : Devices) (s : Cache) (dev : DevPtr) (blockNum : ℕ) : Cache × Option BufPtr :=
  if dev = 0 then (s, none)
  else
    match bufferFind s dev blockNum with
    | some i =>
      let s := bufferHold s i false
      ({ s with stats := { s.stats with hits := s.stats.hits + 1 } }, some i)
    | none =>
      match bufferAlloc env { s with stats := { s.stats with misses := s.stats.misses + 1 } } with
      | (s, none) => (s, none)
      | (s, some i) =>
        let s := { s with
          dev := update s.dev i dev
          blockNum := update s.blockNum i blockNum
          refCount := update s.refCount i 1
          flags := update s.flags i { BufFlags.none with busy := true } }
        match readBlock env s dev blockNum with
        | (s, none) =>
          -- The buffer goes back to the free list with its device and flags still set.
          ({ s with
            hashNext := update s.hashNext i s.freeBuffers
            freeBuffers := some i }, none)
        | (s, some block) =>
          let s := { s with
            data := update s.data i block
            flags := update s.flags i { s.flags i with valid := true }
            stats := { s.stats with
              reads := s.stats.reads + 1
              cachedBlocks := s.stats.cachedBlocks + 1 } }
          (lruAddFront (bufferHashAdd s i) i, some i)

/-- `buffer_get_new`: like `buffer_get` for a block that is overwritten whole, so a miss
does not read the device. -/
def bufferGetNew (env : Devices) (s : Cache) (dev : DevPtr) (blockNum : ℕ) :
    Cache × Option BufPtr :=
  if dev = 0 then (s, none)
  else
    match bufferFind s dev blockNum with
    | some i => (bufferHold s i true, some i)
    | none =>
      match bufferAlloc env s with
      | (s, none) => (s, none)
      | (s, some i) =>
        let s := { s with
          dev := update s.dev i dev
          blockNum := update s.blockNum i blockNum
          refCount := update s.refCount i 1
          flags := update s.flags i { BufFlags.none with busy := true, valid := true }
          stats := { s.stats with cachedBlocks := s.stats.cachedBlocks + 1 } }
        (lruAddFront (bufferHashAdd s i) i, some i)

/-- `buffer_release`. -/
def bufferRelease (s : Cache) (i : BufPtr) : Cache :=
  { s with
    refCount := update s.refCount i (s.refCount i - 1)
    flags := update s.flags i { s.flags i with busy := false } }

/-- `buffer_mark_dirty`. -/
def bufferMarkDirty (s : Cache) (i : BufPtr) : Cache :=
  if (s.flags i).dirty then s
  else
    { s with
      flags := update s.flags i { s.flags i with dirty := true }
      stats := { s.stats with dirtyBlocks := s.stats.dirtyBlocks + 1 } }

/-- One turn of the loop of `buffer_sync_all`, which counts the errors. -/
def syncAllStep (env : Devices) (dev : DevPtr) (r : Cache × ℕ) (i : BufPtr) : Cache × ℕ :=
  if (r.1.flags i).dirty ∧ (dev = 0 ∨ r.1.dev i = dev) then
    let r' := bufferSyncInternal env r.1 i
    (r'.1, if r'.2 ≠ 0 then r.2 + 1 else r.2)
  else r

/-- `buffer_sync_all`: write back the dirty buffers of a device, or of all devices when
the pointer is null. -/
def bufferSyncAll (env : Devices) (s : Cache) (dev : DevPtr) : Cache × ℤ :=
  let r := (List.finRange bufferCacheSize).foldl (syncAllStep env dev) (s, 0)
  (r.1, if 0 < r.2 then -1 else 0)

/-- One turn of the loop of `buffer_invalidate`. -/
def invalidateStep (env : Devices) (dev : DevPtr) (s : Cache) (i : BufPtr) : Cache :=
  if s.dev i = dev then
    let s := if (s.flags i).dirty then (bufferSyncInternal env s i).1 else s
    let s := bufferHashRemove s i
    let s := if s.lru.prev i ≠ none ∨ s.lru.next i ≠ none ∨ s.lru.head = some i then lruRemove s i
      else s
    { s with
      dev := update s.dev i 0
      blockNum := update s.blockNum i 0
      flags := update s.flags i .none
      refCount := update s.refCount i 0
      hashNext := update s.hashNext i s.freeBuffers
      freeBuffers := some i
      stats := { s.stats with cachedBlocks := s.stats.cachedBlocks - 1 } }
  else s

/-- `buffer_invalidate`: write back and free the buffers of a device. -/
def bufferInvalidate (env : Devices) (s : Cache) (dev : DevPtr) : Cache :=
  (List.finRange bufferCacheSize).foldl (invalidateStep env dev) s

/-- The loop of `block_read`. Every turn copies a byte or more, so the size is fuel
enough. -/
def blockReadLoop (env : Devices) (dev : DevPtr) (size : ℕ) :
    ℕ → Cache → ℕ → ℕ → List UInt8 → Cache × ℤ × List UInt8
  | 0, s, _, _, dst => (s, dst.length, dst)
  | fuel + 1, s, blockNum, blockOffset, dst =>
    if size ≤ dst.length then (s, dst.length, dst)
    else if env.totalBlocks dev ≤ blockNum then (s, dst.length, dst)
    else
      match bufferGet env s dev blockNum with
      | (s, none) => (s, if 0 < dst.length then dst.length else -1, dst)
      | (s, some i) =>
        let toCopy := min (blockSize - blockOffset) (size - dst.length)
        let dst := dst ++ (s.data i).slice blockOffset toCopy
        blockReadLoop env dev size fuel (bufferRelease s i) (blockNum + 1) 0 dst

/-- `block_read`: the result and the bytes stored in the caller's buffer. -/
def blockRead (env : Devices) (s : Cache) (dev : DevPtr) (offset size : ℕ) :
    Cache × ℤ × List UInt8 :=
  if dev = 0 ∨ size = 0 then (s, -1, [])
  else blockReadLoop env dev size size s (offset / blockSize) (offset % blockSize) []

variable {env : Devices} {dev : DevPtr} {size : ℕ} {s : Cache}

/-- `block_read` copies no more than it was asked for, even if the device fails. -/
theorem length_blockReadLoop {fuel : ℕ} {blockNum blockOffset : ℕ} {dst : List UInt8}
    (h : dst.length ≤ size) :
    (blockReadLoop env dev size fuel s blockNum blockOffset dst).2.2.length ≤ size := by
  induction fuel generalizing s blockNum blockOffset dst with
  | zero => exact h
  | succ fuel ih =>
    rw [blockReadLoop]
    by_cases hfull : size ≤ dst.length
    · rw [if_pos hfull]
      exact h
    by_cases hend : env.totalBlocks dev ≤ blockNum
    · rw [if_neg hfull, if_pos hend]
      exact h
    rw [if_neg hfull, if_neg hend]
    rcases bufferGet env s dev blockNum with ⟨s', _ | i⟩
    · exact h
    · refine ih ?_
      simp only [List.length_append, Bytes.slice_length]
      omega

theorem length_blockRead {offset : ℕ} :
    (blockRead env s dev offset size).2.2.length ≤ size := by
  unfold blockRead
  split_ifs
  · exact Nat.zero_le _
  · exact length_blockReadLoop (Nat.zero_le _)

/-- The buffer of a block that is written. One that is written whole is not read. -/
def bufferForWrite (env : Devices) (s : Cache) (dev : DevPtr) (blockNum blockOffset left : ℕ) :
    Cache × Option BufPtr :=
  if blockOffset = 0 ∧ blockSize ≤ left then bufferGetNew env s dev blockNum
  else bufferGet env s dev blockNum

/-- The loop of `block_write`. -/
def blockWriteLoop (env : Devices) (dev : DevPtr) (src : Bytes) (size : ℕ) :
    ℕ → Cache → ℕ → ℕ → ℕ → Cache × ℤ
  | 0, s, _, _, bytesWritten => (s, bytesWritten)
  | fuel + 1, s, blockNum, blockOffset, bytesWritten =>
    if size ≤ bytesWritten then (s, bytesWritten)
    else if env.totalBlocks dev ≤ blockNum then (s, bytesWritten)
    else
      match bufferForWrite env s dev blockNum blockOffset (size - bytesWritten) with
      | (s, none) => (s, if 0 < bytesWritten then bytesWritten else -1)
      | (s, some i) =>
        let toCopy := min (blockSize - blockOffset) (size - bytesWritten)
        let s := { s with
          data := update s.data i
            ((s.data i).copyIn blockOffset toCopy src bytesWritten) }
        let s := bufferRelease (bufferMarkDirty s i) i
        blockWriteLoop env dev src size fuel s (blockNum + 1) 0 (bytesWritten + toCopy)

/-- `block_write` of the first `size` bytes of `src`. -/
def blockWrite (env : Devices) (s : Cache) (dev : DevPtr) (offset : ℕ) (src : Bytes)
    (size : ℕ) : Cache × ℤ :=
  if dev = 0 ∨ size = 0 then (s, -1)
  else blockWriteLoop env dev src size size s (offset / blockSize) (offset % blockSize) 0

/-- The state after `buffer_cache_init`: every buffer on the free list. The data pages
and the devices have arbitrary contents. -/
def bufferCacheInit (data : BufPtr → Bytes) (disk : DevPtr → ℕ → Bytes) : Cache where
  dev := fun _ => 0
  blockNum := fun _ => 0
  data := data
  flags := fun _ => .none
  refCount := fun _ => 0
  hashNext := fun i => if h : i.val + 1 < bufferCacheSize then some ⟨i.val + 1, h⟩ else none
  bufferHash := fun _ => none
  freeBuffers := some 0
  lru := ⟨none, none, fun _ => none, fun _ => none⟩
  stats := ⟨0, 0, 0, 0, 0, 0, 0⟩
  disk := disk
  accesses := 0

end Tomahawk.Block
