import Tomahawk.Block.Faults

/-!
# Accepted bytes when write-backs fail

A failed write-back in `buffer_sync_all` leaves its buffer dirty, so nothing is lost. The
write-backs of `buffer_alloc` and `buffer_invalidate` are different: their results are not
looked at and the buffer is dropped. A call none of whose accesses fails does what it does on
reliable devices.
-/

namespace Tomahawk.Block

open Function Tomahawk.Lib

variable {env : Devices} {s : Cache} {L : Lists} {flat : Flat} {i : BufPtr} {n : ℕ}
  {α β : Type*} {x y : Cache × α} {op : CacheOp}

/-- The same devices without failures. -/
def Devices.reliable (env : Devices) : Devices := { env with fault := fun _ => false }

theorem Devices.reliable_reliable (env : Devices) : env.reliable.Reliable := fun _ => rfl

theorem Devices.totalBlocks_reliable (env : Devices) :
    env.reliable.totalBlocks = env.totalBlocks := rfl

/-- No access from number `a` to number `b` fails. -/
def Devices.Quiet (env : Devices) (a b : ℕ) : Prop := ∀ n < b, a ≤ n → env.fault n = false

instance (env : Devices) (a b : ℕ) : Decidable (env.Quiet a b) := by
  unfold Devices.Quiet
  infer_instance

/-! ## Calls without a failure -/

/-- The result `x`, from access number `n` on, is the result `y` of reliable devices unless an
access failed on the way. -/
structure Agrees (env : Devices) (n : ℕ) (x y : Cache × α) : Prop where
  le : n ≤ x.1.accesses
  eq : env.Quiet n x.1.accesses → x = y

theorem Agrees.refl (env : Devices) (x : Cache × α) : Agrees env x.1.accesses x x :=
  ⟨le_rfl, fun _ => rfl⟩

/-- Two computations one after the other. -/
theorem Agrees.bind {f g : Cache × α → Cache × β} (h : Agrees env n x y)
    (hf : ∀ r : Cache × α, Agrees env r.1.accesses (f r) (g r)) : Agrees env n (f x) (g y) := by
  have hnext := hf x
  refine ⟨h.le.trans hnext.le, fun hquiet => ?_⟩
  have hfirst : env.Quiet n x.1.accesses :=
    fun k hk hnk => hquiet k (hk.trans_le hnext.le) hnk
  have hsecond : env.Quiet x.1.accesses (f x).1.accesses :=
    fun k hk hxk => hquiet k hk (h.le.trans hxk)
  rw [hnext.eq hsecond, h.eq hfirst]

/-- A computation without accesses after one with them. -/
theorem Agrees.map (f : Cache × α → Cache × β) (h : Agrees env n x y)
    (hf : ∀ r : Cache × α, (f r).1.accesses = r.1.accesses) : Agrees env n (f x) (f y) := by
  refine h.bind fun r => ?_
  rw [← hf r]
  exact Agrees.refl env (f r)

section

variable (env : Devices) (s : Cache)

theorem agrees_readBlock (dev : DevPtr) (b : ℕ) :
    Agrees env s.accesses (readBlock env s dev b) (readBlock env.reliable s dev b) := by
  refine ⟨Nat.le_succ _, fun hquiet => ?_⟩
  have hfault : env.fault s.accesses = false := hquiet _ (Nat.lt_succ_self _) le_rfl
  simp [readBlock, Devices.reliable, hfault]

theorem agrees_bufferSyncInternal (i : BufPtr) :
    Agrees env s.accesses (bufferSyncInternal env s i) (bufferSyncInternal env.reliable s i) := by
  unfold bufferSyncInternal
  split_ifs with hclean
  · exact Agrees.refl env (s, 0)
  · cases hfault : env.fault s.accesses with
    | false =>
      simp only [writeBlock, hfault, Devices.reliable, Bool.false_eq_true, if_false, if_true]
      exact ⟨Nat.le_succ _, fun _ => rfl⟩
    | true =>
      simp only [writeBlock, hfault, if_true, Bool.false_eq_true, if_false]
      refine ⟨Nat.le_succ _, fun hquiet => ?_⟩
      rw [hquiet s.accesses (Nat.lt_succ_self _) le_rfl] at hfault
      cases hfault

theorem accesses_bufferHashRemove (i : BufPtr) : (bufferHashRemove s i).accesses = s.accesses := by
  unfold bufferHashRemove
  dsimp only
  split <;> rfl

theorem agrees_writeBack (i : BufPtr) :
    Agrees env s.accesses (writeBack env s i, ()) (writeBack env.reliable s i, ()) := by
  unfold writeBack
  split_ifs
  · exact (agrees_bufferSyncInternal env s i).map (fun r => (r.1, ())) fun _ => rfl
  · exact Agrees.refl env (s, ())

theorem agrees_bufferAlloc :
    Agrees env s.accesses (bufferAlloc env s) (bufferAlloc env.reliable s) := by
  unfold bufferAlloc
  cases s.freeBuffers with
  | some i => exact ⟨le_rfl, fun _ => rfl⟩
  | none =>
    cases walkFind s.lru.prev (evictable s) bufferCacheSize s.lru.tail with
    | none => exact Agrees.refl env (s, none)
    | some i =>
      exact (agrees_writeBack env s i).map (fun r => (r.1.evict i, some i))
        fun r => accesses_bufferHashRemove r.1 i

theorem accesses_bufferHold (i : BufPtr) (valid : Bool) :
    (bufferHold s i valid).accesses = s.accesses := by
  unfold bufferHold lruTouch
  dsimp only
  split_ifs <;> rfl

theorem agrees_bufferGet (dev : DevPtr) (b : ℕ) :
    Agrees env s.accesses (bufferGet env s dev b) (bufferGet env.reliable s dev b) := by
  unfold bufferGet
  split_ifs with hdev
  · exact Agrees.refl env (s, none)
  cases bufferFind s dev b with
  | some i =>
    exact ⟨(accesses_bufferHold s i false).ge, fun _ => rfl⟩
  | none =>
    have halloc := agrees_bufferAlloc env
      { s with stats := { s.stats with misses := s.stats.misses + 1 } }
    generalize bufferAlloc env { s with stats := { s.stats with misses := s.stats.misses + 1 } } = x
      at halloc ⊢
    generalize bufferAlloc env.reliable
      { s with stats := { s.stats with misses := s.stats.misses + 1 } } = y at halloc ⊢
    apply halloc.bind
    rintro ⟨t, _ | i⟩
    · exact Agrees.refl env (t, none)
    · dsimp only
      have hread := agrees_readBlock env { t with
          dev := update t.dev i dev
          blockNum := update t.blockNum i b
          refCount := update t.refCount i 1
          flags := update t.flags i { BufFlags.none with busy := true } } dev b
      generalize readBlock env _ dev b = u at hread ⊢
      generalize readBlock env.reliable _ dev b = u' at hread ⊢
      apply hread.bind
      rintro ⟨v, _ | block⟩
      · exact ⟨le_rfl, fun _ => rfl⟩
      · exact ⟨le_rfl, fun _ => rfl⟩

theorem agrees_bufferGetNew (dev : DevPtr) (b : ℕ) :
    Agrees env s.accesses (bufferGetNew env s dev b) (bufferGetNew env.reliable s dev b) := by
  unfold bufferGetNew
  split_ifs with hdev
  · exact Agrees.refl env (s, none)
  cases bufferFind s dev b with
  | some i => exact ⟨(accesses_bufferHold s i true).ge, fun _ => rfl⟩
  | none =>
    have halloc := agrees_bufferAlloc env s
    generalize bufferAlloc env s = x at halloc ⊢
    generalize bufferAlloc env.reliable s = y at halloc ⊢
    apply halloc.bind
    rintro ⟨t, _ | i⟩
    · exact Agrees.refl env (t, none)
    · exact ⟨le_rfl, fun _ => rfl⟩

end

theorem agrees_readLoop (env : Devices) (dev : DevPtr) (size fuel : ℕ) (s : Cache) (b off : ℕ)
    (dst : List UInt8) :
    Agrees env s.accesses (blockReadLoop env dev size fuel s b off dst)
      (blockReadLoop env.reliable dev size fuel s b off dst) := by
  induction fuel generalizing s b off dst with
  | zero => exact ⟨le_rfl, fun _ => rfl⟩
  | succ fuel ih =>
    have hget := agrees_bufferGet env s dev b
    unfold blockReadLoop
    rw [Devices.totalBlocks_reliable]
    generalize bufferGet env s dev b = x at hget ⊢
    generalize bufferGet env.reliable s dev b = y at hget ⊢
    split
    · exact ⟨le_rfl, fun _ => rfl⟩
    split
    · exact ⟨le_rfl, fun _ => rfl⟩
    apply hget.bind
    rintro ⟨t, _ | i⟩
    · exact ⟨le_rfl, fun _ => rfl⟩
    · exact ih (bufferRelease t i) (b + 1) 0 _

theorem accesses_bufferMarkDirty (s : Cache) (i : BufPtr) :
    (bufferMarkDirty s i).accesses = s.accesses := by
  unfold bufferMarkDirty
  split_ifs <;> rfl

theorem agrees_writeLoop (env : Devices) (dev : DevPtr) (src : Bytes) (size fuel : ℕ) (s : Cache)
    (b off done : ℕ) :
    Agrees env s.accesses (blockWriteLoop env dev src size fuel s b off done)
      (blockWriteLoop env.reliable dev src size fuel s b off done) := by
  induction fuel generalizing s b off done with
  | zero => exact ⟨le_rfl, fun _ => rfl⟩
  | succ fuel ih =>
    have hget : Agrees env s.accesses (bufferForWrite env s dev b off (size - done))
        (bufferForWrite env.reliable s dev b off (size - done)) := by
      unfold bufferForWrite
      split_ifs
      · exact agrees_bufferGetNew env s dev b
      · exact agrees_bufferGet env s dev b
    unfold blockWriteLoop
    rw [Devices.totalBlocks_reliable]
    generalize bufferForWrite env s dev b off (size - done) = x at hget ⊢
    generalize bufferForWrite env.reliable s dev b off (size - done) = y at hget ⊢
    split
    · exact ⟨le_rfl, fun _ => rfl⟩
    split
    · exact ⟨le_rfl, fun _ => rfl⟩
    apply hget.bind
    rintro ⟨t, _ | i⟩
    · exact ⟨le_rfl, fun _ => rfl⟩
    · dsimp only
      generalize hu : ({ t with data := update t.data i _ } : Cache) = u
      have haccesses : t.accesses = (bufferRelease (bufferMarkDirty u i) i).accesses := by
        have hmark : (bufferMarkDirty u i).accesses = u.accesses := accesses_bufferMarkDirty u i
        rw [show (bufferRelease (bufferMarkDirty u i) i).accesses = _ from hmark, ← hu]
      rw [haccesses]
      exact ih _ (b + 1) 0 _

theorem agrees_invalidateStep (env : Devices) (dev : DevPtr) (s : Cache) (i : BufPtr) :
    Agrees env s.accesses (invalidateStep env dev s i, ())
      (invalidateStep env.reliable dev s i, ()) := by
  unfold invalidateStep
  by_cases hdev : s.dev i = dev
  · have hback := agrees_writeBack env s i
    simp only [if_pos hdev, ← writeBack.eq_1]
    generalize writeBack env s i = t at hback ⊢
    generalize writeBack env.reliable s i = t' at hback ⊢
    refine ⟨?_, fun hquiet => ?_⟩
    · simpa [apply_ite Cache.accesses, lruRemove, accesses_bufferHashRemove] using hback.le
    · simp only [apply_ite Cache.accesses, lruRemove, accesses_bufferHashRemove, ite_self] at hquiet
      have heq : t = t' := congrArg Prod.fst (hback.eq hquiet)
      rw [heq]
  · rw [if_neg hdev, if_neg hdev]
    exact Agrees.refl env (s, ())

theorem agrees_invalidate (env : Devices) (dev : DevPtr) (l : List BufPtr) (s : Cache) :
    Agrees env s.accesses (l.foldl (invalidateStep env dev) s, ())
      (l.foldl (invalidateStep env.reliable dev) s, ()) := by
  induction l generalizing s with
  | nil => exact Agrees.refl env (s, ())
  | cons i l ih =>
    have hstep := agrees_invalidateStep env dev s i
    simp only [List.foldl_cons]
    generalize invalidateStep env dev s i = x at hstep ⊢
    generalize invalidateStep env.reliable dev s i = y at hstep ⊢
    exact hstep.bind (f := fun r => (l.foldl (invalidateStep env dev) r.1, ()))
      (g := fun r => (l.foldl (invalidateStep env.reliable dev) r.1, ())) fun r => ih r.1

/-- A call none of whose accesses fails. -/
theorem agrees_step (env : Devices) (s : Cache) (op : CacheOp) (hop : ∀ dev, op ≠ .syncAll dev) :
    Agrees env s.accesses (s.step env op) (s.step env.reliable op) := by
  cases op with
  | read dev offset size =>
    simp only [Cache.step, blockRead]
    split_ifs
    · exact ⟨le_rfl, fun _ => rfl⟩
    · exact agrees_readLoop env dev size size s _ _ []
  | write dev offset src =>
    simp only [Cache.step, blockWrite]
    split_ifs
    · exact ⟨le_rfl, fun _ => rfl⟩
    · exact (agrees_writeLoop env dev _ _ _ s _ _ 0).map (fun r => (r.1, r.2, [])) fun _ => rfl
  | syncAll dev => exact absurd rfl (hop dev)
  | invalidate dev =>
    simp only [Cache.step, bufferInvalidate]
    generalize List.finRange bufferCacheSize = l
    exact (agrees_invalidate env dev l s).map (fun r => (r.1, 0, [])) fun _ => rfl

/-! ## Failed write-backs that lose nothing -/

/-- `buffer_sync_internal` of a cached buffer keeps the arrays, whether or not the device takes
the block. -/
theorem Rep.syncAny (h : Rep s L flat none) (env : Devices) (hi : i ∈ L.lru)
    (hdirty : (s.flags i).dirty = true) : Rep (bufferSyncInternal env s i).1 L flat none := by
  cases hfault : env.fault s.accesses with
  | false =>
    have hquiet : env.Quiet s.accesses (s.accesses + 1) := by
      intro k hk hsk
      rwa [show k = s.accesses by omega]
    have hagrees := agrees_bufferSyncInternal env s i
    have haccesses : (bufferSyncInternal env s i).1.accesses = s.accesses + 1 := by
      simp [bufferSyncInternal, writeBlock, h.cached i hi, hdirty, hfault]
    rw [hagrees.eq (haccesses ▸ hquiet)]
    exact h.sync env.reliable_reliable hi hdirty
  | true =>
    have hfailed : (bufferSyncInternal env s i).1 = { s with accesses := s.accesses + 1 } := by
      simp [bufferSyncInternal, writeBlock, h.cached i hi, hdirty, hfault]
    rw [hfailed]
    exact ⟨h.toLinked.of_same ⟨rfl, rfl, rfl, rfl, rfl, rfl⟩, h.cover, h.cached,
      h.unused, h.unpinned, h.idle, h.content, h.backing⟩

/-- `buffer_sync_all` keeps the arrays, whichever writes fail. -/
theorem Rep.syncAllAny (h : Rep s L flat none) (env : Devices) (dev : DevPtr) :
    Rep (bufferSyncAll env s dev).1 L flat none := by
  have hloop : ∀ (l : List BufPtr) (r : Cache × ℕ), Rep r.1 L flat none →
      Rep (l.foldl (Block.syncAllStep env dev) r).1 L flat none := by
    intro l
    induction l with
    | nil => exact fun _ hr => hr
    | cons i l ih =>
      intro r hr
      apply ih
      unfold Block.syncAllStep
      split_ifs with hcase
      · have hi : i ∈ L.lru := by
          rcases hr.cover i (by simp) with hf | hl
          · rw [(hr.unused i hf).2] at hcase
            cases hcase.1
          · exact hl
        exact hr.syncAny env hi hcase.1
      · exact hr
  unfold bufferSyncAll
  generalize List.finRange bufferCacheSize = l
  exact hloop l (s, 0) h

/-! ## Every state of a run -/

/-- The calls after which nothing is lost: no device access of `block_read`, `block_write` or
`buffer_invalidate` fails, and a device is invalidated only while every buffer that names it is
found in the cache. The writes of `buffer_sync_all` may fail. -/
def DurableMeets (env : Devices) (s : Cache) : CacheOp → Prop
  | .syncAll _ => True
  | op => CacheMeets s op ∧ env.Quiet s.accesses (cacheStep env s op).accesses

instance (env : Devices) (s : Cache) (op : CacheOp) : Decidable (DurableMeets env s op) := by
  cases op <;> unfold DurableMeets <;> infer_instance

theorem DurableMeets.both (h : DurableMeets env s op) (hop : ∀ dev, op ≠ .syncAll dev) :
    CacheMeets s op ∧ env.Quiet s.accesses (cacheStep env s op).accesses := by
  cases op with
  | syncAll dev => exact absurd rfl (hop dev)
  | read dev offset size => exact h
  | write dev offset src => exact h
  | invalidate dev => exact h

/-- The arrays after a call; calls on the null device do not write. -/
def flatStep (env : Devices) (flat : Flat) (op : CacheOp) : Flat :=
  if op.dev = 0 then flat else (flat.step env op).1

/-- A call other than `buffer_sync_all` that meets the condition answers as the arrays do. -/
theorem Represents.stepQuiet (h : Represents s flat) (hdev : op.dev ≠ 0)
    (hop : ∀ dev, op ≠ .syncAll dev) (hquiet : env.Quiet s.accesses (cacheStep env s op).accesses) :
    Represents (cacheStep env s op) (flatStep env flat op) ∧
      (s.step env op).2 = (flat.step env op).2 := by
  have hstep : s.step env op = s.step env.reliable op := (agrees_step env s op hop).eq hquiet
  have hreliable := h.step env.reliable_reliable op (.inl hdev)
  unfold cacheStep flatStep
  rw [if_neg hdev, hstep]
  exact hreliable

/-- On the null device `buffer_invalidate` finds no buffer if every one that names it is
cached. -/
theorem Rep.invalidate_null (h : Rep s L flat none) (env : Devices)
    (hfound : CacheMeets s (.invalidate 0)) : bufferInvalidate env s 0 = s := by
  have hnone : ∀ i, s.dev i ≠ 0 := by
    intro i hi
    have hmem := (h.toLinked.bufferFind_eq_some.mp (hfound i hi)).1
    exact h.cached i hmem hi
  have hloop : ∀ l : List BufPtr, l.foldl (Block.invalidateStep env 0) s = s := by
    intro l
    induction l with
    | nil => rfl
    | cons i l ih =>
      have hskip : Block.invalidateStep env 0 s i = s := by
        unfold Block.invalidateStep
        rw [if_neg (hnone i)]
      rw [List.foldl_cons, hskip, ih]
  exact hloop _

/-- One call that meets the condition keeps the arrays. -/
theorem Represents.stepDurable (h : Represents s flat) (op : CacheOp)
    (hmeets : DurableMeets env s op) : Represents (cacheStep env s op) (flatStep env flat op) := by
  by_cases hsync : ∃ dev, op = .syncAll dev
  · obtain ⟨dev, rfl⟩ := hsync
    obtain ⟨L, hrep⟩ := h
    have hkeep := hrep.syncAllAny env dev
    have hflat : flatStep env flat (.syncAll dev) = flat := by
      unfold flatStep
      split_ifs <;> rfl
    rw [hflat]
    refine ⟨L, ?_⟩
    simp only [cacheStep, Cache.step]
    exact hkeep
  have hop : ∀ dev, op ≠ .syncAll dev := fun dev heq => hsync ⟨dev, heq⟩
  have hboth := hmeets.both hop
  by_cases hdev : op.dev = 0
  · have hsame : cacheStep env s op = s := by
      cases op with
      | syncAll dev => exact absurd rfl (hop dev)
      | read dev offset size =>
        change dev = 0 at hdev
        simp only [cacheStep, Cache.step, blockRead, hdev, true_or, if_true]
      | write dev offset src =>
        change dev = 0 at hdev
        simp only [cacheStep, Cache.step, blockWrite, hdev, true_or, if_true]
      | invalidate dev =>
        obtain rfl : dev = 0 := hdev
        obtain ⟨L, hrep⟩ := h
        have hnull := hrep.invalidate_null env hboth.1
        simp only [cacheStep, Cache.step]
        exact hnull
    unfold flatStep
    rw [hsame, if_pos hdev]
    exact h
  · exact (h.stepQuiet hdev hop hboth.2).1

/-- Every byte of the arrays is in a dirty buffer of its block or on the device. -/
theorem Represents.byte (h : Represents s flat) (dev : DevPtr) (b : ℕ) {k : ℕ}
    (hk : k < blockSize) :
    (∃ i, bufferFind s dev b = some i ∧ (s.flags i).dirty = true ∧
        s.data i k = flat dev (b * blockSize + k)) ∨
      s.disk dev b k = flat dev (b * blockSize + k) := by
  obtain ⟨L, hrep⟩ := h
  by_cases hclean : ∀ i ∈ L.lru, s.dev i = dev → s.blockNum i = b → (s.flags i).dirty = false
  · exact .inr (hrep.backing dev b hclean k hk)
  · simp only [not_forall, Bool.not_eq_false] at hclean
    obtain ⟨i, hi, rfl, rfl, hdirty⟩ := hclean
    refine .inl ⟨i, hrep.toLinked.bufferFind_eq_some.mpr ⟨hi, rfl, rfl⟩, hdirty, ?_⟩
    exact hrep.content i hi (by simp) k hk

/-- Accepted bytes last through failed write-backs. After every run whose calls meet the
condition each byte of the arrays is in a dirty buffer of its block or on the device, and a
further call of `block_read` or `block_write` answers as the arrays do. -/
theorem dirty_data_durable (env : Devices) (data : BufPtr → Bytes) (disk : DevPtr → ℕ → Bytes)
    (ops : List CacheOp)
    (hmeets : Guarded (cacheStep env) (DurableMeets env) (bufferCacheInit data disk) ops) :
    let s := run (cacheStep env) (bufferCacheInit data disk) ops
    let flat := run (flatStep env) (flatOf disk) ops
    (∀ dev b k, k < blockSize →
      (∃ i, bufferFind s dev b = some i ∧ (s.flags i).dirty = true ∧
          s.data i k = flat dev (b * blockSize + k)) ∨
        s.disk dev b k = flat dev (b * blockSize + k)) ∧
    ∀ op : CacheOp, op.dev ≠ 0 → (∀ dev, op ≠ .syncAll dev) → DurableMeets env s op →
      (s.step env op).2 = (flat.step env op).2 := by
  intro s flat
  have hinit : Represents (bufferCacheInit data disk) (flatOf disk) :=
    ⟨_, rep_bufferCacheInit data disk⟩
  have hrep : Represents s flat :=
    run_simulation (fun _ _ op h hop => h.stepDurable op hop) hinit hmeets
  refine ⟨fun dev b k hk => hrep.byte dev b hk, fun op hdev hop hnext => ?_⟩
  exact (hrep.stepQuiet hdev hop (hnext.both hop).2).2

/-- Devices of three blocks whose second access fails. -/
def secondFails : Devices where
  totalBlocks := fun _ => 3
  fault := fun n => n == 1

/-- The write-back of `buffer_sync_all` fails; the byte is still read back. -/
theorem dirty_data_durable_synced :
    Guarded (cacheStep secondFails) (DurableMeets secondFails)
        (bufferCacheInit (fun _ _ => 0) fun _ _ _ => 0) [.write 1 0 [7], .syncAll 1] ∧
      ((run (cacheStep secondFails) (bufferCacheInit (fun _ _ => 0) fun _ _ _ => 0)
        [.write 1 0 [7], .syncAll 1]).step secondFails (.read 1 0 1)).2 = (1, [7]) := by
  refine ⟨?hmeets, ((dirty_data_durable _ _ _ _ ?hmeets).2 (.read 1 0 1) (by decide)
    (fun _ => by simp) (by decide +kernel)).trans ?_⟩
  all_goals decide

/-- The write-back of `buffer_invalidate` fails: the accepted byte is neither in a buffer nor on
the device, and the old byte is read. -/
theorem dirty_data_dropped :
    let s := run (cacheStep secondFails) (bufferCacheInit (fun _ _ => 0) fun _ _ _ => 0)
      [.write 1 0 [7], .invalidate 1]
    ((bufferCacheInit (fun _ _ => 0) fun _ _ _ => 0).step secondFails (.write 1 0 [7])).2 =
        (1, []) ∧
      bufferFind s 1 0 = none ∧ s.disk 1 0 0 = 0 ∧
      (s.step secondFails (.read 1 0 1)).2 = (1, [0]) := by
  decide +kernel

end Tomahawk.Block
