import Tomahawk.Block.Durability

/-!
# Programs on the block layer

A program of `block_read` and `block_write` calls on one device, which goes on by what the calls
return. It can run on the buffer cache or on a plain array. As long as no device access fails, the
two runs return the same, and the cache stands for the array again at the end.
-/

namespace Tomahawk.Block

open Function Tomahawk.Lib

/-- A program, as its next call and how it goes on. -/
inductive Program (α : Type) where
  | done (a : α)
  | read (offset size : ℕ) (next : ℤ × List UInt8 → Program α)
  | write (offset : ℕ) (src : List UInt8) (next : ℤ → Program α)

namespace Program

variable {α β σ : Type}

/-- One program after the other. -/
def bind : Program α → (α → Program β) → Program β
  | done a, f => f a
  | read offset size next, f => read offset size fun r => (next r).bind f
  | write offset src next, f => write offset src fun r => (next r).bind f

instance : Monad Program where
  pure := done
  bind := bind

/-- Run a program, given what the calls do. -/
def run (step : σ → CacheOp → σ × ℤ × List UInt8) (dev : DevPtr) : Program α → σ → σ × α
  | done a, s => (s, a)
  | read offset size next, s =>
    let r := step s (.read dev offset size)
    run step dev (next r.2) r.1
  | write offset src next, s =>
    let r := step s (.write dev offset src)
    run step dev (next r.2.1) r.1

/-- The run on the buffer cache. -/
def onCache (env : Devices) (dev : DevPtr) (p : Program α) (s : Cache) : Cache × α :=
  p.run (Cache.step env) dev s

/-- The run on plain arrays. -/
def onFlat (env : Devices) (dev : DevPtr) (p : Program α) (flat : Flat) : Flat × α :=
  p.run (Flat.step env) dev flat

@[simp]
theorem onFlat_pure (env : Devices) (dev : DevPtr) (a : α) (flat : Flat) :
    (pure a : Program α).onFlat env dev flat = (flat, a) := rfl

@[simp]
theorem onFlat_bind (env : Devices) (dev : DevPtr) (p : Program α) (f : α → Program β)
    (flat : Flat) : (p >>= f).onFlat env dev flat =
      (f (p.onFlat env dev flat).2).onFlat env dev (p.onFlat env dev flat).1 := by
  induction p generalizing flat with
  | done a => rfl
  | read offset size next ih => exact ih _ _
  | write offset src next ih => exact ih _ _

variable {env : Devices} {dev : DevPtr} {s : Cache} {flat : Flat}

theorem agrees_onCache (env : Devices) (dev : DevPtr) (p : Program α) (s : Cache) :
    Agrees env s.accesses (p.onCache env dev s) (p.onCache env.reliable dev s) := by
  induction p generalizing s with
  | done a => exact .refl env (s, a)
  | read offset size next ih =>
    exact (agrees_step env s (.read dev offset size) (by simp)).bind fun r => ih r.2 r.1
  | write offset src next ih =>
    exact (agrees_step env s (.write dev offset src) (by simp)).bind fun r => ih r.2.1 r.1

/-- On devices that do not fail. -/
theorem onCache_of_reliable (henv : env.Reliable) (hdev : dev ≠ 0) (p : Program α)
    (h : Represents s flat) : Represents (p.onCache env dev s).1 (p.onFlat env dev flat).1 ∧
      (p.onCache env dev s).2 = (p.onFlat env dev flat).2 := by
  induction p generalizing s flat with
  | done a => exact ⟨h, rfl⟩
  | read offset size next ih =>
    obtain ⟨hrep, hret⟩ := h.step henv (.read dev offset size) (.inl hdev)
    unfold onCache onFlat at ih ⊢
    rw [run, run, hret]
    exact ih _ hrep
  | write offset src next ih =>
    obtain ⟨hrep, hret⟩ := h.step henv (.write dev offset src) (.inl hdev)
    unfold onCache onFlat at ih ⊢
    rw [run, run, hret]
    exact ih _ hrep

/-- While no device access fails, the cache behaves as the array does. -/
theorem onCache_eq (hdev : dev ≠ 0) (p : Program α) (h : Represents s flat)
    (hquiet : env.Quiet s.accesses (p.onCache env dev s).1.accesses) :
    Represents (p.onCache env dev s).1 (p.onFlat env dev flat).1 ∧
      (p.onCache env dev s).2 = (p.onFlat env dev flat).2 := by
  rw [(agrees_onCache env dev p s).eq hquiet]
  exact onCache_of_reliable env.reliable_reliable hdev p h

end Program

/-- The bytes of a device as the cache shows them. -/
def Cache.view (s : Cache) (dev : DevPtr) : Bytes := fun n =>
  match bufferFind s dev (n / blockSize) with
  | some i => s.data i (n % blockSize)
  | none => s.disk dev (n / blockSize) (n % blockSize)

/-- A cache shows the array that it stands for. -/
theorem Represents.view_eq {s : Cache} {flat : Flat} (h : Represents s flat) (dev : DevPtr) :
    s.view dev = flat dev := by
  obtain ⟨L, hrep⟩ := h
  funext n
  have hk : n % blockSize < blockSize := Nat.mod_lt _ (by decide)
  have hn : n / blockSize * blockSize + n % blockSize = n := Nat.div_add_mod' _ _
  unfold Cache.view
  cases hfind : bufferFind s dev (n / blockSize) with
  | some i =>
    obtain ⟨hi, rfl, hb⟩ := hrep.toLinked.bufferFind_eq_some.mp hfind
    have hbyte := hrep.content i hi (by simp) _ hk
    rwa [hb, hn] at hbyte
  | none =>
    have hbyte := hrep.backing dev (n / blockSize)
      (fun i hi hdev hb => absurd ⟨hdev, hb⟩ (hrep.toLinked.bufferFind_eq_none hfind i hi)) _ hk
    rwa [hn] at hbyte

end Tomahawk.Block
