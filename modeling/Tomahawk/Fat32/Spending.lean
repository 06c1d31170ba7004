import Tomahawk.Fat32.Attempts

/-!
# What a call takes

The reads that the helpers of `fat32.c` make, and the frames and vnodes that they leave behind.
Every buffer is given back, on every path; only `fat32_create_vnode` keeps frames.
-/

namespace Tomahawk.Fat32

open Tomahawk.Lib

/-- From `s` to `t` a call made at most `k` reads, on the same geometry, gave back the frames that
it took and made no vnode. -/
structure Call.Spends (s t : Call) (k : ℕ) : Prop where
  geo : t.vol.geo = s.vol.geo
  reads : t.reads ≤ s.reads + k
  held : t.held = s.held
  vnodes : t.vnodes = s.vnodes

/-- It also left the volume as it was. -/
structure Call.Reads (s t : Call) (k : ℕ) : Prop extends Call.Spends s t k where
  vol : t.vol = s.vol

/-- The table of vnodes after one more was made. -/
def trackVnode (n : ℕ) : ℕ := if n < 256 then n + 1 else n

/-- From `s` to `t` a call made at most `k` reads and one vnode. -/
structure Call.Makes (s t : Call) (k : ℕ) : Prop where
  geo : t.vol.geo = s.vol.geo
  reads : t.reads ≤ s.reads + k
  held : t.held = s.held + 2
  vnodes : t.vnodes = trackVnode s.vnodes

variable {F : Faults} {s t u : Call} {a b : ℕ}

namespace Call.Spends

theorem refl (s : Call) : s.Spends s 0 := ⟨rfl, le_rfl, rfl, rfl⟩

theorem none (s : Call) : s.Spends s a := ⟨rfl, Nat.le_add_right _ _, rfl, rfl⟩

theorem trans (h : s.Spends t a) (h' : t.Spends u b) : s.Spends u (a + b) :=
  ⟨h'.geo.trans h.geo, by have := h.reads; have := h'.reads; omega, h'.held.trans h.held,
    h'.vnodes.trans h.vnodes⟩

theorem mono (h : s.Spends t a) (hab : a ≤ b) : s.Spends t b :=
  ⟨h.geo, h.reads.trans (by omega), h.held, h.vnodes⟩

theorem makes (h : s.Spends t a) (h' : t.Makes u b) : s.Makes u (a + b) :=
  ⟨h'.geo.trans h.geo, by have := h.reads; have := h'.reads; omega, by rw [h'.held, h.held],
    by rw [h'.vnodes, h.vnodes]⟩

theorem refused (s : Call) : s.Spends s.refused 0 := ⟨rfl, le_rfl, rfl, rfl⟩

/-- A buffer is given back. -/
theorem buffer (h : s.granted.Spends t a) : s.Spends t.freeFrame a :=
  ⟨h.geo, h.reads, by rw [Call.freeFrame, h.held]; rfl, h.vnodes⟩

end Call.Spends

namespace Call.Reads

theorem refl (s : Call) : s.Reads s a := ⟨.none s, rfl⟩

theorem trans (h : s.Reads t a) (h' : t.Reads u b) : s.Reads u (a + b) :=
  ⟨h.toSpends.trans h'.toSpends, h'.vol.trans h.vol⟩

theorem mono (h : s.Reads t a) (hab : a ≤ b) : s.Reads t b := ⟨h.toSpends.mono hab, h.vol⟩

theorem buffer (h : s.granted.Reads t a) : s.Reads t.freeFrame a := ⟨h.toSpends.buffer, h.vol⟩

end Call.Reads

namespace Faults

variable {n c x i idx cur value turns start total needed offset nbyte : ℕ} {ok : Bool} {buf : Bytes}
  {dir vp : Vnode} {name : CStr} {σ : Type} {f : σ → Entry → σ × Bool} {ctx : σ} {rc : ℤ}

theorem reads_fatRead (F : Faults) (s : Call) (c : ℕ) : s.Reads (F.fatRead s c).1 1 := by
  unfold Faults.fatRead Faults.readBytes
  split <;> rename_i heq <;> obtain ⟨rfl, -⟩ := Prod.mk.inj heq <;>
    exact ⟨⟨rfl, le_rfl, rfl, rfl⟩, rfl⟩

theorem spends_writeEntry (h : F.writeEntry s offset value = (t, ok)) : s.Spends t 1 := by
  unfold Faults.writeEntry Faults.readBytes at h
  split at h <;> rename_i heq <;> obtain ⟨rfl, -⟩ := Prod.mk.inj heq <;> cases h <;>
    exact ⟨rfl, le_rfl, rfl, rfl⟩

theorem spends_fatWriteLoop (h : F.fatWriteLoop c value n i s = (t, ok)) : s.Spends t n := by
  induction n generalizing i s with
  | zero =>
    cases h
    exact .refl _
  | succ n ih =>
    rw [Faults.fatWriteLoop] at h
    split at h
    · next hwrite =>
      cases h
      exact (spends_writeEntry hwrite).mono (by omega)
    · next hwrite => exact ((spends_writeEntry hwrite).trans (ih h)).mono (by omega)

theorem spends_fatWrite (h : F.fatWrite s c value = (t, ok)) : s.Spends t s.vol.geo.numFats :=
  spends_fatWriteLoop h

theorem spends_allocScan (h : F.allocScan start total n i s = (t, x)) :
    s.Spends t (n + s.vol.geo.numFats) := by
  induction n generalizing i s with
  | zero =>
    cases h
    exact .none _
  | succ n ih =>
    rw [Faults.allocScan] at h
    dsimp only at h
    have hentry := (F.reads_fatRead s (allocCandidate start total i)).toSpends
    split_ifs at h
    · split at h <;> rename_i hwrite <;> have htaken := hentry.trans (spends_fatWrite hwrite) <;>
        rw [hentry.geo] at htaken <;> cases h
      · exact htaken.mono (by omega)
      · exact ⟨htaken.geo, htaken.reads.trans (by omega), htaken.held, htaken.vnodes⟩
    · have hrest := hentry.trans (ih h)
      rw [hentry.geo] at hrest
      exact hrest.mono (by omega)

theorem spends_allocCluster (h : F.allocCluster s = (t, x)) :
    s.Spends t (s.vol.geo.totalDataClusters + s.vol.geo.numFats) := spends_allocScan h

theorem spends_extendChain (h : F.extendChain s c = (t, x)) :
    s.Spends t (s.vol.geo.totalDataClusters + 3 * s.vol.geo.numFats) := by
  rw [Faults.extendChain] at h
  split at h <;> rename_i halloc <;> have hfirst := spends_allocCluster halloc
  · cases h
    exact hfirst.mono (by omega)
  split at h <;> rename_i u hwrite <;> have hlinked := hfirst.trans (spends_fatWrite hwrite) <;>
    rw [hfirst.geo] at hlinked
  · cases h
    exact hlinked.mono (by omega)
  · obtain ⟨rfl, -⟩ := Prod.mk.inj h
    exact Call.Spends.mono (hlinked.trans (spends_fatWrite rfl)) (by rw [hlinked.geo]; omega)

theorem reads_readCluster {r : Option Bytes} (h : F.readCluster s c = (t, r)) : s.Reads t 1 := by
  unfold Faults.readCluster at h
  split_ifs at h
  · cases h
    exact .refl _
  · obtain ⟨rfl, -⟩ := Prod.mk.inj h
    exact ⟨⟨rfl, le_rfl, rfl, rfl⟩, rfl⟩

theorem spends_writeCluster (h : F.writeCluster s c buf = (t, ok)) : s.Spends t 0 := by
  unfold Faults.writeCluster at h
  split_ifs at h <;> cases h
  · exact .refl _
  · exact ⟨rfl, le_rfl, rfl, rfl⟩

/-- A frame is refused or granted. -/
theorem allocFrame_cases (F : Faults) (s : Call) :
    F.allocFrame s = (s.refused, false) ∨ F.allocFrame s = (s.granted, true) := by
  unfold Faults.allocFrame
  split_ifs
  · exact .inl rfl
  · exact .inr rfl

theorem spends_zeroFresh (F : Faults) (s : Call) (c : ℕ) : s.Spends (F.zeroFresh s c) 0 := by
  rw [Faults.zeroFresh]
  rcases F.allocFrame_cases s with heq | heq <;> rw [heq]
  · exact .refused s
  · exact Call.Spends.buffer (spends_writeCluster rfl)

theorem reads_skipLinks {r : Option ℕ} (h : F.skipLinks n s c = (t, r)) : s.Reads t n := by
  induction n generalizing s c with
  | zero =>
    cases h
    exact .refl _
  | succ n ih =>
    rw [Faults.skipLinks] at h
    dsimp only at h
    have hentry := F.reads_fatRead s c
    split_ifs at h
    · cases h
      exact hentry.mono (by omega)
    · exact (hentry.trans (ih h)).mono (by omega)

theorem reads_chainLengthLoop {count : ℕ} (h : F.chainLengthLoop n s c count = (t, x)) :
    s.Reads t n ∧ x ≤ count + n := by
  induction n generalizing s c count with
  | zero =>
    cases h
    exact ⟨.refl _, le_rfl⟩
  | succ n ih =>
    rw [Faults.chainLengthLoop] at h
    have hentry := F.reads_fatRead s c
    split_ifs at h
    · dsimp only at h
      split_ifs at h
      · cases h
        exact ⟨hentry.mono (by omega), by omega⟩
      · obtain ⟨hrest, hcount⟩ := ih h
        exact ⟨(hentry.trans hrest).mono (by omega), by omega⟩
    · cases h
      exact ⟨.refl _, by omega⟩

theorem spends_patchDirent {patch : ℕ → Bytes → Bytes}
    (h : F.patchDirent s start offset patch = (t, ok)) :
    s.Spends t (offset / s.vol.geo.clusterSize + 1) := by
  rw [Faults.patchDirent] at h
  split at h
  · next hskip =>
    cases h
    exact (reads_skipLinks hskip).toSpends.mono (by omega)
  next u clus hskip =>
  have hwalk := (reads_skipLinks hskip).toSpends
  rcases F.allocFrame_cases u with heq | heq <;> rw [heq] at h <;> dsimp only at h
  · cases h
    exact (hwalk.trans (.refused u)).mono (by omega)
  split at h <;> rename_i hread <;> have hcluster := (reads_readCluster hread).toSpends
  · cases h
    exact hwalk.trans hcluster.buffer
  · obtain ⟨rfl, -⟩ := Prod.mk.inj h
    exact hwalk.trans (.buffer (hcluster.trans (spends_writeCluster rfl)))

theorem spends_updateDirent (h : F.updateDirent s vp = (t, ok)) :
    s.Spends t (vp.dirEntryOffset / s.vol.geo.clusterSize + 1) := by
  unfold Faults.updateDirent at h
  split_ifs at h
  · cases h
    exact .none _
  · exact spends_patchDirent h

/-- Extending a chain; where it stops, the chain is shorter than it should be. -/
theorem spends_extendLoop {r : Option ℕ} (h : F.extendLoop n s c i = (t, r)) :
    s.Spends t (n * (s.vol.geo.totalDataClusters + 3 * s.vol.geo.numFats)) ∧
      ∀ j, r = some j → j < i + n := by
  induction n generalizing s c i with
  | zero =>
    cases h
    exact ⟨.none _, fun j hj => (nomatch hj)⟩
  | succ n ih =>
    rw [Faults.extendLoop] at h
    rw [Nat.succ_mul]
    split at h
    · next hextend =>
      cases h
      refine ⟨(spends_extendChain hextend).mono (by omega), fun j hj => ?_⟩
      cases hj
      omega
    · next u new _ hextend =>
      obtain ⟨hrest, hstop⟩ := ih h
      have hfresh := (spends_extendChain hextend).trans (F.spends_zeroFresh u new)
      rw [hfresh.geo] at hrest
      refine ⟨(hfresh.trans hrest).mono (by omega), fun j hj => ?_⟩
      have := hstop j hj
      omega

theorem spends_writeLoop {src : Bytes} {fuel off done : ℕ} {r : ℕ × Bool}
    (h : F.writeLoop src fuel s c off done n = (t, r)) : s.Spends t (2 * fuel) := by
  induction fuel generalizing s c off done n with
  | zero =>
    cases h
    exact .refl _
  | succ fuel ih =>
    rw [Faults.writeLoop] at h
    split_ifs at h
    · split at h <;> rename_i hread <;> have hcluster := (reads_readCluster hread).toSpends
      · cases h
        exact hcluster.mono (by omega)
      dsimp only at h
      split at h <;> rename_i hwrite <;> have hput := hcluster.trans (spends_writeCluster hwrite)
      · cases h
        exact hput.mono (by omega)
      · exact ((hput.trans (F.reads_fatRead _ _).toSpends).trans (ih h)).mono (by omega)
    · cases h
      exact .none _

theorem spends_writeBytes {src : Bytes} {endOffset : ℕ} {r : Vnode × ℤ}
    (h : F.writeBytes s vp src nbyte offset endOffset = (t, r)) :
    s.Spends t (offset / s.vol.geo.clusterSize % 2 ^ 32 + 2 * nbyte +
      (vp.dirEntryOffset / s.vol.geo.clusterSize + 1)) := by
  rw [Faults.writeBytes] at h
  split at h
  · next hskip =>
    cases h
    exact (reads_skipLinks hskip).toSpends.mono
      ((Nat.le_add_right _ _).trans (Nat.le_add_right _ _))
  next u cur hskip =>
  have hwalk := (reads_skipLinks hskip).toSpends
  rcases F.allocFrame_cases u with heq | heq <;> rw [heq] at h <;> dsimp only at h
  · cases h
    exact (hwalk.trans (.refused u)).mono
      ((Nat.le_add_right _ _).trans (Nat.le_add_right _ _))
  split at h <;> rename_i hloop <;> have hcopied := hwalk.trans (spends_writeLoop hloop).buffer
  · cases h
    exact hcopied.mono (Nat.le_add_right _ _)
  · obtain ⟨rfl, -⟩ := Prod.mk.inj h
    refine hcopied.trans (.mono (spends_updateDirent rfl) (le_of_eq ?_))
    rw [hcopied.geo]
    split_ifs <;> rfl

/-- The first cluster of a file, whose entry stays where it is. -/
theorem spends_firstCluster {r : Option Vnode} (h : F.firstCluster s vp = (t, r)) :
    s.Spends t (s.vol.geo.totalDataClusters + s.vol.geo.numFats) ∧
      ∀ wp, r = some wp → wp.dirEntryOffset = vp.dirEntryOffset := by
  unfold Faults.firstCluster at h
  split_ifs at h
  · cases h
    exact ⟨.none _, fun wp hwp => by rw [← Option.some.inj hwp]⟩
  split at h <;> rename_i halloc <;> have hfirst := spends_allocCluster halloc <;> cases h
  · exact ⟨hfirst, fun wp hwp => (nomatch hwp)⟩
  · exact ⟨hfirst.trans (F.spends_zeroFresh _ _), fun wp hwp => by rw [← Option.some.inj hwp]⟩

/-! ## Walks that returned -/

theorem reads_lastLoop {last : ℕ} (h : F.lastLoop n s c = some (t, last)) : s.Reads t n := by
  induction n generalizing s c with
  | zero => cases h
  | succ n ih =>
    rw [Faults.lastLoop] at h
    dsimp only at h
    have hentry := F.reads_fatRead s c
    split_ifs at h
    · exact (hentry.trans (ih h)).mono (by omega)
    · cases h
      exact hentry.mono (by omega)

theorem reads_iterateLoop {lfn : Lfn} {r : ℤ × σ}
    (h : F.iterateLoop f n s c idx lfn ctx = some (t, r)) : s.Reads t (2 * n) := by
  induction n generalizing s c idx lfn ctx with
  | zero => cases h
  | succ n ih =>
    rw [Faults.iterateLoop] at h
    split_ifs at h
    · split at h <;> rename_i hread <;> have hcluster := reads_readCluster hread
      · cases h
        exact hcluster.mono (by omega)
      split at h
      · cases h
        exact hcluster.mono (by omega)
      · exact ((hcluster.trans (F.reads_fatRead _ _)).trans (ih h)).mono (by omega)
    · cases h
      exact .refl _

theorem reads_iterateDir {r : ℤ × σ} (h : F.iterateDir turns s start f ctx = some (t, r)) :
    s.Reads t (2 * turns) := by
  rw [Faults.iterateDir] at h
  rcases F.allocFrame_cases s with heq | heq <;> rw [heq] at h <;> dsimp only at h
  · cases h
    exact ⟨(Call.Spends.refused s).mono (by omega), rfl⟩
  · split at h
    · cases h
    · next hloop =>
      cases h
      exact (reads_iterateLoop hloop).buffer

theorem reads_findFreeLoop {r : Option (ℕ ⊕ ℕ)} (h : F.findFreeLoop n s c idx = some (t, r)) :
    s.Reads t (2 * n) ∧ ∀ off, r = some (.inl off) → off < 2 ^ 32 := by
  induction n generalizing s c idx with
  | zero => cases h
  | succ n ih =>
    rw [Faults.findFreeLoop] at h
    split_ifs at h
    · split at h <;> rename_i hread <;> have hcluster := reads_readCluster hread
      · cases h
        exact ⟨hcluster.mono (by omega), fun off hoff => (nomatch hoff)⟩
      split at h
      · cases h
        refine ⟨hcluster.mono (by omega), fun off hoff => ?_⟩
        obtain rfl := Sum.inl.inj (Option.some.inj hoff)
        exact Nat.mod_lt _ (by decide)
      · obtain ⟨hrest, hoff⟩ := ih h
        exact ⟨((hcluster.trans (F.reads_fatRead _ _)).trans hrest).mono (by omega), hoff⟩
    · cases h
      exact ⟨.refl _, fun off hoff => (nomatch hoff)⟩

theorem spends_findFreeDirent {r : Option ℕ} (h : F.findFreeDirent turns s start = some (t, r)) :
    s.Spends t (3 * turns + (s.vol.geo.totalDataClusters + 3 * s.vol.geo.numFats)) ∧
      ∀ off, r = some off → off < 2 ^ 32 := by
  rw [Faults.findFreeDirent] at h
  rcases F.allocFrame_cases s with heq | heq <;> rw [heq] at h <;> dsimp only at h
  · cases h
    exact ⟨(Call.Spends.refused s).mono (by omega), fun off hoff => (nomatch hoff)⟩
  split at h
  · cases h
  all_goals
    rename_i hloop
    obtain ⟨hsearch, hoff⟩ := reads_findFreeLoop hloop
    have hbuffer := hsearch.toSpends.buffer
  · cases h
    exact ⟨hbuffer.mono (by omega), fun off hoff => (nomatch hoff)⟩
  · cases h
    refine ⟨hbuffer.mono (by omega), fun off' hoff' => ?_⟩
    cases hoff'
    exact hoff _ rfl
  split at h
  · cases h
  next hlast =>
  have hwalked := hbuffer.trans (reads_lastLoop hlast).toSpends
  split at h <;> rename_i hextend <;> have hmore := hwalked.trans (spends_extendChain hextend) <;>
    rw [hwalked.geo] at hmore <;> cases h
  · exact ⟨hmore.mono (by omega), fun off hoff => (nomatch hoff)⟩
  · refine ⟨(hmore.trans (F.spends_zeroFresh _ _)).mono (by omega), fun off hoff => ?_⟩
    cases hoff
    exact Nat.mod_lt _ (by decide)

theorem spends_growFile {r : Option ℕ} (h : F.growFile turns s start needed = some (t, r)) :
    s.Spends t (s.vol.geo.totalDataClusters + 1 + turns +
        needed * (s.vol.geo.totalDataClusters + 3 * s.vol.geo.numFats)) ∧
      ∀ i, r = some i → i < needed := by
  rw [Faults.growFile, Faults.chainLength] at h
  dsimp only at h
  have hlength : s.Spends (F.chainLengthLoop (s.vol.geo.totalDataClusters + 1) s start 0).1 _ :=
    (reads_chainLengthLoop rfl).1.toSpends
  split_ifs at h with hlt
  · split at h
    · cases h
    next w last hlast =>
    have hwalked := hlength.trans (reads_lastLoop hlast).toSpends
    obtain ⟨hextend, hstop⟩ := spends_extendLoop (Option.some.inj h)
    rw [hwalked.geo] at hextend
    refine ⟨(hwalked.trans hextend).mono ?_, fun i hi => ?_⟩
    · exact Nat.add_le_add_left (Nat.mul_le_mul_right _ (Nat.sub_le _ _)) _
    · have := hstop i hi
      omega
  · cases h
    refine ⟨hlength.mono ?_, fun i hi => (nomatch hi)⟩
    rw [Nat.add_assoc]
    exact Nat.le_add_right _ _

/-! ## Operations that returned -/

/-- A vnode is made and kept, with its two frames. -/
theorem createVnode_cases (F : Faults) (s : Call) (vp : Vnode) :
    (∃ t, F.createVnode s vp = (t, .none) ∧ s.Spends t 0 ∧ t.vol = s.vol) ∨
      ∃ t, F.createVnode s vp = (t, some vp) ∧ s.Makes t 0 ∧ t.vol = s.vol := by
  rw [Faults.createVnode]
  rcases F.allocFrame_cases s with heq | heq <;> rw [heq]
  · exact .inl ⟨_, rfl, .refused s, rfl⟩
  dsimp only
  rcases F.allocFrame_cases s.granted with heq' | heq' <;> rw [heq']
  · exact .inl ⟨_, rfl, (Call.Spends.refused s.granted).buffer, rfl⟩
  · exact .inr ⟨_, rfl, ⟨rfl, le_rfl, rfl, rfl⟩, rfl⟩

/-- A lookup makes a vnode exactly when it stores one. -/
theorem spends_vopLookup {r : Option Vnode} (h : F.vopLookup turns s dir name = some (t, rc, r)) :
    t.vol = s.vol ∧ t.reads ≤ s.reads + 2 * turns ∧ (r = .none → s.Spends t (2 * turns)) ∧
      (r ≠ .none → rc = 0 ∧ s.Makes t (2 * turns)) := by
  rw [Faults.vopLookup] at h
  split_ifs at h with hdir
  swap
  · cases h
    exact ⟨rfl, Nat.le_add_right _ _, fun _ => .none _, fun hne => absurd rfl hne⟩
  split at h
  · cases h
  next u rc' found hiter =>
  have hread := reads_iterateDir hiter
  have hspent := hread.toSpends
  split_ifs at h
  · cases h
    exact ⟨hread.vol, hread.reads, fun _ => hspent, fun hne => absurd rfl hne⟩
  split at h
  · cases h
    exact ⟨hread.vol, hread.reads, fun _ => hspent, fun hne => absurd rfl hne⟩
  next e =>
  rcases F.createVnode_cases u (lookupVnode u.vol dir.startCluster e) with
    ⟨w, heq, hw, hvol⟩ | ⟨w, heq, hw, hvol⟩ <;> rw [heq] at h <;> cases h
  · exact ⟨hvol.trans hread.vol, (hspent.trans hw).reads, fun _ => hspent.trans hw,
      fun hne => absurd rfl hne⟩
  · exact ⟨hvol.trans hread.vol, (hspent.makes hw).reads, fun hnone => (nomatch hnone),
      fun _ => ⟨rfl, hspent.makes hw⟩⟩

/-- Creating a file: it makes one vnode if it succeeds. -/
theorem spends_vopCreate {r : Option Vnode} (h : F.vopCreate turns s dir name = some (t, rc, r)) :
    t.reads ≤ s.reads + (5 * turns + (s.vol.geo.totalDataClusters + 3 * s.vol.geo.numFats) +
      (2 ^ 32 / s.vol.geo.clusterSize + 1)) ∧ (rc = 0 → ∃ k, s.Makes t k) := by
  generalize hlinks : 2 ^ 32 / s.vol.geo.clusterSize = links
  rw [Faults.vopCreate] at h
  split_ifs at h with hdir
  swap
  · cases h
    exact ⟨Nat.le_add_right _ _, fun hzero => absurd hzero (by decide)⟩
  split at h
  · cases h
  next u rc' existing hlook =>
  obtain ⟨hvol, hreads, hnone, hsome⟩ := spends_vopLookup hlook
  split_ifs at h with hzero
  · cases h
    exact ⟨hreads.trans (by omega), fun hzero => absurd hzero (by decide)⟩
  have hlooked : s.Spends u (2 * turns) := hnone (by_contra fun hne => hzero (hsome hne).1)
  split at h
  · cases h
  all_goals
    rename_i hfind
    obtain ⟨hslot, hoff⟩ := spends_findFreeDirent hfind
    rw [hvol] at hslot
    have hfound := hlooked.trans hslot
  · cases h
    exact ⟨hfound.reads.trans (by omega), fun hzero => absurd hzero (by decide)⟩
  dsimp only [Faults.writeDirentAt] at h
  split at h
  all_goals
    rename_i hpatch
    have hwritten := (hfound.trans (spends_patchDirent hpatch)).mono (b := 5 * turns +
      (s.vol.geo.totalDataClusters + 3 * s.vol.geo.numFats) + (links + 1)) (by
        have hle := hlinks ▸ Nat.div_le_div_right (c := s.vol.geo.clusterSize) (hoff _ rfl).le
        rw [hfound.geo]
        omega)
  · cases h
    exact ⟨hwritten.reads, fun hzero => absurd hzero (by decide)⟩
  rename_i offset _ z
  rcases F.createVnode_cases z ⟨0, 0, attrArchive, dir.startCluster, offset⟩ with
    ⟨y, heq, hy, -⟩ | ⟨y, heq, hy, -⟩ <;> rw [heq] at h <;> cases h
  · exact ⟨(hwritten.trans hy).reads, fun hzero => absurd hzero (by decide)⟩
  · exact ⟨(hwritten.makes hy).reads, fun _ => ⟨_, hwritten.makes hy⟩⟩

/-- A write: the last cluster that is needed begins in front of the end of the request. -/
theorem spends_vopWriteAt {src : Bytes} {r : Vnode × ℤ}
    (h : F.vopWriteAt turns s vp src nbyte offset = some (t, r)) :
    s.Spends t (s.vol.geo.totalDataClusters + s.vol.geo.numFats +
      (s.vol.geo.totalDataClusters + 1 + turns +
        (offset + nbyte) * (s.vol.geo.totalDataClusters + 3 * s.vol.geo.numFats)) +
      (offset + 2 * nbyte + (vp.dirEntryOffset / s.vol.geo.clusterSize + 1))) := by
  rw [Faults.vopWriteAt] at h
  split_ifs at h with hdir hzero
  · cases h
    exact (Call.Spends.refl s).mono (Nat.zero_le _)
  · cases h
    exact (Call.Spends.refl s).mono (Nat.zero_le _)
  split at h
  · next hcall =>
    cases h
    exact (spends_firstCluster hcall).1.mono (by rw [Nat.add_assoc]; exact Nat.le_add_right _ _)
  next u wp hcall =>
  obtain ⟨hfirst, hentry⟩ := spends_firstCluster hcall
  replace hentry := hentry wp rfl
  dsimp only at h
  have husize : u.vol.geo.clusterSize = s.vol.geo.clusterSize := by rw [hfirst.geo]
  rw [husize] at h
  generalize hsize : s.vol.geo.clusterSize = size at husize h ⊢
  generalize hneeded :
    ((offset + nbyte) % 2 ^ 64 + size - 1) % 2 ^ 64 / size % 2 ^ 32 = needed at h
  have hceil : needed ≤ ((offset + nbyte) % 2 ^ 64 + size - 1) / size := by
    rw [← hneeded]
    exact (Nat.mod_le _ _).trans (Nat.div_le_div_right (Nat.mod_le _ _))
  have hpos : needed ≠ 0 → 0 < size := by
    intro hne
    by_contra hnot
    obtain rfl : size = 0 := by omega
    omega
  have hbefore : ∀ i < needed, i * size < offset + nbyte := by
    intro i hi
    have hmul := (Nat.le_div_iff_mul_le (hpos (by omega))).mp
      (Nat.succ_le_of_lt (hi.trans_le hceil))
    rw [Nat.succ_mul] at hmul
    omega
  have hfew : needed ≤ offset + nbyte := by
    by_contra hmore
    have hlast := hbefore (offset + nbyte) (by omega)
    have : offset + nbyte ≤ (offset + nbyte) * size :=
      Nat.le_mul_of_pos_right _ (hpos (by omega))
    omega
  have hgrown : ∀ {w r'}, F.growFile turns u wp.startCluster needed = some (w, r') →
      s.Spends w (s.vol.geo.totalDataClusters + s.vol.geo.numFats +
        (s.vol.geo.totalDataClusters + 1 + turns +
          (offset + nbyte) * (s.vol.geo.totalDataClusters + 3 * s.vol.geo.numFats))) := by
    intro w r' hgrow
    have hmore := (spends_growFile hgrow).1
    rw [hfirst.geo] at hmore
    exact hfirst.trans (hmore.mono (Nat.add_le_add_left (Nat.mul_le_mul_right _ hfew) _))
  have hrest : ∀ {w r' n endOffset}, F.growFile turns u wp.startCluster needed = some (w, r') →
      n ≤ nbyte → F.writeBytes w wp src n offset endOffset = (t, r) →
      s.Spends t (s.vol.geo.totalDataClusters + s.vol.geo.numFats +
        (s.vol.geo.totalDataClusters + 1 + turns +
          (offset + nbyte) * (s.vol.geo.totalDataClusters + 3 * s.vol.geo.numFats)) +
        (offset + 2 * nbyte + (vp.dirEntryOffset / size + 1))) := by
    intro w r' n endOffset hgrow hn hwrite
    refine (hgrown hgrow).trans ((spends_writeBytes hwrite).mono ?_)
    rw [(hgrown hgrow).geo, hsize, hentry]
    have hskip : offset / size % 2 ^ 32 ≤ offset := (Nat.mod_le _ _).trans (Nat.div_le_self _ _)
    exact Nat.add_le_add_right (by omega) _
  split at h
  · cases h
  · next hgrow => exact hrest hgrow le_rfl (Option.some.inj h)
  · next i hgrow =>
    split_ifs at h with hfull
    · cases h
      exact (hgrown hgrow).mono (Nat.le_add_right _ _)
    · have hpart := hbefore i ((spends_growFile hgrow).2 i rfl)
      exact hrest hgrow (by omega) (Option.some.inj h)

end Faults

end Tomahawk.Fat32
