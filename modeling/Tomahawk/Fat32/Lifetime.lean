import Tomahawk.Fat32.Termination

/-!
# The frames of a mount

The frames that a volume takes between `fat32_mount` and `fat32_unmount`. Unmounting frees the
vnodes of the table of the mount, which has 256 places. A vnode that is made when the table is full
is not in it, and its two frames are lost.
-/

namespace Tomahawk.Fat32

open Tomahawk.Lib

/-- A mounted volume, the free frames of the system and `vnode_count`. The frames are an integer,
so that a difference is not cut off. -/
structure Mounted where
  vol : Volume
  free : ℤ
  vnodes : ℕ

/-- `fat32_mount` takes a frame for its state and makes the vnode of the root directory. -/
def mountFrames (frames blocks : ℕ) (disk : Bytes) : Option Mounted :=
  (fat32Mount frames blocks disk).map fun r => ⟨r.1, frames - (1 + 2), trackVnode 0⟩

/-- The free frames after `fat32_unmount`: it frees two frames for each vnode of the table, and
the state of the mount. -/
def Mounted.unmounted (m : Mounted) : ℤ := m.free + 2 * m.vnodes + 1

/-- The operations on a mounted volume. -/
inductive MountOp where
  | lookup (dir : Vnode) (name : CStr)
  | create (dir : Vnode) (name : CStr)
  | mkdir (dir : Vnode) (name : CStr)
  | readAt (vp : Vnode) (nbyte offset : ℕ)
  | writeAt (vp : Vnode) (src : Bytes) (nbyte offset : ℕ)
  | remove (dir : Vnode) (name : CStr)

namespace MountOp

/-- The operation, and whether it succeeds. -/
def attempt (F : Faults) (turns : ℕ) (s : Call) : MountOp → Option (Call × Bool)
  | lookup dir name =>
    (F.vopLookup turns s dir name).map fun r => (r.1, decide (r.2.1 = 0) && r.2.2.isSome)
  | create dir name => (F.vopCreate turns s dir name).map fun r => (r.1, decide (r.2.1 = 0))
  | mkdir dir name => (F.vopMkdir turns s dir name).map fun r => (r.1, decide (r.2.1 = 0))
  | readAt vp nbyte offset =>
    let r := F.vopReadAt s vp nbyte offset
    some (r.1, decide (0 ≤ r.2.1))
  | writeAt vp src nbyte offset =>
    (F.vopWriteAt turns s vp src nbyte offset).map fun r => (r.1, decide (0 ≤ r.2.2))
  | remove dir name => (F.vopRemove turns s dir name).map fun r => (r.1, decide (r.2 = 0))

/-- The operations that give the caller a vnode. -/
def givesVnode : MountOp → Bool
  | lookup _ _ => true
  | create _ _ => true
  | mkdir _ _ => true
  | readAt _ _ _ => false
  | writeAt _ _ _ _ => false
  | remove _ _ => false

end MountOp

/-- An operation on a mounted volume that succeeds, whatever the device and the allocator of frames
do meanwhile. -/
inductive MountStep (m : Mounted) (op : MountOp) : Mounted → Prop
  | mk (F : Faults) (turns : ℕ) (t : Call)
      (h : op.attempt F turns { Call.start m.vol with vnodes := m.vnodes } = some (t, true)) :
      MountStep m op ⟨t.vol, m.free - t.held, t.vnodes⟩

/-- A sequence of operations that all succeed. -/
inductive MountRun : Mounted → List MountOp → Mounted → Prop
  | nil (m : Mounted) : MountRun m [] m
  | cons {m m' m'' : Mounted} {op : MountOp} {ops : List MountOp} :
      MountStep m op m' → MountRun m' ops m'' → MountRun m (op :: ops) m''

/-! ## What the other operations take -/

variable {F : Faults} {s t : Call} {turns : ℕ} {dir vp : Vnode} {name : CStr} {rc frames : ℤ}
  {op : MountOp} {m m' : Mounted} {made : ℕ}

theorem Faults.spends_freeLoop {n cur : ℕ} {ok : Bool} (h : F.freeLoop n s cur = (t, ok)) :
    ∃ k, s.Spends t k := by
  induction n generalizing s cur with
  | zero =>
    cases h
    exact ⟨0, .refl _⟩
  | succ n ih =>
    rw [freeLoop] at h
    split_ifs at h
    · dsimp only at h
      split at h <;> rename_i hwrite <;>
        have hfreed := (F.reads_fatRead s cur).toSpends.trans (spends_fatWrite hwrite)
      · cases h
        exact ⟨_, hfreed⟩
      · obtain ⟨k, hrest⟩ := ih h
        exact ⟨_, hfreed.trans ⟨hrest.geo, hrest.reads, hrest.held, hrest.vnodes⟩⟩
    · cases h
      exact ⟨0, .refl _⟩

theorem Faults.spends_freeChain (F : Faults) (s : Call) (start : ℕ) :
    ∃ k, s.Spends (F.freeChain s start).1 k := spends_freeLoop rfl

/-- Making a directory: it makes one vnode if it succeeds. -/
theorem Faults.spends_vopMkdir {r : Option Vnode}
    (h : F.vopMkdir turns s dir name = some (t, rc, r)) (hrc : rc = 0) : ∃ k, s.Makes t k := by
  subst hrc
  rw [vopMkdir] at h
  split_ifs at h with hdir
  swap
  · cases h
  split at h
  · cases h
  next u rc' existing hlook =>
  obtain ⟨-, -, hnone, hsome⟩ := spends_vopLookup hlook
  split_ifs at h with hzero
  · cases h
  have hlooked : s.Spends u (2 * turns) := hnone (by_contra fun hne => hzero (hsome hne).1)
  split at h
  · cases h
  next a new _ halloc =>
  have htaken := hlooked.trans (spends_allocCluster halloc)
  rcases F.allocFrame_cases a with heq | heq <;> rw [heq] at h <;> dsimp only at h
  · cases h
  split at h
  · cases h
  next hwrite =>
  have hwritten := htaken.trans (spends_writeCluster hwrite).buffer
  split at h
  · cases h
  · cases h
  next offset hfind =>
  have hfound := hwritten.trans (spends_findFreeDirent hfind).1
  split at h
  · cases h
  next y hpatch =>
  have hstore := hfound.trans (spends_patchDirent hpatch)
  rcases F.createVnode_cases y ⟨new, 0, attrDirectory, dir.startCluster, offset⟩ with
    ⟨x, heq', hx, -⟩ | ⟨x, heq', hx, -⟩ <;> rw [heq'] at h <;> cases h
  exact ⟨_, hstore.makes hx⟩

theorem Faults.spends_readLoop {fuel cur off n : ℕ} {bytes : List UInt8} {r : List UInt8 × Bool}
    (h : F.readLoop fuel s cur off n bytes = (t, r)) : s.Spends t (2 * fuel) := by
  induction fuel generalizing s cur off n bytes with
  | zero =>
    cases h
    exact .refl _
  | succ fuel ih =>
    rw [readLoop] at h
    split_ifs at h
    · split at h <;> rename_i hread <;> have hcluster := (reads_readCluster hread).toSpends
      · cases h
        exact hcluster.mono (by omega)
      · exact ((hcluster.trans (F.reads_fatRead _ _).toSpends).trans (ih h)).mono (by omega)
    · cases h
      exact .none _

theorem Faults.spends_vopReadAt (F : Faults) (s : Call) (vp : Vnode) (nbyte offset : ℕ) :
    ∃ k, s.Spends (F.vopReadAt s vp nbyte offset).1 k := by
  rw [vopReadAt]
  split_ifs
  · exact ⟨0, .refl s⟩
  split
  · next hskip => exact ⟨_, (reads_skipLinks hskip).toSpends⟩
  next u cur hskip =>
  have hwalk := (reads_skipLinks hskip).toSpends
  rcases F.allocFrame_cases u with heq | heq <;> rw [heq]
  · exact ⟨_, hwalk.trans (.refused u)⟩
  · exact ⟨_, hwalk.trans (.buffer (spends_readLoop rfl))⟩

theorem Faults.spends_vopRemove (h : F.vopRemove turns s dir name = some (t, rc)) :
    ∃ k, s.Spends t k := by
  rw [vopRemove] at h
  split_ifs at h with hdir
  swap
  · cases h
    exact ⟨0, .refl _⟩
  split at h
  · cases h
  · next hiter =>
    cases h
    exact ⟨_, (reads_iterateDir hiter).toSpends⟩
  next u _ e hiter =>
  have hfound := (reads_iterateDir hiter).toSpends
  -- Whether the check for an empty directory is made or not.
  have hempty : ∀ {w isEmpty}, (if isDirAttr (dirAttr e.de) ∧ 2 ≤ direntCluster e.de then
      F.dirIsEmpty turns u (direntCluster e.de) else some (u, true)) = some (w, isEmpty) →
      ∃ k, s.Spends w k := by
    intro w isEmpty hcheck
    split_ifs at hcheck
    · rw [dirIsEmpty] at hcheck
      split at hcheck
      · cases hcheck
      · next hscan =>
        cases hcheck
        exact ⟨_, hfound.trans (reads_iterateDir hscan).toSpends⟩
    · cases hcheck
      exact ⟨_, hfound⟩
  dsimp only at h
  split at h
  · cases h
  · next hcheck =>
    cases h
    exact hempty hcheck
  next w hcheck =>
  obtain ⟨k, hchecked⟩ := hempty hcheck
  split at h <;> rename_i hpatch <;> have hpatched := hchecked.trans (spends_patchDirent hpatch) <;>
    cases h
  · exact ⟨_, hpatched⟩
  · split_ifs
    · obtain ⟨k', hfreed⟩ := F.spends_freeChain _ (direntCluster e.de)
      exact ⟨_, hpatched.trans hfreed⟩
    · exact ⟨_, hpatched⟩

/-! ## Runs -/

/-- What a successful operation leaves behind. -/
theorem MountOp.attempt_leaves (h : op.attempt F turns s = some (t, true)) :
    ∃ k, if op.givesVnode = true then s.Makes t k else s.Spends t k := by
  cases op with
  | lookup dir name =>
    obtain ⟨⟨u, rc, r⟩, hcall, heq⟩ := Option.map_eq_some_iff.mp h
    obtain ⟨rfl, hok⟩ := Prod.mk.inj heq
    obtain ⟨-, hsome⟩ := Bool.and_eq_true_iff.mp hok
    exact ⟨_, ((Faults.spends_vopLookup hcall).2.2.2
      (Option.isSome_iff_ne_none.mp hsome)).2⟩
  | create dir name =>
    obtain ⟨⟨u, rc, r⟩, hcall, heq⟩ := Option.map_eq_some_iff.mp h
    obtain ⟨rfl, hok⟩ := Prod.mk.inj heq
    exact (Faults.spends_vopCreate hcall).2 (of_decide_eq_true hok)
  | mkdir dir name =>
    obtain ⟨⟨u, rc, r⟩, hcall, heq⟩ := Option.map_eq_some_iff.mp h
    obtain ⟨rfl, hok⟩ := Prod.mk.inj heq
    exact Faults.spends_vopMkdir hcall (of_decide_eq_true hok)
  | readAt vp nbyte offset =>
    obtain ⟨rfl, -⟩ := Prod.mk.inj (Option.some.inj h)
    exact F.spends_vopReadAt s vp nbyte offset
  | writeAt vp src nbyte offset =>
    obtain ⟨⟨u, r⟩, hcall, heq⟩ := Option.map_eq_some_iff.mp h
    obtain ⟨rfl, -⟩ := Prod.mk.inj heq
    exact ⟨_, Faults.spends_vopWriteAt hcall⟩
  | remove dir name =>
    obtain ⟨⟨u, rc⟩, hcall, heq⟩ := Option.map_eq_some_iff.mp h
    obtain ⟨rfl, -⟩ := Prod.mk.inj heq
    exact Faults.spends_vopRemove hcall

/-- `made` vnodes were made since there were `frames` free frames: the root and one for each
operation that gave one. -/
structure Mounted.Tracks (m : Mounted) (frames : ℤ) (made : ℕ) : Prop where
  free : m.free = frames - 1 - 2 * made
  vnodes : m.vnodes = min made 256

theorem Mounted.Tracks.step (h : m.Tracks frames made) (hstep : MountStep m op m') :
    m'.Tracks frames (made + if op.givesVnode then 1 else 0) := by
  obtain ⟨F, turns, t, hcall⟩ := hstep
  obtain ⟨k, hleaves⟩ := MountOp.attempt_leaves hcall
  have hfree := h.free
  have hvnodes := h.vnodes
  split_ifs at hleaves ⊢
  · have hheld : t.held = 0 + 2 := hleaves.held
    have htable : t.vnodes = trackVnode m.vnodes := hleaves.vnodes
    refine ⟨?_, ?_⟩
    · push_cast
      omega
    · simp only [htable, hvnodes, trackVnode]
      split_ifs <;> omega
  · have hheld : t.held = 0 := hleaves.held
    have htable : t.vnodes = m.vnodes := hleaves.vnodes
    refine ⟨?_, ?_⟩
    · simp only [hheld]
      omega
    · simp only [htable, hvnodes]
      omega

theorem Mounted.Tracks.run {ops : List MountOp} (h : m.Tracks frames made)
    (hrun : MountRun m ops m') :
    m'.Tracks frames (made + (ops.filter MountOp.givesVnode).length) := by
  induction hrun generalizing made with
  | nil m => exact h
  | @cons m m' m'' op ops hstep hrest ih =>
    have hall := ih (h.step hstep)
    rw [List.filter_cons]
    split_ifs with hop
    · rw [if_pos hop, Nat.add_assoc, Nat.add_comm 1] at hall
      exact hall
    · rw [if_neg hop] at hall
      exact hall

/-- Over every sequence of successful operations between mounting and unmounting: the free frames
are as many as before exactly if at most 255 of the operations gave a vnode. -/
theorem mount_frames_iff {frames blocks : ℕ} {disk : Bytes} {m₀ m : Mounted}
    {ops : List MountOp} (hmount : mountFrames frames blocks disk = some m₀)
    (hrun : MountRun m₀ ops m) :
    m.unmounted = frames ↔ (ops.filter MountOp.givesVnode).length ≤ 255 := by
  obtain ⟨⟨v, root⟩, -, rfl⟩ := Option.map_eq_some_iff.mp hmount
  have hstart : Mounted.Tracks ⟨v, frames - (1 + 2), trackVnode 0⟩ frames 1 :=
    ⟨by push_cast; omega, rfl⟩
  have hend := hstart.run hrun
  have hfree := hend.free
  have hvnodes := hend.vnodes
  unfold Mounted.unmounted
  omega

/-! ## A table that is full -/

/-- When no read fails, a scan depends on the volume only. -/
theorem Faults.iterateLoop_congr (hread : ∀ k, F.read k = false) {σ : Type}
    {f : σ → Entry → σ × Bool} {n c idx : ℕ} {lfn : Lfn} {ctx : σ} (hvol : t.vol = s.vol) :
    (F.iterateLoop f n t c idx lfn ctx).map Prod.snd =
      (F.iterateLoop f n s c idx lfn ctx).map Prod.snd := by
  induction n generalizing s t c idx lfn ctx with
  | zero => rfl
  | succ n ih =>
    rw [iterateLoop, iterateLoop]
    split_ifs with hgo
    · rw [readCluster_eq hread hgo.1, readCluster_eq hread hgo.1]
      simp only [hvol, fatRead_nextOn hread]
      split_ifs
      · dsimp only
        cases scanSlots f (clusterBuf s.vol c) (idx * s.vol.geo.clusterSize)
          (s.vol.geo.clusterSize / 32) 0 lfn ctx with
        | inl ctx' => rfl
        | inr r => exact ih rfl
      · rfl
    · rfl

/-- A disk whose root directory has one file. -/
def fileDisk : Bytes := storeDirent (direntFor nameA attrArchive 0) 1024 (bootDisk smallBpb)

/-- The volume on it. -/
def fileVolume : Volume := ⟨smallBpb.geometry, 0xFFFFFFFF, 2, fileDisk⟩

/-- Looking the file up, which succeeds every time. -/
def lookupA : MountOp := .lookup (rootVnode smallBpb.geometry) nameA

theorem fileVolume_lookup (hvol : m.vol = fileVolume) :
    MountStep m lookupA ⟨fileVolume, m.free - 2, trackVnode m.vnodes⟩ := by
  have hscan : ((Faults.never 2).iterateLoop (nameCallback nameA) 1 (.start fileVolume) 2 0
      Lfn.start none).map (fun r => (r.2.1, r.2.2.isSome)) = some (0, true) := by decide
  obtain ⟨⟨u, rc, found⟩, hloop, hdata⟩ := Option.map_eq_some_iff.mp hscan
  obtain ⟨rfl, hsome⟩ := Prod.mk.inj hdata
  obtain ⟨e, rfl⟩ := Option.isSome_iff_exists.mp hsome
  obtain ⟨s, hs⟩ : ∃ s : Call, s = { Call.start m.vol with vnodes := m.vnodes } := ⟨_, rfl⟩
  have hsame : ((Faults.never 2).iterateLoop (nameCallback nameA) 1 s.granted 2 0
      Lfn.start none).map Prod.snd = some (0, some e) := by
    rw [Faults.iterateLoop_congr (s := .start fileVolume) (fun _ => rfl) (by rw [hs]; exact hvol),
      hloop]
    rfl
  obtain ⟨⟨w, r⟩, hcall, rfl⟩ := Option.map_eq_some_iff.mp hsame
  have hlookup : (Faults.never 2).vopLookup 1 s (rootVnode smallBpb.geometry) nameA =
      some ({ w.freeFrame.granted.granted with vnodes := trackVnode w.vnodes }, 0,
        some (lookupVnode w.vol 2 e)) := by
    rw [Faults.vopLookup, if_neg (by decide), Faults.iterateDir]
    simp only [show (Faults.never 2).allocFrame s = (s.granted, true) from rfl,
      show (rootVnode smallBpb.geometry).startCluster = 2 from rfl, hcall]
    rfl
  have hattempt : lookupA.attempt (.never 2) 1 s =
      some ({ w.freeFrame.granted.granted with vnodes := trackVnode w.vnodes }, true) := by
    rw [lookupA, MountOp.attempt, hlookup]
    rfl
  have hspent := Faults.reads_iterateLoop hcall
  have hstep : MountStep m lookupA ⟨w.vol, m.free - ((w.held - 1 + 1 + 1 : ℕ) : ℤ),
      trackVnode w.vnodes⟩ := .mk (.never 2) 1 _ (hs ▸ hattempt)
  have hheld : w.held = 1 := by rw [hspent.held, hs]; rfl
  have hvnodes : w.vnodes = m.vnodes := by rw [hspent.vnodes, hs]; rfl
  rwa [hspent.vol, hheld, hvnodes, show s.granted.vol = fileVolume by rw [hs]; exact hvol] at hstep

/-- Looking it up again and again. -/
theorem fileVolume_lookups (n : ℕ) (hvol : m.vol = fileVolume) :
    ∃ m', MountRun m (List.replicate n lookupA) m' := by
  induction n generalizing m with
  | zero => exact ⟨m, .nil m⟩
  | succ n ih =>
    obtain ⟨m', hrest⟩ := ih (m := ⟨fileVolume, m.free - 2, trackVnode m.vnodes⟩) rfl
    exact ⟨m', .cons (fileVolume_lookup hvol) hrest⟩

theorem mountFrames_fileDisk :
    mountFrames 600 2 fileDisk = some ⟨fileVolume, 600 - (1 + 2), trackVnode 0⟩ := rfl

theorem filter_lookups (n : ℕ) :
    ((List.replicate n lookupA).filter MountOp.givesVnode).length = n := by
  rw [List.filter_replicate_of_pos rfl, List.length_replicate]

theorem mount_frames_lookup :
    ∃ m, MountRun ⟨fileVolume, 600 - (1 + 2), trackVnode 0⟩ [lookupA] m ∧ m.unmounted = 600 := by
  obtain ⟨m, hrun⟩ := fileVolume_lookups 1
    (m := ⟨fileVolume, 600 - (1 + 2), trackVnode 0⟩) rfl
  exact ⟨m, hrun, (mount_frames_iff mountFrames_fileDisk hrun).mpr (by decide)⟩

/-- After 256 lookups of one file, two frames are lost. -/
theorem mount_frames_lost : ∃ m₀ m, mountFrames 600 2 fileDisk = some m₀ ∧
    MountRun m₀ (List.replicate 256 lookupA) m ∧ m.unmounted = 598 := by
  obtain ⟨m, hrun⟩ := fileVolume_lookups 256
    (m := ⟨fileVolume, 600 - (1 + 2), trackVnode 0⟩) rfl
  refine ⟨_, m, mountFrames_fileDisk, hrun, ?_⟩
  have hstart : Mounted.Tracks ⟨fileVolume, 600 - (1 + 2), trackVnode 0⟩ 600 1 :=
    ⟨by decide, rfl⟩
  have hend := hstart.run hrun
  rw [filter_lookups] at hend
  have hfree := hend.free
  have hvnodes := hend.vnodes
  unfold Mounted.unmounted
  omega

end Tomahawk.Fat32
