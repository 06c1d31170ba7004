import Tomahawk.Lib.Path
import Mathlib.Data.List.MinMax

/-!
# Path resolution over the mount table

`mount_lookup` compares mount points with a path byte by byte, while the walk behind the mount
point goes component by component and skips slashes. The two agree with a resolution by
components exactly if the mount point stands at the start of the path byte by byte, and the rest
fits in the buffer of the walk.
-/

namespace Tomahawk.Vfs

open Tomahawk.Lib

/-- What `mount_lookup` and `vfs_resolve_path` read of `struct mount_entry`. Vnodes are given by
their address, and 0 is none. -/
structure MountEntry where
  path : CStr
  root : ℕ
  inUse : Bool
  deriving DecidableEq

/-- What path resolution reads of vnodes: `v_type`, and `vop_lookup` if there is one, with its
result and the vnode it stores. -/
structure Vnodes where
  isDir : ℕ → Bool
  lookupOp : ℕ → Option (CStr → ℤ × ℕ)

/-- `vfs_lookup` -/
def vfsLookup (n : Vnodes) (dir : ℕ) (name : CStr) : ℤ × ℕ :=
  if dir = 0 ∨ n.isDir dir = false then (-1, 0)
  else
    match n.lookupOp dir with
    | none => (-1, 0)
    | some op => op name

/-- `MAX_PATH` -/
def maxPath : ℕ := 1024

/-- The loop of `vfs_walk_path`. Every turn takes a byte, so the length of the path is enough
fuel. -/
def walkLoop (n : Vnodes) : ℕ → ℕ → List UInt8 → Except ℤ ℕ
  | 0, cur, _ => .ok cur
  | fuel + 1, cur, p =>
    let p := p.dropWhile (· == slash)
    if p = [] then .ok cur
    else if n.isDir cur = false then .error (-2)
    else
      let comp := p.takeWhile (· != slash)
      let r := vfsLookup n cur (CStr.ofBytes comp)
      if r.1 ≠ 0 then .error r.1 else walkLoop n fuel r.2 ((p.drop comp.length).drop 1)

/-- `vfs_walk_path` -/
def vfsWalkPath (n : Vnodes) (start : ℕ) (relpath : List UInt8) : Except ℤ ℕ :=
  if start = 0 then .error (-1)
  else if relpath = [] then .ok start
  else if maxPath ≤ relpath.length then .error (-1)
  else walkLoop n relpath.length start relpath

/-- The path starts with the mount point, and a mount point other than `/` ends there or in front
of a slash. -/
def mountMatch (mp path : List UInt8) : Prop :=
  mp <+: path ∧ (mp = [slash] ∨ path[mp.length]? = some slash ∨ path[mp.length]? = none)

instance (mp path : List UInt8) : Decidable (mountMatch mp path) := instDecidableAnd

/-- One turn of the loop of `mount_lookup`, on `best` and `best_len`. -/
def mountTurn (path : List UInt8) (best : Option MountEntry × ℕ) (e : MountEntry) :
    Option MountEntry × ℕ :=
  let len := e.path.bytes.length
  if e.inUse = false then best
  else if ¬ mountMatch e.path.bytes path then best
  else if e.path.bytes = [slash] then
    if best.1 = none ∨ best.2 < len then (some e, len) else best
  else if best.2 < len then (some e, len) else best

/-- `mount_lookup` -/
def mountLookup (table : List MountEntry) (path : List UInt8) : Option MountEntry :=
  (table.foldl (mountTurn path) (none, 0)).1

/-- What is left of a path behind a mount point. -/
def relPath (e : MountEntry) (path : List UInt8) : List UInt8 :=
  (path.drop e.path.bytes.length).dropWhile (· == slash)

/-- `vfs_resolve_path`: the vnode, or the error. -/
def vfsResolvePath (table : List MountEntry) (n : Vnodes) (path : CStr) : Except ℤ ℕ :=
  if path.bytes.head? ≠ some slash then .error (-1)
  else
    match mountLookup table path.bytes with
    | none => .error (-1)
    | some me =>
      if me.root = 0 then .error (-1) else vfsWalkPath n me.root (relPath me path.bytes)

/-! ## Resolution by components -/

/-- Look up components one after the other. -/
def lookupEach (n : Vnodes) : ℕ → List (List UInt8) → Except ℤ ℕ
  | cur, [] => .ok cur
  | cur, comp :: rest =>
    if n.isDir cur = false then .error (-2)
    else
      let r := vfsLookup n cur (CStr.ofBytes comp)
      if r.1 ≠ 0 then .error r.1 else lookupEach n r.2 rest

/-- The components of a mount point. -/
def MountEntry.names (e : MountEntry) : List (List UInt8) := components e.path.bytes

/-- The mount in use whose components are the longest at the start of the given ones. -/
def nearestMount (table : List MountEntry) (comps : List (List UInt8)) : Option MountEntry :=
  (table.filter fun e => e.inUse && e.names.isPrefixOf comps).argmax fun e => e.names.length

/-- Resolution by components: choose the nearest mount, and look up the other components from its
root. -/
def resolveComponents (table : List MountEntry) (n : Vnodes) (comps : List (List UInt8)) :
    Except ℤ ℕ :=
  match nearestMount table comps with
  | none => .error (-1)
  | some e => lookupEach n e.root (comps.drop e.names.length)

/-- The mount points in use are absolute paths without a slash too many, no two are the same, and
each has a root. -/
structure MountTable (table : List MountEntry) : Prop where
  absolute : ∀ e ∈ table, e.inUse = true → e.path.bytes = absolutePath e.names
  distinct : ∀ e ∈ table, ∀ f ∈ table, e.inUse = true → f.inUse = true → e.path = f.path → e = f
  root : ∀ e ∈ table, e.inUse = true → e.root ≠ 0

variable {n : Vnodes} {table : List MountEntry} {e f : MountEntry} {path p : List UInt8}
  {comps : List (List UInt8)} {cur fuel : ℕ}

/-! ## The walk -/

theorem drop_length_takeWhile (q : UInt8 → Bool) (l : List UInt8) :
    l.drop (l.takeWhile q).length = l.dropWhile q :=
  calc l.drop (l.takeWhile q).length
      = (l.takeWhile q ++ l.dropWhile q).drop (l.takeWhile q).length := by
        rw [List.takeWhile_append_dropWhile]
    _ = l.dropWhile q := List.drop_left

/-- The walk goes from component to component. -/
theorem walkLoop_eq (hfuel : p.length ≤ fuel) :
    walkLoop n fuel cur p = lookupEach n cur (components p) := by
  induction fuel generalizing cur p with
  | zero =>
    obtain rfl := List.length_eq_zero_iff.mp (Nat.le_zero.mp hfuel)
    rfl
  | succ fuel ih =>
    have hlen : (p.dropWhile (· == slash)).length ≤ p.length := List.length_dropWhile_le _ _
    rw [walkLoop, ← components_dropWhile]
    rcases dropWhile_slash_cases p with hp | ⟨b, t, hp, hb⟩
    · rw [hp]
      rfl
    rw [hp] at hlen ⊢
    simp only [reduceCtorEq, if_false, drop_length_takeWhile]
    rw [components_cons hb, lookupEach]
    have hrest : ((b :: t).dropWhile (· != slash)).length ≤ t.length := by
      rw [List.dropWhile_cons_of_pos (by simpa using hb)]
      exact List.length_dropWhile_le _ _
    have hcomps : components (((b :: t).dropWhile (· != slash)).drop 1) =
        components ((b :: t).dropWhile (· != slash)) := by
      have hhead := head_dropWhile (b :: t)
      generalize (b :: t).dropWhile (· != slash) = r at hhead
      cases r with
      | nil => rfl
      | cons d r =>
        obtain rfl := hhead d rfl
        exact (components_slash_cons r).symm
    rw [List.length_cons] at hlen
    simp only [ih (show (((b :: t).dropWhile (· != slash)).drop 1).length ≤ fuel by
      rw [List.length_drop]; omega), hcomps]

theorem vfsWalkPath_eq (hcur : cur ≠ 0) (hp : p.length < maxPath) :
    vfsWalkPath n cur p = lookupEach n cur (components p) := by
  rw [vfsWalkPath, if_neg hcur]
  split
  · next hnil =>
    rw [hnil]
    rfl
  · rw [if_neg (by omega), walkLoop_eq le_rfl]

theorem vfsWalkPath_long (hcur : cur ≠ 0) (hp : maxPath ≤ p.length) :
    vfsWalkPath n cur p = .error (-1) := by
  have hne : p ≠ [] := by
    rintro rfl
    exact absurd hp (by decide)
  rw [vfsWalkPath, if_neg hcur, if_neg hne, if_pos hp]

/-! ## The mount -/

/-- The byte at the end of a mount point is the first one behind it. -/
theorem mountMatch_iff {mp : List UInt8} : mountMatch mp path ↔
    ∃ t, path = mp ++ t ∧ (mp = [slash] ∨ ∀ b ∈ t.head?, b = slash) := by
  constructor
  · rintro ⟨⟨t, rfl⟩, hend⟩
    refine ⟨t, rfl, hend.imp_right fun hend => ?_⟩
    rw [List.getElem?_append_right le_rfl, Nat.sub_self, ← List.head?_eq_getElem?] at hend
    rcases hend with hend | hend <;> simp [hend]
  · rintro ⟨t, rfl, hend⟩
    refine ⟨List.prefix_append _ _, hend.imp_right fun hend => ?_⟩
    rw [List.getElem?_append_right le_rfl, Nat.sub_self, ← List.head?_eq_getElem?]
    cases hh : t.head? with
    | none => exact .inr rfl
    | some b => exact .inl (by rw [hend b hh])

/-- The components of a path with a mount point are those of the mount point and of the rest. -/
theorem components_of_mountMatch (h : mountMatch e.path.bytes path) :
    components path = e.names ++ components (relPath e path) := by
  obtain ⟨t, rfl, hend⟩ := mountMatch_iff.mp h
  rw [relPath, List.drop_left, components_dropWhile, MountEntry.names]
  rcases hend with hroot | hend
  · rw [hroot, List.singleton_append, components_slash_cons, components_slash_cons,
      components_nil, List.nil_append]
  · exact components_append _ hend

theorem names_isComponent {c : List UInt8} (hc : c ∈ e.names) : IsComponent c :=
  components_isComponent hc

/-- A mount point whose bytes and whose components are at the start of a path is found there. -/
theorem mountMatch_of_names (hpath : e.path.bytes = absolutePath e.names)
    (hbytes : e.path.bytes <+: path) (hnames : e.names <+: components path) :
    mountMatch e.path.bytes path := by
  obtain ⟨t, rfl⟩ := hbytes
  refine mountMatch_iff.mpr ⟨t, rfl, ?_⟩
  by_cases hnil : e.names = []
  · left
    rw [hpath, hnil]
    rfl
  · right
    rw [hpath] at hnames
    exact components_absolutePath_append (fun c hc => names_isComponent hc) hnil hnames

theorem MountTable.length_pos (h : MountTable table) (he : e ∈ table) (huse : e.inUse = true) :
    0 < e.path.bytes.length := by
  rw [h.absolute e he huse, absolutePath]
  split
  · exact Nat.one_pos
  · next hne =>
    obtain ⟨c, cs, hcs⟩ := List.exists_cons_of_ne_nil hne
    simp [hcs]

/-- The mounts in use that match a path. -/
def matching (table : List MountEntry) (path : List UInt8) : List MountEntry :=
  table.filter fun e => e.inUse && decide (mountMatch e.path.bytes path)

theorem mem_matching : e ∈ matching table path ↔
    e ∈ table ∧ e.inUse = true ∧ mountMatch e.path.bytes path := by
  simp [matching]

/-- `mount_lookup` finds the longest mount point that matches. -/
theorem MountTable.mountLookup_argmax (h : MountTable table) (path : List UInt8) :
    mountLookup table path = (matching table path).argmax fun e => e.path.bytes.length := by
  have hpos : ∀ e ∈ table, e.inUse = true → 0 < e.path.bytes.length :=
    fun e he => h.length_pos he
  clear h
  suffices hbest : table.foldl (mountTurn path) (none, 0) =
      ((matching table path).argmax fun e => e.path.bytes.length,
        (((matching table path).argmax fun e => e.path.bytes.length).map
          fun e => e.path.bytes.length).getD 0) from congrArg Prod.fst hbest
  induction table using List.reverseRecOn with
  | nil => rfl
  | append_singleton table e ih =>
    have hlen := hpos e (by simp)
    have hmore : matching (table ++ [e]) path = matching table path ++
        if e.inUse = true ∧ mountMatch e.path.bytes path then [e] else [] := by
      simp [matching, List.filter_cons]
    rw [List.foldl_append, ih fun f hf => hpos f (by simp [hf]), List.foldl_cons, List.foldl_nil,
      hmore]
    by_cases huse : e.inUse = true ∧ mountMatch e.path.bytes path
    · -- The test for `/` makes no difference: nothing found has the length 0.
      rw [if_pos huse, List.argmax_concat]
      cases (matching table path).argmax fun e => e.path.bytes.length with
      | none => simp [mountTurn, huse, hlen huse.1]
      | some b =>
        by_cases hlt : b.path.bytes.length < e.path.bytes.length <;> simp [mountTurn, huse, hlt]
    · rw [if_neg huse, List.append_nil, mountTurn]
      split_ifs <;> simp_all

theorem nearestMount_some (h : nearestMount table comps = some e) :
    e ∈ table ∧ e.inUse = true ∧ e.names <+: comps := by
  have hmem := List.argmax_mem h
  simp only [List.mem_filter, Bool.and_eq_true, List.isPrefixOf_iff_prefix] at hmem
  exact hmem

theorem nearestMount_le (h : nearestMount table comps = some e) (hf : f ∈ table)
    (huse : f.inUse = true) (hnames : f.names <+: comps) : f.names.length ≤ e.names.length := by
  refine List.le_of_mem_argmax (f := fun e : MountEntry => e.names.length) ?_ h
  simp only [List.mem_filter, Bool.and_eq_true, List.isPrefixOf_iff_prefix]
  exact ⟨hf, huse, hnames⟩

theorem nearestMount_none (h : nearestMount table comps = none) (hf : f ∈ table)
    (huse : f.inUse = true) : ¬ f.names <+: comps := by
  intro hnames
  have hnil := List.argmax_eq_none.mp h
  have hmem : f ∈ table.filter fun e => e.inUse && e.names.isPrefixOf comps := by
    simp only [List.mem_filter, Bool.and_eq_true, List.isPrefixOf_iff_prefix]
    exact ⟨hf, huse, hnames⟩
  rw [hnil] at hmem
  cases hmem

/-- What matches byte by byte matches by components. -/
theorem names_of_mountMatch (h : mountMatch e.path.bytes path) : e.names <+: components path := by
  rw [components_of_mountMatch h]
  exact List.prefix_append _ _

/-- Mount points with the same components are the same. -/
theorem MountTable.eq_of_names (h : MountTable table) (he : e ∈ table) (hf : f ∈ table)
    (huse : e.inUse = true) (fuse : f.inUse = true) (hnames : e.names = f.names) : e = f := by
  refine h.distinct e he f hf huse fuse ?_
  have hbytes : e.path.bytes = f.path.bytes := by
    rw [h.absolute e he huse, h.absolute f hf fuse, hnames]
  cases he' : e.path
  cases hf' : f.path
  simp_all

/-- What the code finds matches, and it finds nothing only if nothing does. -/
theorem MountTable.mountLookup_spec (h : MountTable table) (path : List UInt8) :
    (mountLookup table path = none ∧
      ∀ e ∈ table, e.inUse = true → ¬ mountMatch e.path.bytes path) ∨
    ∃ f ∈ table, mountLookup table path = some f ∧ f.inUse = true ∧
      mountMatch f.path.bytes path := by
  rw [h.mountLookup_argmax]
  cases hfound : (matching table path).argmax fun e => e.path.bytes.length with
  | none =>
    have hnil := List.argmax_eq_none.mp hfound
    refine .inl ⟨rfl, fun e he huse hmatch => ?_⟩
    have hmem := mem_matching.mpr ⟨he, huse, hmatch⟩
    rw [hnil] at hmem
    cases hmem
  | some f =>
    obtain ⟨hf, fuse, fmatch⟩ := mem_matching.mp (List.argmax_mem hfound)
    exact .inr ⟨f, hf, rfl, fuse, fmatch⟩

/-- If the bytes of the nearest mount point are at the start of the path, the code finds it. -/
theorem MountTable.mountLookup_eq (h : MountTable table)
    (hnear : nearestMount table (components path) = some e) (hbytes : e.path.bytes <+: path) :
    mountLookup table path = some e := by
  obtain ⟨he, huse, hnames⟩ := nearestMount_some hnear
  have hmatch := mountMatch_of_names (h.absolute e he huse) hbytes hnames
  have hmem := mem_matching.mpr ⟨he, huse, hmatch⟩
  rcases h.mountLookup_spec path with ⟨-, hnone⟩ | ⟨f, hf, hfound, fuse, fmatch⟩
  · exact absurd hmatch (hnone e he huse)
  · rw [hfound]
    rw [h.mountLookup_argmax] at hfound
    have fnames := names_of_mountMatch fmatch
    have hle := nearestMount_le hnear hf fuse fnames
    have hlead := List.prefix_of_prefix_length_le fnames hnames hle
    have heq : f.names = e.names := by
      obtain ⟨ds, hds⟩ := hlead
      by_contra hne
      have hdne : ds ≠ [] := by
        rintro rfl
        exact hne (by simpa using hds)
      have hlt : (absolutePath f.names).length < (absolutePath (f.names ++ ds)).length :=
        length_absolutePath_lt (fun d hd => names_isComponent (hds ▸ List.mem_append_right _ hd))
          hdne
      rw [hds, ← h.absolute e he huse, ← h.absolute f hf fuse] at hlt
      exact absurd (List.le_of_mem_argmax hmem hfound) (by omega)
    exact congrArg some (h.eq_of_names hf he fuse huse heq)

/-! ## Resolution -/

/-- The bytes of the nearest mount point are at the start of the path, and the rest fits in the
buffer of the walk. -/
def ResolveMeets (table : List MountEntry) (path : List UInt8) : Prop :=
  ∀ e ∈ nearestMount table (components path),
    e.path.bytes <+: path ∧ (relPath e path).length < maxPath

instance (table : List MountEntry) (path : List UInt8) : Decidable (ResolveMeets table path) :=
  inferInstanceAs (Decidable (∀ _ ∈ _, _))

variable {s : CStr} {k : ℕ}

/-- What the code does with the mount it finds. -/
theorem vfsResolvePath_of_mount (habs : s.bytes.head? = some slash)
    (hmount : mountLookup table s.bytes = some e) (hroot : e.root ≠ 0) :
    vfsResolvePath table n s = vfsWalkPath n e.root (relPath e s.bytes) := by
  rw [vfsResolvePath, if_neg (by simp [habs]), hmount]
  exact if_neg hroot

theorem vfsResolvePath_of_none (hmount : mountLookup table s.bytes = none) :
    vfsResolvePath table n s = .error (-1) := by
  rw [vfsResolvePath, hmount, ite_self]

theorem resolveComponents_of_mount (hnear : nearestMount table comps = some e) :
    resolveComponents table n comps = lookupEach n e.root (comps.drop e.names.length) := by
  rw [resolveComponents, hnear]

/-- Under the condition the code resolves by components. -/
theorem MountTable.vfsResolvePath_eq (h : MountTable table) (habs : s.bytes.head? = some slash)
    (hmeets : ResolveMeets table s.bytes) (n : Vnodes) :
    vfsResolvePath table n s = resolveComponents table n (components s.bytes) := by
  cases hnear : nearestMount table (components s.bytes) with
  | none =>
    have hnone : mountLookup table s.bytes = none := by
      rcases h.mountLookup_spec s.bytes with ⟨hnone, -⟩ | ⟨f, hf, -, fuse, fmatch⟩
      · exact hnone
      · exact absurd (names_of_mountMatch fmatch) (nearestMount_none hnear hf fuse)
    rw [vfsResolvePath_of_none hnone, resolveComponents, hnear]
  | some e =>
    obtain ⟨hbytes, hlen⟩ := hmeets e hnear
    obtain ⟨he, huse, hnames⟩ := nearestMount_some hnear
    have hmatch := mountMatch_of_names (h.absolute e he huse) hbytes hnames
    rw [vfsResolvePath_of_mount habs (h.mountLookup_eq hnear hbytes) (h.root e he huse),
      vfsWalkPath_eq (h.root e he huse) hlen, resolveComponents_of_mount hnear,
      components_of_mountMatch hmatch, List.drop_left]

/-- Vnodes where every lookup succeeds and leads `k` further. -/
def stride (k : ℕ) : Vnodes where
  isDir _ := true
  lookupOp d := some fun _ => (0, d + k)

theorem lookupEach_stride (hcur : cur ≠ 0) (comps : List (List UInt8)) :
    lookupEach (stride k) cur comps = .ok (cur + k * comps.length) := by
  induction comps generalizing cur with
  | nil => simp [lookupEach]
  | cons c comps ih =>
    have hlookup : vfsLookup (stride k) cur (CStr.ofBytes c) = (0, cur + k) := by
      simp [vfsLookup, stride, hcur]
    have hdir : (stride k).isDir cur = true := rfl
    rw [lookupEach, hlookup]
    simp only [hdir, Bool.true_eq_false, ne_eq, not_true, if_false]
    rw [ih (by omega), List.length_cons, Nat.mul_succ, Nat.add_assoc, Nat.add_comm k]

/-- A walk on these vnodes ends so far behind its start, or with an error. -/
theorem vfsWalkPath_stride (hcur : cur ≠ 0) :
    vfsWalkPath (stride k) cur p = .error (-1) ∨
      vfsWalkPath (stride k) cur p = .ok (cur + k * (components p).length) := by
  by_cases hp : p.length < maxPath
  · exact .inr (by rw [vfsWalkPath_eq hcur hp, lookupEach_stride hcur])
  · exact .inl (vfsWalkPath_long hcur (by omega))

/-- Where the code takes another mount than the nearest, some file systems show it. -/
theorem MountTable.exists_ne (h : MountTable table) (habs : s.bytes.head? = some slash)
    (hnear : nearestMount table (components s.bytes) = some e)
    (hbytes : ¬ e.path.bytes <+: s.bytes) :
    ∃ n, vfsResolvePath table n s ≠ resolveComponents table n (components s.bytes) := by
  obtain ⟨he, huse, hnames⟩ := nearestMount_some hnear
  have hroot := h.root e he huse
  have hspec : ∀ k, resolveComponents table (stride k) (components s.bytes) =
      .ok (e.root + k * ((components s.bytes).drop e.names.length).length) := fun k => by
    rw [resolveComponents_of_mount hnear, lookupEach_stride hroot]
  rcases h.mountLookup_spec s.bytes with ⟨hnone, -⟩ | ⟨f, hf, hfound, fuse, fmatch⟩
  · refine ⟨stride 0, ?_⟩
    rw [vfsResolvePath_of_none hnone, hspec]
    simp
  have froot := h.root f hf fuse
  have hcode : ∀ k, vfsResolvePath table (stride k) s = .error (-1) ∨
      vfsResolvePath table (stride k) s =
        .ok (f.root + k * (components (relPath f s.bytes)).length) := fun k => by
    rw [vfsResolvePath_of_mount habs hfound froot]
    exact vfsWalkPath_stride froot
  -- The other mount point has fewer components, so more are left behind it.
  have hsplit := components_of_mountMatch fmatch
  have fnames := names_of_mountMatch fmatch
  have hlt : f.names.length < e.names.length := by
    refine lt_of_le_of_ne (nearestMount_le hnear hf fuse fnames) fun heq => ?_
    have hlead := List.prefix_of_prefix_length_le fnames hnames heq.le
    obtain rfl := h.eq_of_names hf he fuse huse (hlead.eq_of_length heq)
    exact hbytes fmatch.1
  have hmore : ((components s.bytes).drop e.names.length).length <
      (components (relPath f s.bytes)).length := by
    have hlen := hnames.length_le
    rw [hsplit, List.length_append] at hlen
    rw [List.length_drop, hsplit, List.length_append]
    omega
  by_cases hsame : f.root = e.root
  · refine ⟨stride 1, ?_⟩
    rw [hspec]
    rcases hcode 1 with hcode | hcode
    · simp [hcode]
    · rw [hcode, ne_eq, Except.ok.injEq, hsame]
      omega
  · refine ⟨stride 0, ?_⟩
    rw [hspec]
    rcases hcode 0 with hcode | hcode
    · simp [hcode]
    · rw [hcode, ne_eq, Except.ok.injEq]
      simpa using hsame

/-- `vfs_resolve_path` resolves an absolute path by components, whatever is in the file systems,
exactly if the bytes of the nearest mount point are at the start of the path and what is left
fits in the buffer of the walk. -/
theorem resolve_path_iff (h : MountTable table) (habs : s.bytes.head? = some slash) :
    (∀ n, vfsResolvePath table n s = resolveComponents table n (components s.bytes)) ↔
      ResolveMeets table s.bytes := by
  refine ⟨fun hall e hnear => ?_, fun hmeets => h.vfsResolvePath_eq habs hmeets⟩
  by_cases hbytes : e.path.bytes <+: s.bytes
  swap
  · obtain ⟨n, hne⟩ := h.exists_ne habs hnear hbytes
    exact absurd (hall n) hne
  refine ⟨hbytes, ?_⟩
  by_contra hlen
  obtain ⟨he, huse, -⟩ := nearestMount_some hnear
  have hroot := h.root e he huse
  have heq := hall (stride 0)
  rw [vfsResolvePath_of_mount habs (h.mountLookup_eq hnear hbytes) hroot,
    vfsWalkPath_long hroot (by omega), resolveComponents_of_mount hnear,
    lookupEach_stride hroot] at heq
  cases heq

theorem noNul_slash : 0 ∉ [slash] := by decide

/-- `"/"` and `"/mnt/fat"`. -/
def fatTable : List MountEntry :=
  [⟨⟨[slash], noNul_slash⟩, 1, true⟩,
    ⟨⟨[slash, 109, 110, 116, slash, 102, 97, 116], by decide⟩, 2, true⟩]

theorem fatTable_ok : MountTable fatTable :=
  ⟨by decide, by decide, by decide⟩

/-- `"/mnt/fat//a"` -/
def pathInFat : CStr := ⟨[slash, 109, 110, 116, slash, 102, 97, 116, slash, slash, 97], by decide⟩

/-- `"/mnt/fat//a"` is resolved by components. -/
theorem resolve_path_iff_fat :
    ResolveMeets fatTable pathInFat.bytes ∧
      ∀ n, vfsResolvePath fatTable n pathInFat =
        resolveComponents fatTable n (components pathInFat.bytes) :=
  have hmeets : ResolveMeets fatTable pathInFat.bytes := by decide
  ⟨hmeets, (resolve_path_iff fatTable_ok (by decide)).mpr hmeets⟩

/-- `"//mnt/fat"` is looked up from the root of `"/"`, where nothing is, and not found. -/
theorem resolve_path_misses_mount :
    MountTable fatTable ∧
      vfsResolvePath fatTable ⟨fun _ => true, fun _ => none⟩
        ⟨[slash, slash, 109, 110, 116, slash, 102, 97, 116], by decide⟩ = .error (-1) ∧
      resolveComponents fatTable ⟨fun _ => true, fun _ => none⟩
        (components [slash, slash, 109, 110, 116, slash, 102, 97, 116]) = .ok 2 :=
  ⟨fatTable_ok, by decide, by decide⟩

end Tomahawk.Vfs
