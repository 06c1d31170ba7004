import Tomahawk.Lib.Path
import Tomahawk.Fat32.Naming

/-!
# The current directory of the shell

`shell_fat32_cd` walks a path component by component and changes a vnode and a string side by
side. The string keeps only 254 bytes of a path, and nothing tests that the last vnode is a
directory. In a run of commands whose paths fit and end at no file, the string always leads from
the root to the current directory.
-/

namespace Tomahawk.Fat32

open Tomahawk.Lib

/-- `g_fat32_cwd` and the string in `g_fat32_cwd_path`. -/
structure Cwd where
  vnode : Vnode
  path : List UInt8
  deriving DecidableEq

/-- The current directory after mounting. -/
def rootCwd (v : Volume) : Cwd := ⟨rootVnode v.geo, [slash]⟩

/-- The loop `while (i > 0 && new_path[i] != '/') i--`. -/
def slashBefore (s : List UInt8) : ℕ → ℕ
  | 0 => 0
  | i + 1 => if s.getD (i + 1) 0 = slash then i + 1 else slashBefore s i

/-- Strip the last component from `new_path`. -/
def stripLast (s : List UInt8) : List UInt8 :=
  if s.length ≤ 1 then s
  else
    let last := s.length - 1
    let i := slashBefore s (if s.getD last 0 = slash then last - 1 else last)
    if i = 0 then [slash] else s.take i

/-- Append a component to `new_path`. The slash is stored without a test, and `none` stands for a
store outside the 256 bytes of the buffer. -/
def appendComponent (s comp : List UInt8) : Option (List UInt8) :=
  let s := if 1 < s.length then s ++ [slash] else s
  let s := s ++ comp.take (254 - s.length)
  if s.length < 256 then some s else none

/-- How a command ends without a new directory: with an error, or by a store outside a buffer. -/
inductive CdStop where
  | refused
  | outside
  deriving DecidableEq

/-- The loop of `shell_fat32_cd` over the components. `frames` says how many frames are free at
the lookup that has so many components behind it; a lookup that does not return changes nothing
either. -/
def cdLoop (frames : ℕ → ℕ) (v : Volume) : Vnode → List UInt8 → List (List UInt8) →
    Except CdStop Cwd
  | cur, newPath, [] => .ok ⟨cur, newPath⟩
  | cur, newPath, comp :: rest =>
    if comp = [dot] then cdLoop frames v cur newPath rest
    else
      match vopLookup (frames rest.length) v cur (CStr.ofBytes comp) with
      | some (rc, some child) =>
        if rc ≠ 0 then .error .refused
        else if comp = [dot, dot] then cdLoop frames v child (stripLast newPath) rest
        else
          match appendComponent newPath comp with
          | none => .error .outside
          | some newPath => cdLoop frames v child newPath rest
      | _ => .error .refused

/-- Where the walk starts, with its string. -/
def cdStart (v : Volume) (s : Cwd) (path : List UInt8) : Cwd :=
  if path.head? = some slash then rootCwd v else ⟨s.vnode, s.path.take 254⟩

/-- What the walk takes from the path one after the other. -/
def cdPieces (path : List UInt8) : List (List UInt8) := pieces 63 path.length path

/-- `shell_fat32_cd` on a mounted volume, with the argument as it is typed; `none` where it
stores outside a buffer. -/
def shellFat32Cd (frames : ℕ → ℕ) (v : Volume) (s : Cwd) (arg : CStr) : Option Cwd :=
  let path := arg.bytes.take 255
  if path = [] then some s
  else
    let start := cdStart v s path
    match cdLoop frames v start.vnode start.path (cdPieces path) with
    | .ok new => some new
    | .error .refused => some s
    | .error .outside => none

/-- One command: its argument, and the frames that are free at its lookups. -/
def cdStep (v : Volume) (s : Option Cwd) (cmd : (ℕ → ℕ) × CStr) : Option Cwd :=
  s.bind fun s => shellFat32Cd cmd.1 v s cmd.2

/-! ## Directory trees -/

/-- What a lookup finds when there is memory for the vnode. -/
def lookup (v : Volume) (dir : Vnode) (comp : List UInt8) : Option Vnode :=
  match vopLookup 3 v dir (CStr.ofBytes comp) with
  | some (rc, some child) => if rc = 0 then some child else none
  | _ => none

/-- Look up components one after the other. -/
def walk (v : Volume) : Vnode → List (List UInt8) → Option Vnode
  | dir, [] => some dir
  | dir, comp :: rest => (lookup v dir comp).bind fun child => walk v child rest

/-- A component that names an entry below. -/
structure IsName (c : List UInt8) : Prop extends IsComponent c where
  noNul : 0 ∉ c
  ne_dot : c ≠ [dot]
  ne_dotDot : c ≠ [dot, dot]

/-- The directories that are found below the root. -/
inductive InTree (v : Volume) : Vnode → Prop
  | root : InTree v (rootVnode v.geo)
  | child {d w : Vnode} {c : List UInt8} : InTree v d → IsName c → lookup v d c = some w →
      w.isDir = true → InTree v w

/-- The directories form a tree: `..` leads from each back to the one it was found in, and there
is none in the root. -/
structure DirTree (v : Volume) : Prop where
  parent : ∀ {d w : Vnode} {c : List UInt8}, InTree v d → IsName c → lookup v d c = some w →
    w.isDir = true → ∃ p, lookup v w [dot, dot] = some p ∧ p.isDir = true ∧
      p.startCluster = d.startCluster
  top : lookup v (rootVnode v.geo) [dot, dot] = none

/-- The current vnode is a directory, and the stored path leads from the root to the same one. -/
structure Cwd.Agrees (v : Volume) (s : Cwd) : Prop where
  isDir : s.vnode.isDir = true
  walk : ∃ w, walk v (rootVnode v.geo) (components s.path) = some w ∧ w.isDir = true ∧
    w.startCluster = s.vnode.startCluster

/-! ## Commands -/

/-- Follow components from a vnode, as `cd` does: a `.` stays. -/
def follow (v : Volume) : Vnode → List (List UInt8) → Option Vnode
  | dir, [] => some dir
  | dir, comp :: rest =>
    if comp = [dot] then follow v dir rest
    else (lookup v dir comp).bind fun child => follow v child rest

/-- The components of a path after some more were followed. -/
def joinNames : List (List UInt8) → List (List UInt8) → List (List UInt8)
  | names, [] => names
  | names, comp :: rest =>
    if comp = [dot] then joinNames names rest
    else if comp = [dot, dot] then joinNames names.dropLast rest
    else joinNames (names ++ [comp]) rest

/-- Walking the components, from a vnode with a path of the given names, meets no path that does
not fit in the buffer, and does not end at a file. -/
def WalkMeets (v : Volume) (dir : Vnode) (names comps : List (List UInt8)) : Prop :=
  (∀ pre ∈ comps.inits, (follow v dir pre).isSome = true →
    (absolutePath (joinNames names pre)).length ≤ 254) ∧
  ∀ w ∈ follow v dir comps, w.isDir = true

instance (v : Volume) (dir : Vnode) (names comps : List (List UInt8)) :
    Decidable (WalkMeets v dir names comps) := instDecidableAnd

/-- A `cd` whose path ends at no file, and on whose way every path has at most 254 bytes. -/
def CdMeets (v : Volume) (s : Cwd) (arg : CStr) : Prop :=
  let path := arg.bytes.take 255
  let start := cdStart v s path
  WalkMeets v start.vnode (components start.path) (cdPieces path)

instance (v : Volume) (s : Cwd) (arg : CStr) : Decidable (CdMeets v s arg) :=
  inferInstanceAs (Decidable (WalkMeets ..))

/-- The condition on a command of a run. -/
def CdStepMeets (v : Volume) (s : Option Cwd) (cmd : (ℕ → ℕ) × CStr) : Prop :=
  ∀ cwd ∈ s, CdMeets v cwd cmd.2

instance (v : Volume) (s : Option Cwd) (cmd : (ℕ → ℕ) × CStr) :
    Decidable (CdStepMeets v s cmd) := inferInstanceAs (Decidable (∀ _ ∈ _, _))

variable {v : Volume} {dir cur w : Vnode} {c comp : List UInt8} {names comps : List (List UInt8)}
  {base newPath c : List UInt8} {k : ℕ} {s : Cwd} {child d w : Vnode}

/-- A lookup in the loop that succeeds is one that finds the vnode with memory enough. -/
theorem vopLookup_some {frames : ℕ} {name : CStr}
    (h : vopLookup frames v dir name = some (0, some w)) :
    dir.isDir = true ∧ vopLookup 3 v dir name = some (0, some w) := by
  rw [vopLookup] at h ⊢
  by_cases hdir : dir.isDir = true
  swap
  · simp [hdir] at h
  rw [if_neg (by simp [hdir])] at h ⊢
  refine ⟨hdir, ?_⟩
  by_cases hframes : frames = 0
  · subst hframes
    simp [iterateDir] at h
  have hsame : iterateDir frames v dir.startCluster (nameCallback name) none =
      iterateDir 3 v dir.startCluster (nameCallback name) none := by
    rw [iterateDir, iterateDir, if_neg hframes, if_neg (by decide)]
  rw [hsame] at h
  generalize iterateDir 3 v dir.startCluster (nameCallback name) none = r at h ⊢
  rcases r with _ | ⟨rc, _ | e⟩
  · simp at h
  · by_cases hrc : rc < 0 <;> simp [hrc] at h
  · by_cases hrc : rc < 0
    · simp [hrc] at h
    · simp only [hrc, if_false, Option.some.injEq, Prod.mk.injEq, true_and, createVnode] at h ⊢
      split at h
      · simp at h
      · simpa using h

theorem lookup_eq_some : lookup v dir c = some w ↔
    vopLookup 3 v dir (CStr.ofBytes c) = some (0, some w) := by
  rw [lookup]
  generalize vopLookup 3 v dir (CStr.ofBytes c) = r
  rcases r with _ | ⟨rc, _ | child⟩
  · simp
  · simp
  · by_cases hrc : rc = 0 <;> simp [hrc]

theorem isDir_of_lookup (h : lookup v dir c = some w) : dir.isDir = true :=
  (vopLookup_some (lookup_eq_some.mp h)).1

/-- The same directory may be given by different vnodes. -/
structure SameDir (a b : Vnode) : Prop where
  isDir : a.isDir = b.isDir
  start : a.startCluster = b.startCluster

theorem SameDir.lookup (h : SameDir dir cur) (c : List UInt8) :
    lookup v dir c = lookup v cur c := by
  rw [Fat32.lookup, Fat32.lookup, vopLookup, vopLookup, h.isDir, h.start]

theorem walk_append (v : Volume) (dir : Vnode) (cs ds : List (List UInt8)) :
    walk v dir (cs ++ ds) = (walk v dir cs).bind fun w => walk v w ds := by
  induction cs generalizing dir with
  | nil => rfl
  | cons c cs ih =>
    rw [List.cons_append, walk, walk, Option.bind_assoc]
    exact Option.bind_congr fun w _ => ih w

theorem walk_concat (v : Volume) (dir : Vnode) (cs : List (List UInt8)) (c : List UInt8) :
    walk v dir (cs ++ [c]) = (walk v dir cs).bind fun w => lookup v w c := by
  rw [walk_append]
  refine Option.bind_congr fun w _ => ?_
  exact Option.bind_fun_some _

/-- Walking down from the root stays in the tree. -/
theorem inTree_of_walk (hnames : ∀ c ∈ names, IsName c)
    (h : walk v (rootVnode v.geo) names = some w) (hdir : w.isDir = true) : InTree v w := by
  induction names using List.reverseRecOn generalizing w with
  | nil =>
    obtain rfl : rootVnode v.geo = w := by simpa [walk] using h
    exact .root
  | append_singleton cs c ih =>
    rw [walk_concat] at h
    obtain ⟨d, hd, hlookup⟩ := Option.bind_eq_some_iff.mp h
    exact .child (ih (fun c hc => hnames c (by simp [hc])) hd (isDir_of_lookup hlookup))
      (hnames c (by simp)) hlookup hdir

/-! ## The string -/

/-- A byte of the last component. -/
theorem getD_last_ne {last : List UInt8} (hlast : slash ∉ last) (hk : k < last.length) :
    (base ++ slash :: last).getD (base.length + k + 1) 0 ≠ slash := by
  have hbyte : (base ++ slash :: last)[base.length + k + 1]? = some last[k] := by
    rw [List.getElem?_append_right (by omega),
      show base.length + k + 1 - base.length = k + 1 by omega, List.getElem?_cons_succ,
      List.getElem?_eq_getElem hk]
  rw [List.getD_eq_getElem?_getD, hbyte]
  exact fun h => hlast (h ▸ List.getElem_mem hk)

/-- The scan for a slash stops at the last one. -/
theorem slashBefore_eq (hc : slash ∉ c) (k : ℕ) (hk : k ≤ c.length) :
    slashBefore (base ++ slash :: c) (base.length + k) = base.length := by
  induction k with
  | zero =>
    cases hbase : base.length with
    | zero => rfl
    | succ n =>
      rw [Nat.add_zero, slashBefore, if_pos]
      rw [← hbase]
      simp
  | succ k ih =>
    rw [← Nat.add_assoc, slashBefore, if_neg (getD_last_ne hc (by omega))]
    exact ih (by omega)

/-- Stripping the last component of a path. -/
theorem stripLast_absolutePath (hc : IsComponent c) :
    stripLast (absolutePath (names ++ [c])) = absolutePath names := by
  rw [absolutePath_concat]
  generalize hbase : names.flatMap (slash :: ·) = base
  have hpos : 0 < c.length := List.length_pos_iff.mpr hc.ne_nil
  have hlen : (base ++ slash :: c).length = base.length + c.length + 1 := by simp; omega
  have hlast : (base ++ slash :: c).getD (base.length + c.length) 0 ≠ slash := by
    rw [show base.length + c.length = base.length + (c.length - 1) + 1 by omega]
    exact getD_last_ne hc.noSlash (by omega)
  simp only [stripLast, hlen, Nat.add_sub_cancel, if_neg hlast,
    slashBefore_eq hc.noSlash _ le_rfl]
  rw [if_neg (by omega), absolutePath, hbase]
  cases names with
  | nil =>
    obtain rfl : [] = base := by simpa using hbase
    rfl
  | cons d ds =>
    have hne : base.length ≠ 0 := by
      rw [← hbase]
      simp
    rw [if_neg hne, if_neg (by simp), List.take_left]

/-- Appending a component to a path that has room for it. -/
theorem appendComponent_absolutePath (hnames : ∀ d ∈ names, IsName d)
    (hlen : (absolutePath (names ++ [c])).length ≤ 254) :
    appendComponent (absolutePath names) c = some (absolutePath (names ++ [c])) := by
  have hbuf : (if 1 < (absolutePath names).length then absolutePath names ++ [slash]
      else absolutePath names) = names.flatMap (slash :: ·) ++ [slash] := by
    cases names with
    | nil => rfl
    | cons d ds =>
      have hd : 0 < d.length := List.length_pos_iff.mpr (hnames d (by simp)).ne_nil
      have hlong : 1 < (slash :: d ++ ds.flatMap (slash :: ·)).length := by
        rw [List.length_append, List.length_cons]
        omega
      have hpath : absolutePath (d :: ds) = slash :: d ++ ds.flatMap (slash :: ·) := by
        rw [absolutePath, if_neg (by simp), List.flatMap_cons]
      rw [hpath, if_pos hlong, List.flatMap_cons]
  have hpath : absolutePath (names ++ [c]) = names.flatMap (slash :: ·) ++ [slash] ++ c := by
    rw [absolutePath_concat, List.append_assoc, List.singleton_append]
  rw [hpath, List.length_append] at hlen
  rw [appendComponent, hbuf, hpath]
  have htake : c.take (254 - (names.flatMap (slash :: ·) ++ [slash]).length) = c :=
    List.take_of_length_le (by omega)
  simp only [htake]
  rw [if_pos (by rw [List.length_append]; omega)]

/-! ## Runs -/

/-- The vnode is what the names lead to, and the string is their path. -/
structure Cwd.At (v : Volume) (s : Cwd) (names : List (List UInt8)) : Prop where
  isName : ∀ c ∈ names, IsName c
  path : s.path = absolutePath names
  walk : ∃ w, walk v (rootVnode v.geo) names = some w ∧ SameDir w s.vnode

theorem Cwd.At.components_eq (h : s.At v names) : components s.path = names := by
  rw [h.path]
  exact components_absolutePath fun c hc => (h.isName c hc).toIsComponent

theorem Cwd.At.agrees (h : s.At v names) (hdir : s.vnode.isDir = true) :
    s.Agrees v := by
  obtain ⟨w, hw, hsame⟩ := h.walk
  exact ⟨hdir, w, h.components_eq ▸ hw, hsame.isDir ▸ hdir, hsame.start⟩

/-- Going up: `..` leads to where the names but the last lead. -/
theorem Cwd.At.up (h : Cwd.At v ⟨cur, newPath⟩ names) (htree : DirTree v)
    (hlookup : Fat32.lookup v cur [dot, dot] = some child) :
    Cwd.At v ⟨child, stripLast newPath⟩ names.dropLast := by
  obtain ⟨hnames, rfl, w, hw, hsame⟩ := h
  rw [← hsame.lookup] at hlookup
  induction names using List.reverseRecOn with
  | nil =>
    obtain rfl : rootVnode v.geo = w := by simpa [Fat32.walk] using hw
    rw [htree.top] at hlookup
    cases hlookup
  | append_singleton cs c _ =>
    rw [walk_concat] at hw
    obtain ⟨d, hd, hdw⟩ := Option.bind_eq_some_iff.mp hw
    have hcs : ∀ c ∈ cs, IsName c := fun c hc => hnames c (by simp [hc])
    have hc := hnames c (by simp)
    obtain ⟨p, hp, hpdir, hpstart⟩ := htree.parent
      (inTree_of_walk hcs hd (isDir_of_lookup hdw)) hc hdw (isDir_of_lookup hlookup)
    obtain rfl : p = child := Option.some.inj (hp ▸ hlookup)
    refine ⟨by simpa using hcs, ?_, d, by simpa using hd, ?_, hpstart.symm⟩
    · rw [List.dropLast_concat]
      exact stripLast_absolutePath hc.toIsComponent
    · rw [hpdir]
      exact isDir_of_lookup hdw

/-- Going down to a child with a path that fits. -/
theorem Cwd.At.down (h : Cwd.At v ⟨cur, newPath⟩ names) (hc : IsName comp)
    (hlookup : Fat32.lookup v cur comp = some child)
    (hlen : (absolutePath (names ++ [comp])).length ≤ 254) :
    appendComponent newPath comp = some (absolutePath (names ++ [comp])) ∧
      Cwd.At v ⟨child, absolutePath (names ++ [comp])⟩ (names ++ [comp]) := by
  obtain ⟨hnames, rfl, w, hw, hsame⟩ := h
  refine ⟨appendComponent_absolutePath hnames hlen, ?_, rfl, child, ?_, rfl, rfl⟩
  · simpa [or_imp, forall_and, hc] using hnames
  · rw [walk_concat, hw]
    exact (hsame.lookup comp).trans hlookup

/-- What a walk meets, it meets after the first component. -/
theorem WalkMeets.tail {names' : List (List UInt8)} (h : WalkMeets v dir names (comp :: comps))
    (hfollow : ∀ pre, follow v dir (comp :: pre) = follow v child pre)
    (hjoin : ∀ pre, joinNames names (comp :: pre) = joinNames names' pre) :
    WalkMeets v child names' comps := by
  refine ⟨fun pre hpre hsome => ?_, fun w hw => h.2 w (hfollow comps ▸ hw)⟩
  rw [← hjoin]
  refine h.1 (comp :: pre) ?_ (hfollow pre ▸ hsome)
  rw [List.mem_inits] at hpre ⊢
  exact (List.prefix_cons_inj comp).mpr hpre

/-- The state between commands: the string is short, and leads to the vnode, a directory. -/
structure Cwd.Ok (v : Volume) (s : Cwd) : Prop where
  isDir : s.vnode.isDir = true
  short : s.path.length ≤ 254
  at_ : ∃ names, s.At v names

theorem rootCwd_at (v : Volume) : (rootCwd v).At v [] :=
  ⟨by simp, rfl, _, rfl, rfl, rfl⟩

theorem rootCwd_ok (v : Volume) : (rootCwd v).Ok v where
  isDir := show isDirAttr attrDirectory = true by decide
  short := show ([slash] : List UInt8).length ≤ 254 by decide
  at_ := ⟨[], rootCwd_at v⟩

/-- The loop ends with a string that leads to the vnode, or with an error. -/
theorem cdLoop_spec (htree : DirTree v) (frames : ℕ → ℕ)
    (hcomps : ∀ c ∈ comps, IsComponent c ∧ 0 ∉ c) (h : Cwd.At v ⟨cur, newPath⟩ names)
    (hmeets : WalkMeets v cur names comps) :
    cdLoop frames v cur newPath comps = .error .refused ∨
      ∃ new, cdLoop frames v cur newPath comps = .ok new ∧ new.Ok v := by
  induction comps generalizing cur newPath names with
  | nil =>
    refine .inr ⟨_, rfl, hmeets.2 cur rfl, ?_, names, h⟩
    rw [h.path]
    exact hmeets.1 [] (by simp) rfl
  | cons comp rest ih =>
    have hrest : ∀ c ∈ rest, IsComponent c ∧ 0 ∉ c := fun c hc => hcomps c (by simp [hc])
    by_cases hdot : comp = [dot]
    · rw [cdLoop, if_pos hdot]
      exact ih hrest h (hmeets.tail (fun pre => by rw [follow, if_pos hdot])
        fun pre => by rw [joinNames, if_pos hdot])
    rw [cdLoop, if_neg hdot]
    generalize hl : vopLookup (frames rest.length) v cur (CStr.ofBytes comp) = r
    rcases r with _ | ⟨rc, _ | child⟩
    · exact .inl rfl
    · exact .inl rfl
    by_cases hrc : rc = 0
    swap
    · simp [hrc]
    subst hrc
    have hlookup : lookup v cur comp = some child := lookup_eq_some.mpr (vopLookup_some hl).2
    have hfollow : ∀ pre, follow v cur (comp :: pre) = follow v child pre := by
      intro pre
      rw [follow, if_neg hdot, hlookup]
      rfl
    by_cases hup : comp = [dot, dot]
    · simp only [if_pos hup]
      exact ih hrest (h.up htree (hup ▸ hlookup)) (hmeets.tail hfollow
        fun pre => by rw [joinNames, if_neg hdot, if_pos hup])
    · simp only [if_neg hup]
      have hmeets' : WalkMeets v child (names ++ [comp]) rest :=
        hmeets.tail hfollow fun pre => by rw [joinNames, if_neg hdot, if_neg hup]
      obtain ⟨hcomp, hnul⟩ := hcomps comp (by simp)
      obtain ⟨happend, hat⟩ := h.down ⟨hcomp, hnul, hdot, hup⟩ hlookup
        (hmeets'.1 [] (by simp) rfl)
      rw [happend]
      exact ih hrest hat hmeets'

/-- A walk starts with a string that leads to its vnode. -/
theorem Cwd.Ok.cdStart (h : s.Ok v) (path : List UInt8) :
    ∃ names, (cdStart v s path).At v names := by
  rw [Fat32.cdStart]
  split
  · exact ⟨[], rootCwd_at v⟩
  · obtain ⟨names, hat⟩ := h.at_
    rw [List.take_of_length_le h.short]
    exact ⟨names, hat⟩

/-- One command keeps string and vnode together. -/
theorem Cwd.Ok.shellFat32Cd (h : s.Ok v) (htree : DirTree v) (frames : ℕ → ℕ) {arg : CStr}
    (hmeets : CdMeets v s arg) : ∃ s', shellFat32Cd frames v s arg = some s' ∧ s'.Ok v := by
  rw [Fat32.shellFat32Cd]
  by_cases hpath : arg.bytes.take 255 = []
  · exact ⟨s, by simp [hpath], h⟩
  obtain ⟨names, hat⟩ := h.cdStart (arg.bytes.take 255)
  rw [CdMeets, hat.components_eq] at hmeets
  have hcomps : ∀ c ∈ cdPieces (arg.bytes.take 255), IsComponent c ∧ 0 ∉ c := fun c hc =>
    ⟨pieces_isComponent (by omega) hc,
      fun h => arg.noNul (List.mem_of_mem_take (mem_of_mem_pieces hc h))⟩
  simp only [if_neg hpath]
  generalize Fat32.cdStart v s (arg.bytes.take 255) = start at hat hmeets ⊢
  rcases cdLoop_spec htree frames hcomps hat hmeets with
    hloop | ⟨new, hloop, hnew⟩
  · exact ⟨s, by rw [hloop], h⟩
  · exact ⟨new, by rw [hloop], hnew⟩

theorem Cwd.Ok.agrees (h : s.Ok v) : s.Agrees v := by
  obtain ⟨names, hat⟩ := h.at_
  exact hat.agrees h.isDir

/-- After every run of `cd` commands whose paths end at no file and fit in the buffer, the current
vnode is a directory and the stored path leads to it. -/
theorem fat32_cwd_agrees (htree : DirTree v) (cmds : List ((ℕ → ℕ) × CStr))
    (hmeets : Guarded (cdStep v) (CdStepMeets v) (some (rootCwd v)) cmds) :
    ∃ s, run (cdStep v) (some (rootCwd v)) cmds = some s ∧ s.Agrees v := by
  have hrun := run_invariant (I := fun o : Option Cwd => ∃ s, o = some s ∧ s.Ok v)
    (fun o cmd ho hguard => by
      obtain ⟨s, rfl, hs⟩ := ho
      exact hs.shellFat32Cd htree cmd.1 (hguard s rfl))
    ⟨rootCwd v, rfl, rootCwd_ok v⟩ hmeets
  obtain ⟨s, hs, hok⟩ := hrun
  exact ⟨s, hs, hok.agrees⟩

/-! ## A tree with a directory and a file -/

/-- A lookup in a directory whose chain ends. -/
theorem Volume.Chain.lookup_eq {l : List ℕ} (h : v.Chain dir.startCluster l)
    (hsound : v.geo.Sound) (hdir : dir.isDir = true) (c : List UInt8) :
    lookup v dir c = (findName (CStr.ofBytes c) (listing v l)).map
      fun e => lookupVnode v dir.startCluster e.entry := by
  rw [lookup, h.vopLookup_eq hsound (by decide) hdir]
  cases findName (CStr.ofBytes c) (listing v l) with
  | none => rfl
  | some e => rfl

/-- Only dots are listed under the name of dots. -/
theorem eq_of_map_toUpper_eq_dots (h : List.replicate k dot = c.map toUpper) :
    c = List.replicate k dot := by
  refine List.eq_replicate_iff.mpr ⟨by simpa using (congrArg List.length h).symm, fun b hb => ?_⟩
  have hup : toUpper b = dot :=
    List.eq_of_mem_replicate (h ▸ List.mem_map_of_mem hb)
  by_contra hne
  by_cases hsp : b = space
  · subst hsp
    exact absurd hup (by decide)
  · exact (toUpper_ne ⟨hsp, hne⟩).2 hup

/-- The empty volume after `B` was made as a directory and `A` as a file. -/
def treeVolume : Volume :=
  match vopMkdir 8 emptyVolume (rootVnode smallGeometry) nameB with
  | some (v, _, _) =>
    match vopCreate 8 v (rootVnode smallGeometry) nameA with
    | some (v, _, _) => v
    | none => v
  | none => emptyVolume

theorem treeVolume_geo : treeVolume.geo = smallGeometry := by decide

theorem treeVolume_root : treeVolume.Chain 2 [2] := by decide

theorem treeVolume_sub : treeVolume.Chain 3 [3] := by decide

/-- What is found below the root is the directory in cluster 3, or a file. -/
theorem treeVolume_of_root (hd : d.startCluster = 2) (h : lookup treeVolume d c = some w)
    (hw : w.isDir = true) : w.startCluster = 3 := by
  have hlisted : ∀ e ∈ listing treeVolume [2], (lookupVnode treeVolume 2 e.entry).isDir = true →
      (lookupVnode treeVolume 2 e.entry).startCluster = 3 := by decide
  have hchain : treeVolume.Chain d.startCluster [2] := hd ▸ treeVolume_root
  rw [hchain.lookup_eq (treeVolume_geo ▸ smallGeometry_sound) (isDir_of_lookup h), hd] at h
  obtain ⟨e, he, rfl⟩ := Option.map_eq_some_iff.mp h
  exact hlisted e (findName_eq_some he).1 hw

/-- Below the directory there is nothing. -/
theorem treeVolume_of_sub (hd : d.startCluster = 3) (hc : IsName c) :
    lookup treeVolume d c ≠ some w := by
  intro h
  have hlisted : ∀ e ∈ listing treeVolume [3],
      e.name.bytes.map toUpper = List.replicate 1 dot ∨
        e.name.bytes.map toUpper = List.replicate 2 dot := by decide
  have hchain : treeVolume.Chain d.startCluster [3] := hd ▸ treeVolume_sub
  rw [hchain.lookup_eq (treeVolume_geo ▸ smallGeometry_sound) (isDir_of_lookup h)] at h
  obtain ⟨e, he, -⟩ := Option.map_eq_some_iff.mp h
  obtain ⟨hmem, hname⟩ := findName_eq_some he
  rw [CStr.ofBytes_bytes ⟨c, hc.noNul⟩, SameName] at hname
  rcases hlisted e hmem with hdots | hdots
  · exact hc.ne_dot (eq_of_map_toUpper_eq_dots (hdots.symm.trans hname))
  · exact hc.ne_dotDot (eq_of_map_toUpper_eq_dots (hdots.symm.trans hname))

theorem treeVolume_inTree (h : InTree treeVolume d) :
    d.startCluster = 2 ∨ d.startCluster = 3 := by
  induction h with
  | root => exact .inl (by rw [treeVolume_geo]; rfl)
  | child hd hc hlookup hdir ih =>
    rcases ih with ih | ih
    · exact .inr (treeVolume_of_root ih hlookup hdir)
    · exact absurd hlookup (treeVolume_of_sub ih hc)

theorem treeVolume_dirTree : DirTree treeVolume where
  parent {d w c} hd hc hlookup hdir := by
    rcases treeVolume_inTree hd with hstart | hstart
    swap
    · exact absurd hlookup (treeVolume_of_sub hstart hc)
    have hw := treeVolume_of_root hstart hlookup hdir
    have hchain : treeVolume.Chain w.startCluster [3] := hw ▸ treeVolume_sub
    have hup : ((findName (CStr.ofBytes [dot, dot]) (listing treeVolume [3])).map fun e =>
        ((lookupVnode treeVolume 3 e.entry).isDir,
          (lookupVnode treeVolume 3 e.entry).startCluster)) = some (true, 2) := by decide
    obtain ⟨e, he, hp⟩ := Option.map_eq_some_iff.mp hup
    rw [hchain.lookup_eq (treeVolume_geo ▸ smallGeometry_sound) hdir, he, hw, hstart]
    exact ⟨_, rfl, congrArg Prod.fst hp, congrArg Prod.snd hp⟩
  top := by
    have hnone : findName (CStr.ofBytes [dot, dot]) (listing treeVolume [2]) = none := by
      decide
    rw [Volume.Chain.lookup_eq (l := [2]) treeVolume_root
      (treeVolume_geo ▸ smallGeometry_sound) (by decide), hnone]
    rfl

/-- Into the directory and out again, and into it by its path from the root. -/
theorem fat32_cwd_agrees_treeVolume :
    let cmds : List ((ℕ → ℕ) × CStr) := [(fun _ => 8, nameB), (fun _ => 8, ⟨[dot, dot], by decide⟩),
      (fun _ => 8, ⟨[slash, 98, slash, dot, slash], by decide⟩)]
    Guarded (cdStep treeVolume) (CdStepMeets treeVolume) (some (rootCwd treeVolume)) cmds ∧
      ∃ s, run (cdStep treeVolume) (some (rootCwd treeVolume)) cmds = some s ∧
        s.Agrees treeVolume := by
  refine ⟨?hmeets, fat32_cwd_agrees treeVolume_dirTree _ ?hmeets⟩
  decide

/-- `cd A` makes the file `A` the current directory. -/
theorem fat32_cwd_is_file :
    DirTree treeVolume ∧ ∃ s, cdStep treeVolume (some (rootCwd treeVolume)) (fun _ => 8, nameA) =
      some s ∧ s.path = [slash, 65] ∧ ¬ s.Agrees treeVolume := by
  refine ⟨treeVolume_dirTree, ?_⟩
  have hcd : (cdStep treeVolume (some (rootCwd treeVolume)) (fun _ => 8, nameA)).map
      (fun s => (s.path, s.vnode.isDir)) = some ([slash, 65], false) := by decide
  obtain ⟨s, hs, hp⟩ := Option.map_eq_some_iff.mp hcd
  refine ⟨s, hs, congrArg Prod.fst hp, fun h => ?_⟩
  exact absurd h.isDir (by rw [show s.vnode.isDir = false from congrArg Prod.snd hp]; decide)

end Tomahawk.Fat32
