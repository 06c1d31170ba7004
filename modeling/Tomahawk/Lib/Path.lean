import Tomahawk.Lib.CString

/-!
# Paths

The components of a path are what stands between its slashes. A walker reads them one after the
other: it skips slashes and takes the bytes up to the next slash, and where its buffer for a name
is full it goes on with the rest of the name as if it were another one.
-/

namespace Tomahawk.Lib

/-- `'/'` -/
def slash : UInt8 := 47

/-- What stands between the slashes of a path, where there is anything. -/
def components (s : List UInt8) : List (List UInt8) := (s.splitOn slash).filter (· ≠ [])

/-- The absolute path with the given components. -/
def absolutePath (cs : List (List UInt8)) : List UInt8 :=
  if cs = [] then [slash] else cs.flatMap (slash :: ·)

/-- What can stand between two slashes. -/
structure IsComponent (c : List UInt8) : Prop where
  ne_nil : c ≠ []
  noSlash : slash ∉ c

variable {s t c : List UInt8} {cs : List (List UInt8)} {limit fuel : ℕ} {b : UInt8}

@[simp] theorem components_nil : components [] = [] := rfl

theorem components_append_slash (s t : List UInt8) :
    components (s ++ slash :: t) = components s ++ components t := by
  rw [components, List.splitOn_append_cons_self, List.filter_append]
  rfl

@[simp] theorem components_slash_cons (s : List UInt8) :
    components (slash :: s) = components s := by
  simpa using components_append_slash [] s

theorem IsComponent.components_eq (h : IsComponent c) : components c = [c] := by
  rw [components, List.splitOn_eq_singleton h.noSlash]
  simp [h.ne_nil]

theorem components_append (s : List UInt8) (ht : ∀ b ∈ t.head?, b = slash) :
    components (s ++ t) = components s ++ components t := by
  cases t with
  | nil => simp
  | cons b t =>
    obtain rfl := ht b rfl
    rw [components_append_slash, components_slash_cons]

theorem components_dropWhile (s : List UInt8) :
    components (s.dropWhile (· == slash)) = components s := by
  induction s with
  | nil => rfl
  | cons b s ih =>
    by_cases hb : b = slash
    · subst hb
      rw [List.dropWhile_cons_of_pos (by simp), ih, components_slash_cons]
    · rw [List.dropWhile_cons_of_neg (by simpa using hb)]

/-- The bytes up to the next slash. -/
theorem isComponent_takeWhile (hb : b ≠ slash) (s : List UInt8) :
    IsComponent ((b :: s).takeWhile (· != slash)) where
  ne_nil := by simp [hb]
  noSlash h := by simpa using List.mem_takeWhile_imp h

/-- Behind the bytes up to the next slash there is a slash, if anything. -/
theorem head_dropWhile (s : List UInt8) :
    ∀ d ∈ (s.dropWhile (· != slash)).head?, d = slash := by
  intro d hd
  have hstop := List.head?_dropWhile_not (· != slash) s
  rw [Option.mem_def.mp hd] at hstop
  simpa using hstop

/-- A path that does not start with a slash starts with its first component. -/
theorem components_cons (hb : b ≠ slash) (s : List UInt8) :
    components (b :: s) = (b :: s).takeWhile (· != slash) ::
      components ((b :: s).dropWhile (· != slash)) := by
  conv_lhs => rw [← List.takeWhile_append_dropWhile (p := (· != slash)) (l := b :: s)]
  rw [components_append _ (head_dropWhile _), (isComponent_takeWhile hb s).components_eq,
    List.singleton_append]

theorem components_isComponent (hc : c ∈ components s) : IsComponent c := by
  induction hn : s.length using Nat.strong_induction_on generalizing s with
  | _ n ih =>
    subst hn
    cases s with
    | nil => simp at hc
    | cons b s =>
      by_cases hb : b = slash
      · subst hb
        rw [components_slash_cons] at hc
        exact ih s.length (by simp) hc rfl
      · rw [components_cons hb] at hc
        rcases List.mem_cons.mp hc with rfl | hc
        · exact isComponent_takeWhile hb s
        · refine ih _ ?_ hc rfl
          rw [List.dropWhile_cons_of_pos (by simpa using hb), List.length_cons]
          exact Nat.lt_succ_of_le (List.length_dropWhile_le _ _)

theorem components_flatMap (h : ∀ c ∈ cs, IsComponent c) :
    components (cs.flatMap (slash :: ·)) = cs := by
  induction cs with
  | nil => rfl
  | cons c cs ih =>
    have ih := ih fun d hd => h d (by simp [hd])
    rw [List.flatMap_cons, List.cons_append, components_slash_cons, components_append, ih,
      (h c (by simp)).components_eq, List.singleton_append]
    intro b hb
    cases cs with
    | nil => simp at hb
    | cons d ds => simpa using hb.symm

/-- The components of a path with components. -/
theorem components_absolutePath (h : ∀ c ∈ cs, IsComponent c) :
    components (absolutePath cs) = cs := by
  rw [absolutePath]
  split
  · next hcs => rw [hcs, components_slash_cons, components_nil]
  · exact components_flatMap h

theorem absolutePath_concat (cs : List (List UInt8)) (c : List UInt8) :
    absolutePath (cs ++ [c]) = cs.flatMap (slash :: ·) ++ slash :: c := by
  rw [absolutePath, if_neg (by simp), List.flatMap_append]
  simp

/-- A path with more components has more bytes. -/
theorem length_absolutePath_lt {ds : List (List UInt8)} (hds : ∀ d ∈ ds, IsComponent d)
    (hne : ds ≠ []) : (absolutePath cs).length < (absolutePath (cs ++ ds)).length := by
  obtain ⟨d, ds, rfl⟩ := List.exists_cons_of_ne_nil hne
  have hd : 0 < d.length := List.length_pos_iff.mpr (hds d (by simp)).ne_nil
  have hlong : (absolutePath (cs ++ d :: ds)).length =
      (cs.flatMap (slash :: ·)).length + (d.length + 1 + (ds.flatMap (slash :: ·)).length) := by
    rw [absolutePath, if_neg (by simp), List.flatMap_append, List.flatMap_cons,
      List.length_append, List.length_append, List.length_cons]
  rw [hlong, absolutePath]
  split
  · rw [List.length_singleton]
    omega
  · omega

/-- A path that goes on inside the last component of another one has other components. -/
theorem components_absolutePath_append (h : ∀ c ∈ cs, IsComponent c) (hcs : cs ≠ [])
    (hlead : cs <+: components (absolutePath cs ++ t)) : ∀ b ∈ t.head?, b = slash := by
  induction cs using List.reverseRecOn with
  | nil => exact absurd rfl hcs
  | append_singleton ds c _ =>
    intro b hb
    obtain ⟨t, rfl⟩ : ∃ t', t = b :: t' := by
      cases t with
      | nil => simp at hb
      | cons d t => exact ⟨t, by simp_all⟩
    by_contra hne
    have hc := h c (by simp)
    obtain ⟨a, c', rfl⟩ := List.exists_cons_of_ne_nil hc.ne_nil
    have ha : a ≠ slash := fun ha => hc.noSlash (by simp [ha])
    have htake : (a :: c' ++ b :: t).takeWhile (· != slash) =
        a :: c' ++ (b :: t).takeWhile (· != slash) :=
      List.takeWhile_append_of_pos (bne_of_notMem hc.noSlash)
    have hsplit : absolutePath (ds ++ [a :: c']) ++ b :: t =
        ds.flatMap (slash :: ·) ++ slash :: (a :: c' ++ b :: t) := by
      rw [absolutePath_concat, List.append_assoc]
      rfl
    rw [hsplit, components_append_slash, components_flatMap fun d hd => h d (by simp [hd]),
      List.cons_append, components_cons ha, ← List.cons_append, htake,
      List.prefix_append_right_inj, List.cons_prefix_cons] at hlead
    have hlen := congrArg List.length hlead.1
    simp [hne] at hlen

/-- What a walker with a buffer of `limit` bytes for a name takes next. -/
def nextPiece (limit : ℕ) (s : List UInt8) : List UInt8 := (s.takeWhile (· != slash)).take limit

/-- What a walker takes one after the other. Every turn takes a byte, so the length of the path
is enough fuel. -/
def pieces (limit : ℕ) : ℕ → List UInt8 → List (List UInt8)
  | 0, _ => []
  | fuel + 1, s =>
    let s := s.dropWhile (· == slash)
    if s = [] then []
    else nextPiece limit s :: pieces limit fuel (s.drop (nextPiece limit s).length)

/-- A path without the slashes at its start is empty or starts with another byte. -/
theorem dropWhile_slash_cases (s : List UInt8) :
    s.dropWhile (· == slash) = [] ∨
      ∃ b t, s.dropWhile (· == slash) = b :: t ∧ b ≠ slash := by
  generalize hr : s.dropWhile (· == slash) = r
  cases r with
  | nil => exact .inl rfl
  | cons b t =>
    refine .inr ⟨b, t, rfl, ?_⟩
    have hb := List.head?_dropWhile_not (· == slash) s
    rw [hr] at hb
    simpa using hb

theorem isComponent_nextPiece (hlimit : 0 < limit) (hb : b ≠ slash) (s : List UInt8) :
    IsComponent (nextPiece limit (b :: s)) := by
  obtain ⟨hne, hns⟩ := isComponent_takeWhile hb s
  exact ⟨by simp [nextPiece, hne, hlimit.ne'], fun h => hns (List.mem_of_mem_take h)⟩

theorem pieces_isComponent (hlimit : 0 < limit) (hc : c ∈ pieces limit fuel s) :
    IsComponent c := by
  induction fuel generalizing s with
  | zero => simp [pieces] at hc
  | succ fuel ih =>
    rw [pieces] at hc
    rcases dropWhile_slash_cases s with hs | ⟨b, t, hs, hb⟩
    · simp [hs] at hc
    · simp only [hs, reduceCtorEq, if_false] at hc
      rcases List.mem_cons.mp hc with rfl | hc
      · exact isComponent_nextPiece hlimit hb t
      · exact ih hc

theorem mem_of_mem_pieces (hc : c ∈ pieces limit fuel s) (hb : b ∈ c) : b ∈ s := by
  induction fuel generalizing s with
  | zero => simp [pieces] at hc
  | succ fuel ih =>
    have hsub : ∀ {x : UInt8}, x ∈ s.dropWhile (· == slash) → x ∈ s :=
      fun h => (List.dropWhile_sublist _).mem h
    rw [pieces] at hc
    rcases dropWhile_slash_cases s with hs | ⟨b', t, hs, -⟩
    · simp [hs] at hc
    · simp only [hs, reduceCtorEq, if_false] at hc hsub
      rcases List.mem_cons.mp hc with rfl | hc
      · exact hsub ((List.takeWhile_sublist _).mem (List.mem_of_mem_take hb))
      · exact hsub (List.mem_of_mem_drop (ih hc))

end Tomahawk.Lib
