import Tomahawk.Ramfs.Tree

/-!
# Renaming in the tree of vnodes

`vfs_rename` takes out an entry with the new name, then moves the source entry. The link to
the source entry is found first, so it must survive the removal.
-/

namespace Tomahawk.Ramfs

open Function Tomahawk.Lib Relation

variable {s s' : Fs} {bits : ℕ} {d e f v w op np : ℕ} {name n : CStr} {nodes : ℕ → Prop}
  {kids : ℕ → List ℕ} {a b : List ℕ} {x t k e' : ℕ} {l : Link} {a' b' : List ℕ}

/-! ## The entry with the new name -/

/-- The first part of `vfs_rename` refuses, finds no entry, or takes one out. -/
theorem Tree.displace_eq (h : Tree bits s nodes kids) (hd : nodes d) (name : CStr) :
    displace bits s d name = none ∨
      (s.findLink name (bits + 1) (.head d) = none ∧ displace bits s d name = some s ∧
        ∀ x ∈ kids d, ¬ Named s x name) ∨
      ∃ a e b, kids d = a ++ e :: b ∧ Named s e name ∧ kids (s.entVnode e) = [] ∧
        s.findLink name (bits + 1) (.head d) = some ((Link.head d).after a) ∧
        s.load ((Link.head d).after a) = e ∧
        displace bits s d name = some (s.detach bits d ((Link.head d).after a) e) := by
  unfold displace
  rcases h.findLink hd name with ⟨hnone, hall⟩ | ⟨a, e, b, hkids, hn, hsome, hload⟩
  · rw [hnone]
    exact .inr (.inl ⟨rfl, rfl, hall⟩)
  rw [hsome]
  dsimp only
  rw [hload]
  have ht := h.child hd (show e ∈ kids d by simp [hkids])
  by_cases hfull : s.vType (s.entVnode e) = .vdir ∧ 0 < s.vNchildren (s.entVnode e)
  · rw [if_pos hfull]
    exact .inl rfl
  have hip : s.vData (s.entVnode e) ≠ 0 := (h.used (o := .inode _) ht).ne
  rw [if_neg hfull, Fs.vData_release_splice, if_neg hip, ← Fs.detach]
  exact .inr (.inr ⟨a, e, b, hkids, hn, h.kids_eq_nil ht hfull, rfl, hload, rfl⟩)

/-! ## Moving an entry -/

/-- The second part of `vfs_rename`: the entry `e` of the vnode `t` moves from the link `l` in
`op` to the front of `np`, under a new name. -/
def Fs.move (s : Fs) (op np : ℕ) (l : Link) (e t : ℕ) (newName : CStr) : Fs :=
  let s := s.splice op l (s.entNext e)
  let s := s.setEnt e ((s.ents e).putStr 0 (newName.take 254).bytes)
  let s := s.prepend np e
  { s with vParent := update s.vParent t np }

/-- The entries after a move. -/
def moveKid (kids : ℕ → List ℕ) (op np : ℕ) (a : List ℕ) (e : ℕ) (b : List ℕ) : ℕ → List ℕ :=
  let kids := update kids op (a ++ b)
  update kids np (e :: kids np)

section

variable (h : Tree bits s nodes kids) (ho : nodes op) (hkids : kids op = a ++ e :: b) (hv : nodes v)
include h ho hkids hv

theorem Tree.mem_moveKid :
    f ∈ moveKid kids op np a e b v ↔ (f = e ∧ v = np) ∨ (f ∈ kids v ∧ f ≠ e) := by
  rw [moveKid, mem_update_cons, h.mem_splice ho hkids hv, or_comm, eq_comm (a := np)]

/-- Moves only reorder the entries of the tree. -/
theorem Tree.mem_of_moveKid (hf : f ∈ moveKid kids op np a e b v) : ∃ w, nodes w ∧ f ∈ kids w := by
  rcases (h.mem_moveKid ho hkids hv).mp hf with ⟨rfl, -⟩ | ⟨hf, -⟩
  · exact ⟨op, ho, by simp [hkids]⟩
  · exact ⟨v, hv, hf⟩

end

/-- Short names are stored whole. -/
theorem take_bytes_eq (hname : name.bytes.length ≤ 63) : (name.take 254).bytes = name.bytes :=
  List.take_of_length_le (by omega)

theorem Fs.entNext_setName (s : Fs) (hname : name.bytes.length ≤ 63) :
    (s.setEnt e ((s.ents e).putStr 0 (name.take 254).bytes)).entNext x = s.entNext x := by
  have hlength : (name.take 254).bytes.length ≤ 63 := by rwa [take_bytes_eq hname]
  by_cases hx : x = e
  · subst hx
    simp only [entNext, setEnt, update_self]
    exact Bytes.le_congr fun k hk _ => Bytes.putStr_of_gt (by omega)
  · simp only [entNext, setEnt, update_of_ne hx]

/-- The lists after a move. -/
theorem Tree.listed_move (h : Tree bits s nodes kids) (hbits : bits ≤ 2 ^ 23) (ho : nodes op)
    (hn : nodes np) (hkids : kids op = a ++ e :: b) (t : ℕ) (hname : name.bytes.length ≤ 63) :
    Listed (s.move op np ((Link.head op).after a) e t name) nodes (moveKid kids op np a e b) := by
  have he : e ∈ kids op := by simp [hkids]
  have hsplice := h.listed.splice ho hkids
  set s₁ := s.splice op ((Link.head op).after a) (s.entNext e) with hs₁
  have hnamed : Listed (s₁.setEnt e ((s₁.ents e).putStr 0 (name.take 254).bytes)) nodes
      (update kids op (a ++ b)) :=
    hsplice.congr (fun _ hv => hv) (fun _ _ => rfl) (fun _ _ => rfl)
      fun _ _ _ _ => s₁.entNext_setName hname
  have hmem : ∀ {v x}, nodes v → x ∈ update kids op (a ++ b) v → x ∈ kids v ∧ x ≠ e :=
    fun hv hx => (h.mem_splice ho hkids hv).mp hx
  have hprepend := hnamed.prepend hn (h.entry_used ho he).ne (fun v hv hx => (hmem hv hx).2 rfl)
    fun x hx => (h.entry_used hn (hmem hn hx).1).lt hbits
  exact hprepend.congr (fun _ hv => hv) (fun _ _ => rfl) (fun _ _ => rfl) fun _ _ _ _ => rfl

/-- The bytes of another entry up to its link stay. -/
theorem Fs.ents_move_of_ne (s : Fs) (hx : x ≠ e) (hk : k < 72) :
    (s.move op np l e t name).ents x k = s.ents x k := by
  simp only [move, prepend, setEnt, update_of_ne hx, splice]
  exact s.ents_store l _ x hk

/-- The bytes of the moved entry up to its link: the new name over the old bytes. -/
theorem Fs.ents_move_self (s : Fs) (hk : k < 72) :
    (s.move op np l e t name).ents e k =
      (Bytes.putStr ((s.splice op l (s.entNext e)).ents e) 0 (name.take 254).bytes) k := by
  simp only [move, prepend, setEnt, update_self]
  exact Bytes.putLe_of_lt hk

theorem Fs.entVnode_move (s : Fs) (hname : name.bytes.length ≤ 63) :
    (s.move op np l e t name).entVnode x = s.entVnode x := by
  have hlength : (name.take 254).bytes.length ≤ 63 := by rwa [take_bytes_eq hname]
  refine entVnode_congr fun k hk hk' => ?_
  by_cases hx : x = e
  · subst hx
    rw [ents_move_self s hk', Bytes.putStr_of_gt (by omega)]
    exact s.ents_store l _ x hk'
  · exact ents_move_of_ne s hx hk'

/-- The fields that a move leaves alone. -/
theorem Fs.move_fields (s : Fs) (l : Link) (t : ℕ) :
    (s.move op np l e t name).rootVnode = s.rootVnode ∧ (s.move op np l e t name).free = s.free ∧
      (s.move op np l e t name).vType = s.vType ∧ (s.move op np l e t name).vData = s.vData ∧
      (s.move op np l e t name).iRefcount = s.iRefcount ∧
      (s.move op np l e t name).cacheList = s.cacheList := by
  simp only [move, prepend, setEnt, splice, store, and_self]

theorem Fs.vParent_move (s : Fs) (l : Link) (t : ℕ) :
    (s.move op np l e t name).vParent = update s.vParent t np := rfl

/-- The moved entry has the new name. -/
theorem named_move (s : Fs) (hname : name.bytes.length ≤ 63) :
    Named (s.move op np l e t name) e name := by
  refine ⟨hname, ?_⟩
  have hbytes : ∀ k, 0 ≤ k → k ≤ 0 + name.bytes.length →
      (s.move op np l e t name).ents e k =
        (Bytes.putStr ((s.splice op l (s.entNext e)).ents e) 0 name.bytes) k := by
    intro k _ hk
    rw [Fs.ents_move_self s (by omega), take_bytes_eq hname]
  rw [Fs.nameEq, Bytes.strEq_congr hbytes]
  exact Bytes.strEq_putStr name.noNul

/-- The tree after a move: the new name is free in the new directory, which is not below the
moved vnode. -/
theorem Tree.move (h : Tree bits s nodes kids) (hbits : bits ≤ 2 ^ 23) (ho : nodes op)
    (hn : nodes np) (hdir : s.vType np = .vdir) (hkids : kids op = a ++ e :: b)
    (hname : name.bytes.length ≤ 63) (hfree : ∀ x ∈ kids np, x ≠ e → ¬ Named s x name)
    (hbelow : ¬ ReflTransGen (Edge s nodes kids) (s.entVnode e) np) :
    Tree bits (s.move op np ((Link.head op).after a) e (s.entVnode e) name) nodes
      (moveKid kids op np a e b) := by
  have he : e ∈ kids op := by simp [hkids]
  have hlisted := h.listed_move hbits ho hn hkids (s.entVnode e) hname
  set s' := s.move op np ((Link.head op).after a) e (s.entVnode e) name with hs'
  obtain ⟨hroot, hbitmap, hvType, hvData, hrefs, hcache⟩ :
      s'.rootVnode = s.rootVnode ∧ s'.free = s.free ∧ s'.vType = s.vType ∧ s'.vData = s.vData ∧
        s'.iRefcount = s.iRefcount ∧ s'.cacheList = s.cacheList := s.move_fields _ _
  have hvParent : s'.vParent = update s.vParent (s.entVnode e) np := s.vParent_move _ _
  have hselfNamed : Named s' e name := named_move s hname
  have hmem : ∀ {v x}, nodes v → (x ∈ moveKid kids op np a e b v ↔
      (x = e ∧ v = np) ∨ (x ∈ kids v ∧ x ≠ e)) := fun hv => h.mem_moveKid ho hkids hv
  have hold : ∀ {v x}, nodes v → x ∈ moveKid kids op np a e b v → ∃ w, nodes w ∧ x ∈ kids w :=
    fun hv hx => h.mem_of_moveKid ho hkids hv hx
  have hvnode : ∀ x, s'.entVnode x = s.entVnode x := fun x => s.entVnode_move hname
  have hnamed : ∀ {x n}, x ≠ e → (Named s' x n ↔ Named s x n) := fun {x n} hx =>
    ⟨fun hn => hn.congr fun k hk => (s.ents_move_of_ne hx (by omega)).symm,
      fun hn => hn.congr fun k hk => s.ents_move_of_ne hx (by omega)⟩
  clear_value s'
  have hself : ∀ {n}, Named s' e n → n = name := fun hn => hselfNamed.nameEq_iff.mp hn.eq
  have hlive : ∀ {o : Owner}, o.Live nodes (moveKid kids op np a e b) → o.Live nodes kids := by
    intro o ho'
    cases o with
    | vnode v => exact ho'
    | inode v => exact ho'
    | entry x =>
      obtain ⟨v, hv, hx⟩ := ho'
      exact hold hv hx
  have haddr : ∀ o : Owner, o.addr s' = o.addr s := Owner.addr_congr hvData
  refine ⟨hlisted, ?_, ?_, ?_, ?_, ?_, ?_, ?_, ?_, ?_, ?_, ?_, ?_, ?_, ?_⟩
  · rw [hroot]
    exact h.root
  · rw [hroot, hvType]
    exact h.rootDir
  · intro v x hv hx
    rw [hvType]
    rcases (hmem hv).mp hx with ⟨-, rfl⟩ | ⟨hx, -⟩
    · exact hdir
    · exact h.dir hv hx
  · intro v x hv hx
    obtain ⟨w, hw, hx⟩ := hold hv hx
    rw [hvnode]
    exact h.child hw hx
  · intro v x hv hx
    rw [hvnode, hvParent]
    rcases (hmem hv).mp hx with ⟨rfl, rfl⟩ | ⟨hx, hxe⟩
    · rw [update_self]
    · have hne : s.entVnode x ≠ s.entVnode e := fun heq => hxe (h.once hv ho hx he heq)
      rw [update_of_ne hne, h.parent hv hx]
  · intro v x hv hx
    obtain ⟨w, hw, hx⟩ := hold hv hx
    rw [hvnode, hroot]
    exact h.notRoot hw hx
  · intro v w x y hv hw hx hy heq
    obtain ⟨v', hv', hx⟩ := hold hv hx
    obtain ⟨w', hw', hy⟩ := hold hw hy
    rw [hvnode, hvnode] at heq
    exact h.once hv' hw' hx hy heq
  · intro v x hv hx
    by_cases hxe : x = e
    · rw [hxe]
      exact ⟨name, hselfNamed⟩
    · obtain ⟨w, hw, hx⟩ := hold hv hx
      obtain ⟨n, hn⟩ := h.named hw hx
      exact ⟨n, (hnamed hxe).mpr hn⟩
  · intro v x y n hv hx hy hnx hny
    -- The moved entry alone has the new name in its directory.
    rcases (hmem hv).mp hx with ⟨rfl, rfl⟩ | ⟨hxOld, hxe⟩
    · rcases (hmem hv).mp hy with ⟨rfl, -⟩ | ⟨hyOld, hye⟩
      · rfl
      · obtain rfl := hself hnx
        exact absurd ((hnamed hye).mp hny) (hfree y hyOld hye)
    · rcases (hmem hv).mp hy with ⟨rfl, rfl⟩ | ⟨hyOld, hye⟩
      · obtain rfl := hself hny
        exact absurd ((hnamed hxe).mp hnx) (hfree x hxOld hxe)
      · exact h.distinct hv hxOld hyOld ((hnamed hxe).mp hnx) ((hnamed hye).mp hny)
  · intro v hv
    rw [hroot]
    refine reach_move ?_ ?_ (h.reach hn) hbelow (h.reach hv)
    · rintro c c' ⟨hc, x, hx, rfl⟩ hne
      refine ⟨hc, x, (hmem hc).mpr (.inr ⟨hx, ?_⟩), hvnode x⟩
      rintro rfl
      exact hne rfl
    · exact ⟨hn, e, (hmem hn).mpr (.inl ⟨rfl, rfl⟩), hvnode e⟩
  · intro o ho'
    rw [haddr]
    exact (h.used (hlive ho')).mono fun i hi => by rwa [hbitmap]
  · intro o o' ho₁ ho₂ heq
    rw [haddr, haddr] at heq
    exact h.inj (hlive ho₁) (hlive ho₂) heq
  · intro v hv
    rw [hvData, hrefs]
    exact h.refs hv
  · intro v hv
    rw [hvData, hcache]
    exact h.cache hv

/-! ## The whole call -/

/-- The walk from a vnode up to the root meets `t`. The fuel is the number of frames. -/
def inSubtree (s : Fs) (t : ℕ) : ℕ → ℕ → Bool
  | 0, _ => true
  | fuel + 1, v => v == t || (v != s.rootVnode && inSubtree s t fuel (s.vParent v))

/-- The walk up meets every directory above the vnode. -/
theorem Tree.inSubtree_of_reach (h : Tree bits s nodes kids) (fuel : ℕ)
    (hreach : ReflTransGen (Edge s nodes kids) t v) : inSubtree s t fuel v = true := by
  induction fuel generalizing v with
  | zero => rfl
  | succ fuel ih =>
    rcases ReflTransGen.cases_tail hreach with rfl | ⟨w, hw, hnodes, x, hx, rfl⟩
    · simp [inSubtree]
    · have hroot := h.notRoot hnodes hx
      simp [inSubtree, h.parent hnodes hx, hroot, ih hw]

/-- The inputs of `vfs_rename` that keep the tree: the new name fits, the new directory is not
below the moved vnode, and an entry that is replaced is neither the source entry nor the one
that links to it. -/
def RenameMeets (bits : ℕ) (s : Fs) (op : ℕ) (oldName : CStr) (np : ℕ) (newName : CStr) : Prop :=
  op ≠ 0 ∧ np ≠ 0 ∧ s.vType op = .vdir ∧ s.vType np = .vdir →
    ∀ srcPp ∈ s.findLink oldName (bits + 1) (.head op), (displace bits s np newName).isSome →
      newName.bytes.length ≤ 63 ∧
      inSubtree s (s.entVnode (s.load srcPp)) (bits + 1) np = false ∧
      ∀ dstPp ∈ s.findLink newName (bits + 1) (.head np),
        s.load dstPp ≠ s.load srcPp ∧ srcPp ≠ .next (s.load dstPp)

/-- The tree after the part of `vfs_rename` that takes out an entry with the new name. -/
theorem Tree.edge_detach (h : Tree bits s nodes kids) (hd : nodes d) (hkids : kids d = a ++ e :: b)
    {c c' : ℕ} (hedge : Edge (s.detach bits d ((Link.head d).after a) e)
      (fun v => nodes v ∧ v ≠ s.entVnode e) (update kids d (a ++ b)) c c') :
    Edge s nodes kids c c' := by
  obtain ⟨hc, x, hx, rfl⟩ := hedge
  refine ⟨hc.1, x, ((h.mem_splice hd hkids hc.1).mp hx).1, ?_⟩
  exact (Fs.entVnode_store s _ _ x).symm

/-- The link to an entry survives the removal of another one that does not hold it. -/
theorem after_split {a b : List ℕ} {e : ℕ} (heq : a ++ e :: b = a' ++ e' :: b') (hne : e' ≠ e)
    (hlink : l.after a ≠ .next e') :
    ∃ a₁ b₁, a' ++ b' = a₁ ++ e :: b₁ ∧ l.after a₁ = l.after a := by
  rcases List.append_eq_append_iff.mp heq with ⟨c, rfl, hc⟩ | ⟨c, rfl, hc⟩
  · cases c with
    | nil => exact absurd (List.cons.inj hc).1.symm hne
    | cons y p =>
      obtain ⟨rfl, -⟩ := List.cons.inj hc
      exact ⟨a, p ++ b', by simp, rfl⟩
  · cases c with
    | nil => exact absurd (List.cons.inj hc).1 hne
    | cons y q =>
      obtain ⟨rfl, rfl⟩ := List.cons.inj hc
      refine ⟨a' ++ q, b, by simp, ?_⟩
      rcases List.eq_nil_or_concat q with rfl | ⟨q, z, rfl⟩
      · exact absurd (Link.after_concat l e' a') hlink
      · rw [List.concat_eq_append, ← List.append_assoc, Link.after_concat, ← List.cons_append,
          ← List.append_assoc, Link.after_concat]

theorem Fs.entVnode_detach (s : Fs) (d : ℕ) (l : Link) (e x : ℕ) :
    (s.detach bits d l e).entVnode x = s.entVnode x :=
  entVnode_congr fun _ _ hk => by rw [Fs.ents_detach, Fs.ents_store _ _ _ _ hk]

theorem named_detach : Named (s.detach bits d l e) x n ↔ Named s x n := by
  have hbytes : ∀ k < 64, (s.detach bits d l e).ents x k = s.ents x k := fun k hk => by
    rw [Fs.ents_detach, Fs.ents_store _ _ _ _ (by omega)]
  exact ⟨fun h => h.congr fun k hk => (hbytes k hk).symm, fun h => h.congr hbytes⟩

section

variable (h : Tree bits s nodes kids) (hbits : bits ≤ 2 ^ 23) (ho : nodes op) (hn : nodes np)
include h hbits ho hn

/-- The move of `vfs_rename` after an entry with the new name is taken out. -/
theorem Tree.detach_move (hdir : s.vType np = .vdir) (hkids : kids op = a ++ e :: b)
    (hkids' : kids np = a' ++ e' :: b') (hnamed : Named s e' name)
    (hempty : kids (s.entVnode e') = []) (hne : e' ≠ e) (hlink : (Link.head op).after a ≠ .next e')
    (hbelow : ¬ ReflTransGen (Edge s nodes kids) (s.entVnode e) np) :
    ∃ kids', (∀ v x, nodes v ∧ v ≠ s.entVnode e' → x ∈ kids' v → ∃ w, nodes w ∧ x ∈ kids w) ∧
      (∀ v x, nodes v → x ∈ kids v → x ≠ e → x ≠ e' → x ∈ kids' v) ∧
      Tree bits ((s.detach bits np ((Link.head np).after a') e').move op np
        ((Link.head op).after a) e (s.entVnode e) name) (fun v => nodes v ∧ v ≠ s.entVnode e')
        kids' := by
  have he : e ∈ kids op := by simp [hkids]
  have he' : e' ∈ kids np := by simp [hkids']
  have htree := h.detach hn hkids' hempty
  have hop : op ≠ s.entVnode e' := by
    intro heq
    rw [heq, hempty] at he
    cases he
  have hnp : np ≠ s.entVnode e' := by
    intro heq
    rw [heq, hempty] at he'
    cases he'
  -- The source entry is still found at its link.
  have hsource : ∃ a₁ b₁, update kids np (a' ++ b') op = a₁ ++ e :: b₁ ∧
      (Link.head op).after a₁ = (Link.head op).after a := by
    by_cases hsame : op = np
    · subst hsame
      rw [update_self]
      exact after_split (hkids.symm.trans hkids') hne hlink
    · rw [update_of_ne hsame]
      exact ⟨a, b, hkids, rfl⟩
  obtain ⟨a₁, b₁, hkids₁, hafter⟩ := hsource
  have hmove := htree.move hbits ⟨ho, hop⟩ ⟨hn, hnp⟩ hdir hkids₁ hnamed.length ?_ ?_
  · rw [hafter, Fs.entVnode_detach] at hmove
    refine ⟨_, fun v x hv hx => ?_, fun v x hv hx hxe hxe' => ?_, hmove⟩
    · obtain ⟨w, hw, hx⟩ := htree.mem_of_moveKid ⟨ho, hop⟩ hkids₁ hv hx
      exact ⟨w, hw.1, ((h.mem_splice hn hkids' hw.1).mp hx).1⟩
    · have hne : v ≠ s.entVnode e' := by
        rintro rfl
        rw [hempty] at hx
        cases hx
      exact (htree.mem_moveKid ⟨ho, hop⟩ hkids₁ ⟨hv, hne⟩).mpr
        (.inr ⟨(h.mem_splice hn hkids' hv).mpr ⟨hx, hxe'⟩, hxe⟩)
  · intro x hx _ hxn
    obtain ⟨hx, hxe⟩ := (h.mem_splice hn hkids' hn).mp hx
    exact hxe (h.distinct hn hx he' (named_detach.mp hxn) hnamed)
  · rw [Fs.entVnode_detach]
    exact fun hreach => hbelow
      (ReflTransGen.mono (fun _ _ hedge => h.edge_detach hn hkids' hedge) _ _ hreach)

/-- `vfs_rename` fails without a change, or moves the source entry, possibly after an entry with
the new name and its vnode left the tree. The other entries stay. -/
theorem Tree.vfsRename_eq {oldName newName : CStr}
    (hmeets : RenameMeets bits s op oldName np newName) :
    vfsRename bits s op oldName np newName = (s, -1) ∨
      ∃ s₁ l e kids', (s₁ = s ∨ ∃ l', ∃ e' ∈ kids np, s₁ = s.detach bits np l' e') ∧
        (∀ v x, nodes v ∧ v ≠ vfsLookupRamfs bits s np newName → x ∈ kids' v →
          ∃ w, nodes w ∧ x ∈ kids w) ∧
        vfsRename bits s op oldName np newName =
          (s₁.move op np l e (s.entVnode e) newName, 0) ∧
        Tree bits (s₁.move op np l e (s.entVnode e) newName)
          (fun v => nodes v ∧ v ≠ vfsLookupRamfs bits s np newName) kids' ∧
        newName.bytes.length ≤ 63 ∧ e ∈ kids op ∧
        s.entVnode e = vfsLookupRamfs bits s op oldName ∧
        ∀ v x, nodes v → x ∈ kids v → x ≠ e →
          s.entVnode x ≠ vfsLookupRamfs bits s np newName → x ∈ kids' v := by
  unfold vfsRename
  split_ifs with hnull hdirs
  · exact .inl rfl
  · exact .inl rfl
  rw [not_or] at hnull
  rw [not_or, not_not, not_not] at hdirs
  have hdir := hdirs.2
  rcases h.findLink ho oldName with ⟨hnone, -⟩ | ⟨a, e, b, hkids, hold, hsome, hload⟩
  · rw [hnone]
    exact .inl rfl
  have he : e ∈ kids op := by simp [hkids]
  have hsource : s.entVnode e = vfsLookupRamfs bits s op oldName := (h.lookup_eq ho he hold).symm
  have hmeets := hmeets ⟨hnull.1, hnull.2, hdirs⟩ _ hsome
  rw [hsome]
  dsimp only
  rw [hload] at hmeets ⊢
  rcases h.displace_eq hn newName with hdisplace | ⟨-, hdisplace, hall⟩ |
    ⟨a', e', b', hkids', hnamed, hempty, hsome', hload', hdisplace⟩
  · rw [hdisplace]
    exact .inl rfl
  · obtain ⟨hlength, hsub, -⟩ := hmeets (by simp [hdisplace])
    have hbelow : ¬ ReflTransGen (Edge s nodes kids) (s.entVnode e) np := fun hreach => by
      simp [h.inSubtree_of_reach _ hreach] at hsub
    have hmove := h.move hbits ho hn hdir hkids hlength (fun x hx _ => hall x hx) hbelow
    rw [hdisplace]
    refine .inr ⟨s, (Link.head op).after a, e, moveKid kids op np a e b, .inl rfl,
      fun v x hv hx => h.mem_of_moveKid ho hkids hv.1 hx, rfl, ?_, hlength, he, hsource,
      fun v x hv hx hxe _ => (h.mem_moveKid ho hkids hv).mpr (.inr ⟨hx, hxe⟩)⟩
    rw [(h.lookup_eq_zero hn hdir).mpr hall]
    have hnodes : (fun v => nodes v ∧ v ≠ 0) = nodes := by
      funext v
      exact propext ⟨fun hv => hv.1, fun hv => ⟨hv, (h.used (o := .vnode v) hv).ne⟩⟩
    rw [hnodes]
    exact hmove
  · obtain ⟨hlength, hsub, hlinks⟩ := hmeets (by simp [hdisplace])
    have hlinks := hlinks _ hsome'
    rw [hload'] at hlinks
    have hbelow : ¬ ReflTransGen (Edge s nodes kids) (s.entVnode e) np := fun hreach => by
      simp [h.inSubtree_of_reach _ hreach] at hsub
    obtain ⟨kids', hold, hkept, hmove⟩ := h.detach_move hbits ho hn hdir hkids hkids' hnamed hempty
      hlinks.1 hlinks.2 hbelow
    rw [hdisplace, h.lookup_eq hn (by simp [hkids'] : e' ∈ kids np) hnamed]
    refine .inr ⟨_, (Link.head op).after a, e, kids', .inr ⟨_, e', by simp [hkids'], rfl⟩, hold,
      rfl, hmove, hlength, he, hsource, fun v x hv hx hxe hne => hkept v x hv hx hxe ?_⟩
    rintro rfl
    exact hne rfl

end

end Tomahawk.Ramfs
