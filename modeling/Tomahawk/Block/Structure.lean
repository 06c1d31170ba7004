import Tomahawk.Block.Cache

/-!
# The lists of the buffer cache

The free list, the LRU list and the hash chains as lists of buffers. `Linked` says
that the pointers spell these lists and that they fit together: a buffer in a chain
is on the LRU list, in the chain of its own hash, and no block is cached twice. The
lemmas say what lookup finds and how touching, attaching and detaching a buffer
change the lists.
-/

namespace Tomahawk.Block

open Function Tomahawk.Lib

/-- The buffers of each list, in order. -/
structure Lists where
  free : List BufPtr
  lru : List BufPtr
  chain : Fin bufferHashSize → List BufPtr

/-- The chain that a buffer belongs to. -/
def Cache.hashOf (s : Cache) (i : BufPtr) : Fin bufferHashSize :=
  bufferHashFunc (s.dev i) (s.blockNum i)

/-- The pointers of the cache spell the lists, and the lists fit together. -/
structure Linked (s : Cache) (L : Lists) : Prop where
  free : IsList s.hashNext s.freeBuffers L.free
  chain : ∀ h, IsList s.hashNext (s.bufferHash h) (L.chain h)
  lru : s.lru.Is L.lru
  /-- The chains hold the buffers of the LRU list, each in the chain of its hash. -/
  mem_chain : ∀ h i, i ∈ L.chain h ↔ i ∈ L.lru ∧ s.hashOf i = h
  /-- No buffer is both free and cached. -/
  free_lru : ∀ i ∈ L.free, i ∉ L.lru
  /-- No block is cached twice. -/
  key : ∀ i ∈ L.lru, ∀ j ∈ L.lru, s.dev i = s.dev j → s.blockNum i = s.blockNum j → i = j

/-- Removing a buffer from its chain leaves the LRU list alone. -/
@[simp] theorem bufferHashRemove_lru (s : Cache) (i : BufPtr) :
    (bufferHashRemove s i).lru = s.lru := by
  unfold bufferHashRemove
  dsimp only
  split <;> rfl

/-- The write-back of a buffer, if it is dirty. -/
def writeBack (env : Devices) (s : Cache) (i : BufPtr) : Cache :=
  if (s.flags i).dirty then (bufferSyncInternal env s i).1 else s

/-- A buffer is taken off its lists and its block is forgotten. -/
def Cache.evict (s : Cache) (i : BufPtr) : Cache :=
  let s := lruRemove (bufferHashRemove s i) i
  { s with
    dev := update s.dev i 0
    blockNum := update s.blockNum i 0
    flags := update s.flags i .none
    stats := { s.stats with cachedBlocks := s.stats.cachedBlocks - 1 } }

namespace Linked

variable {s s' : Cache} {L : Lists} {i : BufPtr} {dev : DevPtr} {b : ℕ}

/-- Only the list heads, and the links and keys of the buffers on the lists, matter. -/
theorem congr (h : Linked s L) (hhash : s'.bufferHash = s.bufferHash)
    (hfree : s'.freeBuffers = s.freeBuffers) (hlru : s'.lru = s.lru)
    (hnext : ∀ j, j ∈ L.free ∨ j ∈ L.lru → s'.hashNext j = s.hashNext j)
    (hkey : ∀ j ∈ L.lru, s'.dev j = s.dev j ∧ s'.blockNum j = s.blockNum j) : Linked s' L where
  free := by
    rw [hfree]
    exact h.free.congr fun j hj => hnext j (.inl hj)
  chain hash := by
    rw [hhash]
    exact (h.chain hash).congr fun j hj => hnext j (.inr ((h.mem_chain hash j).mp hj).1)
  lru := by
    rw [hlru]
    exact h.lru
  mem_chain hash j := by
    rw [h.mem_chain]
    refine and_congr_right fun hj => ?_
    rw [Cache.hashOf, Cache.hashOf, (hkey j hj).1, (hkey j hj).2]
  free_lru := h.free_lru
  key j hj k hk := by
    rw [(hkey j hj).1, (hkey k hk).1, (hkey j hj).2, (hkey k hk).2]
    exact h.key j hj k hk

/-- Taking the first buffer of the free list. -/
theorem popFree {f : List BufPtr} (h : Linked s L) (hf : L.free = i :: f) :
    Linked { s with freeBuffers := s.hashNext i, hashNext := update s.hashNext i none }
      { L with free := f } := by
  have hlist := h.free
  rw [hf] at hlist
  have hif : i ∉ f := (List.nodup_cons.mp hlist.nodup).1
  have hil : i ∉ L.lru := h.free_lru i (by simp [hf])
  have hrest : Linked { s with freeBuffers := s.hashNext i } { L with free := f } :=
    { free := hlist.tail
      chain := h.chain
      lru := h.lru
      mem_chain := h.mem_chain
      free_lru := fun j hj => h.free_lru j (by simp [hf, hj])
      key := h.key }
  refine hrest.congr rfl rfl rfl (fun j hj => update_of_ne ?_ _ _) fun j _ => ⟨rfl, rfl⟩
  rintro rfl
  exact hj.elim hif hil

/-- Putting a buffer that is on no list in front of the free list. -/
theorem pushFree (h : Linked s L) (hfree : i ∉ L.free) (hlru : i ∉ L.lru) :
    Linked { s with hashNext := update s.hashNext i s.freeBuffers, freeBuffers := some i }
      { L with free := i :: L.free } := by
  have hkept : Linked { s with hashNext := update s.hashNext i s.freeBuffers } L := by
    refine h.congr rfl rfl rfl (fun j hj => update_of_ne ?_ _ _) fun j _ => ⟨rfl, rfl⟩
    rintro rfl
    exact hj.elim hfree hlru
  exact
    { free := h.free.push hfree
      chain := hkept.chain
      lru := h.lru
      mem_chain := h.mem_chain
      free_lru := fun j hj => by
        rcases List.mem_cons.mp hj with rfl | hj
        · exact hlru
        · exact h.free_lru j hj
      key := h.key }

/-- A list of distinct buffers fits in the fuel of the walks. -/
theorem length_le {l : List BufPtr} (h : l.Nodup) : l.length ≤ bufferCacheSize := by
  simpa using h.length_le_card

section

variable (h : Linked s L)
include h

/-- `buffer_alloc` takes the first free buffer, evicts a cached one or finds none. -/
theorem bufferAlloc_cases (env : Devices) :
    (∃ i f, L.free = i :: f ∧ i ∉ f ∧ i ∉ L.lru ∧ bufferAlloc env s =
        ({ s with freeBuffers := s.hashNext i, hashNext := update s.hashNext i none }, some i)) ∨
      L.free = [] ∧ ((∀ i ∈ L.lru, evictable s i = false) ∧ bufferAlloc env s = (s, none) ∨
        ∃ i ∈ L.lru, bufferAlloc env s = ((writeBack env s i).evict i, some i)) := by
  cases hfree : L.free with
  | cons i f =>
    have hlist := h.free
    rw [hfree] at hlist
    have hhead : s.freeBuffers = some i := hlist.head_eq
    exact .inl ⟨i, f, rfl, (List.nodup_cons.mp hlist.nodup).1, h.free_lru i (by simp [hfree]),
      by simp only [bufferAlloc, hhead]⟩
  | nil =>
    have hhead : s.freeBuffers = none := by
      rw [h.free.head_eq, hfree]
      rfl
    have hwalk : walkFind s.lru.prev (evictable s) bufferCacheSize s.lru.tail = _ :=
      walkFind_eq h.lru.prev (length_le h.lru.prev.nodup)
    refine .inr ⟨rfl, ?_⟩
    cases hfind : L.lru.reverse.find? (evictable s) with
    | none =>
      rw [hfind] at hwalk
      exact .inl ⟨by simpa using hfind, by simp only [bufferAlloc, hhead, hwalk]⟩
    | some i =>
      rw [hfind] at hwalk
      refine .inr ⟨i, List.mem_reverse.mp (List.mem_of_find?_eq_some hfind), ?_⟩
      simp only [bufferAlloc, hhead, hwalk]
      rfl

/-- `buffer_find` finds the cached buffer of a block. -/
theorem bufferFind_eq_some :
    bufferFind s dev b = some i ↔ i ∈ L.lru ∧ s.dev i = dev ∧ s.blockNum i = b := by
  have hchain := h.chain (bufferHashFunc dev b)
  rw [bufferFind, walkFind_eq hchain (length_le hchain.nodup)]
  constructor
  · intro hfind
    have hmem := (h.mem_chain _ i).mp (List.mem_of_find?_eq_some hfind)
    have htest := List.find?_some hfind
    simp only [bufferMatches, Bool.and_eq_true, beq_iff_eq] at htest
    exact ⟨hmem.1, htest⟩
  · rintro ⟨hmem, hdev, hnum⟩
    cases hfind : (L.chain (bufferHashFunc dev b)).find? (bufferMatches s dev b) with
    | none =>
      have hin : i ∈ L.chain (bufferHashFunc dev b) :=
        (h.mem_chain _ i).mpr ⟨hmem, by simp [Cache.hashOf, hdev, hnum]⟩
      have := List.find?_eq_none.mp hfind i hin
      simp [bufferMatches, hdev, hnum] at this
    | some j =>
      have hj := (h.mem_chain _ j).mp (List.mem_of_find?_eq_some hfind)
      have htest := List.find?_some hfind
      simp only [bufferMatches, Bool.and_eq_true, beq_iff_eq] at htest
      rw [h.key j hj.1 i hmem (htest.1.trans hdev.symm) (htest.2.trans hnum.symm)]

/-- `buffer_find` fails exactly on blocks that are not cached. -/
theorem bufferFind_eq_none (hfind : bufferFind s dev b = none) :
    ∀ i ∈ L.lru, ¬ (s.dev i = dev ∧ s.blockNum i = b) := by
  intro i hi hkey
  have := h.bufferFind_eq_some.mpr ⟨hi, hkey⟩
  simp [hfind] at this

/-- Touching a cached buffer moves it to the front of the LRU list. -/
theorem touch (hi : i ∈ L.lru) :
    ∃ l, (∀ j, j ∈ l ↔ j ∈ L.lru) ∧ Linked (lruTouch s i) { L with lru := l } := by
  unfold lruTouch
  split_ifs with hhead
  · exact ⟨L.lru, fun _ => Iff.rfl, h⟩
  have hnodup := h.lru.nodup
  have hmem : ∀ j, j ∈ i :: L.lru.erase i ↔ j ∈ L.lru := by
    intro j
    rw [List.mem_cons, hnodup.mem_erase_iff]
    constructor
    · rintro (rfl | ⟨_, hj⟩)
      · exact hi
      · exact hj
    · intro hj
      by_cases hji : j = i
      · exact .inl hji
      · exact .inr ⟨hji, hj⟩
  refine ⟨i :: L.lru.erase i, hmem, ?_⟩
  exact
    { free := h.free
      chain := h.chain
      lru := (h.lru.remove hi).addFront (by simp [hnodup.mem_erase_iff])
      mem_chain := fun hash j => (h.mem_chain hash j).trans (by simp only [hmem]; rfl)
      free_lru := fun j hj hj' => h.free_lru j hj ((hmem j).mp hj')
      key := fun j hj k hk => h.key j ((hmem j).mp hj) k ((hmem k).mp hk) }

/-- Attaching a buffer that is on no list, for a block that is not cached. -/
theorem attach (hfree : i ∉ L.free) (hlru : i ∉ L.lru)
    (hkey : ∀ j ∈ L.lru, ¬ (s.dev j = s.dev i ∧ s.blockNum j = s.blockNum i)) :
    Linked (lruAddFront (bufferHashAdd s i) i)
      { L with
        lru := i :: L.lru
        chain := update L.chain (s.hashOf i) (i :: L.chain (s.hashOf i)) } := by
  have hchain : ∀ hash, i ∉ L.chain hash := fun hash hi => hlru ((h.mem_chain hash i).mp hi).1
  -- Off the new buffer the links are as they were.
  have hlink : ∀ {head : Option BufPtr} {l : List BufPtr}, i ∉ l → IsList s.hashNext head l →
      IsList (update s.hashNext i (s.bufferHash (s.hashOf i))) head l := by
    intro head l hil hl
    refine hl.congr fun j hj => update_of_ne ?_ _ _
    rintro rfl
    exact hil hj
  refine ⟨hlink hfree h.free, ?_, h.lru.addFront hlru, ?_, ?_, ?_⟩
  · intro hash
    change IsList (update s.hashNext i (s.bufferHash (s.hashOf i)))
      (update s.bufferHash (s.hashOf i) (some i) hash) _
    by_cases hhash : hash = s.hashOf i
    · subst hhash
      simpa using (h.chain _).push (hchain (s.hashOf i))
    · simpa [update_of_ne hhash] using hlink (hchain hash) (h.chain hash)
  · intro hash j
    have hj := h.mem_chain hash j
    by_cases hhash : hash = s.hashOf i
    · subst hhash
      simp only [update_self, List.mem_cons, hj]
      constructor
      · rintro (rfl | ⟨hj, heq⟩)
        · exact ⟨.inl rfl, rfl⟩
        · exact ⟨.inr hj, heq⟩
      · rintro ⟨rfl | hj, heq⟩
        · exact .inl rfl
        · exact .inr ⟨hj, heq⟩
    · simp only [update_of_ne hhash, List.mem_cons, hj]
      constructor
      · rintro ⟨hj, heq⟩
        exact ⟨.inr hj, heq⟩
      · rintro ⟨rfl | hj, heq⟩
        · exact absurd heq.symm hhash
        · exact ⟨hj, heq⟩
  · intro j hj hj'
    rcases List.mem_cons.mp hj' with rfl | hj'
    · exact hfree hj
    · exact h.free_lru j hj hj'
  · intro j hj k hk hdev hnum
    rcases List.mem_cons.mp hj with rfl | hj' <;> rcases List.mem_cons.mp hk with rfl | hk'
    · rfl
    · exact absurd ⟨hdev.symm, hnum.symm⟩ (hkey k hk')
    · exact absurd ⟨hdev, hnum⟩ (hkey j hj')
    · exact h.key j hj' k hk' hdev hnum

/-- Detaching a cached buffer takes it off its chain and the LRU list, and changes
nothing but links. -/
theorem detach (hi : i ∈ L.lru) :
    ∃ next head, lruRemove (bufferHashRemove s i) i =
        { s with bufferHash := head, hashNext := next, lru := s.lru.remove i } ∧
      Linked (lruRemove (bufferHashRemove s i) i)
        { L with
          lru := L.lru.erase i
          chain := update L.chain (s.hashOf i) ((L.chain (s.hashOf i)).erase i) } := by
  have hchain := h.chain (s.hashOf i)
  have hin : i ∈ L.chain (s.hashOf i) := (h.mem_chain _ i).mpr ⟨hi, rfl⟩
  have hnodup := h.lru.nodup
  obtain ⟨next, head, hremove, hlist, hkeep⟩ :=
    hchain.exists_removeLink hin (length_le hchain.nodup)
  have heq : lruRemove (bufferHashRemove s i) i =
      { s with
        bufferHash := update s.bufferHash (s.hashOf i) head
        hashNext := update next i none
        lru := s.lru.remove i } := by
    unfold Cache.hashOf at hremove
    simp only [lruRemove, bufferHashRemove, hremove]
    rfl
  refine ⟨_, _, heq, ?_⟩
  rw [heq]
  -- A list without buffers of this chain keeps its links.
  have hother : ∀ {first : Option BufPtr} {l : List BufPtr},
      (∀ j ∈ l, j ∉ L.chain (s.hashOf i)) → IsList s.hashNext first l →
      IsList (update next i none) first l := by
    intro first l hl hlist
    refine hlist.congr fun j hj => ?_
    have hji : j ≠ i := by
      rintro rfl
      exact hl j hj hin
    rw [update_of_ne hji, hkeep j (hl j hj)]
  refine ⟨hother ?_ h.free, ?_, h.lru.remove hi, ?_, ?_, ?_⟩
  · intro j hj hjc
    exact h.free_lru j hj ((h.mem_chain _ j).mp hjc).1
  · intro hash
    by_cases hhash : hash = s.hashOf i
    · subst hhash
      simpa using hlist
    · simp only [update_of_ne hhash]
      refine hother (fun j hj hjc => hhash ?_) (h.chain hash)
      rw [← ((h.mem_chain _ j).mp hj).2, ((h.mem_chain _ j).mp hjc).2]
  · intro hash j
    change j ∈ update L.chain (s.hashOf i) ((L.chain (s.hashOf i)).erase i) hash ↔
      j ∈ L.lru.erase i ∧ s.hashOf j = hash
    rw [hnodup.mem_erase_iff]
    by_cases hhash : hash = s.hashOf i
    · subst hhash
      rw [update_self, hchain.nodup.mem_erase_iff, h.mem_chain, and_assoc]
    · rw [update_of_ne hhash, h.mem_chain]
      refine ⟨fun ⟨hj, hjh⟩ => ⟨⟨?_, hj⟩, hjh⟩, fun ⟨⟨_, hj⟩, hjh⟩ => ⟨hj, hjh⟩⟩
      rintro rfl
      exact hhash hjh.symm
  · intro j hj hj'
    exact h.free_lru j hj (List.mem_of_mem_erase hj')
  · intro j hj k hk
    exact h.key j (List.mem_of_mem_erase hj) k (List.mem_of_mem_erase hk)

end

end Linked

/-- The fields that the lists consist of are equal. -/
structure SameLinks (s t : Cache) : Prop where
  dev : t.dev = s.dev
  blockNum : t.blockNum = s.blockNum
  hashNext : t.hashNext = s.hashNext
  bufferHash : t.bufferHash = s.bufferHash
  freeBuffers : t.freeBuffers = s.freeBuffers
  lru : t.lru = s.lru

section

variable {s t : Cache} {L : Lists} {i : BufPtr}

theorem Linked.of_same (h : Linked s L) (hsame : SameLinks s t) : Linked t L :=
  h.congr hsame.bufferHash hsame.freeBuffers hsame.lru (fun _ _ => by rw [hsame.hashNext])
    fun _ _ => by rw [hsame.dev, hsame.blockNum]; exact ⟨rfl, rfl⟩

theorem SameLinks.refl (s : Cache) : SameLinks s s := ⟨rfl, rfl, rfl, rfl, rfl, rfl⟩

/-- A write-back changes no list, whether or not the device takes the block. -/
theorem sameLinks_sync (env : Devices) (s : Cache) (i : BufPtr) :
    SameLinks s (bufferSyncInternal env s i).1 := by
  unfold bufferSyncInternal writeBlock
  split_ifs <;> exact ⟨rfl, rfl, rfl, rfl, rfl, rfl⟩

theorem sameLinks_writeBack (env : Devices) (s : Cache) (i : BufPtr) :
    SameLinks s (writeBack env s i) := by
  unfold writeBack
  split_ifs
  · exact sameLinks_sync env s i
  · exact SameLinks.refl s

/-- A loose buffer is put on the free list. -/
def Cache.giveBack (s : Cache) (i : BufPtr) : Cache :=
  { s with
    refCount := update s.refCount i 0
    hashNext := update s.hashNext i s.freeBuffers
    freeBuffers := some i }

/-- A cached buffer of the device is written back, evicted and put on the free list. -/
theorem Linked.invalidateStep_eq (h : Linked s L) (env : Devices) (hi : i ∈ L.lru) :
    invalidateStep env (s.dev i) s i = ((writeBack env s i).evict i).giveBack i := by
  have hlinked := (h.of_same (sameLinks_writeBack env s i)).lru.linked hi
  rw [← bufferHashRemove_lru _ i] at hlinked
  unfold writeBack at hlinked ⊢
  simp only [invalidateStep, if_true, if_pos hlinked]
  rfl

end

end Tomahawk.Block
