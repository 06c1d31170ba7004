import Tomahawk.Users.Verify
import Tomahawk.Lib.Hex

/-!
# The shadow file

`save_shadow` writes a line for each used entry and `password_store_load_shadow` reads the
lines back. The names are written as they are, and the entries are numbered anew when they
are read: a name with a separator is not read back, and entries above an unused slot move
down to other uids. The file is the bytes between the two functions.
-/

namespace Tomahawk.Users

open Function Tomahawk.Lib

/-- `':'` -/
def colon : UInt8 := 58

/-- `'\n'` -/
def newline : UInt8 := 10

/-- `'\n'` or `'\r'` -/
def isNewline (c : UInt8) : Bool := c == newline || c == 13

/-- The line of an entry without its end. -/
def shadowFields (e : UserEntry) : List UInt8 :=
  e.username.bytes ++ colon :: (hexEncode e.salt.toList ++ colon ::
    (hexEncode e.passwordHash.toList ++ [colon, if e.isAdmin then 49 else 48]))

/-- The line that `save_shadow` writes for an entry. -/
def shadowLine (e : UserEntry) : List UInt8 := shadowFields e ++ [newline]

/-- The loop of `save_shadow` over the entries, with the bytes in `buf` so far. -/
def saveLoop (st : PasswordStore) : List (Fin maxUsers) → List UInt8 → List UInt8
  | [], buf => buf
  | i :: is, buf =>
    if buf.length < 8192 - 160 then
      saveLoop st is (if (st.userDb i).used then buf ++ shadowLine (st.userDb i) else buf)
    else buf

/-- `save_shadow`: the contents of the file. -/
def saveShadow (st : PasswordStore) : List UInt8 := saveLoop st (List.finRange maxUsers) []

/-- What comes before and after the first colon. -/
def splitColon (l : List UInt8) : Option (List UInt8 × List UInt8) :=
  if colon ∈ l then some (l.takeWhile (· != colon), (l.dropWhile (· != colon)).tail) else none

/-- The bytes of a field of `2 * n` hexadecimal digits. -/
def decodeField (n : ℕ) (field : List UInt8) : Option (Vector UInt8 n) :=
  match hexDecode field with
  | some bytes => if h : bytes.length = n then some ⟨bytes.toArray, by simpa using h⟩ else none
  | none => none

/-- What a line of the file says. -/
structure ShadowRecord where
  name : List UInt8
  salt : Salt
  hash : Hash
  admin : Bool

/-- The checks of the hash field. A `*` stands for no password. -/
def parseHash (name : List UInt8) (salt : Salt) (field : List UInt8) (admin : Bool) :
    Option ShadowRecord :=
  if field = [42] then none
  else if field.length ≠ 64 then none
  else (decodeField 32 field).map fun hash => ⟨name, salt, hash, admin⟩

/-- One line: `name:salt:hash:admin`, or older forms without the flag or without the salt. Lines
that begin with `#` are comments. -/
def parseLine (line : List UInt8) : Option ShadowRecord :=
  if line.head? = some 35 then none
  else
    match splitColon line with
    | none => none
    | some (name, rest) =>
      if name.length = 0 ∨ maxUsernameLen ≤ name.length then none
      else
        match splitColon rest with
        | none => parseHash name (Vector.replicate 8 0) rest false
        | some (salt, rest) =>
          if salt.length ≠ 16 then none
          else
            match decodeField 8 salt, splitColon rest with
            | none, _ => none
            | some salt, some (hash, flag) => parseHash name salt hash (flag.head? == some 49)
            | some salt, none => parseHash name salt rest false

/-- A record goes to the next slot. The first one is always an administrator. -/
def loadRecord (st : PasswordStore) (r : ShadowRecord) : PasswordStore :=
  if h : 0 ≤ st.userCount ∧ st.userCount < maxUsers then
    { st.setEntry ⟨st.userCount.toNat, by omega⟩
        ⟨CStr.ofBytes r.name, r.salt, r.hash, true, st.userCount == 0 || r.admin⟩ with
      userCount := st.userCount + 1 }
  else st

/-- The loop of `password_store_load_shadow` over the lines. -/
def loadLoop : ℕ → List UInt8 → PasswordStore → PasswordStore
  | 0, _, st => st
  | _ + 1, [], st => st
  | fuel + 1, c :: buf, st =>
    if maxUsers ≤ st.userCount then st
    else if isNewline c then loadLoop fuel buf st
    else
      let line := (c :: buf).takeWhile fun c => !isNewline c
      let rest := (c :: buf).dropWhile fun c => !isNewline c
      loadLoop fuel rest (match parseLine line with | some r => loadRecord st r | none => st)

/-- The store that `password_store_load_shadow` begins with. -/
def PasswordStore.cleared (st : PasswordStore) : PasswordStore :=
  { st with
    userDb := fun i => { st.userDb i with used := false, username := .empty }
    userCount := 0 }

/-- `password_store_load_shadow` from the contents of the file. -/
def passwordStoreLoadShadow (st : PasswordStore) (file : List UInt8) : PasswordStore :=
  if file = [] then st
  else loadLoop file.length (file.take 8192) st.cleared

/-- The calls that change the store. -/
inductive StoreOp where
  | account (op : AccountOp)
  | setAdmin (uid : ℤ) (value : Bool)

/-- One call at a time of the tick counter. -/
def storeStep (sha256 : List UInt8 → Hash) (st : PasswordStore) (op : UInt64 × StoreOp) :
    PasswordStore :=
  match op.2 with
  | .account (.add username password) =>
    (passwordStoreAdd sha256 op.1 st (some username) (some password)).1
  | .account (.changePassword uid old new) =>
    (passwordStoreChangePassword sha256 op.1 st uid (some old) (some new)).1
  | .account (.delete uid) => (passwordStoreDelete sha256 op.1 st uid).1
  | .setAdmin uid value => (passwordStoreSetAdmin sha256 op.1 st uid value).1

/-- Accounts are added with a name. -/
def StoreOp.Named : StoreOp → Prop
  | .account (.add username _) => username.bytes ≠ []
  | _ => True

/-- The name has no separator and is no comment. -/
def CleanName (name : CStr) : Prop :=
  colon ∉ name.bytes ∧ (∀ c ∈ name.bytes, isNewline c = false) ∧ name.bytes.head? ≠ some 35

instance (name : CStr) : Decidable (CleanName name) :=
  @instDecidableAnd _ _ _ (@instDecidableAnd _ _ (List.decidableBAll _ _) _)

/-- What is asked of a store that was read back: each name has the same uid, flag, salt and
hash, and there are no other names. -/
def SameUsers (st st' : PasswordStore) : Prop :=
  ∀ username, findUser st' username = findUser st username ∧
    ∀ i, findUser st username = some i →
      (st'.userDb i).isAdmin = (st.userDb i).isAdmin ∧ (st'.userDb i).salt = (st.userDb i).salt ∧
      (st'.userDb i).passwordHash = (st.userDb i).passwordHash

/-! ## One line -/

theorem splitColon_append {a b : List UInt8} (h : colon ∉ a) :
    splitColon (a ++ colon :: b) = some (a, b) := by
  have hne := bne_of_notMem h
  rw [splitColon, if_pos (by simp), List.takeWhile_append_of_pos hne,
    List.dropWhile_append_of_pos hne]
  simp

/-- A field of hexadecimal digits, two for each byte. -/
def Digits {n : ℕ} (field : List UInt8) (v : Vector UInt8 n) : Prop := hexDecode field = some v.toList

/-- A name of at most 31 bytes, at the beginning of a line that is no comment. -/
structure LineName (name : List UInt8) : Prop where
  pos : name ≠ []
  short : name.length < maxUsernameLen
  colon : colon ∉ name
  comment : name.head? ≠ some 35

/-- The lines with a record: a name, a salt, a hash and a flag, or older forms without the flag
or without the salt. -/
inductive ShadowLine (r : ShadowRecord) : List UInt8 → Prop
  | flagged {field field' flag} (hname : LineName r.name) (hsalt : Digits field r.salt)
    (hhash : Digits field' r.hash) (hadmin : r.admin = (flag.head? == some 49)) :
    ShadowLine r (r.name ++ colon :: (field ++ colon :: (field' ++ colon :: flag)))
  | salted {field field'} (hname : LineName r.name) (hsalt : Digits field r.salt)
    (hhash : Digits field' r.hash) (hadmin : r.admin = false) :
    ShadowLine r (r.name ++ colon :: (field ++ colon :: field'))
  | legacy {field} (hname : LineName r.name) (hsalt : r.salt = Vector.replicate 8 0)
    (hhash : Digits field r.hash) (hadmin : r.admin = false) :
    ShadowLine r (r.name ++ colon :: field)

variable {n fuel : ℕ} {e : UserEntry} {st : PasswordStore} {r : ShadowRecord} {i k : Fin maxUsers}
  {line buf name field : List UInt8} {c : UInt8} {salt : Salt}
  {admin : Bool} {v : Vector UInt8 n}

theorem ShadowLine.lineName (h : ShadowLine r line) : LineName r.name ∧ r.name <+: line := by
  cases h with
  | flagged hname => exact ⟨hname, List.prefix_append _ _⟩
  | salted hname => exact ⟨hname, List.prefix_append _ _⟩
  | legacy hname => exact ⟨hname, List.prefix_append _ _⟩

theorem splitColon_eq_some {a b : List UInt8} (h : splitColon line = some (a, b)) :
    colon ∉ a ∧ line = a ++ colon :: b := by
  by_cases hmem : colon ∈ line
  · obtain ⟨a', b', rfl, hcolon⟩ := List.eq_append_cons_of_mem hmem
    rw [splitColon_append hcolon] at h
    obtain ⟨rfl, rfl⟩ := Prod.ext_iff.mp (Option.some.inj h)
    exact ⟨hcolon, rfl⟩
  · rw [splitColon, if_neg hmem] at h
    cases h

section

variable (h : Digits field v)
include h

/-- Digits are neither separators nor line ends. -/
theorem Digits.clean (hc : c ∈ field) : c ≠ colon ∧ isNewline c = false := by
  have hall : ∀ c, hexDigit c ≠ none → c ≠ colon ∧ isNewline c = false :=
    forall_uint8 (by decide +kernel)
  exact hall c ((hexDecode_eq_some h).2 c hc)

theorem Digits.splitColon_append : splitColon (field ++ colon :: buf) = some (field, buf) :=
  Users.splitColon_append fun hmem => (h.clean hmem).1 rfl

theorem Digits.splitColon_none : splitColon field = none := if_neg fun hmem => (h.clean hmem).1 rfl

theorem Digits.length : field.length = 2 * n := by
  simpa using (hexDecode_eq_some h).1

end

theorem decodeField_eq_some : decodeField n field = some v ↔ Digits field v := by
  unfold decodeField Digits
  cases hexDecode field with
  | none => simp
  | some bytes =>
    simp only [Option.dite_none_right_eq_some, Option.some.injEq]
    constructor
    · rintro ⟨h, rfl⟩
      rfl
    · rintro rfl
      exact ⟨by simp, rfl⟩

theorem parseHash_eq_some : parseHash name salt field admin = some r ↔
    ∃ hash, Digits field hash ∧ ⟨name, salt, hash, admin⟩ = r := by
  unfold parseHash
  split_ifs with hstar hlength
  · refine iff_of_false (by simp) ?_
    rintro ⟨hash, hhash, -⟩
    have hlength := hhash.length
    simp [hstar] at hlength
  · refine iff_of_false (by simp) ?_
    rintro ⟨hash, hhash, -⟩
    exact hlength hhash.length
  · simp only [Option.map_eq_some_iff, decodeField_eq_some]

/-- The parser takes the lines of the grammar. -/
theorem parseLine_iff : parseLine line = some r ↔ ShadowLine r line := by
  constructor
  · intro h
    unfold parseLine at h
    split_ifs at h with hcomment
    split at h
    · cases h
    · next name rest hsplit =>
      obtain ⟨hcolon, rfl⟩ := splitColon_eq_some hsplit
      split_ifs at h with hlength
      rw [not_or, List.length_eq_zero_iff] at hlength
      rw [List.head?_append_of_ne_nil _ hlength.1] at hcomment
      have hname : LineName name := ⟨hlength.1, Nat.not_le.mp hlength.2, hcolon, hcomment⟩
      split at h
      · obtain ⟨hash, hhash, rfl⟩ := parseHash_eq_some.mp h
        exact .legacy (r := ⟨name, _, hash, _⟩) hname rfl hhash rfl
      · next field rest hsplit =>
        obtain ⟨-, rfl⟩ := splitColon_eq_some hsplit
        split_ifs at h
        split at h
        · cases h
        · next salt field' flag hdecode hsplit =>
          obtain ⟨-, rfl⟩ := splitColon_eq_some hsplit
          obtain ⟨hash, hhash, rfl⟩ := parseHash_eq_some.mp h
          exact .flagged (r := ⟨name, salt, hash, _⟩) hname (decodeField_eq_some.mp hdecode)
            hhash rfl
        · next salt hdecode hsplit =>
          obtain ⟨hash, hhash, rfl⟩ := parseHash_eq_some.mp h
          exact .salted (r := ⟨name, salt, hash, _⟩) hname (decodeField_eq_some.mp hdecode)
            hhash rfl
  · intro h
    obtain ⟨hname, hstart⟩ := h.lineName
    have hcomment : line.head? ≠ some 35 := by
      obtain ⟨rest, rfl⟩ := hstart
      rw [List.head?_append_of_ne_nil _ hname.pos]
      exact hname.comment
    have hlength : ¬(r.name.length = 0 ∨ maxUsernameLen ≤ r.name.length) := by
      rw [List.length_eq_zero_iff, not_or, Nat.not_le]
      exact ⟨hname.pos, hname.short⟩
    rw [parseLine, if_neg hcomment]
    cases h with
    | flagged _ hsalt hhash hadmin =>
      simp only [splitColon_append hname.colon, hlength, if_false, hsalt.splitColon_append,
        hsalt.length, decodeField_eq_some.mpr hsalt, hhash.splitColon_append, ← hadmin]
      exact parseHash_eq_some.mpr ⟨_, hhash, rfl⟩
    | salted _ hsalt hhash hadmin =>
      simp only [splitColon_append hname.colon, hlength, if_false, hsalt.splitColon_append,
        hsalt.length, decodeField_eq_some.mpr hsalt, hhash.splitColon_none, ← hadmin]
      exact parseHash_eq_some.mpr ⟨_, hhash, rfl⟩
    | legacy _ hsalt hhash hadmin =>
      simp only [splitColon_append hname.colon, hlength, if_false, hhash.splitColon_none, ← hadmin,
        ← hsalt]
      exact parseHash_eq_some.mpr ⟨_, hhash, rfl⟩

/-- The line of an entry with a clean name is read back. -/
theorem parseLine_shadowFields (hclean : CleanName e.username) (hpos : e.username.bytes ≠ [])
    (hlength : e.username.bytes.length < maxUsernameLen) :
    parseLine (shadowFields e) = some ⟨e.username.bytes, e.salt, e.passwordHash, e.isAdmin⟩ := by
  refine parseLine_iff.mpr (.flagged ⟨hpos, hlength, hclean.1, hclean.2.2⟩
    (hexDecode_hexEncode e.salt.toList) (hexDecode_hexEncode e.passwordHash.toList) ?_)
  cases e.isAdmin <;> rfl

/-! ## The lines of a file -/

/-- The records of the lines of a file. -/
def records (buf : List UInt8) : List ShadowRecord := (buf.splitOnP isNewline).filterMap parseLine

theorem records_nil : records [] = [] := by simp [records, parseLine, splitColon]

/-- A line, and what comes behind its end. -/
theorem records_line (hline : ∀ c ∈ line, isNewline c = false) (hc : isNewline c = true) :
    records (line ++ c :: buf) = (parseLine line).toList ++ records buf := by
  rw [records, List.splitOnP_append_cons_of_forall_mem hline _ hc, List.filterMap_cons]
  cases parseLine line <;> rfl

/-- A line end is skipped. -/
theorem records_newline (hc : isNewline c = true) : records (c :: buf) = records buf := by
  rw [← List.nil_append (c :: buf), records_line (by simp) hc]
  rfl

/-- The first line, and what comes from its end on. -/
theorem records_first (buf : List UInt8) :
    records buf = (parseLine (buf.takeWhile fun c => !isNewline c)).toList ++
      records (buf.dropWhile fun c => !isNewline c) := by
  have hsplit := List.takeWhile_append_dropWhile (p := fun c => !isNewline c) (l := buf)
  have hline : ∀ c ∈ buf.takeWhile fun c => !isNewline c, isNewline c = false := fun c hc => by
    simpa using List.mem_takeWhile_imp hc
  cases hrest : buf.dropWhile fun c => !isNewline c with
  | nil =>
    rw [hrest, List.append_nil] at hsplit
    rw [hsplit] at hline ⊢
    rw [records_nil, List.append_nil, records, List.splitOnP_eq_singleton hline]
    cases h : parseLine buf <;> simp [h]
  | cons c rest =>
    have hend : isNewline c = true := by
      simpa [hrest] using List.head_dropWhile_not (fun c => !isNewline c) (l := buf) (by simp [hrest])
    rw [hrest] at hsplit
    rw [records_newline hend, ← records_line hline hend, hsplit]

/-- A full table takes no more records. -/
theorem loadRecords_full (hfull : (maxUsers : ℤ) ≤ st.userCount) (rs : List ShadowRecord) :
    rs.foldl loadRecord st = st := by
  induction rs with
  | nil => rfl
  | cons r rs ih => rw [List.foldl_cons, loadRecord, dif_neg (by omega), ih]

/-- The loop reads the lines one after the other. -/
theorem loadLoop_eq (hfuel : buf.length ≤ fuel) :
    loadLoop fuel buf st = (records buf).foldl loadRecord st := by
  induction fuel generalizing buf st with
  | zero =>
    obtain rfl : buf = [] := List.length_eq_zero_iff.mp (by omega)
    rw [records_nil]
    rfl
  | succ fuel ih =>
    cases buf with
    | nil =>
      rw [records_nil]
      rfl
    | cons c buf =>
      rw [List.length_cons] at hfuel
      rw [loadLoop]
      split_ifs with hfull hend
      · rw [loadRecords_full hfull]
      · rw [ih (by omega), records_newline hend]
      · have hrest : ((c :: buf).dropWhile fun c => !isNewline c).length ≤ fuel := by
          rw [List.dropWhile_cons_of_pos (by simpa using hend)]
          exact (List.dropWhile_sublist _).length_le.trans (by omega)
        rw [records_first, List.foldl_append, ih hrest]
        cases parseLine ((c :: buf).takeWhile fun c => !isNewline c) <;> rfl

/-- What the file says of an entry. -/
def recordOf (e : UserEntry) : ShadowRecord := ⟨e.username.bytes, e.salt, e.passwordHash, e.isAdmin⟩

/-- The entries whose lines are read back. -/
structure Readable (e : UserEntry) : Prop where
  clean : CleanName e.username
  named : e.username.bytes ≠ []
  short : e.username.bytes.length < maxUsernameLen

/-- No line end stands inside a line. -/
theorem Readable.shadowFields_line (h : Readable e) :
    ∀ c ∈ shadowFields e, isNewline c = false := by
  intro c hc
  simp only [shadowFields, List.mem_append, List.mem_cons, List.not_mem_nil, or_false] at hc
  rcases hc with hname | rfl | hsalt | rfl | hhash | rfl | rfl
  · exact h.clean.2.1 c hname
  · decide
  · exact (Digits.clean (hexDecode_hexEncode e.salt.toList) hsalt).2
  · decide
  · exact (Digits.clean (hexDecode_hexEncode e.passwordHash.toList) hhash).2
  · decide
  · cases e.isAdmin <;> decide

theorem loadRecord_userCount (hcount : st.userCount = n) (hroom : n < maxUsers) (r : ShadowRecord) :
    (loadRecord st r).userCount = (n + 1 : ℕ) := by
  rw [loadRecord, dif_pos (by omega)]
  simp only [hcount]
  omega

/-- The lines of readable entries are read back one after the other. -/
theorem records_saved {es : List UserEntry} (hes : ∀ e ∈ es, Readable e) :
    records (es.flatMap shadowLine) = es.map recordOf := by
  induction es with
  | nil => exact records_nil
  | cons e es ih =>
    have he := hes e (by simp)
    rw [List.flatMap_cons, shadowLine, List.append_assoc, List.singleton_append,
      records_line he.shadowFields_line (by decide), ih fun e he => hes e (by simp [he]),
      parseLine_shadowFields he.clean he.named he.short]
    rfl

/-- The entry that a record becomes in a slot. -/
def ShadowRecord.entry (r : ShadowRecord) (slot : ℕ) : UserEntry :=
  ⟨CStr.ofBytes r.name, r.salt, r.hash, true, slot == 0 || r.admin⟩

theorem loadRecord_userDb (hcount : st.userCount = n) (hroom : n < maxUsers) (r : ShadowRecord) :
    (loadRecord st r).userDb = update st.userDb ⟨n, hroom⟩ (r.entry n) := by
  rw [loadRecord, dif_pos (by omega)]
  have hzero : (st.userCount == 0) = (n == 0) := by
    rw [hcount]
    cases n <;> rfl
  simp only [PasswordStore.setEntry_userDb, ShadowRecord.entry, hzero]
  congr 1
  simp [hcount]

/-- The records fill the slots from the first free one on. -/
theorem loadRecords_userDb (rs : List ShadowRecord) (hcount : st.userCount = n)
    (hn : n ≤ maxUsers) (k : Fin maxUsers) :
    (rs.foldl loadRecord st).userDb k =
      if k.val < n then st.userDb k
      else
        match rs[k.val - n]? with
        | some r => r.entry k.val
        | none => st.userDb k := by
  induction rs generalizing st n with
  | nil => simp
  | cons r rs ih =>
    rcases hn.eq_or_lt with rfl | hn
    · rw [loadRecords_full hcount.ge, if_pos k.isLt]
    rw [List.foldl_cons, ih (loadRecord_userCount hcount hn r) hn, loadRecord_userDb hcount hn]
    rcases lt_trichotomy k.val n with hlt | heq | hgt
    · have hne : k ≠ ⟨n, hn⟩ := fun h => by simp [h] at hlt
      rw [if_pos (by omega), if_pos hlt, update_of_ne hne]
    · have hk : k = ⟨n, hn⟩ := Fin.ext heq
      subst hk
      simp
    · have hne : k ≠ ⟨n, hn⟩ := fun h => by simp [h] at hgt
      obtain ⟨d, hd⟩ : ∃ d, k.val - n = d + 1 := ⟨k.val - n - 1, by omega⟩
      rw [if_neg (by omega), if_neg (by omega), hd, List.getElem?_cons_succ,
        update_of_ne hne, show k.val - (n + 1) = d by omega]

theorem passwordStoreLoadShadow_eq {file : List UInt8} (hpos : file ≠ [])
    (hlength : file.length ≤ 8192) :
    passwordStoreLoadShadow st file = (records file).foldl loadRecord st.cleared := by
  rw [passwordStoreLoadShadow, if_neg hpos, List.take_of_length_le hlength]
  exact loadLoop_eq le_rfl

theorem loadRecords_userCount (rs : List ShadowRecord) (hcount : st.userCount = n)
    (hn : n ≤ maxUsers) :
    (rs.foldl loadRecord st).userCount = (min (n + rs.length) maxUsers : ℕ) := by
  induction rs generalizing st n with
  | nil => simp [hcount, hn]
  | cons r rs ih =>
    rcases hn.eq_or_lt with rfl | hn
    · rw [loadRecords_full hcount.ge, hcount, min_eq_right (Nat.le_add_right _ _)]
    · rw [List.foldl_cons, ih (loadRecord_userCount hcount hn r) hn, List.length_cons,
        Nat.add_right_comm, Nat.add_assoc]

/-- The slots of the store after a file was read. -/
theorem loadShadow_userDb (st : PasswordStore) {file : List UInt8} (hpos : file ≠ [])
    (hlength : file.length ≤ 8192) (k : Fin maxUsers) :
    match (records file)[k.val]? with
    | some r => (passwordStoreLoadShadow st file).userDb k = r.entry k
    | none => ((passwordStoreLoadShadow st file).userDb k).used = false := by
  rw [passwordStoreLoadShadow_eq hpos hlength, loadRecords_userDb _ (n := 0) rfl (Nat.zero_le _),
    if_neg (Nat.not_lt_zero _), Nat.sub_zero]
  cases (records file)[k.val]? <;> rfl

/-- The users of a file that is read are given by its lines in order, up to 64 of them: a line
counts by itself, and exactly if it is one of the grammar. The first user is an administrator. -/
theorem shadow_file_users (st : PasswordStore) (file : List UInt8) (hpos : file ≠ [])
    (hlength : file.length ≤ 8192) :
    (∀ line r, parseLine line = some r ↔ ShadowLine r line) ∧
    (passwordStoreLoadShadow st file).userCount = (min (records file).length maxUsers : ℕ) ∧
    ∀ k : Fin maxUsers,
      match (records file)[k.val]? with
      | some r => (passwordStoreLoadShadow st file).userDb k = r.entry k
      | none => ((passwordStoreLoadShadow st file).userDb k).used = false := by
  refine ⟨fun line r => parseLine_iff, ?_, loadShadow_userDb st hpos hlength⟩
  rw [passwordStoreLoadShadow_eq hpos hlength, loadRecords_userCount _ (n := 0) rfl (Nat.zero_le _),
    Nat.zero_add]

/-- A comment and a user `a`. -/
theorem shadow_file_users_one :
    (passwordStoreLoadShadow emptyStore
      ([35, newline, 97, colon] ++ List.replicate 64 48)).userCount = 1 := by
  rw [(shadow_file_users emptyStore _ (by decide) (by decide)).2.1]
  decide +kernel

/-! ## Saving and reading back -/

/-- The used entries, in the order in which they are written. -/
def PasswordStore.usedSlots (st : PasswordStore) : List (Fin maxUsers) :=
  (List.finRange maxUsers).filter fun i => (st.userDb i).used

/-- A line has at most 116 bytes. -/
theorem length_shadowLine (h : e.username.bytes.length < maxUsernameLen) :
    (shadowLine e).length ≤ 116 := by
  have hlength : e.username.bytes.length < 32 := h
  simp [shadowLine, shadowFields, length_hexEncode]
  omega

/-- The buffer never fills up. -/
theorem saveLoop_eq
    (hshort : ∀ i, (st.userDb i).used = true → (st.userDb i).username.bytes.length < maxUsernameLen)
    (is : List (Fin maxUsers)) {buf : List UInt8} (hbuf : buf.length + 116 * is.length ≤ 7424) :
    (saveLoop st is buf).length ≤ 7424 ∧ saveLoop st is buf =
      buf ++ (is.filter fun i => (st.userDb i).used).flatMap fun i => shadowLine (st.userDb i) := by
  induction is generalizing buf with
  | nil => exact ⟨by simpa [saveLoop] using hbuf, by simp [saveLoop]⟩
  | cons i is ih =>
    simp only [List.length_cons] at hbuf
    rw [saveLoop, if_pos (by omega), List.filter_cons]
    by_cases hused : (st.userDb i).used = true
    · have hline := length_shadowLine (hshort i hused)
      have hrest := @ih (buf ++ shadowLine (st.userDb i)) (by rw [List.length_append]; omega)
      rw [if_pos hused, if_pos hused, List.flatMap_cons, ← List.append_assoc]
      exact hrest
    · rw [if_neg hused, if_neg hused]
      exact ih (by omega)

/-- What holds of the store in every run. -/
structure StoreOk (st : PasswordStore) : Prop where
  initialized : st.initialized = true
  first : (st.userDb 0).used = true ∧ (st.userDb 0).isAdmin = true
  names : ∀ i, (st.userDb i).used = true →
    (st.userDb i).username.bytes ≠ [] ∧ (st.userDb i).username.bytes.length < maxUsernameLen

/-- The names of all accounts are written as they can be read. -/
def AllClean (st : PasswordStore) : Prop :=
  ∀ i, (st.userDb i).used = true → CleanName (st.userDb i).username

/-- No slot below an account that is found by its name is unused. -/
def Packed (st : PasswordStore) : Prop :=
  ∀ username i, findUser st username = some i → ∀ j < i, (st.userDb j).used = true

theorem packed_of_used (h : ∀ i, (st.userDb i).used = true → ∀ j < i, (st.userDb j).used = true) :
    Packed st := fun _ i hfind => h i (findUser_eq_some hfind).1

/-- The file has the lines of the used entries and is not empty. -/
theorem StoreOk.saveShadow_eq (h : StoreOk st) :
    saveShadow st = (st.usedSlots.map st.userDb).flatMap shadowLine ∧ saveShadow st ≠ [] ∧
      (saveShadow st).length ≤ 8192 := by
  have hfits : ([] : List UInt8).length + 116 * (List.finRange maxUsers).length ≤ 7424 := by
    simp [maxUsers]
  obtain ⟨hlength, heq⟩ := saveLoop_eq (fun i hi => (h.names i hi).2) _ hfits
  have hsave : saveShadow st = (st.usedSlots.map st.userDb).flatMap shadowLine := by
    rw [saveShadow, heq, List.nil_append, List.flatMap_map]
    rfl
  have hmem : (0 : Fin maxUsers) ∈ st.usedSlots :=
    List.mem_filter.mpr ⟨List.mem_finRange 0, h.first.1⟩
  refine ⟨hsave, ?_, le_trans hlength (by omega)⟩
  rw [hsave]
  intro hnil
  have hline := List.flatMap_eq_nil_iff.mp hnil _ (List.mem_map_of_mem hmem)
  simp [shadowLine] at hline

/-- The store with the users of the file that was saved. -/
def reload (old st : PasswordStore) : PasswordStore := passwordStoreLoadShadow old (saveShadow st)

/-- With clean names, the entry of a slot is the used entry of that position. -/
theorem StoreOk.reload_userDb (h : StoreOk st) (hclean : AllClean st) (old : PasswordStore)
    (k : Fin maxUsers) :
    match st.usedSlots[k.val]? with
    | some i => ((reload old st).userDb k) = st.userDb i
    | none => ((reload old st).userDb k).used = false := by
  obtain ⟨hsave, hpos, hlength⟩ := h.saveShadow_eq
  have hread : ∀ e ∈ st.usedSlots.map st.userDb, Readable e := by
    intro e he
    obtain ⟨i, hi, rfl⟩ := List.mem_map.mp he
    have hused := List.of_mem_filter hi
    exact ⟨hclean i hused, (h.names i hused).1, (h.names i hused).2⟩
  have hload := loadShadow_userDb old hpos hlength k
  rw [hsave, records_saved hread, List.map_map, List.getElem?_map, ← hsave] at hload
  cases hslot : st.usedSlots[k.val]? with
  | none =>
    rw [hslot] at hload
    exact hload
  | some i =>
    rw [hslot] at hload
    refine hload.trans ?_
    obtain ⟨hused, hrank⟩ := rank_of_filter_getElem? hslot
    have hfirst : k.val = 0 → (st.userDb i).isAdmin = true := by
      intro hk
      have hzero : st.usedSlots[0]? = some 0 :=
        filter_getElem?_rank (p := fun i => (st.userDb i).used) h.first.1
      rw [hk, hzero] at hslot
      rw [← Option.some.inj hslot]
      exact h.first.2
    have hadmin : (k.val == 0 || (st.userDb i).isAdmin) = (st.userDb i).isAdmin := by
      by_cases hk : k.val = 0
      · rw [hfirst hk, Bool.or_true]
      · simp [hk]
    simp only [comp_apply, recordOf, ShadowRecord.entry, CStr.ofBytes_bytes, hadmin]
    exact congrArg (fun b => (⟨_, _, _, b, _⟩ : UserEntry)) hused.symm

/-! ## What a file can say -/

/-- Names that are read from lines are clean. -/
theorem parseLine_clean (hline : ∀ c ∈ line, isNewline c = false) (h : parseLine line = some r) :
    CleanName (CStr.ofBytes r.name) := by
  obtain ⟨hname, hstart⟩ := (parseLine_iff.mp h).lineName
  have hfirst : (CStr.ofBytes r.name).bytes <+: r.name := List.takeWhile_prefix _
  refine ⟨fun hmem => hname.colon (hfirst.mem hmem),
    fun c hc => hline c (hstart.mem (hfirst.mem hc)), fun hhead => hname.comment ?_⟩
  obtain ⟨rest, hrest⟩ := hfirst
  rw [← hrest, List.head?_append, hhead]
  rfl

theorem AllClean.loadRecord (h : AllClean st) (hr : CleanName (CStr.ofBytes r.name)) :
    AllClean (loadRecord st r) := by
  unfold Users.loadRecord
  split_ifs with hroom
  · intro i hused
    simp only [PasswordStore.setEntry_userDb, update_apply] at hused ⊢
    split_ifs at hused ⊢
    · exact hr
    · exact h i hused
  · exact h

theorem AllClean.loadLoop (h : AllClean st) (fuel : ℕ) (buf : List UInt8) :
    AllClean (loadLoop fuel buf st) := by
  induction fuel generalizing buf st with
  | zero => exact h
  | succ fuel ih =>
    cases buf with
    | nil => exact h
    | cons c buf =>
      rw [Users.loadLoop]
      split_ifs
      · exact h
      · exact ih h _
      · refine ih ?_ _
        cases hparse : parseLine ((c :: buf).takeWhile fun c => !isNewline c) with
        | none => exact h
        | some r =>
          refine h.loadRecord (parseLine_clean (fun c hc => ?_) hparse)
          simpa using List.mem_takeWhile_imp hc

theorem StoreOk.reload_clean (h : StoreOk st) (old : PasswordStore) :
    AllClean (reload old st) := by
  rw [reload, passwordStoreLoadShadow, if_neg h.saveShadow_eq.2.1]
  refine AllClean.loadLoop (fun i hused => ?_) _ _
  cases hused

/-! ## The round trip -/

/-- A used entry's name is found, at the latest at that entry. -/
theorem findUser_of_used (hused : (st.userDb i).used = true) :
    ∃ j, findUser st (st.userDb i).username = some j := by
  cases hfind : findUser st (st.userDb i).username with
  | some j => exact ⟨j, rfl⟩
  | none => exact absurd rfl (findUser_eq_none hfind i hused)

section Clean

variable {st : PasswordStore} (h : StoreOk st) (hclean : AllClean st) (old : PasswordStore)

include h hclean

/-- A used entry moves down to its rank. -/
theorem reload_at_rank (hused : (st.userDb i).used = true)
    (hk : k.val = rank (fun i => (st.userDb i).used) i) :
    (reload old st).userDb k = st.userDb i := by
  have hslot := h.reload_userDb hclean old k
  rw [hk, show st.usedSlots[rank (fun i => (st.userDb i).used) i]? = some i from
    filter_getElem?_rank hused] at hslot
  exact hslot

/-- The used entries that were read back are used entries of the store that was saved. -/
theorem reload_used (hused : ((reload old st).userDb k).used = true) :
    ∃ i, (st.userDb i).used = true ∧ (reload old st).userDb k = st.userDb i := by
  have hslot := h.reload_userDb hclean old k
  cases hget : st.usedSlots[k.val]? with
  | none =>
    rw [hget] at hslot
    rw [hslot] at hused
    cases hused
  | some i =>
    rw [hget] at hslot
    exact ⟨i, by rw [← hslot]; exact hused, hslot⟩

/-- Below an entry that is found, nothing moves in a packed store. -/
theorem reload_below (hused : (st.userDb i).used = true)
    (hbelow : ∀ j < i, (st.userDb j).used = true) : (reload old st).userDb i = st.userDb i :=
  reload_at_rank h hclean old hused (rank_eq_iff.mpr hbelow).symm

theorem sameUsers_of_packed (hpacked : Packed st) : SameUsers st (reload old st) := by
  intro username
  cases hfind : findUser st username with
  | none =>
    refine ⟨firstFin_eq_none.mpr fun k => ?_, fun i hi => by cases hi⟩
    by_cases hused : ((reload old st).userDb k).used = true
    · obtain ⟨i, hi, heq⟩ := reload_used h hclean old hused
      have hname := findUser_eq_none hfind i hi
      simp [heq, hname]
    · simp [hused]
  | some i =>
    have hbelow := hpacked username i hfind
    obtain ⟨hi, hmin⟩ := firstFin_eq_some.mp hfind
    have hused := (findUser_eq_some hfind).1
    have heq := reload_below h hclean old hused hbelow
    refine ⟨firstFin_eq_some.mpr ⟨by rw [heq]; exact hi, fun j hj => ?_⟩, ?_⟩
    · rw [reload_below h hclean old (hbelow j hj) fun j' hj' => hbelow j' (hj'.trans hj)]
      exact hmin j hj
    · rintro i' hi'
      cases hi'
      exact ⟨by rw [heq], by rw [heq], by rw [heq]⟩

theorem packed_of_sameUsers (hsame : SameUsers st (reload old st)) : Packed st := by
  intro username i hfind
  obtain ⟨hused, hname⟩ := findUser_eq_some hfind
  have hle := rank_le (fun i => (st.userDb i).used) i
  have heq := reload_at_rank h hclean old hused
    (k := ⟨rank (fun i => (st.userDb i).used) i, by omega⟩) rfl
  obtain ⟨-, hmin⟩ := firstFin_eq_some.mp ((hsame username).1.trans hfind)
  -- The scan would have stopped at the rank if it were below.
  have hrank : ¬ rank (fun i => (st.userDb i).used) i < i.val := by
    intro hlt
    have hno := hmin ⟨rank (fun i => (st.userDb i).used) i, by omega⟩ hlt
    rw [heq] at hno
    simp [hused, hname] at hno
  exact rank_eq_iff.mp (by omega)

end Clean

theorem StoreOk.clean_of_sameUsers (h : StoreOk st) {old : PasswordStore}
    (hsame : SameUsers st (reload old st)) : AllClean st := by
  intro i hused
  obtain ⟨j, hj⟩ := findUser_of_used hused
  obtain ⟨hused', hname⟩ := findUser_eq_some ((hsame _).1.trans hj)
  rw [← hname]
  exact h.reload_clean old j hused'

/-! ## Runs -/

/-- The calls of a run: accounts that are added have a name. -/
def StoreMeets (_ : PasswordStore) (op : UInt64 × StoreOp) : Prop := op.2.Named

variable {sha256 : List UInt8 → Hash}

/-- An entry changes and keeps the invariant. -/
theorem StoreOk.setEntry (h : StoreOk st) (hfirst : i = 0 → e.used = true ∧ e.isAdmin = true)
    (he : e.used = true → e.username.bytes ≠ [] ∧ e.username.bytes.length < maxUsernameLen)
    (count : ℤ) : StoreOk { st.setEntry i e with userCount := count } := by
  have hdb : ∀ j, (st.setEntry i e).userDb j = if j = i then e else st.userDb j :=
    fun j => by rw [PasswordStore.setEntry_userDb, update_apply]
  refine ⟨h.initialized, ?_, fun j hused => ?_⟩
  · simp only [hdb]
    split_ifs with hi
    · exact hfirst hi.symm
    · exact h.first
  · simp only [hdb] at hused ⊢
    split_ifs at hused ⊢
    · exact he hused
    · exact h.names j hused

/-- A new password keeps the invariant. -/
theorem StoreOk.withPassword (h : StoreOk st) (ticks : UInt64) (i : Fin maxUsers)
    (username password : CStr) :
    StoreOk (st.setEntry i ((st.userDb i).withPassword sha256 ticks username password)) := by
  refine h.setEntry (e := (st.userDb i).withPassword sha256 ticks username password)
    (fun hi => ?_) (h.names i) st.userCount
  rw [hi]
  exact h.first

theorem storeOk_step (st : PasswordStore) (op : UInt64 × StoreOp) (h : StoreOk st)
    (hop : StoreMeets st op) : StoreOk (storeStep sha256 st op) := by
  obtain ⟨ticks, op⟩ := op
  cases op with
  | account op =>
    cases op with
    | add username password =>
      simp only [storeStep]
      rcases passwordStoreAdd_eq sha256 ticks h.initialized username password with
        heq | ⟨i, -, heq⟩ | ⟨i, -, hunused, heq⟩
      · rw [heq]; exact h
      · rw [heq]; exact h.withPassword ticks i username password
      · rw [heq]
        refine h.setEntry (fun hi => ?_) (fun _ => ⟨?_, ?_⟩) _
        · rw [hi, h.first.1] at hunused
          cases hunused
        · have hname : username.bytes ≠ [] := hop
          simp [UserEntry.added, CStr.take, maxUsernameLen, hname]
        · have hlength := CStr.length_take username (maxUsernameLen - 1)
          have hmax : maxUsernameLen = 32 := rfl
          simp only [UserEntry.added]
          omega
    | changePassword uid old new =>
      simp only [storeStep]
      rcases passwordStoreChangePassword_eq sha256 ticks h.initialized uid (some old) (some new)
        with heq | ⟨i, new', -, -, heq⟩
      · rw [heq]; exact h
      · rw [heq]; exact h.withPassword ticks i _ new'
    | delete uid =>
      simp only [storeStep]
      rcases passwordStoreDelete_eq sha256 ticks h.initialized uid with heq | ⟨i, huid, hne, heq⟩
      · rw [heq]; exact h
      · rw [heq]
        refine h.setEntry (fun hi => ?_) (fun hused => by cases hused) _
        have hval := (usedUid_eq_some huid).1
        rw [hi] at hval
        exact absurd hval hne
  | setAdmin uid value =>
    simp only [storeStep, passwordStoreSetAdmin, passwordStoreInit_of_initialized h.initialized]
    cases huid : usedUid st uid with
    | none => exact h
    | some i =>
      have hval := (usedUid_eq_some huid).1
      by_cases hzero : uid = 0
      · simp only [hzero, if_true]
        exact h
      · simp only [hzero, if_false]
        refine h.setEntry (e := { st.userDb i with isAdmin := value }) (fun hi => ?_)
          (h.names i) st.userCount
        rw [hi] at hval
        exact absurd hval hzero

theorem storeOk_init (ticks : UInt64) : StoreOk (passwordStoreInit sha256 ticks emptyStore) := by
  have hused : ∀ i, ((passwordStoreInit sha256 ticks emptyStore).userDb i).used = true → i = 0 := by
    intro i hused
    by_contra hne
    simp [passwordStoreInit, emptyStore, update_of_ne hne] at hused
  have hadmin : adminName.bytes ≠ [] ∧ adminName.bytes.length < maxUsernameLen := by decide
  refine ⟨rfl, ⟨rfl, rfl⟩, fun i hi => ?_⟩
  rw [hused i hi]
  exact hadmin

/-- After every sequence of calls, saving and reading back keeps all accounts exactly when no
name has a separator or is a comment, and no slot is unused below an account that is found. -/
theorem shadow_roundtrip_iff (sha256 : List UInt8 → Hash) (ticks : UInt64)
    (ops : List (UInt64 × StoreOp))
    (hops : Guarded (storeStep sha256) StoreMeets (passwordStoreInit sha256 ticks emptyStore) ops)
    (old : PasswordStore) :
    let st := run (storeStep sha256) (passwordStoreInit sha256 ticks emptyStore) ops
    SameUsers st (passwordStoreLoadShadow old (saveShadow st)) ↔ AllClean st ∧ Packed st := by
  intro st
  have h : StoreOk st := run_invariant storeOk_step (storeOk_init ticks) hops
  constructor
  · intro hsame
    have hclean := h.clean_of_sameUsers hsame
    exact ⟨hclean, packed_of_sameUsers h hclean old hsame⟩
  · rintro ⟨hclean, hpacked⟩
    exact sameUsers_of_packed h hclean old hpacked

instance (op : StoreOp) : Decidable op.Named := by
  unfold StoreOp.Named
  split <;> infer_instance

instance (st : PasswordStore) (op : UInt64 × StoreOp) : Decidable (StoreMeets st op) :=
  inferInstanceAs (Decidable op.2.Named)

instance (st : PasswordStore) : Decidable (AllClean st) := by
  unfold AllClean
  infer_instance

/-- Two accounts and an administrator. -/
def twoAccounts : List (UInt64 × StoreOp) :=
  [(1, .account (.add (letters 1) (letters 4))), (2, .account (.add (letters 2) (letters 5))),
    (3, .setAdmin 2 true)]

theorem shadow_roundtrip_iff_twoAccounts :
    let st := run (storeStep firstBytes) (passwordStoreInit firstBytes 0 emptyStore) twoAccounts
    findUser st (letters 2) = some 2 ∧
      SameUsers st (passwordStoreLoadShadow emptyStore (saveShadow st)) := by
  refine ⟨by decide +kernel, (shadow_roundtrip_iff firstBytes 0 twoAccounts (by decide)
    emptyStore).mpr ⟨by decide +kernel, packed_of_used ?_⟩⟩
  decide

/-- The store after the first of two accounts was deleted. -/
def holeStore : PasswordStore :=
  run (storeStep firstBytes) (passwordStoreInit firstBytes 0 emptyStore)
    (twoAccounts ++ [(4, .account (.delete 1))])

/-- The store with an account whose name is `a:`. -/
def colonStore : PasswordStore :=
  run (storeStep firstBytes) (passwordStoreInit firstBytes 0 emptyStore)
    [(1, .account (.add ⟨[97, colon], by decide⟩ (letters 4)))]

/-- An account above a deleted one gets another uid, and an account with a colon in its name is
gone. -/
theorem shadow_reload_moves_uid :
    (findUser holeStore (letters 2) = some 2 ∧
      findUser (passwordStoreLoadShadow holeStore (saveShadow holeStore)) (letters 2) = some 1) ∧
    findUser colonStore ⟨[97, colon], by decide⟩ = some 1 ∧
      findUser (passwordStoreLoadShadow colonStore (saveShadow colonStore))
        ⟨[97, colon], by decide⟩ = none := by
  decide +kernel

end Tomahawk.Users
