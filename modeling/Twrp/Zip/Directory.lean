import Twrp.Base.Abi
import Twrp.Zip.Archive
import Twrp.Zip.HashTable

/-! The entries of an archive (`parseZipArchive`).

The central directory is read entry by entry. Each entry goes to its place in an array sorted by name,
found by a binary search; when all are in place they are put into a hash table, in the order of the
array. Of several entries with one name, the first of the directory stays the first in the array, and
is the one that is found. -/
namespace Twrp.Zip
open Base

def CENSIG : Nat := 0x02014b50
def CENHDR : Nat := 46
def CENVEM : Nat := 4
def CENHOW : Nat := 10
def CENSIZ : Nat := 20
def CENLEN : Nat := 24
def CENNAM : Nat := 28
def CENEXT : Nat := 30
def CENCOM : Nat := 32
def CENATX : Nat := 38
def CENOFF : Nat := 42
def LOCHDR : Nat := 30
def LOCNAM : Nat := 26
def LOCEXT : Nat := 28
def CENVEM_UNIX : Nat := 3 <<< 8
def PATH_MAX : Nat := 4096

/-- `ZipEntry`; the lengths are `long`s of a 32-bit device. -/
structure ZipEntry where
  fileName : List UInt8
  /-- The byte in front of the name in the map. -/
  before : UInt8
  offset : Nat
  compLen : Nat
  uncompLen : Int
  compression : Nat
  versionMadeBy : Nat
  externalFileAttributes : Nat
deriving DecidableEq

/-- Not too long, and printable ASCII only. -/
def validFilename (fileName : List UInt8) : Bool :=
  decide (fileName.length < PATH_MAX) && fileName.all fun b => decide (32 ≤ b) && decide (b < 127)

/-- The fields of a central directory header. -/
def readFields (map : List UInt8) (ptr : Nat) : ZipEntry where
  fileName := (map.drop (ptr + CENHDR)).take (get2LE map (ptr + CENNAM))
  before := map.getD (ptr + CENHDR - 1) 0
  offset := get4LE map (ptr + CENOFF) + LOCHDR + get2LE map (get4LE map (ptr + CENOFF) + LOCNAM) +
    get2LE map (get4LE map (ptr + CENOFF) + LOCEXT)
  compLen := get4LE map (ptr + CENSIZ)
  uncompLen := int (get4LE map (ptr + CENLEN))
  compression := get2LE map (ptr + CENHOW)
  versionMadeBy := get2LE map (ptr + CENVEM)
  externalFileAttributes := get4LE map (ptr + CENATX)

/-- One round of the loop over the central directory: the entry, and where the next one starts. -/
def readEntry (map : List UInt8) (ptr : Nat) : Option (ZipEntry × Nat) :=
  let fileNameLen := get2LE map (ptr + CENNAM)
  let localHdrOffset := get4LE map (ptr + CENOFF)
  let entry := readFields map ptr
  if map.length < ptr + CENHDR then none
  else if get4LE map ptr ≠ CENSIG then none
  else if map.length < ptr + CENHDR + fileNameLen then none
  else if !validFilename entry.fileName then none
  else if entry.versionMadeBy &&& 0xff00 ≠ 0 ∧ entry.versionMadeBy &&& 0xff00 ≠ CENVEM_UNIX then none
  else if map.length < localHdrOffset + LOCHDR then none
  else if get4LE map localHdrOffset ≠ LOCSIG then none
  else if map.length < entry.offset + entry.compLen then none
  else some (entry, ptr + CENHDR + fileNameLen + get2LE map (ptr + CENEXT) + get2LE map (ptr + CENCOM))

/-- `strncmp` on texts of at least `n` bytes. -/
def strncmp : List UInt8 → List UInt8 → Nat → Int
  | a :: as, b :: bs, n + 1 => if a = b then strncmp as bs n else a.toNat - b.toNat
  | _, _, _ => 0

/-- How the binary search compares two names: the common length, and then the lengths. -/
def nameDiff (a b : List UInt8) : Int :=
  let diff := strncmp a b (min a.length b.length)
  if diff = 0 then a.length - b.length else diff

/-- The binary search for the place of a name among the entries from `low` on and before `high`, the
source's `high` plus one. -/
def searchFrom (entries : List ZipEntry) (fileName : List UInt8) : (left : Nat) → (low high : Nat) → Nat
  | 0, _, high => high
  | left + 1, low, high =>
    if low < high then
      let mid := low + (high - 1 - low) / 2
      let diff := nameDiff ((entries[mid]?.map ZipEntry.fileName).getD []) fileName
      if diff < 0 then searchFrom entries fileName left (mid + 1) high
      else if diff > 0 then searchFrom entries fileName left low mid
      else mid + 1
    else high

def target (entries : List ZipEntry) (fileName : List UInt8) : Nat := searchFrom entries fileName entries.length 0 entries.length

/-- Make some room, and put the entry there. -/
def insertEntry (entries : List ZipEntry) (entry : ZipEntry) : List ZipEntry :=
  entries.take (target entries entry.fileName) ++ entry :: entries.drop (target entries entry.fileName)

/-- The loop over the central directory. -/
def readEntries (map : List UInt8) : (numEntries : Nat) → (ptr : Nat) → List ZipEntry → Option (List ZipEntry)
  | 0, _, entries => some entries
  | numEntries + 1, ptr, entries =>
    match readEntry map ptr with
    | none => none
    | some (entry, next) => readEntries map numEntries next (insertEntry entries entry)

/-- `computeHash` -/
def computeHash (name : List UInt8) : UInt32 := name.foldl (fun hash b => hash * 31 + UInt32.ofNat b.toNat) 2

structure ZipArchive where
  map : List UInt8
  entries : List ZipEntry
  hash : HashTable ZipEntry

/-- `mzOpenZipArchive` on a file that can be mapped. -/
def mzOpenZipArchive (map : List UInt8) : Option ZipArchive := do
  let e ← openEnd map
  let entries ← readEntries map e.numEntries e.cdOffset []
  let hash ← HashTable.addAll ZipEntry.fileName computeHash (mzHashTableCreate ZipEntry (mzHashSize e.numEntries)) entries
  return ⟨map, entries, hash⟩

/-- `mzFindZipEntry`; `none` if the search in the hash table goes on for ever. -/
def mzFindZipEntry (archive : ZipArchive) (entryName : List UInt8) : Option (Option ZipEntry) :=
  archive.hash.lookup (computeHash entryName) fun e => e.fileName = entryName

/-! ### The order of names -/

/-- A name as it is compared. -/
def order (name : List UInt8) : List Nat := name.map UInt8.toNat

theorem nameDiff_nil_left (b : List UInt8) : nameDiff [] b = -(b.length : Int) := by
  simp [nameDiff, strncmp]

theorem nameDiff_nil_right (a : List UInt8) : nameDiff a [] = a.length := by
  cases a <;> simp [nameDiff, strncmp]

theorem nameDiff_cons (a b : UInt8) (as bs : List UInt8) :
    nameDiff (a :: as) (b :: bs) = if a = b then nameDiff as bs else a.toNat - b.toNat := by
  unfold nameDiff
  rw [List.length_cons, List.length_cons, Nat.succ_min_succ, strncmp]
  by_cases h : a = b
  · simp [h]
  · have hne : (a.toNat : Int) - b.toNat ≠ 0 := by
      intro hzero
      exact h (UInt8.toNat_inj.mp (by omega))
    simp [h, hne]

/-- The comparison is lexicographic. -/
theorem nameDiff_spec (a b : List UInt8) :
    (nameDiff a b < 0 ↔ order a < order b) ∧ (nameDiff a b > 0 ↔ order b < order a) ∧ (nameDiff a b = 0 ↔ a = b) := by
  induction a generalizing b with
  | nil =>
    rw [nameDiff_nil_left]
    cases b with
    | nil => simp [order]
    | cons b bs =>
      simp [order]
      omega
  | cons a as ih =>
    cases b with
    | nil =>
      rw [nameDiff_nil_right]
      simp [order]
      omega
    | cons b bs =>
      rw [nameDiff_cons]
      by_cases h : a = b
      · subst h
        simp only [if_true, order, List.map_cons, List.cons_lt_cons_iff, lt_irrefl, false_or, true_and, List.cons.injEq]
        exact ih bs
      · have hne : a.toNat ≠ b.toNat := fun heq => h (UInt8.toNat_inj.mp heq)
        have hne' : b.toNat ≠ a.toNat := hne.symm
        simp only [h, if_false, order, List.map_cons, List.cons_lt_cons_iff, hne, hne', false_and, or_false, List.cons.injEq]
        refine ⟨by omega, by omega, ?_⟩
        simp only [iff_false]
        omega

/-- The entries are sorted by name. -/
def Sorted (entries : List ZipEntry) : Prop := entries.Pairwise fun e e' => order e.fileName ≤ order e'.fileName

section Insert
variable {entries : List ZipEntry} {name : List UInt8}

theorem Sorted.le (h : Sorted entries) {i j : Nat} {e e' : ZipEntry} (hi : entries[i]? = some e) (hj : entries[j]? = some e') (hle : i ≤ j) :
    order e.fileName ≤ order e'.fileName := by
  rcases Nat.eq_or_lt_of_le hle with rfl | hlt
  · rw [hi] at hj
    rw [Option.some.inj hj]
  · obtain ⟨hi', rfl⟩ := List.getElem?_eq_some_iff.mp hi
    obtain ⟨hj', rfl⟩ := List.getElem?_eq_some_iff.mp hj
    exact List.pairwise_iff_getElem.mp h i j hi' hj' hlt

/-- A place for a name: between the names that are not greater and those that are not less, and behind
one of the same name if there is one. -/
structure Place (entries : List ZipEntry) (name : List UInt8) (t : Nat) : Prop where
  le : t ≤ entries.length
  below : ∀ i e, entries[i]? = some e → i < t → order e.fileName ≤ order name
  above : ∀ i e, entries[i]? = some e → t ≤ i → order name ≤ order e.fileName
  behind : (∃ e ∈ entries, e.fileName = name) → ∃ e ∈ entries.take t, e.fileName = name

/-- An empty interval of the search: the name is not there. -/
theorem place_of_empty {t : Nat} (hle : t ≤ entries.length) (hless : ∀ i e, entries[i]? = some e → i < t → order e.fileName < order name)
    (hgreater : ∀ i e, entries[i]? = some e → t ≤ i → order name < order e.fileName) : Place entries name t where
  le := hle
  below := fun i e hi hlt => (hless i e hi hlt).le
  above := fun i e hi hge => (hgreater i e hi hge).le
  behind := by
    intro ⟨e, he, hname⟩
    obtain ⟨i, hi⟩ := List.getElem?_of_mem he
    subst hname
    rcases Nat.lt_or_ge i t with hlt | hge
    · exact absurd (hless i e hi hlt) (lt_irrefl _)
    · exact absurd (hgreater i e hi hge) (lt_irrefl _)

/-- An entry of the same name: the place is behind it. -/
theorem place_of_equal (hsorted : Sorted entries) {mid : Nat} {e : ZipEntry} (he : entries[mid]? = some e) (hname : e.fileName = name) :
    Place entries name (mid + 1) where
  le := (List.getElem?_eq_some_iff.mp he).1
  below := by
    intro i e' hi hlt
    rw [← hname]
    exact hsorted.le hi he (by omega)
  above := by
    intro i e' hi hge
    rw [← hname]
    exact hsorted.le he hi (by omega)
  behind := by
    intro _
    refine ⟨e, ?_, hname⟩
    apply List.mem_of_getElem? (i := mid)
    rw [List.getElem?_take, if_pos (Nat.lt_succ_self mid), he]

theorem searchFrom_place (hsorted : Sorted entries) {left low high : Nat} (hleft : high - low ≤ left) (hlow : low ≤ high)
    (hhigh : high ≤ entries.length) (hless : ∀ i e, entries[i]? = some e → i < low → order e.fileName < order name)
    (hgreater : ∀ i e, entries[i]? = some e → high ≤ i → order name < order e.fileName) :
    Place entries name (searchFrom entries name left low high) := by
  induction left generalizing low high with
  | zero =>
    have heq : low = high := by omega
    subst heq
    exact place_of_empty hhigh hless hgreater
  | succ left ih =>
    rw [searchFrom]
    split
    · rename_i hlt
      have hmid : low ≤ low + (high - 1 - low) / 2 ∧ low + (high - 1 - low) / 2 < high := by omega
      generalize low + (high - 1 - low) / 2 = mid at hmid
      obtain ⟨e, he⟩ : ∃ e, entries[mid]? = some e := ⟨_, List.getElem?_eq_getElem (by omega)⟩
      obtain ⟨hneg, hpos, hzero⟩ := nameDiff_spec e.fileName name
      simp only [he, Option.map_some, Option.getD_some]
      split
      · rename_i hdiff
        apply ih (by omega) (by omega) hhigh _ hgreater
        intro i e' hi hi'
        exact lt_of_le_of_lt (hsorted.le hi he (by omega)) (hneg.mp hdiff)
      · rename_i hnot
        split
        · rename_i hdiff
          apply ih (by omega) (by omega) (by omega) hless
          intro i e' hi hi'
          exact lt_of_lt_of_le (hpos.mp hdiff) (hsorted.le he hi hi')
        · exact place_of_equal hsorted he (hzero.mp (by omega))
    · have heq : low = high := by omega
      subst heq
      exact place_of_empty hhigh hless hgreater

theorem target_place (hsorted : Sorted entries) (name : List UInt8) : Place entries name (target entries name) := by
  apply searchFrom_place hsorted (by omega) (Nat.zero_le _) (le_refl _)
  · intro i e _ hlt
    omega
  · intro i e hi hge
    rw [List.getElem?_eq_none hge] at hi
    exact absurd hi (by simp)

/-- The array stays sorted. -/
theorem sorted_insertEntry (hsorted : Sorted entries) (entry : ZipEntry) : Sorted (insertEntry entries entry) := by
  have hplace := target_place hsorted entry.fileName
  unfold insertEntry
  generalize target entries entry.fileName = t at hplace
  have hbelow : ∀ e ∈ entries.take t, order e.fileName ≤ order entry.fileName := by
    intro e he
    obtain ⟨i, hi⟩ := List.getElem?_of_mem he
    rw [List.getElem?_take] at hi
    split at hi
    · exact hplace.below i e hi (by assumption)
    · exact absurd hi (by simp)
  have habove : ∀ e ∈ entries.drop t, order entry.fileName ≤ order e.fileName := by
    intro e he
    obtain ⟨i, hi⟩ := List.getElem?_of_mem he
    rw [List.getElem?_drop] at hi
    exact hplace.above (t + i) e hi (Nat.le_add_right _ _)
  unfold Sorted
  rw [List.pairwise_append, List.pairwise_cons]
  refine ⟨List.Pairwise.sublist (List.take_sublist _ _) hsorted, ⟨habove, List.Pairwise.sublist (List.drop_sublist _ _) hsorted⟩, ?_⟩
  intro e he e' he'
  rcases List.mem_cons.mp he' with rfl | he'
  · exact hbelow e he
  · exact (hbelow e he).trans (habove e' he')

theorem perm_insertEntry (entries : List ZipEntry) (entry : ZipEntry) : (insertEntry entries entry).Perm (entry :: entries) := by
  have hmiddle : (insertEntry entries entry).Perm
      (entry :: (entries.take (target entries entry.fileName) ++ entries.drop (target entries entry.fileName))) := List.perm_middle
  rwa [List.take_append_drop] at hmiddle

/-- The first entry of a name stays the first: an entry behind it does not change what is found. -/
theorem find_insertEntry (hsorted : Sorted entries) (entry : ZipEntry) (k : List UInt8) :
    (insertEntry entries entry).find? (fun e => e.fileName = k) = (entries ++ [entry]).find? fun e => e.fileName = k := by
  have hplace := target_place hsorted entry.fileName
  unfold insertEntry
  generalize target entries entry.fileName = t at hplace
  rw [List.find?_append, List.find?_append, ← List.take_append_drop t entries, List.find?_append, List.take_append_drop]
  by_cases hk : entry.fileName = k
  · subst hk
    cases hfirst : (entries.take t).find? (fun e => decide (e.fileName = entry.fileName)) with
    | some e => simp
    | none =>
      -- nothing of that name stands behind the place either
      have hnone : ∀ e ∈ entries, e.fileName ≠ entry.fileName := by
        intro e he hname
        obtain ⟨e', he', hname'⟩ := hplace.behind ⟨e, he, hname⟩
        have := List.find?_eq_none.mp hfirst e' he'
        simp [hname'] at this
      have hrest : (entries.drop t).find? (fun e => decide (e.fileName = entry.fileName)) = none := by
        rw [List.find?_eq_none]
        intro e he
        simpa using hnone e (List.mem_of_mem_drop he)
      simp [hrest]
  · simp [hk]

end Insert

/-! ### What an archive holds -/

/-- The entries of the central directory in its own order. -/
def directory (map : List UInt8) : (numEntries : Nat) → (ptr : Nat) → Option (List ZipEntry)
  | 0, _ => some []
  | numEntries + 1, ptr =>
    match readEntry map ptr with
    | none => none
    | some (entry, next) => (directory map numEntries next).map (entry :: ·)

/-- An array that holds the entries of a directory. -/
structure Arranged (entries dir : List ZipEntry) : Prop where
  sorted : Sorted entries
  perm : entries.Perm dir
  find : ∀ k, entries.find? (fun e => e.fileName = k) = dir.find? fun e => e.fileName = k

theorem Arranged.insert {entries dir : List ZipEntry} (h : Arranged entries dir) (entry : ZipEntry) :
    Arranged (insertEntry entries entry) (dir ++ [entry]) where
  sorted := sorted_insertEntry h.sorted entry
  perm := by
    apply (perm_insertEntry entries entry).trans
    exact (h.perm.cons entry).trans (List.perm_append_singleton entry dir).symm
  find := by
    intro k
    rw [find_insertEntry h.sorted, List.find?_append, List.find?_append, h.find]

theorem arranged_readEntries {map : List UInt8} {numEntries ptr : Nat} {entries entries' dir : List ZipEntry}
    (h : Arranged entries dir) (hread : readEntries map numEntries ptr entries = some entries') :
    ∃ rest, directory map numEntries ptr = some rest ∧ Arranged entries' (dir ++ rest) := by
  induction numEntries generalizing ptr entries dir with
  | zero =>
    obtain rfl := Option.some.inj hread
    exact ⟨[], rfl, by rwa [List.append_nil]⟩
  | succ numEntries ih =>
    rw [readEntries] at hread
    cases hentry : readEntry map ptr with
    | none =>
      rw [hentry] at hread
      exact absurd hread (by simp)
    | some r =>
      rw [hentry] at hread
      obtain ⟨rest, hrest, harranged⟩ := ih (h.insert r.1) hread
      refine ⟨r.1 :: rest, ?_, ?_⟩
      · simp only [directory, hentry, hrest, Option.map_some]
      · rwa [List.append_assoc, List.singleton_append] at harranged

theorem length_directory {map : List UInt8} {numEntries ptr : Nat} {dir : List ZipEntry} (h : directory map numEntries ptr = some dir) :
    dir.length = numEntries := by
  induction numEntries generalizing ptr dir with
  | zero =>
    obtain rfl := Option.some.inj h
    rfl
  | succ numEntries ih =>
    rw [directory] at h
    cases hentry : readEntry map ptr with
    | none =>
      rw [hentry] at h
      exact absurd h (by simp)
    | some r =>
      rw [hentry] at h
      obtain ⟨rest, hrest, rfl⟩ := Option.map_eq_some_iff.mp h
      rw [List.length_cons, ih hrest]

theorem get2LE_lt (map : List UInt8) (ptr : Nat) : get2LE map ptr < 65536 :=
  Nat.lt_of_lt_of_le (fromLe_lt _) (Nat.pow_le_pow_right (by decide) (List.length_take_le 2 _))

theorem numEntries_lt {map : List UInt8} {e : EndRecord} (h : openEnd map = some e) : e.numEntries < 65536 := by
  unfold openEnd at h
  split at h
  · exact absurd h (by simp)
  · cases hfind : findEnd map (map.length - ENDHDR) with
    | none =>
      unfold readEnd at h
      rw [hfind] at h
      split_ifs at h
    | some ptr =>
      rw [(readEnd_fields hfind h).2.1]
      exact get2LE_lt _ _

/-- An archive that was opened: its entries are those of the central directory, sorted, and the first
of the directory with a name is the one that is found. -/
structure Opened (map : List UInt8) (archive : ZipArchive) (dir : List ZipEntry) : Prop where
  map_eq : archive.map = map
  arranged : Arranged archive.entries dir
  find : ∀ name, mzFindZipEntry archive name = some (dir.find? fun e => e.fileName = name)

theorem mzOpenZipArchive_opened {map : List UInt8} {archive : ZipArchive} (h : mzOpenZipArchive map = some archive) :
    ∃ e dir, openEnd map = some e ∧ directory map e.numEntries e.cdOffset = some dir ∧ Opened map archive dir := by
  obtain ⟨e, hend, h⟩ := Option.bind_eq_some_iff.mp h
  obtain ⟨entries, hentries, h⟩ := Option.bind_eq_some_iff.mp h
  obtain ⟨hash, hhash, h⟩ := Option.bind_eq_some_iff.mp h
  obtain rfl := Option.some.inj h
  obtain ⟨dir, hdir, harranged⟩ := arranged_readEntries ⟨List.Pairwise.nil, List.Perm.nil, fun _ => rfl⟩ hentries
  rw [List.nil_append] at harranged
  have hlength : entries.length = e.numEntries := harranged.perm.length_eq.trans (length_directory hdir)
  have hcount := numEntries_lt hend
  obtain ⟨t, ht, hlookup⟩ := HashTable.lookup_addAll ZipEntry.fileName computeHash entries (by omega)
  rw [hlength, hhash] at ht
  obtain rfl := Option.some.inj ht
  refine ⟨e, dir, hend, hdir, rfl, harranged, fun name => ?_⟩
  rw [mzFindZipEntry, hlookup, harranged.find]

end Twrp.Zip
