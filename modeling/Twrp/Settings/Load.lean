import Twrp.Settings.File

/-! What `LoadValues` makes of any file at all.

The fields of a file are cut by their counts alone (`cut`): complete records, and whether
the file ends after them. The strings come from the array, so they are the record's own
bytes only where the record holds a NUL; and the map is changed record by record, so an
error later in the file does not undo what was read before it. `load_clean_iff` is the
exact condition under which a load depends on the file alone and a failed load leaves the
variables as they were. -/
namespace Twrp.Settings
open Base

/-! ### The fields of a file -/

/-- The bytes of one counted field and what stands after it. -/
def field (rest : List UInt8) : Option (List UInt8 × List UInt8) :=
  if rest.length < 2 then none
  else if fromLe (rest.take 2) ≥ 512 then none
  else if (rest.drop 2).length < fromLe (rest.take 2) then none
  else some ((rest.drop 2).take (fromLe (rest.take 2)), (rest.drop 2).drop (fromLe (rest.take 2)))

theorem field_length {rest bytes rest' : List UInt8} (h : field rest = some (bytes, rest')) :
    rest.length = 2 + bytes.length + rest'.length ∧ bytes.length < 512 := by
  unfold field at h
  split_ifs at h with hshort hbig hcut
  cases h
  simp only [List.length_take, List.length_drop] at hcut ⊢
  omega

/-- Reading a string is cutting its field and scanning the array. -/
theorem readString_field (array rest : List UInt8) :
    readString array rest = match field rest with
      | none => .error
      | some (bytes, rest') =>
        match CString.scan (bytes ++ array.drop bytes.length) with
        | none => .undefined
        | some s => .ok s (bytes ++ array.drop bytes.length) rest' := by
  unfold readString field
  dsimp only
  split_ifs with hshort hbig hcut
  · rfl
  · rfl
  · rfl
  · have hlen : ((rest.drop 2).take (fromLe (rest.take 2))).length = fromLe (rest.take 2) := by
      rw [List.length_take]
      omega
    cases hscan : CString.scan ((rest.drop 2).take (fromLe (rest.take 2)) ++ array.drop (fromLe (rest.take 2))) with
    | none => simp only [hlen, hscan]
    | some s => simp only [hlen, hscan]

/-- What a file starts with: a record with the rest of the file, the name of a record with no
value, or no field at all. -/
inductive Front where
  | whole (r : List UInt8 × List UInt8) (rest : List UInt8)
  | half (name : List UInt8)
  | broken
deriving DecidableEq

def front (rest : List UInt8) : Front :=
  match field rest with
  | none => .broken
  | some (name, rest₁) =>
    match field rest₁ with
    | none => .half name
    | some (value, rest₂) => .whole (name, value) rest₂

theorem front_whole_length {rest rest' : List UInt8} {r : List UInt8 × List UInt8} (h : front rest = .whole r rest') :
    rest'.length + 4 ≤ rest.length := by
  unfold front at h
  split at h
  · cases h
  · rename_i name rest₁ hname
    split at h
    · cases h
    · rename_i value rest₂ hvalue
      cases h
      have hn := field_length hname
      have hv := field_length hvalue
      omega

/-- How a file ends after its complete records. -/
inductive Ending where
  | clean
  | half (name : List UInt8)
  | broken

/-- The complete records of a file, and what stands after them. -/
def cut (rest : List UInt8) : List (List UInt8 × List UInt8) × Ending :=
  if rest = [] then ([], .clean)
  else
    match _h : front rest with
    | .broken => ([], .broken)
    | .half name => ([], .half name)
    | .whole r rest' => (r :: (cut rest').1, (cut rest').2)
termination_by rest.length
decreasing_by all_goals exact Nat.lt_of_lt_of_le (Nat.lt_add_of_pos_right (by decide)) (front_whole_length _h)

theorem cut_nil : cut [] = ([], .clean) := by
  rw [cut, if_pos rfl]

theorem cut_broken {rest : List UInt8} (hne : rest ≠ []) (h : front rest = .broken) : cut rest = ([], .broken) := by
  rw [cut, if_neg hne]
  split
  · rfl
  · rename_i h'
    cases h.symm.trans h'
  · rename_i h'
    cases h.symm.trans h'

theorem cut_half {rest name : List UInt8} (hne : rest ≠ []) (h : front rest = .half name) :
    cut rest = ([], .half name) := by
  rw [cut, if_neg hne]
  split
  · rename_i h'
    cases h.symm.trans h'
  · rename_i h'
    cases h.symm.trans h'
    rfl
  · rename_i h'
    cases h.symm.trans h'

theorem cut_whole {rest rest' : List UInt8} {r : List UInt8 × List UInt8} (hne : rest ≠ [])
    (h : front rest = .whole r rest') : cut rest = (r :: (cut rest').1, (cut rest').2) := by
  rw [cut, if_neg hne]
  split
  · rename_i h'
    cases h.symm.trans h'
  · rename_i h'
    cases h.symm.trans h'
  · rename_i h'
    cases h.symm.trans h'
    rfl

/-- An induction along the records of a file. -/
theorem cut_induction {P : List UInt8 → Prop} (nil : P []) (broken : ∀ rest, rest ≠ [] → front rest = .broken → P rest)
    (half : ∀ rest name, rest ≠ [] → front rest = .half name → P rest)
    (whole : ∀ rest r rest', rest ≠ [] → front rest = .whole r rest' → P rest' → P rest) (rest : List UInt8) : P rest := by
  induction hn : rest.length using Nat.strong_induction_on generalizing rest with
  | h n ih =>
    by_cases hne : rest = []
    · rw [hne]
      exact nil
    · cases h : front rest with
      | broken => exact broken rest hne h
      | half name => exact half rest name hne h
      | whole r rest' =>
        have hlen := front_whole_length h
        exact whole rest r rest' hne h (ih rest'.length (by omega) rest' rfl)

/-- Every record takes four bytes at least, so the loop makes no more turns than that. -/
theorem cut_length (rest : List UInt8) : 4 * (cut rest).1.length ≤ rest.length := by
  induction rest using cut_induction with
  | nil =>
    rw [cut_nil]
    exact Nat.zero_le _
  | broken rest hne h =>
    rw [cut_broken hne h]
    exact Nat.zero_le _
  | half rest name hne h =>
    rw [cut_half hne h]
    exact Nat.zero_le _
  | whole rest r rest' hne h ih =>
    have hlen := front_whole_length h
    rw [cut_whole hne h, List.length_cons]
    omega

/-! ### The strings of a record -/

/-- The strings that an array gives for a record, where they are defined. -/
def taken (array : List UInt8) (r : List UInt8 × List UInt8) : Option (CString × CString) :=
  let array := r.1 ++ array.drop r.1.length
  match CString.scan array, CString.scan (r.2 ++ array.drop r.2.length) with
  | some name, some value => some (name, value)
  | _, _ => none

/-- The record has the terminators of both its strings. The value is scanned in the array
that still holds the name. -/
def Terminated (r : List UInt8 × List UInt8) : Prop := 0 ∈ r.1 ∧ (0 ∈ r.2 ∨ 0 ∈ r.1.drop r.2.length)

/-- The strings of a record, from its own bytes. -/
def own (r : List UInt8 × List UInt8) : CString × CString :=
  (CString.ofBytes r.1, CString.ofBytes (r.2 ++ r.1.drop r.2.length))

theorem scan_append {l : List UInt8} (h : 0 ∈ l) (rest : List UInt8) :
    CString.scan (l ++ rest) = some (CString.ofBytes l) := by
  rw [CString.scan, if_pos (List.mem_append_left _ h)]
  refine congrArg some (CString.ext ?_)
  show (l ++ rest).takeWhile (· != 0) = l.takeWhile (· != 0)
  rw [List.takeWhile_append]
  split_ifs with hall
  · exfalso
    have heq : l.takeWhile (· != 0) = l := (List.takeWhile_sublist _).eq_of_length hall
    rw [← heq] at h
    exact (CString.ofBytes l).noNul h
  · rfl

theorem taken_terminated {r : List UInt8 × List UInt8} (h : Terminated r) (array : List UInt8) :
    taken array r = some (own r) := by
  obtain ⟨hname, hvalue⟩ := h
  have hmem : 0 ∈ r.2 ++ r.1.drop r.2.length := List.mem_append.mpr hvalue
  have hscan : CString.scan (r.2 ++ (r.1 ++ array.drop r.1.length).drop r.2.length) =
      some (CString.ofBytes (r.2 ++ r.1.drop r.2.length)) := by
    rw [List.drop_append, ← List.append_assoc]
    exact scan_append hmem _
  unfold taken
  dsimp only
  rw [scan_append hname, hscan]
  rfl

/-- An array with no NUL in it. -/
def fullJunk : Junk := ⟨fun _ => List.replicate 512 1, fun _ => List.length_replicate⟩

theorem taken_full {r : List UInt8 × List UInt8} (h : ¬Terminated r) (position : Nat) :
    taken (fullJunk.array position) r = none := by
  have hfull : ∀ l : List UInt8, l ⊆ fullJunk.array position → 0 ∉ l := by
    intro l hl hzero
    have := List.eq_of_mem_replicate (hl hzero)
    exact absurd this (by decide)
  have hnone : ∀ {l : List UInt8}, 0 ∉ l → CString.scan l = none := fun hl => if_neg hl
  unfold taken
  dsimp only
  by_cases hname : 0 ∈ r.1
  · have hvalue : 0 ∉ r.2 ++ (r.1 ++ (fullJunk.array position).drop r.1.length).drop r.2.length := by
      rw [List.drop_append, ← List.append_assoc, List.mem_append, List.mem_append]
      rintro (hmem | hmem)
      · exact h ⟨hname, hmem⟩
      · exact hfull _ (fun b hb => List.mem_of_mem_drop (List.mem_of_mem_drop hb)) hmem
    rw [hnone hvalue, scan_append hname]
  · have hzero : 0 ∉ r.1 ++ (fullJunk.array position).drop r.1.length := by
      rw [List.mem_append]
      rintro (hmem | hmem)
      · exact hname hmem
      · exact hfull _ (fun b hb => List.mem_of_mem_drop hb) hmem
    rw [hnone hzero]

/-! ### The loop -/

/-- One turn of the loop, by what the file starts with. -/
theorem loadLoop_step (junk : Junk) (fileSize : Int) (values : Std.TreeMap CString Var) (position : Nat)
    (rest : List UInt8) (hlt : (position : Int) < fileSize) :
    loadLoop junk fileSize values position rest = match front rest with
      | .broken => some (1, values)
      | .half name =>
        match CString.scan (name ++ (junk.array position).drop name.length) with
        | none => none
        | some _ => some (1, values)
      | .whole r rest' =>
        match taken (junk.array position) r with
        | none => none
        | some (n, v) =>
          loadLoop junk fileSize (values.insert n ⟨v, 1⟩) (position + (rest.length - rest'.length)) rest' := by
  rw [loadLoop, if_pos hlt]
  cases hname : field rest with
  | none =>
    have hread : readString (junk.array position) rest = .error := by
      rw [readString_field, hname]
    have hfront : front rest = .broken := by
      rw [front, hname]
    rw [hfront]
    split
    · rfl
    · rename_i h
      cases hread.symm.trans h
    · rename_i h
      cases hread.symm.trans h
  | some found =>
    obtain ⟨name, rest₁⟩ := found
    have hread := readString_field (junk.array position) rest
    rw [hname] at hread
    dsimp only at hread
    cases hscan : CString.scan (name ++ (junk.array position).drop name.length) with
    | none =>
      rw [hscan] at hread
      have hnone : ∀ value, taken (junk.array position) (name, value) = none := by
        intro value
        rw [taken, hscan]
      split
      · rename_i h
        cases hread.symm.trans h
      · unfold front
        rw [hname]
        dsimp only
        cases field rest₁ with
        | none =>
          dsimp only
          rw [hscan]
        | some found =>
          dsimp only
          rw [hnone found.1]
      · rename_i h
        cases hread.symm.trans h
    | some n =>
      rw [hscan] at hread
      split
      · rename_i h
        cases hread.symm.trans h
      · rename_i h
        cases hread.symm.trans h
      · rename_i h
        cases hread.symm.trans h
        have hvalueRead := readString_field (name ++ (junk.array position).drop name.length) rest₁
        cases hvalue : field rest₁ with
        | none =>
          rw [hvalue] at hvalueRead
          have hfront : front rest = .half name := by
            rw [front, hname]
            dsimp only
            rw [hvalue]
          rw [hfront]
          dsimp only
          rw [hscan]
          split
          · rfl
          · rename_i h'
            cases hvalueRead.symm.trans h'
          · rename_i h'
            cases hvalueRead.symm.trans h'
        | some found =>
          obtain ⟨value, rest₂⟩ := found
          rw [hvalue] at hvalueRead
          have hfront : front rest = .whole (name, value) rest₂ := by
            rw [front, hname]
            dsimp only
            rw [hvalue]
          rw [hfront]
          unfold taken
          dsimp only at hvalueRead ⊢
          rw [hscan]
          cases hscan' : CString.scan (value ++ (name ++ (junk.array position).drop name.length).drop value.length) with
          | none =>
            rw [hscan'] at hvalueRead
            split
            · rename_i h'
              cases hvalueRead.symm.trans h'
            · rfl
            · rename_i h'
              cases hvalueRead.symm.trans h'
          | some v =>
            rw [hscan'] at hvalueRead
            split
            · rename_i h'
              cases hvalueRead.symm.trans h'
            · rename_i h'
              cases hvalueRead.symm.trans h'
            · rename_i h'
              cases hvalueRead.symm.trans h'
              rfl

/-- The record that a file breaks off in has the terminator of its name, if it gets as far. -/
def Ending.Terminated : Ending → Prop
  | half name => 0 ∈ name
  | _ => True

def Ending.ret : Ending → Int
  | clean => 0
  | _ => 1

/-- All strings that are read have their terminators in the file. -/
def AllTerminated (c : List (List UInt8 × List UInt8) × Ending) : Prop := (∀ r ∈ c.1, Terminated r) ∧ c.2.Terminated

/-- Terminated records are read as they stand, whatever the array holds. -/
theorem loadLoop_terminated (junk : Junk) (values : Std.TreeMap CString Var) (position : Nat) (rest : List UInt8)
    (h : AllTerminated (cut rest)) :
    loadLoop junk (position + rest.length : Nat) values position rest =
      some ((cut rest).2.ret, insertAll values ((cut rest).1.map own)) := by
  induction rest using cut_induction generalizing values position with
  | nil =>
    rw [loadLoop, if_neg (by simp), cut_nil]
    rfl
  | broken rest hne hfront =>
    have hpos := List.length_pos_iff.mpr hne
    rw [loadLoop_step _ _ _ _ _ (by omega), hfront, cut_broken hne hfront]
    rfl
  | half rest name hne hfront =>
    have hpos := List.length_pos_iff.mpr hne
    rw [cut_half hne hfront] at h ⊢
    rw [loadLoop_step _ _ _ _ _ (by omega), hfront]
    dsimp only
    rw [scan_append h.2]
    rfl
  | whole rest r rest' hne hfront ih =>
    have hpos := List.length_pos_iff.mpr hne
    have hlen := front_whole_length hfront
    rw [cut_whole hne hfront] at h ⊢
    rw [loadLoop_step _ _ _ _ _ (by omega), hfront]
    dsimp only
    rw [taken_terminated (h.1 r List.mem_cons_self)]
    dsimp only
    have hsize : position + rest.length = position + (rest.length - rest'.length) + rest'.length := by omega
    rw [hsize, ih _ _ ⟨fun r' hr' => h.1 r' (List.mem_cons_of_mem r hr'), h.2⟩]
    rfl

/-- Where a terminator is missing, there is an array that leaves a string undefined. -/
theorem loadLoop_full (values : Std.TreeMap CString Var) (position : Nat) (rest : List UInt8)
    (h : ¬AllTerminated (cut rest)) : loadLoop fullJunk (position + rest.length : Nat) values position rest = none := by
  induction rest using cut_induction generalizing values position with
  | nil =>
    rw [cut_nil] at h
    exact absurd ⟨by simp, trivial⟩ h
  | broken rest hne hfront =>
    rw [cut_broken hne hfront] at h
    exact absurd ⟨by simp, trivial⟩ h
  | half rest name hne hfront =>
    have hpos := List.length_pos_iff.mpr hne
    rw [cut_half hne hfront] at h
    have hname : 0 ∉ name := fun hmem => h ⟨by simp, hmem⟩
    have hnone : taken (fullJunk.array position) (name, []) = none := taken_full (fun ht => hname ht.1) position
    rw [loadLoop_step _ _ _ _ _ (by omega), hfront]
    dsimp only
    cases hscan : CString.scan (name ++ (fullJunk.array position).drop name.length) with
    | none => rfl
    | some n =>
      rw [taken, hscan] at hnone
      dsimp only at hnone
      rw [List.nil_append, List.length_nil, List.drop_zero, hscan] at hnone
      cases hnone
  | whole rest r rest' hne hfront ih =>
    have hpos := List.length_pos_iff.mpr hne
    have hlen := front_whole_length hfront
    rw [cut_whole hne hfront] at h
    rw [loadLoop_step _ _ _ _ _ (by omega), hfront]
    dsimp only
    by_cases hr : Terminated r
    · rw [taken_terminated hr]
      dsimp only
      have hsize : position + rest.length = position + (rest.length - rest'.length) + rest'.length := by omega
      rw [hsize]
      refine ih _ _ fun hrest => h ⟨fun r' hr' => ?_, hrest.2⟩
      rcases List.mem_cons.mp hr' with rfl | hmem
      · exact hr
      · exact hrest.1 r' hmem
    · rw [taken_full hr]

/-! ### The file as a whole -/

/-- The records that `LoadValues` gets to, and how it ends. -/
def fileRecords (bytes : List UInt8) : List (List UInt8 × List UInt8) × Ending :=
  if bytes.length < 4 then ([], .broken)
  else if fromLe (bytes.take 4) ≠ fileVersion then ([], .broken)
  -- beyond that `ftell` gives -1, and the loop is not entered
  else if bytes.length < 2147483648 then cut (bytes.drop 4)
  else ([], .clean)

theorem fileRecords_length (bytes : List UInt8) : 4 * (fileRecords bytes).1.length ≤ bytes.length := by
  unfold fileRecords
  split_ifs
  · exact Nat.zero_le _
  · exact Nat.zero_le _
  · have hcut := cut_length (bytes.drop 4)
    rw [List.length_drop] at hcut
    omega
  · exact Nat.zero_le _

def folderNames : List CString := folderVars.map (·.1)

theorem touches_folderNames (host : Host) (d : DataManager) (storagePath : CString) :
    Touches folderNames d (setBackupFolder host d storagePath) := by
  have hset : ∀ f ∈ folderNames, ∀ d' value, Touches folderNames d' (setValue host d' f value 0).2 := by
    intro f hf d' value
    obtain ⟨pair, hpair, rfl⟩ := List.mem_map.mp hf
    rw [setValue_eq_storeValue host d' value 0 (folderVars_spec pair hpair).2.1]
    exact (touches_store host d' pair.1 value 0).mono (List.cons_subset.mpr ⟨hf, List.nil_subset _⟩)
  have hfirst := hset "tw_backups_folder" List.mem_cons_self
  have hsecond := hset "tw_sdbackups_folder" (List.mem_cons_of_mem _ List.mem_cons_self)
  exact (hfirst _ _).trans (hsecond _ _)

/-- The manager that has read `reads`, before it sets the folders. -/
def afterReads (d : DataManager) (filename : CString) (reads : List (CString × CString)) : DataManager :=
  {d with mBackingFile := if d.mBackingFile = "" then filename else d.mBackingFile, mValues := insertAll d.mValues reads}

section File
variable (host : Host) {d : DataManager} {filename : CString} {bytes : List UInt8} (hfile : d.files filename = some bytes)
include hfile

/-- A load by the loop alone, with what stands before and after it. -/
theorem loadValues_cases (junk : Junk) :
    (fileRecords bytes = cut (bytes.drop 4) ∧ 4 ≤ bytes.length ∧
      loadValues host junk d filename = (loadLoop junk bytes.length d.mValues 4 (bytes.drop 4)).map fun r =>
        let d' := {d with mBackingFile := if d.mBackingFile = "" then filename else d.mBackingFile, mValues := r.2}
        (r.1, setBackupFolder host d' (getCurrentStoragePath d'))) ∨
    (fileRecords bytes).1 = [] ∧ (fileRecords bytes).2.Terminated ∧
      loadValues host junk d filename = some ((fileRecords bytes).2.ret,
        setBackupFolder host (afterReads d filename []) (getCurrentStoragePath (afterReads d filename []))) := by
  have hback : (if d.mBackingFile = "" then {d with mBackingFile := filename} else d) =
      {d with mBackingFile := if d.mBackingFile = "" then filename else d.mBackingFile} := by
    split_ifs <;> rfl
  unfold loadValues fileRecords afterReads
  rw [hback]
  dsimp only
  rw [hfile]
  dsimp only
  by_cases hshort : bytes.length < 4
  · rw [if_pos hshort, if_pos hshort]
    exact .inr ⟨rfl, trivial, rfl⟩
  · rw [if_neg hshort, if_neg hshort]
    by_cases hversion : fromLe (bytes.take 4) ≠ fileVersion
    · rw [if_pos hversion, if_pos hversion]
      exact .inr ⟨rfl, trivial, rfl⟩
    · rw [if_neg hversion, if_neg hversion]
      by_cases hsize : bytes.length < 2147483648
      · rw [if_pos hsize, ftell, if_pos hsize]
        exact .inl ⟨rfl, by omega, rfl⟩
      · have hnone : ¬((4 : Nat) : Int) < -1 := by decide
        rw [if_neg hsize, ftell, if_neg hsize, loadLoop, if_neg hnone]
        exact .inr ⟨rfl, trivial, rfl⟩

theorem loadValues_terminated (junk : Junk) (h : AllTerminated (fileRecords bytes)) :
    loadValues host junk d filename = some ((fileRecords bytes).2.ret,
      let d' := afterReads d filename ((fileRecords bytes).1.map own)
      setBackupFolder host d' (getCurrentStoragePath d')) := by
  rcases loadValues_cases host hfile junk with ⟨hcut, hlen, hload⟩ | ⟨hnil, _, hload⟩
  · have hsize : bytes.length = 4 + (bytes.drop 4).length := by
      rw [List.length_drop]
      omega
    rw [hcut] at h ⊢
    rw [hload, hsize, loadLoop_terminated junk d.mValues 4 (bytes.drop 4) h]
    rfl
  · rw [hload, hnil]
    rfl

theorem loadValues_full (h : ¬AllTerminated (fileRecords bytes)) : loadValues host fullJunk d filename = none := by
  rcases loadValues_cases host hfile fullJunk with ⟨hcut, hlen, hload⟩ | ⟨hnil, hending, _⟩
  · have hsize : bytes.length = 4 + (bytes.drop 4).length := by
      rw [List.length_drop]
      omega
    rw [hcut] at h
    rw [hload, hsize, loadLoop_full d.mValues 4 (bytes.drop 4) h]
    rfl
  · refine absurd ⟨fun r hr => ?_, hending⟩ h
    rw [hnil] at hr
    cases hr

end File

/-! ### A clean load -/

/-- The value that the last record of a name gives it. -/
def lastRead (reads : List (CString × CString)) (n : CString) : Option CString :=
  (reads.reverse.find? fun r => r.1 = n).map Prod.snd

theorem insertAll_get (values : Std.TreeMap CString Var) (reads : List (CString × CString)) (n : CString) :
    (insertAll values reads)[n]? = match lastRead reads n with
      | some v => some ⟨v, 1⟩
      | none => values[n]? := by
  induction reads using List.reverseRecOn with
  | nil => rfl
  | append_singleton reads r ih =>
    have hinsert : insertAll values (reads ++ [r]) = (insertAll values reads).insert r.1 ⟨r.2, 1⟩ :=
      List.foldl_concat ..
    have hlast : lastRead (reads ++ [r]) n = if r.1 = n then some r.2 else lastRead reads n := by
      unfold lastRead
      rw [List.reverse_append, List.reverse_singleton, List.singleton_append, List.find?_cons]
      by_cases hr : r.1 = n <;> simp [hr]
    rw [hinsert, hlast, Std.TreeMap.getElem?_insert, ih]
    by_cases hr : r.1 = n
    · rw [if_pos (by simp [hr]), if_pos hr]
    · rw [if_neg (by simpa using hr), if_neg hr]

/-- A load that fails leaves the variables as they were, the folders apart, and what a load
does depends on the file alone, not on what the array happens to hold. -/
structure LoadClean (host : Host) (d : DataManager) (filename : CString) : Prop where
  unchanged : ∀ junk ret d', loadValues host junk d filename = some (ret, d') → ret ≠ 0 →
    ∀ n, n ∉ folderNames → d'.mValues[n]? = d.mValues[n]?
  fromFile : ∃ out, ∀ junk, loadValues host junk d filename = some out
  ends : ∀ bytes, d.files filename = some bytes → 4 * (fileRecords bytes).1.length ≤ bytes.length

/-- The records before the end tell the variables what they already are. -/
def Repeats (d : DataManager) (reads : List (CString × CString)) : Prop :=
  ∀ n v, lastRead reads n = some v → n ∉ folderNames → d.mValues[n]? = some ⟨v, 1⟩

theorem setBackupFolder_elsewhere (host : Host) (d : DataManager) {n : CString} (hn : n ∉ folderNames) :
    (setBackupFolder host d (getCurrentStoragePath d)).mValues[n]? = d.mValues[n]? :=
  (touches_folderNames host d _).other n hn

section Clean
variable {host : Host} {d : DataManager} {filename : CString} {bytes : List UInt8}

/-- A load that depends on the file alone finds every terminator there. -/
theorem LoadClean.terminated (h : LoadClean host d filename) (hfile : d.files filename = some bytes) :
    AllTerminated (fileRecords bytes) := by
  by_contra hno
  obtain ⟨out, hout⟩ := h.fromFile
  cases (loadValues_full host hfile hno).symm.trans (hout fullJunk)

/-- A load that fails and changes nothing has read nothing new. -/
theorem LoadClean.repeats (h : LoadClean host d filename) (hfile : d.files filename = some bytes)
    (hret : (fileRecords bytes).2.ret ≠ 0) : Repeats d ((fileRecords bytes).1.map own) := by
  intro n v hv hn
  have hload := loadValues_terminated host hfile fullJunk (h.terminated hfile)
  have hsame := h.unchanged fullJunk _ _ hload hret n hn
  rw [setBackupFolder_elsewhere host _ hn] at hsame
  have hget := insertAll_get d.mValues ((fileRecords bytes).1.map own) n
  rw [hv] at hget
  exact hsame.symm.trans hget

/-- **Loading any file.** A load is clean exactly when every string it reads has its
terminator in the file, and the file ends after its last record or its complete records
repeat what the variables hold. -/
theorem load_clean_iff (hfile : d.files filename = some bytes) :
    LoadClean host d filename ↔ AllTerminated (fileRecords bytes) ∧
      ((fileRecords bytes).2.ret = 0 ∨ Repeats d ((fileRecords bytes).1.map own)) := by
  constructor
  · intro h
    refine ⟨h.terminated hfile, ?_⟩
    by_cases hret : (fileRecords bytes).2.ret = 0
    · exact .inl hret
    · exact .inr (h.repeats hfile hret)
  · rintro ⟨hterminated, hend⟩
    refine ⟨fun junk ret d' hload hret n hn => ?_, ⟨_, fun junk => loadValues_terminated host hfile junk hterminated⟩,
      fun bytes' _ => fileRecords_length bytes'⟩
    rw [loadValues_terminated host hfile junk hterminated] at hload
    cases hload
    have hrepeats := hend.resolve_left hret
    rw [setBackupFolder_elsewhere host _ hn]
    show (insertAll d.mValues ((fileRecords bytes).1.map own))[n]? = _
    rw [insertAll_get]
    cases hv : lastRead ((fileRecords bytes).1.map own) n with
    | none => rfl
    | some v => exact (hrepeats n v hv hn).symm

end Clean

/-- The defaults, with a settings file whose last record is cut off after one byte. -/
def brokenFile : List UInt8 := le32 fileVersion ++ record ("tw_zip_location", ⟨"/x", 1⟩) ++ [5]

def brokenSettings : DataManager := {defaults with files := fun _ => some brokenFile}

-- Stated for any settings, so that the defaults are not evaluated.
theorem mValues_withFiles (d : DataManager) (files : CString → Option (List UInt8)) :
    ({d with files := files} : DataManager).mValues = d.mValues := rfl

theorem brokenSettings_mValues : brokenSettings.mValues = defaults.mValues := mValues_withFiles defaults _

theorem fileRecords_broken :
    fileRecords brokenFile = ([((CString.ofString "tw_zip_location").bytes ++ [0], [47, 120, 0])], .broken) := by
  have hlong : ¬brokenFile.length < 4 := by decide
  have hversion : ¬fromLe (brokenFile.take 4) ≠ fileVersion := by decide
  have hsize : brokenFile.length < 2147483648 := by decide
  rw [fileRecords, if_neg hlong, if_neg hversion, if_pos hsize]
  rw [cut_whole (by decide) (show front _ = .whole ((CString.ofString "tw_zip_location").bytes ++ [0],
    [47, 120, 0]) [5] by decide), cut_broken (by decide) (by decide)]

theorem load_clean_broken :
    brokenSettings.files settingsFile = some brokenFile ∧
      (LoadClean openHost brokenSettings settingsFile ↔ AllTerminated (fileRecords brokenFile) ∧
        ((fileRecords brokenFile).2.ret = 0 ∨ Repeats brokenSettings ((fileRecords brokenFile).1.map own))) :=
  ⟨rfl, load_clean_iff rfl⟩

/-- A record whose name has no terminator. -/
def openFile : List UInt8 := le32 fileVersion ++ [1, 0, 97, 2, 0, 98, 0]

theorem fileRecords_open : fileRecords openFile = ([([97], [98, 0])], .clean) := by
  have hlong : ¬openFile.length < 4 := by decide
  have hversion : ¬fromLe (openFile.take 4) ≠ fileVersion := by decide
  have hsize : openFile.length < 2147483648 := by decide
  rw [fileRecords, if_neg hlong, if_neg hversion, if_pos hsize]
  rw [cut_whole (by decide) (show front _ = .whole ([97], [98, 0]) [] by decide), cut_nil]

/-- The record before the one that is cut off stays, and a name without a terminator is
whatever the array holds. -/
theorem load_not_clean :
    ¬LoadClean openHost brokenSettings settingsFile ∧
      ¬LoadClean openHost {defaults with files := fun _ => some openFile} settingsFile := by
  constructor
  · intro h
    have hrepeats := h.repeats (show brokenSettings.files settingsFile = some brokenFile from rfl)
    rw [fileRecords_broken] at hrepeats
    have hlast : lastRead [own ((CString.ofString "tw_zip_location").bytes ++ [0], [47, 120, 0])]
        (CString.ofString "tw_zip_location") = some "/x" := by
      decide
    have hsame := hrepeats (by decide) _ _ hlast (by decide)
    rw [brokenSettings_mValues, defaults_zipLocation.1] at hsame
    exact absurd hsame (by decide)
  · intro h
    have hterminated := (h.terminated (show _ = some openFile from rfl)).1
    rw [fileRecords_open] at hterminated
    exact absurd (hterminated _ List.mem_cons_self).1 (by decide)

end Twrp.Settings
