import Twrp.Settings.Defaults

/-! The settings file: written by `SaveValues`, read back by `LoadValues`.

Both frame a string with a 16-bit count of its terminated bytes. The writer puts no
limit on a string and lets the count wrap; the reader gives up at a count of 512,
and reads into an array of 512 bytes that nothing clears. A wrapped count below 512
therefore leaves the reader with the front of a string and no terminator.

`loadLoop_records` says what the reader makes of the records of any list of
entries. `roundTrip_iff` below is the exact condition under which a saved map comes
back. -/
namespace Twrp.Settings
open Base

/-! ### Reading the file -/

/-- The contents of `array` where the reader declares it, by position in the file. -/
structure Junk where
  array : Nat → List UInt8
  size : ∀ n, (array n).length = 512

/-- How reading a string ends: `goto error`, a string assigned from an array that
holds no terminator, or a string with the array and the file after it. -/
inductive Read where
  | error
  | undefined
  | ok (s : CString) (array rest : List UInt8)

def readString (array rest : List UInt8) : Read :=
  if rest.length < 2 then .error
  else
    let length := fromLe (rest.take 2)
    let rest := rest.drop 2
    if length ≥ 512 then .error
    else if rest.length < length then .error
    else
      let array := rest.take length ++ array.drop length
      match CString.scan array with
      | none => .undefined
      | some s => .ok s array (rest.drop length)

theorem readString_shorter {array rest array' rest' : List UInt8} {s : CString}
    (h : readString array rest = .ok s array' rest') : rest'.length < rest.length := by
  unfold readString at h
  split_ifs at h with hshort
  dsimp only at h
  split_ifs at h
  split at h
  · cases h
  · cases h
    simp only [List.length_drop]
    omega

/-- The loop of `LoadValues`: `none` when a string has no defined value, else the
value of `ret` and the map. -/
def loadLoop (junk : Junk) (fileSize : Int) (values : Std.TreeMap CString Var) (position : Nat)
    (rest : List UInt8) : Option (Int × Std.TreeMap CString Var) :=
  if (position : Int) < fileSize then
    match _hname : readString (junk.array position) rest with
    | .error => some (1, values)
    | .undefined => none
    | .ok name array rest₁ =>
      match _hvalue : readString array rest₁ with
      | .error => some (1, values)
      | .undefined => none
      | .ok value _ rest₂ =>
        -- an entry that exists takes the value and the mark, another is inserted with them
        loadLoop junk fileSize (values.insert name ⟨value, 1⟩) (position + (rest.length - rest₂.length)) rest₂
  else some (0, values)
termination_by rest.length
decreasing_by exact (readString_shorter _hvalue).trans (readString_shorter _hname)

/-- The end of a file as `ftell` gives it in a 32-bit `long`. -/
def ftell (size : Nat) : Int := if size < 2147483648 then size else -1

/-- `LoadValues`; `none` when the source reads a string that has no defined value. -/
def loadValues (host : Host) (junk : Junk) (d : DataManager) (filename : CString) : Option (Int × DataManager) :=
  let d := if d.mBackingFile = "" then {d with mBackingFile := filename} else d
  match d.files filename with
  | none => some (-1, d)
  | some bytes =>
    let finish : Int × Std.TreeMap CString Var → Int × DataManager := fun (ret, values) =>
      let d := {d with mValues := values}
      (ret, setBackupFolder host d (getCurrentStoragePath d))
    if bytes.length < 4 then some (finish (1, d.mValues))
    else if fromLe (bytes.take 4) ≠ fileVersion then some (finish (1, d.mValues))
    else (loadLoop junk (ftell bytes.length) d.mValues 4 (bytes.drop 4)).map finish

/-! ### One string -/

/-- What reading a framed string gives: the limit of the reader is met by the count,
and a string that fits its count comes back as it was. -/
theorem readString_frame (array rest : List UInt8) (s : CString) (harray : array.length = 512) :
    (512 ≤ (s.length + 1) % 65536 ∧ readString array (frame s ++ rest) = .error) ∨
      ((s.length + 1) % 65536 < 512 ∧
        ((510 < s.length ∧ readString array (frame s ++ rest) = .undefined) ∨
          ∃ t array', readString array (frame s ++ rest) = .ok t array' rest ∧ array'.length = 512 ∧
            t.length ≤ 511 ∧ (s.length ≤ 510 → t = s))) := by
  set n := (s.length + 1) % 65536 with hn
  have hbody : ((s.bytes ++ [0]).take n).length = n := by
    rw [List.length_take, List.length_append]
    have : n ≤ s.length + 1 := Nat.mod_le ..
    unfold CString.length at this
    simpa using this
  have hcount : fromLe ((frame s ++ rest).take 2) = n := by
    show fromLe (le16 n) = n
    rw [fromLe_le16]
    omega
  have hdrop : (frame s ++ rest).drop 2 = (s.bytes ++ [0]).take n ++ rest := rfl
  have hlen : ¬(frame s ++ rest).length < 2 := by
    show ¬(le16 n ++ (s.bytes ++ [0]).take n ++ rest).length < 2
    simp only [List.length_append, le16_length]
    omega
  unfold readString
  rw [if_neg hlen]
  dsimp only
  rw [hcount, hdrop]
  by_cases hbig : n ≥ 512
  · exact .inl ⟨hbig, if_pos hbig⟩
  · refine .inr ⟨by omega, ?_⟩
    rw [if_neg hbig, if_neg (by rw [List.length_append, hbody]; omega), List.take_left' hbody,
      List.drop_left' hbody]
    have hsize : ((s.bytes ++ [0]).take n ++ array.drop n).length = 512 := by
      rw [List.length_append, hbody, List.length_drop]
      omega
    have hshort : s.length ≤ 510 →
        (s.bytes ++ [0]).take n ++ array.drop n = s.bytes ++ 0 :: array.drop n := by
      intro hs
      have hall : n = (s.bytes ++ [0]).length := by
        rw [List.length_append]
        unfold CString.length at *
        simp only [List.length_cons, List.length_nil]
        omega
      rw [hall, List.take_length, List.append_assoc]
      rfl
    cases hscan : CString.scan ((s.bytes ++ [0]).take n ++ array.drop n) with
    | none =>
      refine .inl ⟨?_, rfl⟩
      by_contra hs
      rw [hshort (by omega), CString.scan_terminated] at hscan
      cases hscan
    | some t =>
      refine .inr ⟨t, _, rfl, hsize, ?_, fun hs => ?_⟩
      · have := CString.scan_length hscan
        omega
      · rw [hshort hs, CString.scan_terminated] at hscan
        cases hscan
        rfl

/-! ### The records -/

/-- One turn of the loop that reads both strings. -/
theorem loadLoop_ok {junk : Junk} {fileSize : Int} {values : Std.TreeMap CString Var} {position : Nat}
    {rest rest₁ rest₂ array array' : List UInt8} {name value : CString} (hlt : (position : Int) < fileSize)
    (hname : readString (junk.array position) rest = .ok name array rest₁)
    (hvalue : readString array rest₁ = .ok value array' rest₂) :
    loadLoop junk fileSize values position rest =
      loadLoop junk fileSize (values.insert name ⟨value, 1⟩) (position + (rest.length - rest₂.length)) rest₂ := by
  rw [loadLoop, if_pos hlt]
  split
  · rename_i h
    cases hname.symm.trans h
  · rename_i h
    cases hname.symm.trans h
  · rename_i h
    cases hname.symm.trans h
    split
    · rename_i h'
      cases hvalue.symm.trans h'
    · rename_i h'
      cases hvalue.symm.trans h'
    · rename_i h'
      cases hvalue.symm.trans h'
      rfl

/-- A run that ends with 0 reads both strings of the turn it is at. -/
theorem loadLoop_zero {junk : Junk} {fileSize : Int} {values m : Std.TreeMap CString Var} {position : Nat}
    {rest : List UInt8} (hlt : (position : Int) < fileSize)
    (h : loadLoop junk fileSize values position rest = some ((0 : Int), m)) :
    ∃ name array rest₁ value array' rest₂, readString (junk.array position) rest = .ok name array rest₁ ∧
      readString array rest₁ = .ok value array' rest₂ := by
  rw [loadLoop, if_pos hlt] at h
  split at h
  · cases h
  · cases h
  · rename_i hname
    split at h
    · cases h
    · cases h
    · rename_i hvalue
      exact ⟨_, _, _, _, _, _, hname, hvalue⟩


/-- The lengths at which an entry survives the file. -/
def Short (e : CString × Var) : Prop := e.1.length ≤ 510 ∧ e.2.value.length ≤ 510

/-- What the reader may make of an entry. -/
structure ReadsAs (e : CString × Var) (r : CString × CString) : Prop where
  name : r.1.length ≤ 511
  value : r.2.length ≤ 511
  exactName : e.1.length ≤ 510 → r.1 = e.1
  exactValue : e.2.value.length ≤ 510 → r.2 = e.2.value
  /-- lengths the reader does not refuse -/
  counts : (e.1.length + 1) % 65536 < 512 ∧ (e.2.value.length + 1) % 65536 < 512

/-- Reading strings into the map, one after the other. -/
def insertAll (values : Std.TreeMap CString Var) (reads : List (CString × CString)) : Std.TreeMap CString Var :=
  reads.foldl (fun m r => m.insert r.1 ⟨r.2, 1⟩) values

theorem frame_length (s : CString) : (frame s).length ≤ 65537 := by
  show (le16 _ ++ (s.bytes ++ [0]).take _).length ≤ 65537
  rw [List.length_append, le16_length, List.length_take]
  have : (s.length + 1) % 65536 < 65536 := Nat.mod_lt _ (by decide)
  omega

theorem frame_pos (s : CString) : 2 ≤ (frame s).length := by
  show 2 ≤ (le16 _ ++ (s.bytes ++ [0]).take _).length
  rw [List.length_append, le16_length]
  omega

/-- The reader over the records of `entries`: when it ends with 0 it has read every
one of them, as far as the lengths allow; when they are all short it ends with 0. -/
theorem loadLoop_records (junk : Junk) (entries : List (CString × Var)) (values : Std.TreeMap CString Var)
    (position : Nat) :
    (∀ m, loadLoop junk (position + (entries.flatMap record).length : Nat) values position
        (entries.flatMap record) = some (0, m) →
      ∃ reads, List.Forall₂ ReadsAs entries reads ∧ m = insertAll values reads) ∧
    ((∀ e ∈ entries, Short e) →
      ∃ m, loadLoop junk (position + (entries.flatMap record).length : Nat) values position
        (entries.flatMap record) = some (0, m)) := by
  induction entries generalizing values position with
  | nil =>
    have hend : loadLoop junk (position + (List.flatMap record []).length : Nat) values position
        (List.flatMap record []) = some (0, values) := by
      rw [loadLoop, if_neg (by simp)]
    refine ⟨fun m hm => ⟨[], .nil, ?_⟩, fun _ => ⟨values, hend⟩⟩
    rw [hend] at hm
    cases hm
    rfl
  | cons e entries ih =>
    have hrec : (List.flatMap record (e :: entries)) = frame e.1 ++ (frame e.2.value ++ entries.flatMap record) := by
      rw [List.flatMap_cons, record, List.append_assoc]
    have hpos := frame_pos e.1
    have hlt : (position : Int) < ((position + (List.flatMap record (e :: entries)).length : Nat) : Int) := by
      rw [hrec, List.length_append]
      omega
    have hstep : position + (List.flatMap record (e :: entries)).length =
        position + ((List.flatMap record (e :: entries)).length - (entries.flatMap record).length) +
          (entries.flatMap record).length := by
      rw [hrec, List.length_append, List.length_append]
      omega
    have hname := readString_frame (junk.array position) (frame e.2.value ++ entries.flatMap record) e.1
      (junk.size position)
    rw [← hrec] at hname
    constructor
    · intro m hm
      obtain ⟨name, array, rest₁, value, array', rest₂, hn, hv⟩ := loadLoop_zero hlt hm
      obtain ⟨_, herr⟩ | ⟨hcount, ⟨_, hundef⟩ | ⟨t, a, ht, ha, hlen, hexact⟩⟩ := hname
      · cases hn.symm.trans herr
      · cases hn.symm.trans hundef
      cases hn.symm.trans ht
      obtain ⟨_, herr⟩ | ⟨hcount', ⟨_, hundef⟩ | ⟨t', a', ht', _, hlen', hexact'⟩⟩ :=
        readString_frame array (entries.flatMap record) e.2.value ha
      · cases hv.symm.trans herr
      · cases hv.symm.trans hundef
      cases hv.symm.trans ht'
      rw [loadLoop_ok hlt hn hv, hstep] at hm
      obtain ⟨reads, hreads, rfl⟩ := (ih _ _).1 m hm
      exact ⟨(name, value) :: reads, .cons ⟨hlen, hlen', hexact, hexact', hcount, hcount'⟩ hreads, rfl⟩
    · intro hshort
      have he := hshort e (List.mem_cons_self ..)
      obtain ⟨hbig, _⟩ | ⟨_, ⟨hlong, _⟩ | ⟨t, a, ht, ha, _, _⟩⟩ := hname
      · have := he.1
        omega
      · exact absurd he.1 (by omega)
      obtain ⟨hbig, _⟩ | ⟨_, ⟨hlong, _⟩ | ⟨t', a', ht', _, _, _⟩⟩ :=
        readString_frame a (entries.flatMap record) e.2.value ha
      · have := he.2
        omega
      · exact absurd he.2 (by omega)
      rw [loadLoop_ok hlt ht ht', hstep]
      exact (ih _ _).2 fun e' he' => hshort e' (List.mem_cons_of_mem e he')

/-! ### The map after the records -/

theorem insertAll_other (values : Std.TreeMap CString Var) (reads : List (CString × CString)) {n : CString}
    (hn : n ∉ reads.map (·.1)) : (insertAll values reads)[n]? = values[n]? := by
  induction reads generalizing values with
  | nil => rfl
  | cons r reads ih =>
    simp only [List.map_cons, List.mem_cons, not_or] at hn
    have hne : r.1 ≠ n := fun h => hn.1 h.symm
    show (insertAll (values.insert r.1 ⟨r.2, 1⟩) reads)[n]? = _
    rw [ih _ hn.2, Std.TreeMap.getElem?_insert, if_neg (by simpa using hne)]

/-- A name that is read holds one of the values read under it. -/
theorem insertAll_mem (values : Std.TreeMap CString Var) (reads : List (CString × CString)) {n : CString}
    (hn : n ∈ reads.map (·.1)) : ∃ w, (n, w) ∈ reads ∧ (insertAll values reads)[n]? = some ⟨w, 1⟩ := by
  induction reads generalizing values with
  | nil => cases hn
  | cons r reads ih =>
    by_cases hrest : n ∈ reads.map (·.1)
    · obtain ⟨w, hw, heq⟩ := ih (values.insert r.1 ⟨r.2, 1⟩) hrest
      exact ⟨w, List.mem_cons_of_mem r hw, heq⟩
    · have hhead : n = r.1 := by
        simp only [List.map_cons, List.mem_cons] at hn
        exact hn.resolve_right hrest
      refine ⟨r.2, by simp [hhead], ?_⟩
      show (insertAll (values.insert r.1 ⟨r.2, 1⟩) reads)[n]? = _
      rw [insertAll_other _ reads hrest, hhead, Std.TreeMap.getElem?_insert_self]

/-! ### The folders set after every load -/

/-- The two folder variables, with the part of the path that is theirs. -/
def folderVars : List (CString × CString) :=
  [("tw_backups_folder", "/TWRP/BACKUPS/"), ("tw_sdbackups_folder", "/TWRP/NativeSD-BACKUPS/")]

/-- The folder `SetBackupFolder` computes for the current storage. -/
def folderValue (d : DataManager) (part : CString) : CString :=
  getCurrentStoragePath d ++ part ++ getStrValue d "tw_device_id"

theorem folderVars_spec : ∀ f ∈ folderVars, badName f.1 = false ∧ f.1 ≠ "tw_time_zone_guidst" ∧ f.1 ∈ sideNames ∧
    f.2.length ≤ 255 := by
  decide

theorem setBackupFolder_eq (host : Host) (d : DataManager) (hconst : ∀ f ∈ folderVars, d.mConstValues[f.1]? = none) :
    (setBackupFolder host d (getCurrentStoragePath d)).mValues =
      assign (assign d.mValues "tw_backups_folder" (folderValue d "/TWRP/BACKUPS/") 0)
        "tw_sdbackups_folder" (folderValue d "/TWRP/NativeSD-BACKUPS/") 0 := by
  have hpath : (if getCurrentStoragePath d = "" then getCurrentStoragePath d else getCurrentStoragePath d) =
      getCurrentStoragePath d := ite_self _
  have hset : ∀ f ∈ folderVars, ∀ d' : DataManager, d'.mConstValues = d.mConstValues → ∀ value,
      (setValue host d' f.1 value 0).2.mValues = assign d'.mValues f.1 value 0 := by
    intro f hf d' hd' value
    have hspec := folderVars_spec f hf
    rw [setValue_eq_storeValue host d' value 0 hspec.2.1]
    exact (storeValue_eq host d' f.1 value 0 hspec.1 (hd' ▸ hconst f hf)).2
  unfold setBackupFolder
  dsimp only
  rw [hpath]
  have hfirst := hset _ (List.mem_cons_self ..) d rfl (folderValue d "/TWRP/BACKUPS/")
  have hsecond := hset _ (List.mem_cons_of_mem _ (List.mem_cons_self ..))
    (setValue host d "tw_backups_folder" (folderValue d "/TWRP/BACKUPS/") 0).2
    (touches_set host d "tw_backups_folder" _ 0).consts (folderValue d "/TWRP/NativeSD-BACKUPS/")
  refine Eq.trans hsecond ?_
  rw [hfirst]

theorem setBackupFolder_other (host : Host) (d : DataManager) (hconst : ∀ f ∈ folderVars, d.mConstValues[f.1]? = none)
    {n : CString} (hn : n ∉ folderVars.map (·.1)) :
    (setBackupFolder host d (getCurrentStoragePath d)).mValues[n]? = d.mValues[n]? := by
  simp only [folderVars, List.map_cons, List.map_nil, List.mem_cons, List.not_mem_nil, or_false, not_or] at hn
  rw [setBackupFolder_eq host d hconst, assign_other _ _ _ fun h => hn.2 h.symm,
    assign_other _ _ _ fun h => hn.1 h.symm]

/-- A folder variable takes the computed folder and keeps its mark. -/
theorem setBackupFolder_folder (host : Host) (d : DataManager)
    (hconst : ∀ f ∈ folderVars, d.mConstValues[f.1]? = none) {f : CString × CString} (hf : f ∈ folderVars) {v : Var}
    (hv : d.mValues[f.1]? = some v) :
    (setBackupFolder host d (getCurrentStoragePath d)).mValues[f.1]? = some ⟨folderValue d f.2, v.persist⟩ := by
  rw [setBackupFolder_eq host d hconst]
  simp only [folderVars, List.mem_cons, List.not_mem_nil, or_false] at hf
  obtain rfl | rfl := hf
  · rw [assign_other _ _ _ (by decide)]
    exact assign_existing _ _ _ hv
  · refine assign_existing _ _ _ ?_
    rw [assign_other _ _ _ (by decide)]
    exact hv

/-! ### The round trip -/

/-- A manager that has read the map `m` from `filename`, before it sets the folders. -/
def withRead (d : DataManager) (filename : CString) (m : Std.TreeMap CString Var) : DataManager :=
  {d with mValues := m, mBackingFile := filename}

theorem fileBytes_length (m : Std.TreeMap CString Var) :
    (fileBytes m).length = 4 + ((persisted m).flatMap record).length := by
  unfold fileBytes
  rw [List.length_append, le32_length]

/-- Loading a saved file is the loop over its records, then the folders. -/
theorem loadValues_saved (host : Host) (junk : Junk) (d : DataManager) {filename : CString}
    {m : Std.TreeMap CString Var} (hback : d.mBackingFile = "")
    (hfile : d.files filename = some (fileBytes m)) :
    loadValues host junk d filename =
      (loadLoop junk (ftell (fileBytes m).length) d.mValues 4 ((persisted m).flatMap record)).map fun r =>
        (r.1, setBackupFolder host (withRead d filename r.2)
          (getCurrentStoragePath (withRead d filename r.2))) := by
  have hversion : fromLe ((fileBytes m).take 4) = fileVersion := by
    show fromLe (le32 fileVersion) = fileVersion
    decide
  have hlen := fileBytes_length m
  unfold loadValues
  rw [if_pos hback]
  dsimp only
  rw [hfile]
  dsimp only
  rw [if_neg (by omega), if_neg (by simp [hversion])]
  rfl

theorem mem_persisted {m : Std.TreeMap CString Var} {n : CString} {v : Var} :
    (n, v) ∈ persisted m ↔ m[n]? = some v ∧ v.persist ≠ 0 := by
  simp [persisted, Std.TreeMap.mem_toList_iff_getElem?_eq_some]

theorem persisted_nodup (m : Std.TreeMap CString Var) : ((persisted m).map (·.1)).Nodup := by
  have hkeys : m.toList.Pairwise fun e e' => e.1 ≠ e'.1 :=
    Std.TreeMap.distinct_keys_toList.imp fun h heq => h (Std.compare_eq_iff_eq.mpr heq)
  exact List.pairwise_map.mpr (hkeys.sublist List.filter_sublist)

section RoundTrip
variable (b : Build) (host : Host) (d d' : DataManager)

/-- The map `d` was saved into the files of `d'`: a fresh manager reads back every
persisted variable, whatever its array holds, and the others leave no trace in the
file. -/
structure RoundTrip : Prop where
  loads : ∀ junk, ∃ t, loadValues host junk (fresh b host d'.files) d.mBackingFile = some (0, t) ∧
    ∀ (n : CString) (v : Var), d.mValues[n]? = some v → v.persist ≠ 0 → t.mValues[n]? = some ⟨v.value, 1⟩
  unwritten : fileBytes d.mValues = fileBytes (d.mValues.filter fun _ v => v.persist != 0)

/-- The variables of a fresh manager with the persisted ones of `d` over them. -/
def restored : DataManager :=
  withRead (fresh b host d'.files) d.mBackingFile
    (insertAll (fresh b host d'.files).mValues ((persisted d.mValues).map fun e => (e.1, e.2.value)))

/-- The condition: every persisted name and value has at most 510 bytes, the file
has less than 2^31, and a persisted folder variable already holds the folder of the
storage that the restored variables select. -/
structure Lossless : Prop where
  short : ∀ e ∈ persisted d.mValues, Short e
  size : (fileBytes d.mValues).length < 2147483648
  folders : ∀ f ∈ folderVars, ∀ v : Var, d.mValues[f.1]? = some v → v.persist ≠ 0 →
    v.value = folderValue (restored b host d d') f.2

end RoundTrip

theorem saveValues_zero {host : Host} {d d' : DataManager} (h : saveValues host d = (0, d')) :
    d'.files d.mBackingFile = some (fileBytes d.mValues) := by
  unfold saveValues at h
  split_ifs at h
  · cases h
  · cases h
  · cases h
  · cases h
    exact Function.update_self ..

theorem persisted_filter (m : Std.TreeMap CString Var) :
    persisted (m.filter fun _ v => v.persist != 0) = persisted m := by
  unfold persisted
  rw [Std.TreeMap.toList_filter, List.filter_filter]
  simp

theorem reads_exact {entries : List (CString × Var)} {reads : List (CString × CString)}
    (h : List.Forall₂ ReadsAs entries reads) (hshort : ∀ e ∈ entries, Short e) :
    reads = entries.map fun e => (e.1, e.2.value) := by
  induction h with
  | nil => rfl
  | cons hr _ ih =>
    obtain ⟨hname, hvalue⟩ := hshort _ (List.mem_cons_self ..)
    rw [List.map_cons, ← hr.exactName hname, ← hr.exactValue hvalue,
      ih fun e he => hshort e (List.mem_cons_of_mem _ he)]

theorem reads_short {entries : List (CString × Var)} {reads : List (CString × CString)}
    (h : List.Forall₂ ReadsAs entries reads) : ∀ r ∈ reads, r.1.length ≤ 511 ∧ r.2.length ≤ 511 := by
  induction h with
  | nil => simp
  | cons hr _ ih => exact List.forall_mem_cons.mpr ⟨⟨hr.name, hr.value⟩, ih⟩

/-- Every entry was read as something, with the counts the reader accepts. -/
theorem reads_of_mem {entries : List (CString × Var)} {reads : List (CString × CString)}
    (h : List.Forall₂ ReadsAs entries reads) {e : CString × Var} (he : e ∈ entries) :
    ∃ r ∈ reads, ReadsAs e r := by
  induction h with
  | nil => cases he
  | cons hr _ ih =>
    obtain rfl | hrest := List.mem_cons.mp he
    · exact ⟨_, List.mem_cons_self .., hr⟩
    · obtain ⟨r, hmem, hread⟩ := ih hrest
      exact ⟨r, List.mem_cons_of_mem _ hmem, hread⟩

/-- The entries of the file, read back into a map that the fresh manager's is under. -/
theorem insertAll_persisted (m values : Std.TreeMap CString Var) {n : CString} {v : Var}
    (hv : m[n]? = some v) (hp : v.persist ≠ 0) :
    (insertAll values ((persisted m).map fun e => (e.1, e.2.value)))[n]? = some ⟨v.value, 1⟩ := by
  have hmem : (n, v) ∈ persisted m := mem_persisted.mpr ⟨hv, hp⟩
  obtain ⟨w, hw, heq⟩ := insertAll_mem values ((persisted m).map fun e => (e.1, e.2.value)) (n := n)
    (by simpa using ⟨v, hmem⟩)
  simp only [List.mem_map, Prod.mk.injEq] at hw
  obtain ⟨e, he, hname, rfl⟩ := hw
  have hsame : m[n]? = some e.2 := by
    rw [← hname]
    exact (mem_persisted.mp he).1
  rw [heq, Option.some.inj (hsame.symm.trans hv)]

theorem fresh_folderVars (b : Build) (host : Host) (files : CString → Option (List UInt8)) :
    ∀ f ∈ folderVars, (fresh b host files).mConstValues[f.1]? = none := by
  intro f hf
  refine fresh_folder b host files ?_
  simp only [folderVars, List.mem_cons, List.not_mem_nil, or_false] at hf
  obtain rfl | rfl := hf
  · exact .inl rfl
  · exact .inr rfl

/-- What a read map holds under a name that no setter brings along. -/
theorem insertAll_bounded {d : DataManager} (hd : Bounded d) {reads : List (CString × CString)}
    (hreads : ∀ r ∈ reads, r.1.length ≤ 511 ∧ r.2.length ≤ 511) {n : CString} (hn : n ∉ sideNames) {v : Var}
    (hv : (insertAll d.mValues reads)[n]? = some v) : v.value.length ≤ 511 := by
  by_cases hmem : n ∈ reads.map (·.1)
  · obtain ⟨w, hw, heq⟩ := insertAll_mem d.mValues reads hmem
    cases hv.symm.trans heq
    exact (hreads _ hw).2
  · rw [insertAll_other _ _ hmem] at hv
    exact (hd.values n v hn hv).trans (by decide)

/-- The folders computed from what was read stay far below the wrap of the count. -/
theorem folderValue_bounded {d : DataManager} (hd : Bounded d) {reads : List (CString × CString)}
    (hreads : ∀ r ∈ reads, r.1.length ≤ 511 ∧ r.2.length ≤ 511) (filename : CString)
    {f : CString × CString} (hf : f ∈ folderVars) :
    (folderValue (withRead d filename (insertAll d.mValues reads)) f.2).length ≤ 1277 := by
  have hstr : ∀ n : CString, n.bytes.head? ≠ some 37 → n ∉ sideNames →
      (getStrValue (withRead d filename (insertAll d.mValues reads)) n).length ≤ 511 := by
    intro n hn hside
    obtain hc | ⟨v, hv, heq⟩ | hempty := getStrValue_cases (withRead d filename (insertAll d.mValues reads)) hn
    · exact (hd.consts n _ hc).trans (by decide)
    · rw [heq]
      exact insertAll_bounded hd hreads hside hv
    · rw [hempty]
      decide
  have hpath : (getCurrentStoragePath (withRead d filename (insertAll d.mValues reads))).length ≤ 511 := by
    obtain heq | heq := getCurrentStoragePath_cases (withRead d filename (insertAll d.mValues reads))
    · rw [heq]
      exact hstr _ (by decide) (by decide)
    · rw [heq]
      exact hstr _ (by decide) (by decide)
  have hdev := hstr "tw_device_id" (by decide) (by decide)
  have hpart := (folderVars_spec f hf).2.2.2
  unfold folderValue
  simp only [CString.length, CString.bytes_append, List.length_append] at *
  omega

theorem flatMap_record_length (entries : List (CString × Var)) :
    (entries.flatMap record).length ≤ 131074 * entries.length := by
  induction entries with
  | nil => simp
  | cons e entries ih =>
    have hname := frame_length e.1
    have hvalue := frame_length e.2.value
    rw [List.flatMap_cons, List.length_append, record, List.length_append, List.length_cons]
    omega

section Exact
variable {b : Build} {host : Host} {d d' : DataManager}

/-- With short entries in a file of representable size, the reader ends with 0 and
the restored variables. -/
theorem loadValues_short (hsave : saveValues host d = (0, d')) (hshort : ∀ e ∈ persisted d.mValues, Short e)
    (hsize : (fileBytes d.mValues).length < 2147483648) (junk : Junk) :
    loadValues host junk (fresh b host d'.files) d.mBackingFile =
      some (0, setBackupFolder host (restored b host d d') (getCurrentStoragePath (restored b host d d'))) := by
  have hfile : (fresh b host d'.files).files d.mBackingFile = some (fileBytes d.mValues) := by
    rw [fresh_files]
    exact saveValues_zero hsave
  rw [loadValues_saved host junk _ (fresh_mBackingFile b host d'.files) hfile, ftell, if_pos hsize,
    fileBytes_length]
  obtain ⟨hreads, hends⟩ := loadLoop_records junk (persisted d.mValues) (fresh b host d'.files).mValues 4
  obtain ⟨m, hm⟩ := hends hshort
  obtain ⟨reads, hforall, hmap⟩ := hreads m hm
  rw [hm, hmap, reads_exact hforall hshort]
  rfl

theorem Lossless.roundTrip (h : Lossless b host d d') (hsave : saveValues host d = (0, d')) :
    RoundTrip b host d d' where
  loads junk := by
    refine ⟨_, loadValues_short hsave h.short h.size junk, fun n v hv hp => ?_⟩
    have hconst : ∀ f ∈ folderVars, (restored b host d d').mConstValues[f.1]? = none :=
      fresh_folderVars b host d'.files
    have hread : (restored b host d d').mValues[n]? = some ⟨v.value, 1⟩ :=
      insertAll_persisted d.mValues _ hv hp
    by_cases hn : n ∈ folderVars.map (·.1)
    · obtain ⟨f, hf, rfl⟩ := List.mem_map.mp hn
      rw [setBackupFolder_folder host _ hconst hf hread, h.folders f hf v hv hp]
    · rw [setBackupFolder_other host _ hconst hn, hread]
  unwritten := by
    unfold fileBytes
    rw [persisted_filter]

/-- A file too long for its size to be told holds more names than the defaults, so
some of them are not found again. -/
theorem RoundTrip.size (h : RoundTrip b host d d') (hsave : saveValues host d = (0, d')) :
    (fileBytes d.mValues).length < 2147483648 := by
  by_contra hbig
  obtain ⟨t, hload, hvalues⟩ := h.loads ⟨fun _ => List.replicate 512 0, fun _ => List.length_replicate⟩
  have hfile : (fresh b host d'.files).files d.mBackingFile = some (fileBytes d.mValues) := by
    rw [fresh_files]
    exact saveValues_zero hsave
  rw [loadValues_saved host _ _ (fresh_mBackingFile b host d'.files) hfile, ftell, if_neg hbig, loadLoop,
    if_neg (by decide)] at hload
  simp only [Option.map_some, Option.some.injEq, Prod.mk.injEq, true_and] at hload
  have hsub : (persisted d.mValues).map (·.1) ⊆ defaultNames ++ sideNames := by
    intro n hn
    obtain ⟨⟨_, v⟩, he, rfl⟩ := List.mem_map.mp hn
    have hfound := hvalues _ v (mem_persisted.mp he).1 (mem_persisted.mp he).2
    rw [← hload] at hfound
    have hmem := Std.TreeMap.mem_iff_isSome_getElem?.mpr (Option.isSome_of_eq_some hfound)
    obtain hside | hfresh := (touches_backupFolder host _ _).keys hmem
    · exact List.mem_append_right _ hside
    · exact fresh_keys b host d'.files hfresh
  have hcount := (List.subperm_of_subset (persisted_nodup d.mValues) hsub).length_le
  have hnames := defaultNames_spec.1
  have hside : sideNames.length = 4 := rfl
  have hbytes := flatMap_record_length (persisted d.mValues)
  rw [List.length_map, List.length_append] at hcount
  rw [fileBytes_length] at hbig
  omega

/-- A variable that comes back had a short name and a short value. -/
theorem RoundTrip.short (h : RoundTrip b host d d') (hsave : saveValues host d = (0, d')) :
    ∀ e ∈ persisted d.mValues, Short e := by
  obtain ⟨t, hload, hvalues⟩ := h.loads ⟨fun _ => List.replicate 512 0, fun _ => List.length_replicate⟩
  have hfile : (fresh b host d'.files).files d.mBackingFile = some (fileBytes d.mValues) := by
    rw [fresh_files]
    exact saveValues_zero hsave
  rw [loadValues_saved host _ _ (fresh_mBackingFile b host d'.files) hfile, ftell, if_pos (h.size hsave),
    fileBytes_length] at hload
  obtain ⟨⟨ret, m⟩, hloop, hret⟩ := Option.map_eq_some_iff.mp hload
  simp only [Prod.mk.injEq] at hret
  obtain ⟨rfl, ht⟩ := hret
  obtain ⟨reads, hforall, rfl⟩ := (loadLoop_records _ (persisted d.mValues) _ 4).1 m hloop
  have hshort := reads_short hforall
  rintro ⟨n, v⟩ he
  obtain ⟨r, hr, hread⟩ := reads_of_mem hforall he
  obtain ⟨hv, hp⟩ := mem_persisted.mp he
  have hfound := hvalues n v hv hp
  have hname : n.length ≤ 511 := by
    rw [← ht] at hfound
    have hmem := Std.TreeMap.mem_iff_isSome_getElem?.mpr (Option.isSome_of_eq_some hfound)
    obtain hside | hmem := (touches_backupFolder host _ _).keys hmem
    · exact (defaultNames_spec.2.1 n (List.mem_append_right _ hside)).trans (by decide)
    · by_cases hnr : n ∈ reads.map (·.1)
      · obtain ⟨r', hr', rfl⟩ := List.mem_map.mp hnr
        exact (hshort r' hr').1
      · rw [Std.TreeMap.mem_iff_isSome_getElem?] at hmem
        have hother := insertAll_other (fresh b host d'.files).mValues reads hnr
        have hfresh : n ∈ (fresh b host d'.files).mValues := by
          rw [Std.TreeMap.mem_iff_isSome_getElem?, ← hother]
          exact hmem
        exact (defaultNames_spec.2.1 n (fresh_keys b host d'.files hfresh)).trans (by decide)
  have hcounts := hread.counts
  have hname' : n.length ≤ 510 := by
    dsimp only at hcounts
    omega
  refine ⟨hname', ?_⟩
  -- the count of the value is below 512, so the value is short or its count has wrapped
  by_contra hlong
  have hvalue : v.value.length ≤ 1277 := by
    obtain ⟨w, hw, heq⟩ := insertAll_mem (fresh b host d'.files).mValues reads
      (List.mem_map.mpr ⟨r, hr, hread.exactName hname'⟩)
    have hconst : ∀ f ∈ folderVars,
        (withRead (fresh b host d'.files) d.mBackingFile
          (insertAll (fresh b host d'.files).mValues reads)).mConstValues[f.1]? = none :=
      fresh_folderVars b host d'.files
    rw [← ht] at hfound
    by_cases hn : n ∈ folderVars.map (·.1)
    · obtain ⟨f, hf, rfl⟩ := List.mem_map.mp hn
      have hset := (setBackupFolder_folder host _ hconst hf heq).symm.trans hfound
      rw [← (Var.mk.inj (Option.some.inj hset)).1]
      exact folderValue_bounded (fresh_bounded b host d'.files) hshort d.mBackingFile hf
    · have hset := (setBackupFolder_other host _ hconst hn).symm.trans hfound
      rw [← (Var.mk.inj (Option.some.inj (heq.symm.trans hset))).1]
      exact (hshort _ hw).2.trans (by decide)
  dsimp only at hcounts hlong
  omega

theorem RoundTrip.lossless (h : RoundTrip b host d d') (hsave : saveValues host d = (0, d')) :
    Lossless b host d d' where
  short := h.short hsave
  size := h.size hsave
  folders f hf v hv hp := by
    obtain ⟨t, hload, hvalues⟩ := h.loads ⟨fun _ => List.replicate 512 0, fun _ => List.length_replicate⟩
    rw [loadValues_short hsave (h.short hsave) (h.size hsave)] at hload
    simp only [Option.some.injEq, Prod.mk.injEq, true_and] at hload
    have hconst : ∀ f ∈ folderVars, (restored b host d d').mConstValues[f.1]? = none :=
      fresh_folderVars b host d'.files
    have hset := setBackupFolder_folder host (restored b host d d') hconst hf (insertAll_persisted d.mValues _ hv hp)
    rw [hload, hvalues f.1 v hv hp] at hset
    exact (Var.mk.inj (Option.some.inj hset)).1

/-- **The settings file.** What was saved comes back exactly when every persisted name
and value has at most 510 bytes, the size of the file can be told, and the folder
variables, if persisted, hold what the load sets them to. -/
theorem settings_roundTrip_iff (hsave : saveValues host d = (0, d')) :
    RoundTrip b host d d' ↔ Lossless b host d d' :=
  ⟨fun h => h.lossless hsave, fun h => h.roundTrip hsave⟩

end Exact

/-! ### A value of 511 bytes -/

/-- The managers that setting variables reaches from the defaults. -/
inductive Reachable (b : Build) (host : Host) : DataManager → Prop where
  | start (files : CString → Option (List UInt8)) (filename : CString) :
      Reachable b host {fresh b host files with mBackingFile := filename}
  | set {d : DataManager} (varName value : CString) (persist : Int) :
      Reachable b host d → Reachable b host (setValue host d varName value persist).2
  | setInt {d : DataManager} (varName : CString) (value persist : Int) :
      Reachable b host d → Reachable b host (setIntValue host d varName value persist).2

/-- Storage that mounts, files that open. -/
def openHost : Host := ⟨fun _ => true, fun _ => true⟩

def settingsFile : CString := "/sdcard/TWRP/.twrps"

theorem saveValues_openHost (d : DataManager) (h : d.mBackingFile = settingsFile) :
    saveValues openHost d = (0, (saveValues openHost d).2) := by
  have hne : d.mBackingFile ≠ "" := by
    rw [h]
    decide
  unfold saveValues
  rw [if_neg hne, if_neg (by simp [openHost]), if_neg (by simp [openHost])]

/-- The defaults of a build with no switch set, about to be saved. -/
def defaults : DataManager :=
  {fresh plainBuild openHost (fun _ => none) with mBackingFile := settingsFile}

theorem settings_roundTrip_defaults :
    saveValues openHost defaults = (0, (saveValues openHost defaults).2) ∧
      (RoundTrip plainBuild openHost defaults (saveValues openHost defaults).2 ↔
        Lossless plainBuild openHost defaults (saveValues openHost defaults).2) :=
  ⟨saveValues_openHost defaults rfl, settings_roundTrip_iff (saveValues_openHost defaults rfl)⟩

theorem defaults_zipLocation : defaults.mValues[CString.ofString "tw_zip_location"]? = some ⟨"/sdcard", 1⟩ ∧
    defaults.mConstValues[CString.ofString "tw_zip_location"]? = none := by
  decide +kernel

/-- A zip folder whose path has 511 bytes. -/
def longPath : CString := CString.ofBytes (List.replicate 511 97)

def longSettings : DataManager := (setValue openHost defaults "tw_zip_location" longPath 1).2

theorem settings_roundTrip_long_path :
    Reachable plainBuild openHost longSettings ∧
      saveValues openHost longSettings = (0, (saveValues openHost longSettings).2) ∧
      ¬RoundTrip plainBuild openHost longSettings (saveValues openHost longSettings).2 := by
  have hback : longSettings.mBackingFile = defaults.mBackingFile := by
    unfold longSettings
    exact (touches_set openHost defaults "tw_zip_location" longPath 1).backing
  have hsave := saveValues_openHost longSettings (hback.trans rfl)
  refine ⟨.set _ _ _ (.start (fun _ => none) settingsFile), hsave, fun h => ?_⟩
  have hstored : longSettings.mValues[CString.ofString "tw_zip_location"]? = some ⟨longPath, 1⟩ := by
    unfold longSettings
    rw [setValue_eq_storeValue openHost defaults longPath 1 (by decide),
      (storeValue_eq openHost defaults _ longPath 1 (by decide) defaults_zipLocation.2).2]
    exact assign_existing _ _ _ defaults_zipLocation.1
  have hshort := h.short hsave _ (mem_persisted.mpr ⟨hstored, by decide⟩)
  exact absurd hshort.2 (by decide +kernel)

end Twrp.Settings
