import Twrp.Base.CString

/-! The variables of the recovery and how they are set and written.

`DataManager` holds two maps: the constants, which only the defaults write, and
the variables, each with its value and its persist mark. Setting a variable that
carries the mark writes the whole settings file again. The state here is the one
after `SetDefaultValues`: every entry point of the source runs it first when the
manager is not initialized yet. -/
namespace Twrp.Settings
open Base

/-- `TStrIntPair`: a value and its persist mark. -/
structure Var where
  value : CString
  persist : Int
deriving DecidableEq

structure DataManager where
  mValues : Std.TreeMap CString Var
  mConstValues : Std.TreeMap CString CString
  mBackingFile : CString
  /-- the files the settings are written to and read from -/
  files : CString → Option (List UInt8)

/-- What the manager asks of the system: whether a storage path is mounted once the
manager has tried to mount it, and whether a file opens for writing. -/
structure Host where
  mounted : CString → Bool
  opens : CString → Bool

/-! ### Reading -/

/-- A name written `%name%` stands for `name`. -/
def stripPercent (varName : CString) : CString :=
  if varName.length > 2 ∧ varName.bytes.head? = some 37 ∧ varName.bytes.getLast? = some 37 then
    ⟨varName.bytes.tail.dropLast, fun h => varName.noNul (List.mem_of_mem_tail (List.mem_of_mem_dropLast h))⟩
  else varName

/-- Constants hide variables of the same name. -/
def getValue (d : DataManager) (varName : CString) : Option CString :=
  let localStr := stripPercent varName
  match d.mConstValues[localStr]? with
  | some value => some value
  | none => d.mValues[localStr]?.map Var.value

def getStrValue (d : DataManager) (varName : CString) : CString :=
  (getValue d varName).getD ""

def getIntValue (d : DataManager) (varName : CString) : Int :=
  (getStrValue d varName).atoi

def getCurrentStoragePath (d : DataManager) : CString :=
  if getIntValue d "tw_has_dual_storage" = 1 then
    if getIntValue d "tw_use_external_storage" = 0 then getStrValue d "tw_internal_path"
    else getStrValue d "tw_external_path"
  else if getIntValue d "tw_has_internal" = 1 then getStrValue d "tw_internal_path"
  else getStrValue d "tw_external_path"

def getSettingsStoragePath (d : DataManager) : CString :=
  if getIntValue d "tw_has_internal" = 1 then getStrValue d "tw_internal_path"
  else getStrValue d "tw_external_path"

/-! ### Writing the file -/

/-- `FILE_VERSION` -/
def fileVersion : Nat := 0x00010001

/-- A string as it stands in the file: an `unsigned short` counting the terminated
string, and that many bytes of it. The count wraps, the bytes follow the count. -/
def frame (s : CString) : List UInt8 :=
  let length := (s.length + 1) % 65536
  le16 length ++ (s.bytes ++ [0]).take length

def record (e : CString × Var) : List UInt8 := frame e.1 ++ frame e.2.value

/-- The entries that are written, in the order of the map. -/
def persisted (m : Std.TreeMap CString Var) : List (CString × Var) :=
  m.toList.filter fun e => e.2.persist != 0

def fileBytes (m : Std.TreeMap CString Var) : List UInt8 :=
  le32 fileVersion ++ (persisted m).flatMap record

def saveValues (host : Host) (d : DataManager) : Int × DataManager :=
  if d.mBackingFile = "" then (-1, d)
  else if host.mounted (getSettingsStoragePath d) = false then (-1, d)
  else if host.opens d.mBackingFile = false then (-1, d)
  else (0, {d with files := Function.update d.files d.mBackingFile (some (fileBytes d.mValues))})

/-! ### Setting -/

/-- The map after a value is assigned: a variable that exists keeps its mark. -/
def assign (m : Std.TreeMap CString Var) (varName value : CString) (persist : Int) :
    Std.TreeMap CString Var :=
  match m[varName]? with
  | none => m.insert varName ⟨value, persist⟩
  | some v => m.insert varName {v with value := value}

/-- The names `SetValue` refuses: none at all, and those that start with a digit. -/
def badName (varName : CString) : Bool :=
  match varName.bytes with
  | [] => true
  | b :: _ => 48 ≤ b && b ≤ 57

/-- `SetValue` up to the point where it looks at the name for what else to do. -/
def storeValue (host : Host) (d : DataManager) (varName value : CString) (persist : Int) :
    Int × DataManager :=
  if badName varName then (-1, d)
  else if d.mConstValues[varName]?.isSome then (-1, d)
  else
    let stored := {d with mValues := assign d.mValues varName value persist}
    match stored.mValues[varName]? with
    | none => (0, stored)
    | some v => if v.persist ≠ 0 then (0, (saveValues host stored).2) else (0, stored)

/-- The zone and the daylight zone of a selection such as `CST6;CDT`. -/
def splitZone (selected : CString) : CString × CString :=
  (⟨selected.bytes.takeWhile (· != 59), fun h => selected.noNul ((List.takeWhile_sublist _).mem h)⟩,
    if 59 ∈ selected.bytes then
      ⟨(selected.bytes.dropWhile (· != 59)).tail,
        fun h => selected.noNul ((List.dropWhile_sublist _).mem (List.mem_of_mem_tail h))⟩
    else selected)

/-- `SetGUI_TimeZone`. The two names it sets are not the one that calls it. -/
def setGUITimeZone (host : Host) (d : DataManager) : DataManager :=
  let (zone, dstZone) := splitZone (getStrValue d "tw_time_zone_guisel")
  let dst := getIntValue d "tw_time_zone_guidst"
  let offset := getStrValue d "tw_time_zone_guioffset"
  let newTimeZone := if dst ≠ 0 then dstZone else zone
  let (newTimeZone, displayTimeZone) :=
    if offset ≠ "0" then (newTimeZone ++ (":" : CString) ++ offset, zone ++ (":" : CString) ++ offset)
    else (newTimeZone, zone)
  let displayTimeZone := if dst ≠ 0 then displayTimeZone ++ (" (DST)" : CString) else displayTimeZone
  let d := (storeValue host d "tw_time_zone" newTimeZone 0).2
  (storeValue host d "tw_display_time_zone" displayTimeZone 0).2

/-- `SetValue` on a string. A refused name changes nothing. -/
def setValue (host : Host) (d : DataManager) (varName value : CString) (persist : Int) :
    Int × DataManager :=
  match storeValue host d varName value persist with
  | (0, stored) => (0, if varName = "tw_time_zone_guidst" then setGUITimeZone host stored else stored)
  | refused => refused

def setBackupFolder (host : Host) (d : DataManager) (storagePath : CString) : DataManager :=
  let path := if storagePath = "" then getCurrentStoragePath d else storagePath
  let devId := getStrValue d "tw_device_id"
  let d := (setValue host d "tw_backups_folder" (path ++ ("/TWRP/BACKUPS/" : CString) ++ devId) 0).2
  (setValue host d "tw_sdbackups_folder" (path ++ ("/TWRP/NativeSD-BACKUPS/" : CString) ++ devId) 0).2

/-- `SetValue` on an `int`: choosing the storage also moves the backup folders. -/
def setIntValue (host : Host) (d : DataManager) (varName : CString) (value : Int) (persist : Int) :
    Int × DataManager :=
  let d :=
    if varName = "tw_use_external_storage" then
      let str :=
        if getIntValue d "tw_has_dual_storage" = 1 then
          if value = 0 then getStrValue d "tw_internal_path" else getStrValue d "tw_external_path"
        else if getIntValue d "tw_has_internal" = 1 then getStrValue d "tw_internal_path"
        else getStrValue d "tw_external_path"
      setBackupFolder host d str
    else d
  setValue host d varName (CString.ofInt value) persist

/-! ### What setting changes -/

theorem assign_self (m : Std.TreeMap CString Var) (varName value : CString) (persist : Int) :
    ∃ p, (assign m varName value persist)[varName]? = some ⟨value, p⟩ := by
  unfold assign
  split
  · exact ⟨persist, Std.TreeMap.getElem?_insert_self⟩
  · rename_i v _
    exact ⟨v.persist, Std.TreeMap.getElem?_insert_self⟩

theorem assign_other (m : Std.TreeMap CString Var) {varName name : CString} (value : CString)
    (persist : Int) (hne : varName ≠ name) : (assign m varName value persist)[name]? = m[name]? := by
  unfold assign
  split <;> rw [Std.TreeMap.getElem?_insert, if_neg (by simpa using hne)]

/-- An existing variable keeps its persist mark. -/
theorem assign_existing (m : Std.TreeMap CString Var) {varName : CString} (value : CString)
    (persist : Int) {v : Var} (h : m[varName]? = some v) :
    (assign m varName value persist)[varName]? = some {v with value := value} := by
  unfold assign
  rw [h]
  exact Std.TreeMap.getElem?_insert_self

@[simp] theorem saveValues_mValues (host : Host) (d : DataManager) :
    (saveValues host d).2.mValues = d.mValues := by
  unfold saveValues
  split_ifs <;> rfl

/-- A write that is not refused is the whole of it. -/
theorem storeValue_eq (host : Host) (d : DataManager) (varName value : CString) (persist : Int)
    (hname : badName varName = false) (hconst : d.mConstValues[varName]? = none) :
    (storeValue host d varName value persist).1 = 0 ∧
      (storeValue host d varName value persist).2.mValues = assign d.mValues varName value persist := by
  unfold storeValue
  rw [if_neg (by simp [hname]), if_neg (by simp [hconst])]
  dsimp only
  split
  · exact ⟨rfl, rfl⟩
  · split_ifs
    · exact ⟨rfl, saveValues_mValues host _⟩
    · exact ⟨rfl, rfl⟩

/-- Setting any variable but the daylight-saving switch is storing it. -/
theorem setValue_eq_storeValue (host : Host) (d : DataManager) {varName : CString} (value : CString)
    (persist : Int) (hname : varName ≠ "tw_time_zone_guidst") :
    setValue host d varName value persist = storeValue host d varName value persist := by
  unfold setValue
  split
  · rename_i stored h
    rw [if_neg hname, h]
  · rfl

/-! ### The frame of a setter -/

/-- From `d` to `d'` only variables among `names` change; the constants and the
backing file stay, and so do the files while there is no backing file. -/
structure Touches (names : List CString) (d d' : DataManager) : Prop where
  other : ∀ n, n ∉ names → d'.mValues[n]? = d.mValues[n]?
  consts : d'.mConstValues = d.mConstValues
  backing : d'.mBackingFile = d.mBackingFile
  files : d.mBackingFile = "" → d'.files = d.files

theorem Touches.refl (names : List CString) (d : DataManager) : Touches names d d :=
  ⟨fun _ _ => rfl, rfl, rfl, fun _ => rfl⟩

theorem Touches.keys {names : List CString} {d d' : DataManager} (h : Touches names d d') {n : CString}
    (hn : n ∈ d'.mValues) : n ∈ names ∨ n ∈ d.mValues := by
  by_cases hmem : n ∈ names
  · exact .inl hmem
  · right
    rw [Std.TreeMap.mem_iff_isSome_getElem?, h.other n hmem] at *
    exact hn

theorem Touches.trans {names : List CString} {d d' d'' : DataManager} (h : Touches names d d')
    (h' : Touches names d' d'') : Touches names d d'' where
  other n hn := (h'.other n hn).trans (h.other n hn)
  consts := h'.consts.trans h.consts
  backing := h'.backing.trans h.backing
  files hb := (h'.files (h.backing.trans hb)).trans (h.files hb)

theorem Touches.mono {names names' : List CString} {d d' : DataManager} (h : Touches names d d')
    (hsub : names ⊆ names') : Touches names' d d' where
  other n hn := h.other n fun hmem => hn (hsub hmem)
  consts := h.consts
  backing := h.backing
  files := h.files

theorem touches_save (host : Host) (d : DataManager) (names : List CString) :
    Touches names d (saveValues host d).2 := by
  unfold saveValues
  split_ifs with hempty
  · exact .refl names d
  · exact .refl names d
  · exact .refl names d
  · exact ⟨fun _ _ => rfl, rfl, rfl, fun hb => absurd hb hempty⟩

theorem touches_store (host : Host) (d : DataManager) (varName value : CString) (persist : Int) :
    Touches [varName] d (storeValue host d varName value persist).2 := by
  have hstored : Touches [varName] d {d with mValues := assign d.mValues varName value persist} := by
    refine ⟨fun n hn => ?_, rfl, rfl, fun _ => rfl⟩
    exact assign_other d.mValues value persist fun heq => hn (by simp [heq])
  unfold storeValue
  split_ifs
  · exact .refl _ d
  · exact .refl _ d
  · dsimp only
    split
    · exact hstored
    · split_ifs
      · exact hstored.trans (touches_save host _ _)
      · exact hstored

/-- A variable holds what was just stored, or the store was refused. -/
theorem storeValue_self (host : Host) (d : DataManager) (varName value : CString) (persist : Int) {v : Var}
    (h : (storeValue host d varName value persist).2.mValues[varName]? = some v) :
    v.value = value ∨ d.mValues[varName]? = some v := by
  unfold storeValue at h
  split_ifs at h
  · exact .inr h
  · exact .inr h
  · obtain ⟨p, hp⟩ := assign_self d.mValues varName value persist
    dsimp only at h
    rw [hp] at h
    left
    dsimp only at h
    split_ifs at h
    · rw [saveValues_mValues, hp] at h
      cases h
      rfl
    · rw [hp] at h
      cases h
      rfl

/-- The variables that setting others may bring along. -/
def sideNames : List CString :=
  ["tw_time_zone", "tw_display_time_zone", "tw_backups_folder", "tw_sdbackups_folder"]

theorem touches_timeZone (host : Host) (d : DataManager) : Touches sideNames d (setGUITimeZone host d) := by
  have hzone := touches_store host d "tw_time_zone"
  have hdisplay := fun d => touches_store host d "tw_display_time_zone"
  exact ((hzone _ _).mono (by simp [sideNames])).trans ((hdisplay _ _ _).mono (by simp [sideNames]))

theorem touches_set (host : Host) (d : DataManager) (varName value : CString) (persist : Int) :
    Touches (varName :: sideNames) d (setValue host d varName value persist).2 := by
  have hstore := (touches_store host d varName value persist).mono
    (List.cons_subset_cons varName (List.nil_subset sideNames))
  unfold setValue
  split
  · rename_i stored h
    rw [h] at hstore
    dsimp only
    split_ifs
    · exact hstore.trans ((touches_timeZone host stored).mono (List.subset_cons_self ..))
    · exact hstore
  · exact hstore

theorem setValue_self (host : Host) (d : DataManager) (varName value : CString) (persist : Int) {v : Var}
    (hside : varName ∉ sideNames) (h : (setValue host d varName value persist).2.mValues[varName]? = some v) :
    v.value = value ∨ d.mValues[varName]? = some v := by
  refine storeValue_self host d varName value persist ?_
  unfold setValue at h
  split at h
  · rename_i stored hstore
    rw [hstore]
    dsimp only at h
    split_ifs at h
    · rw [← (touches_timeZone host stored).other varName hside]
      exact h
    · exact h
  · exact h

theorem touches_backupFolder (host : Host) (d : DataManager) (storagePath : CString) :
    Touches sideNames d (setBackupFolder host d storagePath) := by
  have hset := fun d => touches_set host d "tw_backups_folder"
  have hsd := fun d => touches_set host d "tw_sdbackups_folder"
  exact ((hset _ _ _).mono (by simp [sideNames])).trans ((hsd _ _ _).mono (by simp [sideNames]))

theorem touches_setInt (host : Host) (d : DataManager) (varName : CString) (value persist : Int) :
    Touches (varName :: sideNames) d (setIntValue host d varName value persist).2 := by
  unfold setIntValue
  dsimp only
  split_ifs
  all_goals
    first
    | exact touches_set host d varName _ persist
    | exact ((touches_backupFolder host d _).mono (List.subset_cons_self ..)).trans (touches_set ..)

end Twrp.Settings
