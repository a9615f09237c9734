import Twrp.Base.Folders
import Twrp.Base.CString

/-! Finding the data folder on the sd-ext partition (`TWPartition::CheckFor_DataOnExt`, with
`Get_Path`, `Get_Root_Path` and `SubDir_Check` of `TWFunc`).

The configured path is given the root `/sd-ext`; `packages.xml` is looked for below it, below the
folder it is in and below its `data`, then by `find` in all of the partition, and at last folders
of the right names are. Which of these ends the search says what is stored, and not all of them
store what they found: the first leaves the path as it was configured, `find` without a result
leaves the corrected one and is taken for a find, and the last stores the mount point if nothing
was found at all. `Fits` says for each of them when what is stored is right, and exactly then
the function is (`checkForDataOnExt_iff`). -/
namespace Twrp.Storage.DataOnExt
open Base

abbrev Bytes := List UInt8

def txt (s : String) : Bytes := s.toUTF8.data.toList

/-- What is there when the partition is mounted, and the names in a directory as `readdir` gives
them, without `.` and `..`. -/
structure Disk where
  tree : Folders
  children : Place → List Bytes
  mem_children : ∀ place name, name ∈ children place ↔ tree.entry (place ++ [name]) ≠ none
  name : ∀ place name, tree.entry (place ++ [name]) ≠ none →
    name ≠ [] ∧ name ≠ [46] ∧ name ≠ [46, 46] ∧ 47 ∉ name ∧ 0 ∉ name

/-! ### The code -/

section Code
variable (d : Disk)

/-- `stat` -/
def pathExists (path : Bytes) : Bool :=
  if path = [] then false
  else
    match d.tree.walk (d.tree.start path) (namesOf path) with
    | .ok place => (d.tree.entry place).isSome
    | .error _ => false

/-- `opendir`: the directory that is opened. -/
def opendir (path : Bytes) : Option Place :=
  if path = [] then none
  else
    match d.tree.walk (d.tree.start path) (namesOf path) with
    | .ok place => if d.tree.entry place = some .dir then some place else none
    | .error _ => none

/-- The names of the folders in a directory, `d_type == DT_DIR`. -/
def subDirs (place : Place) : List Bytes := (d.children place).filter fun name => d.tree.entry (place ++ [name]) = some .dir

/-- `SubDir_Check(Dir, "app", "local", "misc", "", "", 1)` -/
def subDirCheck (dir : Bytes) : Int :=
  match opendir d dir with
  | none => -1
  | some place =>
    let wanted := (subDirs d place).filter (· ∈ [txt "app", txt "local", txt "misc", [], []])
    if (subDirs d place).length = 0 then 0
    else if wanted.length = 0 then 0
    else if 1 ≤ wanted.length then 1
    else 0

/-- `Get_Path` -/
def getPath (path : Bytes) : Bytes := if 47 ∈ path then (path.reverse.dropWhile (· ≠ 47)).reverse else path

/-- `Get_Root_Path` -/
def getRootPath (path : Bytes) : Bytes :=
  let localPath := if path.take 1 ≠ [47] then 47 :: path else path
  localPath.take 2 ++ (localPath.drop 2).takeWhile (· ≠ 47)

/-- The root path made `/sd-ext`; nothing where `substr` throws. -/
def corrected (dataPath : Bytes) : Option Bytes :=
  if dataPath = txt "/sd-ext" then some dataPath
  else if getRootPath dataPath = txt "/sd-ext" then some dataPath
  else if dataPath.length < (getRootPath dataPath).length then none
  else some (txt "/sd-ext" ++ dataPath.drop (getRootPath dataPath).length)

def packagesXml : Bytes := txt "/system/packages.xml"

/-- `-iname packages.xml` -/
def isPackagesXml (name : Bytes) : Bool := name.map (fun b => if 65 ≤ b ∧ b ≤ 90 then b + 32 else b) = txt "packages.xml"

/-- `find -type f -maxdepth .. -iname packages.xml` below a place. -/
def findFiles : (depth : Nat) → Place → List Place
  | 0, _ => []
  | depth + 1, place => (d.children place).flatMap fun name =>
      match d.tree.entry (place ++ [name]) with
      | some .file => if isPackagesXml name then [place ++ [name]] else []
      | some .dir => findFiles depth (place ++ [name])
      | none => []

/-- A path as it is printed. -/
def printed (place : Place) : Bytes := place.flatMap fun name => 47 :: name

/-- `s!/system/packages.xml!!g`, where the dot is any byte: what is left of a line, and whether there was
a match. `skip` counts the bytes of one that are still to come. -/
def sedLine : (skip : Nat) → Bytes → Bytes × Bool
  | _, [] => ([], false)
  | skip + 1, _ :: rest => sedLine skip rest
  | 0, b :: rest =>
    if (b :: rest).take 16 = txt "/system/packages" ∧ ((b :: rest).drop 17).take 3 = txt "xml" then ((sedLine 19 rest).1, true)
    else (b :: (sedLine 0 rest).1, (sedLine 0 rest).2)

/-- What is in `/tmp/dataonextpath.txt`. -/
def dataOnExtPaths : Bytes :=
  let lines := (linesOf ((findFiles d 4 [txt "sd-ext"]).flatMap fun place => printed place ++ [10])).map fun l => sedLine 0 l.text
  (lines.filter (·.2)).flatMap fun l => l.1 ++ [10]

/-- The loop over its lines: what `dtpth` holds at the end. -/
def scanPaths (dtpth : Bytes) : List Bytes → Bytes
  | [] => dtpth
  | cmdOutput :: rest =>
    let line := cmdOutput.dropLast
    if 7 < line.length then line
    else scanPaths (if line.length < 7 then txt "null" else line) rest

/-- `TW_DATA_PATH` and `TW_DATA_ON_EXT`. -/
structure Vars where
  dataPath : Bytes
  dataOnExt : Int
deriving DecidableEq

/-- The fifth stage, where folders of the right names are looked for. -/
def folderStage (v : Vars) : Int × Vars :=
  if subDirCheck d v.dataPath = 1 then (1, v)
  else
    match opendir d (txt "/sd-ext") with
    | none => (-1, ⟨txt "null", 0⟩)
    | some place =>
      let folders := subDirs d place
      if folders.length = 0 then (-1, ⟨txt "null", 0⟩)
      else
        match (folders.map fun name => txt "/sd-ext/" ++ name ++ txt "/data").find? fun dname => subDirCheck d dname = 1 with
        | some dname => (1, ⟨dname, 1⟩)
        | none => (1, ⟨txt "/sd-ext", v.dataOnExt⟩)

/-- `CheckFor_DataOnExt`: what it returns and the variables after it; nothing where it throws. Whether
the partition mounts and the file with the paths opens is given. -/
def checkForDataOnExt (check mounts opens : Bool) (v : Vars) : Option (Int × Vars) :=
  if !check then some (0, v)
  else if !mounts then some (-1, ⟨txt "null", 0⟩)
  else do
    let dtpth ← corrected v.dataPath
    let parentpth := getPath dtpth
    if pathExists d (dtpth ++ packagesXml) then return (0, {v with dataOnExt := 1})
    else if pathExists d (parentpth ++ txt "system/packages.xml") then return (1, ⟨parentpth.dropLast, 1⟩)
    else if pathExists d (dtpth ++ txt "/data" ++ packagesXml) then return (1, ⟨dtpth ++ txt "/data", 1⟩)
    else
      let found := if opens then scanPaths dtpth (buffers 254 (dataOnExtPaths d)) else txt "null"
      if found ≠ txt "null" then return (1, ⟨found, 1⟩)
      else return folderStage d v

end Code

/-! ### What is asked of it -/

section Asked
variable (d : Disk)

/-- The directory that a path names. -/
def Names (path : Bytes) (place : Place) : Prop :=
  path ≠ [] ∧ d.tree.walk (d.tree.start path) (namesOf path) = .ok place ∧ d.tree.entry place = some .dir

/-- No `packages.xml` is there within the depth that is searched. -/
def NoPackages : Prop :=
  ∀ front : Place, ∀ name : Bytes, front.length ≤ 3 →
    d.tree.entry ([txt "sd-ext"] ++ front ++ [name]) = some .file → isPackagesXml name = false

/-- A path names a directory under `/sd-ext` that has `system/packages.xml` in it, or a folder of the
right name where there is no `packages.xml`. -/
def Suitable (path : Bytes) : Prop :=
  ∃ place, Names d path place ∧ [txt "sd-ext"] <+: place ∧
    (d.tree.entry (place ++ [txt "system", txt "packages.xml"]) ≠ none ∨
      NoPackages d ∧ ∃ name ∈ [txt "app", txt "local", txt "misc"], d.tree.entry (place ++ [name]) = some .dir)

/-- With 0 or 1 the path is suitable and the variable 1, else it is -1 and 0. -/
def Right (result : Option (Int × Vars)) : Prop :=
  ∃ ret v, result = some (ret, v) ∧
    ((ret = 0 ∨ ret = 1) → v.dataOnExt = 1 ∧ Suitable d v.dataPath) ∧
    (¬(ret = 0 ∨ ret = 1) → ret = -1 ∧ v.dataOnExt = 0)

end Asked

/-! ### When it is so -/

section Fits
variable (d : Disk)

/-- A path leads to `/sd-ext` or below it. -/
def Below (path : Bytes) : Prop := path ≠ [] ∧ [txt "sd-ext"] <+: d.tree.placeOf path

/-- The line that the loop over the paths ends with: the first of more than seven bytes, or the last. -/
def lastRead (lines : List Bytes) : Option Bytes := (lines.find? fun line => 7 < line.length).or lines.getLast?

/-- In the last stage the path as it was configured has the folders, and the variable is 1 already; or
there is no folder in `/sd-ext`, or the first with such a `data` is suitable. -/
def FolderFits (v : Vars) : Prop :=
  if subDirCheck d v.dataPath = 1 then v.dataOnExt = 1 ∧ Suitable d v.dataPath
  else
    ∀ place, opendir d (txt "/sd-ext") = some place → subDirs d place ≠ [] →
      let dnames := (subDirs d place).map fun name => txt "/sd-ext/" ++ name ++ txt "/data"
      match dnames.find? fun dname => subDirCheck d dname = 1 with
      | some dname => Suitable d dname
      | none => v.dataOnExt = 1 ∧ Suitable d (txt "/sd-ext")

/-- Once the partition is mounted, the path can be corrected, and the stage that ends the search stores
what it may: the first the path as it was configured, `find` without a result the corrected one. -/
def Fits (mounts opens : Bool) (v : Vars) : Prop :=
  mounts = true → ∃ dtpth, corrected v.dataPath = some dtpth ∧
    if pathExists d (dtpth ++ packagesXml) then Suitable d v.dataPath
    else if pathExists d (getPath dtpth ++ txt "system/packages.xml") then
      if 47 ∈ dtpth then Below d (getPath dtpth).dropLast else Suitable d dtpth.dropLast
    else if pathExists d (dtpth ++ txt "/data" ++ packagesXml) then Below d dtpth
    else if opens then
      match lastRead ((buffers 254 (dataOnExtPaths d)).map List.dropLast) with
      | none => Suitable d dtpth
      | some line => if line.length < 7 then FolderFits d v else Suitable d line
    else FolderFits d v

end Fits

/-! ### The tests -/

section Tests
variable {d : Disk}

theorem start_append {p rest : Bytes} (hp : p ≠ []) : d.tree.start (p ++ rest) = d.tree.start p := by
  obtain ⟨b, p, rfl⟩ := List.exists_cons_of_ne_nil hp
  rfl

theorem enter_plain (place : Place) {name : Bytes} (h : name ≠ [46] ∧ name ≠ [46, 46]) : enter place name = place ++ [name] := by
  rw [enter, if_neg h.1, if_neg h.2]

theorem names_placeOf {p : Bytes} {place : Place} (h : Names d p place) : d.tree.placeOf p = place :=
  (Folders.walk_ok_iff.mp h.2.1).1.symm

theorem pathExists_eq {p : Bytes} (hp : p ≠ []) : pathExists d p = true ↔
    ∃ place, d.tree.walk (d.tree.start p) (namesOf p) = .ok place ∧ d.tree.entry place ≠ none := by
  rw [pathExists, if_neg hp]
  cases hwalk : d.tree.walk (d.tree.start p) (namesOf p) with
  | error e => simp
  | ok place => simp [Option.isSome_iff_ne_none]

theorem opendir_eq {p : Bytes} {place : Place} : opendir d p = some place ↔ Names d p place := by
  rw [opendir, Names]
  by_cases hp : p = []
  · simp [hp]
  · rw [if_neg hp]
    cases hwalk : d.tree.walk (d.tree.start p) (namesOf p) with
    | error e => simp
    | ok q =>
      simp only [Option.ite_none_right_eq_some, Option.some.injEq, Except.ok.injEq, ne_eq, hp, not_false_eq_true, true_and]
      constructor
      · intro ⟨hdir, hq⟩
        exact ⟨hq, hq ▸ hdir⟩
      · intro ⟨hq, hdir⟩
        exact ⟨hq ▸ hdir, hq⟩

/-- `packages.xml` is where it is looked for in the directory that a path names. -/
theorem pathExists_packages {p : Bytes} (hp : p ≠ []) : pathExists d (p ++ packagesXml) = true ↔
    ∃ place, Names d p place ∧ d.tree.entry (place ++ [txt "system", txt "packages.xml"]) ≠ none := by
  have hnames : namesOf (p ++ packagesXml) = namesOf p ++ [txt "system", txt "packages.xml"] := by
    have hxml : packagesXml = 47 :: txt "system/packages.xml" := by decide
    have htail : splitString 47 (txt "system/packages.xml") = [txt "system", txt "packages.xml"] := by decide
    rw [namesOf, hxml, splitString_append, htail]
    rfl
  have hsystem (place : Place) : enter place (txt "system") = place ++ [txt "system"] := enter_plain place (by decide)
  have hxml (place : Place) : enter place (txt "packages.xml") = place ++ [txt "packages.xml"] := enter_plain place (by decide)
  have hjoin (place : Place) : place ++ [txt "system", txt "packages.xml"] = place ++ [txt "system"] ++ [txt "packages.xml"] := by
    simp
  rw [pathExists_eq (List.append_ne_nil_of_left_ne_nil hp _), start_append hp, hnames]
  constructor
  · intro ⟨q, hwalk, hentry⟩
    obtain ⟨hq, hdirs⟩ := Folders.walk_ok_iff.mp hwalk
    refine ⟨(namesOf p).foldl enter (d.tree.start p), ⟨hp, ?_, ?_⟩, ?_⟩
    · refine Folders.walk_ok_iff.mpr ⟨rfl, fun i hi => ?_⟩
      have hdir := hdirs i (by rw [List.length_append]; omega)
      rwa [List.take_append_of_le_length (by omega)] at hdir
    · have hdir := hdirs (namesOf p).length (by simp)
      rwa [List.take_left] at hdir
    · rw [List.foldl_append, List.foldl_cons, List.foldl_cons, List.foldl_nil, hsystem, hxml] at hq
      rw [hjoin, ← hq]
      exact hentry
  · intro ⟨place, hnamed, hentry⟩
    obtain ⟨hq, hdirs⟩ := Folders.walk_ok_iff.mp hnamed.2.1
    rw [hjoin] at hentry
    have hdir := d.tree.parent _ _ hentry
    refine ⟨place ++ [txt "system"] ++ [txt "packages.xml"], Folders.walk_ok_iff.mpr ⟨?_, fun i hi => ?_⟩, hentry⟩
    · rw [List.foldl_append, ← hq, List.foldl_cons, List.foldl_cons, List.foldl_nil, hsystem, hxml]
    · rw [List.length_append, List.length_cons, List.length_singleton] at hi
      by_cases hfront : i < (namesOf p).length
      · rw [List.take_append_of_le_length (by omega)]
        exact hdirs i hfront
      · obtain rfl | rfl : i = (namesOf p).length ∨ i = (namesOf p).length + 1 := by omega
        · rw [List.take_left, ← hq]
          exact hnamed.2.2
        · rw [List.take_length_add_append, List.foldl_append, ← hq, List.take_succ_cons, List.take_zero, List.foldl_cons,
            List.foldl_nil, hsystem]
          exact hdir

/-- The folders are looked for in the directory that a path names. -/
theorem subDirCheck_iff {p : Bytes} : subDirCheck d p = 1 ↔
    ∃ place, Names d p place ∧ ∃ name ∈ [txt "app", txt "local", txt "misc"], d.tree.entry (place ++ [name]) = some .dir := by
  have hmem (place : Place) (name : Bytes) : name ∈ subDirs d place ↔ d.tree.entry (place ++ [name]) = some .dir := by
    rw [subDirs, List.mem_filter, d.mem_children, decide_eq_true_eq]
    constructor
    · exact And.right
    · intro h
      exact ⟨by rw [h]; simp, h⟩
  rw [subDirCheck]
  cases hopen : opendir d p with
  | none =>
    have hone : ¬(-1 : Int) = 1 := by decide
    refine iff_of_false hone ?_
    intro ⟨place, hnamed, _⟩
    rw [opendir_eq.mpr hnamed] at hopen
    cases hopen
  | some place =>
    have hnamed := opendir_eq.mp hopen
    have hwanted : ((subDirs d place).filter (· ∈ [txt "app", txt "local", txt "misc", [], []])).length ≠ 0 ↔
        ∃ name ∈ [txt "app", txt "local", txt "misc"], d.tree.entry (place ++ [name]) = some .dir := by
      rw [ne_eq, List.length_eq_zero_iff, List.filter_eq_nil_iff]
      constructor
      · intro h
        push Not at h
        obtain ⟨name, hname, hin⟩ := h
        have hdir := (hmem place name).mp hname
        have hproper := (d.name place name (by rw [hdir]; simp)).1
        exact ⟨name, by simpa [hproper] using hin, hdir⟩
      · intro ⟨name, hin, hdir⟩ hnone
        have hno := hnone name ((hmem place name).mpr hdir)
        simp only [decide_eq_true_eq] at hno
        exact hno (by simp only [List.mem_cons, List.not_mem_nil, or_false] at hin ⊢; tauto)
    have hsome : (subDirs d place).length = 0 →
        ((subDirs d place).filter (· ∈ [txt "app", txt "local", txt "misc", [], []])).length = 0 := by
      intro h
      rw [List.length_eq_zero_iff.mp h]
      rfl
    have hplace : (∃ q, Names d p q ∧ ∃ name ∈ [txt "app", txt "local", txt "misc"], d.tree.entry (q ++ [name]) = some .dir) ↔
        ∃ name ∈ [txt "app", txt "local", txt "misc"], d.tree.entry (place ++ [name]) = some .dir := by
      constructor
      · intro ⟨q, hq, hfolder⟩
        rw [← names_placeOf hq, names_placeOf hnamed] at hfolder
        exact hfolder
      · intro hfolder
        exact ⟨place, hnamed, hfolder⟩
    rw [hplace, ← hwanted]
    by_cases hzero : ((subDirs d place).filter (· ∈ [txt "app", txt "local", txt "misc", [], []])).length = 0
    · simp only [hzero, if_true, ite_self]
      simp
    · have hfull : ¬(subDirs d place).length = 0 := fun h => hzero (hsome h)
      have hone : 1 ≤ ((subDirs d place).filter (· ∈ [txt "app", txt "local", txt "misc", [], []])).length :=
        Nat.one_le_iff_ne_zero.mpr hzero
      simp only [if_neg hfull, if_neg hzero, if_pos hone]
      exact iff_of_true trivial hzero

/-- Where it is, all that is left to ask is that the path leads below `/sd-ext`. -/
theorem suitable_of_packages {p : Bytes} (hp : p ≠ []) (h : pathExists d (p ++ packagesXml) = true) :
    Suitable d p ↔ Below d p := by
  obtain ⟨place, hnamed, hentry⟩ := (pathExists_packages hp).mp h
  constructor
  · intro ⟨q, hq, hbelow, _⟩
    rw [← names_placeOf hq] at hbelow
    exact ⟨hp, hbelow⟩
  · intro hbelow
    exact ⟨place, hnamed, names_placeOf hnamed ▸ hbelow.2, Or.inl hentry⟩

theorem not_suitable_nil : ¬Suitable d [] := by
  intro ⟨place, hnamed, _⟩
  exact hnamed.1 rfl

/-- Below `data` is below what it is in. -/
theorem below_data {p : Bytes} (hp : p ≠ []) : Below d (p ++ txt "/data") ↔ Below d p := by
  have hdata : txt "/data" = 47 :: txt "data" := by decide
  have hname : splitString 47 (txt "data") = [txt "data"] := by decide
  have hplace : d.tree.placeOf (p ++ txt "/data") = d.tree.placeOf p ++ [txt "data"] := by
    rw [Folders.placeOf, start_append hp, namesOf, hdata, splitString_append, hname, List.foldl_append, List.foldl_cons,
      List.foldl_nil, enter_plain _ (by decide)]
    rfl
  rw [Below, Below, hplace]
  apply and_congr
  · simp [hp]
  · cases d.tree.placeOf p with
    | nil =>
      rw [List.nil_append, List.prefix_nil]
      have hother : txt "sd-ext" ≠ txt "data" := by decide
      simp [hother]
    | cons name place => simp [List.cons_prefix_cons]

/-- The folder that a path is in. -/
theorem getPath_slash {p : Bytes} (h : 47 ∈ p) : ∃ q, getPath p = q ++ [47] := by
  obtain ⟨front, rest, hp, hfront⟩ := List.eq_append_cons_of_mem (List.mem_reverse.mpr h)
  refine ⟨rest.reverse, ?_⟩
  have hbytes : ∀ b ∈ front, decide (b ≠ 47) = true := fun b hb => decide_eq_true fun hb' => hfront (hb' ▸ hb)
  rw [getPath, if_pos h, hp, List.dropWhile_append_of_pos hbytes, List.dropWhile_cons_of_neg (by simp), List.reverse_cons]

theorem corrected_ne {p dtpth : Bytes} (h : corrected p = some dtpth) : dtpth ≠ [] ∧ dtpth ≠ txt "null" := by
  have hnull : getRootPath (txt "null") ≠ txt "/sd-ext" := by decide
  have hempty : getRootPath [] ≠ txt "/sd-ext" := by decide
  have hroot : txt "/sd-ext" ≠ [] ∧ txt "/sd-ext" ≠ txt "null" := by decide
  rw [corrected] at h
  split at h
  · rename_i heq
    obtain rfl := Option.some.inj h
    rw [heq]
    exact hroot
  · split at h
    · rename_i heq
      obtain rfl := Option.some.inj h
      constructor
      · rintro rfl
        exact hempty heq
      · rintro rfl
        exact hnull heq
    · split at h
      · cases h
      · obtain rfl := Option.some.inj h
        constructor
        · exact List.append_ne_nil_of_left_ne_nil hroot.1 _
        · intro hbad
          have hfirst := congrArg List.head? hbad
          have hslash : ∀ rest, (txt "/sd-ext" ++ rest).head? = some 47 := fun rest => rfl
          rw [hslash] at hfirst
          exact absurd hfirst (by decide)

/-- What the loop over the paths ends with. -/
theorem scanPaths_eq (dtpth : Bytes) (pieces : List Bytes) :
    scanPaths dtpth pieces =
      match lastRead (pieces.map List.dropLast) with
      | none => dtpth
      | some line => if line.length < 7 then txt "null" else line := by
  induction pieces generalizing dtpth with
  | nil => rfl
  | cons piece pieces ih =>
    by_cases hlong : 7 < piece.dropLast.length
    · have hshort : ¬piece.dropLast.length < 7 := by omega
      have hread : lastRead ((piece :: pieces).map List.dropLast) = some piece.dropLast := by
        rw [lastRead, List.map_cons, List.find?_cons_of_pos (by simpa using hlong)]
        rfl
      rw [hread, scanPaths]
      simp only [if_pos hlong, if_neg hshort]
    · have hread : lastRead ((piece :: pieces).map List.dropLast) =
          (lastRead (pieces.map List.dropLast)).or (some piece.dropLast) := by
        rw [lastRead, lastRead, List.map_cons, List.find?_cons_of_neg (by simpa using hlong), Option.or_assoc]
        congr 1
        cases pieces.map List.dropLast with
        | nil => rfl
        | cons line lines => simp [List.getLast?_cons]
      rw [hread, scanPaths]
      simp only [if_neg hlong, ih]
      cases lastRead (pieces.map List.dropLast) with
      | none => rfl
      | some line => rfl

/-! ### The stages -/

theorem right_found {ret : Int} (hret : ret = 0 ∨ ret = 1) (v : Vars) :
    Right d (some (ret, v)) ↔ v.dataOnExt = 1 ∧ Suitable d v.dataPath := by
  constructor
  · intro ⟨_, _, heq, hfound, _⟩
    obtain ⟨rfl, rfl⟩ := Prod.mk.inj (Option.some.inj heq)
    exact hfound hret
  · intro h
    exact ⟨ret, v, rfl, fun _ => h, fun hno => absurd hret hno⟩

/-- What is stored and said to be found. -/
theorem right_stored {ret : Int} (hret : ret = 0 ∨ ret = 1) (path : Bytes) :
    Right d (some (ret, ⟨path, 1⟩)) ↔ Suitable d path := by
  rw [right_found hret]
  exact and_iff_right rfl

theorem right_given_up (path : Bytes) : Right d (some (-1, ⟨path, 0⟩)) :=
  ⟨-1, ⟨path, 0⟩, rfl, fun h => absurd h (by decide), fun _ => ⟨rfl, rfl⟩⟩

theorem not_right_thrown : ¬Right d none := by
  intro ⟨_, _, h, _⟩
  cases h

theorem folderStage_iff (v : Vars) : Right d (some (folderStage d v)) ↔ FolderFits d v := by
  rw [folderStage, FolderFits]
  by_cases hconfigured : subDirCheck d v.dataPath = 1
  · rw [if_pos hconfigured, if_pos hconfigured]
    exact right_found (Or.inr rfl) v
  · rw [if_neg hconfigured, if_neg hconfigured]
    cases hopen : opendir d (txt "/sd-ext") with
    | none => exact iff_of_true (right_given_up _) fun place hplace => by cases hplace
    | some place =>
      by_cases hnone : subDirs d place = []
      · simp only [hnone, List.length_nil, if_true]
        refine iff_of_true (right_given_up _) ?_
        intro q hq hsome
        obtain rfl := Option.some.inj hq
        exact absurd hnone hsome
      · have hlen : ¬(subDirs d place).length = 0 := fun h => hnone (List.length_eq_zero_iff.mp h)
        simp only [hlen, if_false, Option.some.injEq, forall_eq', ne_eq, hnone, not_false_eq_true, true_implies]
        cases ((subDirs d place).map fun name => txt "/sd-ext/" ++ name ++ txt "/data").find?
          fun dname => decide (subDirCheck d dname = 1) with
        | none => exact right_found (Or.inr rfl) _
        | some dname => exact right_stored (Or.inr rfl) _

theorem parent_iff {dtpth : Bytes} (h : pathExists d (getPath dtpth ++ txt "system/packages.xml") = true) :
    Suitable d (getPath dtpth).dropLast ↔
      if 47 ∈ dtpth then Below d (getPath dtpth).dropLast else Suitable d dtpth.dropLast := by
  by_cases hslash : 47 ∈ dtpth
  · obtain ⟨q, hq⟩ := getPath_slash hslash
    rw [if_pos hslash, hq, List.dropLast_concat]
    by_cases hne : q = []
    · rw [hne]
      exact iff_of_false not_suitable_nil fun hbelow => hbelow.1 rfl
    · have hxml : q ++ [47] ++ txt "system/packages.xml" = q ++ packagesXml := by
        rw [List.append_assoc]
        rfl
      rw [hq, hxml] at h
      exact suitable_of_packages hne h
  · rw [if_neg hslash, getPath, if_neg hslash]

theorem data_iff {dtpth : Bytes} (hne : dtpth ≠ []) (h : pathExists d (dtpth ++ txt "/data" ++ packagesXml) = true) :
    Suitable d (dtpth ++ txt "/data") ↔ Below d dtpth := by
  rw [suitable_of_packages (List.append_ne_nil_of_left_ne_nil hne _) h]
  exact below_data hne

/-! ### Nothing to be found -/

theorem findFiles_nil {depth : Nat} {place : Place}
    (h : ∀ front : Place, ∀ name : Bytes, front.length < depth →
      d.tree.entry (place ++ front ++ [name]) = some .file → isPackagesXml name = false) : findFiles d depth place = [] := by
  induction depth generalizing place with
  | zero => rfl
  | succ depth ih =>
    rw [findFiles, List.flatMap_eq_nil_iff]
    intro name _
    cases hentry : d.tree.entry (place ++ [name]) with
    | none => rfl
    | some e =>
      cases e with
      | file =>
        have hother := h [] name (Nat.succ_pos _) (by rw [List.append_nil]; exact hentry)
        simp only [hother, Bool.false_eq_true, if_false]
      | dir =>
        apply ih
        intro front last hfront hfile
        have hjoin : place ++ [name] ++ front ++ [last] = place ++ (name :: front) ++ [last] := by simp
        rw [hjoin] at hfile
        exact h (name :: front) last (Nat.succ_lt_succ hfront) hfile

/-- Without a `packages.xml` the corrected path is taken for a find. -/
theorem checkForDataOnExt_nothing (h : NoPackages d) {v : Vars} {dtpth : Bytes} (hpath : corrected v.dataPath = some dtpth)
    (hfirst : pathExists d (dtpth ++ packagesXml) = false)
    (hsecond : pathExists d (getPath dtpth ++ txt "system/packages.xml") = false)
    (hthird : pathExists d (dtpth ++ txt "/data" ++ packagesXml) = false) :
    checkForDataOnExt d true true true v = some (1, ⟨dtpth, 1⟩) := by
  have hnone : findFiles d 4 [txt "sd-ext"] = [] := findFiles_nil fun front name hfront => h front name (by omega)
  have hpaths : dataOnExtPaths d = [] := by
    rw [dataOnExtPaths, hnone]
    rfl
  have hnull := (corrected_ne hpath).2
  rw [List.append_assoc] at hthird
  rw [checkForDataOnExt, hpath, hpaths]
  simp [hfirst, hsecond, hthird, buffers, buffersUpTo, scanPaths, hnull]

end Tests

/-- A partition without anything on it. -/
def emptyDisk : Disk where
  tree :=
    { entry := fun place => if place = [] ∨ place = [txt "sd-ext"] then some .dir else none
      cwd := []
      root := rfl
      parent := by
        intro place name h
        have hplace : place ++ [name] = [txt "sd-ext"] := by
          by_contra hno
          exact h (if_neg (by simp [hno]))
        have hnil : place = [] := (List.append_eq_singleton_iff.mp hplace).elim (fun hc => hc.1) fun hc => by simp at hc
        rw [hnil]
        rfl
      here := rfl }
  children := fun place => if place = [] then [txt "sd-ext"] else []
  mem_children := by
    intro place name
    by_cases hplace : place = []
    · by_cases hname : name = txt "sd-ext" <;> simp [hplace, hname]
    · simp [hplace, List.append_eq_singleton_iff]
  name := by
    intro place name h
    have hplace : place ++ [name] = [txt "sd-ext"] := by
      by_contra hno
      exact h (if_neg (by simp [hno]))
    obtain ⟨_, hname⟩ | ⟨_, hbad⟩ := List.append_eq_singleton_iff.mp hplace
    · rw [List.singleton_inj.mp hname]
      decide
    · cases hbad

end Twrp.Storage.DataOnExt
