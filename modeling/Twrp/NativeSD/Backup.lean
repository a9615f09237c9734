import Twrp.NativeSD.Restore

/-! Backing up a NativeSD ROM (`TWNativeSDManager::Backup`).

The system, the data and the boot files go to archives in a folder named after the ROM and the time. What is
too large for one archive is split, and the name of the archive is then the one that was set last. The name
of the ROM is read back from the folder when it is restored. -/
namespace Twrp.NativeSD
open Base Prog

/-- What decides on the names of a backup. -/
structure Place where
  /-- `/sdext2` and not `/sd-ext` -/
  useSdext2 : Bool
  /-- The name of the directory of the ROM. -/
  name : Path
  backupFolder : Path
  timestamp : Path
  name_slash : '/' ∉ name
  timestamp_slash : '/' ∉ timestamp

/-- The sizes of the directories. -/
structure Sizes where
  systemSize : Nat
  dataSize : Nat
  bootSize : Nat

def maxArchiveSize : Nat := 1610612736

section Names
variable (p : Place)

def Place.extpath : Path := if p.useSdext2 then "/sdext2".toList else "/sd-ext".toList

def Place.romPath : Path := p.extpath ++ '/' :: p.name

/-- `Rom_Name`: the path of the ROM without its first eight characters. -/
def Place.romName : Path := (p.romPath.drop 8).take (p.romPath.length - 1)

def Place.backupName : Path := p.romName ++ '@' :: p.timestamp

/-- The path that a restore is given. -/
def Place.folder : Path := p.backupFolder ++ '/' :: p.backupName

def Place.fullBackupPath : Path := p.folder ++ ['/']

end Names

/-- `Get_Filename` -/
def getFilename (path : Path) : Path := (path.reverse.takeWhile (· != '/')).reverse

/-- The name of the ROM in `Restore`: what stands before the first `@`, or all of it. -/
def restoredName (folder : Path) : Path := (getFilename folder).takeWhile (· != '@')

/-! ### The backup -/

inductive BackupCall where
  /-- The storage and the partition of the ROM are mounted, the folder is made, there is room. -/
  | prepare
  /-- `createTarFork` or `createTarGZFork` -/
  | archive (c : Component) (fn : Path)
  /-- The archive is not empty. -/
  | filled (fn : Path)
  /-- `splitArchiveFork` -/
  | split (c : Component) (fn : Path)

/-- A split archive has some parts, whether it succeeds or not. -/
def Answer : BackupCall → Type
  | .split _ _ => Nat × Bool
  | _ => Bool

abbrev BackupSession (α : Type) := Prog Answer α

def prepare : BackupSession Bool := Prog.ask (A := Answer) .prepare
def archive (c : Component) (fn : Path) : BackupSession Bool := Prog.ask (A := Answer) (.archive c fn)
def filled (fn : Path) : BackupSession Bool := Prog.ask (A := Answer) (.filled fn)
def splitArchive (c : Component) (fn : Path) : BackupSession (Nat × Bool) := Prog.ask (A := Answer) (.split c fn)

section Backup
variable (p : Place)

/-- A single archive; its name, where it could be made. -/
def backupWhole (c : Component) : BackupSession (Option Path) := do
  let fn := p.fullBackupPath ++ c.fileName
  if ← archive c fn then
    if ← filled fn then pure (some fn) else pure none
  else pure none

/-- The system or the data. `Full_FileName` comes from what was before and goes to what follows. -/
def backupDir (c : Component) (selected : Bool) (size : Nat) (fullFileName : Path) : BackupSession (Option Path) :=
  if selected = true ∧ 0 < size then
    if maxArchiveSize < size then do
      let r ← splitArchive c fullFileName
      if r.2 then pure (some fullFileName) else pure none
    else backupWhole p c
  else pure (some fullFileName)

/-- The boot files. -/
def backupBoot (selected : Bool) (size : Nat) : BackupSession Bool :=
  if selected = true ∧ 0 < size then do
    let r ← backupWhole p .boot
    pure r.isSome
  else pure true

/-- `Backup` -/
def backup (inc : Selection) (sizes : Sizes) : BackupSession Bool := do
  if ← prepare then
    match ← backupDir p .system inc.incSystem sizes.systemSize [] with
    | none => pure false
    | some fn =>
      match ← backupDir p .data inc.incData sizes.dataSize fn with
      | none => pure false
      | some _ => backupBoot p inc.incBoot sizes.bootSize
  else pure false

/-! ### What is asked of it -/

/-- The files a call makes for a component. -/
def madeBy (c : Component) : Sigma Answer → List Path
  | ⟨.archive c' fn, _⟩ => if c' = c then [fn] else []
  | ⟨.split c' fn, (parts, _)⟩ => if c' = c then (List.range parts).map fun i => fn ++ padded 3 i else []
  | _ => []

/-- The archives that are made for a component. -/
def made (c : Component) (log : List (Sigma Answer)) : List Path := log.flatMap (madeBy c)

def Archive.component : Archive → Component
  | .whole c => c
  | .part c _ => c

/-- An archive in the folder of the backup. -/
def Place.file (a : Archive) : Path := p.fullBackupPath ++ a.fileName

/-- The archives that a restore extracts when nothing fails. -/
def extractedBy (f : Folder) (inc : Selection) : List Archive :=
  ((restoreRom f inc).calls always).filterMap fun q => match q with
    | .extract a => some a
    | _ => none

/-- The components a backup has archives of. -/
def backedUp (log : List (Sigma Answer)) : Selection where
  incSystem := made .system log ≠ []
  incData := made .data log ≠ []
  incBoot := made .boot log ≠ []

/-- All archives of a backup. -/
def allMade (log : List (Sigma Answer)) : List Path := made .system log ++ made .data log ++ made .boot log

/-- What a backup should leave, whatever was in the folder before. -/
structure WellNamed (log : List (Sigma Answer)) (result : Bool) : Prop where
  /-- Archives are in the folder, under the names of their components. -/
  own : ∀ c, ∀ path ∈ made c log, ∃ a : Archive, a.component = c ∧ path = p.file a
  /-- None is made twice, for different components. -/
  apart : ∀ c c', c ≠ c' → ∀ path ∈ made c log, path ∉ made c' log
  /-- The name of the ROM is read back. -/
  name : restoredName p.folder = p.name
  /-- A restore extracts just the archives that were made. -/
  restored : result = true → ∀ (old : List Path) (f : Folder), (∀ a, f.has a = true ↔ p.file a ∈ old ++ allMade log) →
    ∀ path, path ∈ (extractedBy f (backedUp log)).map p.file ↔ path ∈ allMade log

/-- The selections and sizes for which a backup can be restored. -/
structure Restorable (inc : Selection) (sizes : Sizes) : Prop where
  /-- No `@` in the name of the ROM. -/
  name : '@' ∉ p.name
  /-- The system is not split. -/
  system : inc.incSystem = true → sizes.systemSize ≤ maxArchiveSize
  /-- Nor are the data. -/
  data : inc.incData = true → sizes.dataSize ≤ maxArchiveSize

end Backup

/-! ### Names -/

section Naming
variable (p : Place)

theorem romName_eq : p.romName = p.name := by
  have hext : p.extpath.length = 7 := by
    unfold Place.extpath
    split <;> rfl
  have hdrop : p.romPath.drop 8 = p.name := by
    rw [Place.romPath, List.drop_append, hext, List.drop_eq_nil_of_le (by omega)]
    rfl
  rw [Place.romName, hdrop]
  apply List.take_of_length_le
  rw [Place.romPath, List.length_append, List.length_cons, hext]
  omega

theorem getFilename_append (dir : Path) {name : Path} (h : '/' ∉ name) : getFilename (dir ++ '/' :: name) = name := by
  have hpos : ∀ c ∈ name.reverse, (c != '/') = true := by
    intro c hc
    rw [bne_iff_ne]
    rintro rfl
    exact h (List.mem_reverse.mp hc)
  rw [getFilename, List.reverse_append, List.reverse_cons, List.append_assoc, List.takeWhile_append_of_pos hpos]
  simp

/-- The name is read back just where it has no `@`. -/
theorem restoredName_eq_iff : restoredName p.folder = p.name ↔ '@' ∉ p.name := by
  have hslash : '/' ∉ p.backupName := by
    rw [Place.backupName, romName_eq, List.mem_append, List.mem_cons]
    rintro (h | h | h)
    · exact p.name_slash h
    · cases h
    · exact p.timestamp_slash h
  rw [restoredName, Place.folder, getFilename_append _ hslash, Place.backupName, romName_eq]
  constructor
  · intro h hat
    rw [← h] at hat
    simpa using List.mem_takeWhile_imp hat
  · intro h
    rw [List.takeWhile_append_of_pos]
    · simp
    · intro c hc
      rw [bne_iff_ne]
      rintro rfl
      exact h hc

theorem fileName_inj {c c' : Component} (h : c.fileName = c'.fileName) : c = c' := by
  cases c <;> cases c' <;> first | rfl | exact absurd h (by decide)

/-- Archives of different components differ in the first letter of their names. -/
theorem head_fileName (a : Archive) : a.fileName.head? = a.component.fileName.head? := by
  cases a with
  | whole c => rfl
  | part c index => cases c <;> rfl

theorem component_of_fileName_append {c : Component} {rest : Path} {a : Archive} (h : c.fileName ++ rest = a.fileName) :
    a.component = c := by
  have hhead : c.fileName.head? = a.component.fileName.head? := by
    rw [← head_fileName, ← h]
    cases c <;> rfl
  cases c <;> cases hc : a.component <;> first | rfl | (rw [hc] at hhead; exact absurd hhead (by decide))

end Naming

/-! ### Backups that are not split -/

section Whole
variable {p : Place}

/-- At most one archive is made for a component, under its name, and none for others. -/
def OwnArchive (p : Place) (c : Component) (log : List (Sigma Answer)) : Prop :=
  (made c log = [] ∨ made c log = [p.file (.whole c)]) ∧ ∀ c', c' ≠ c → made c' log = []

theorem backupWhole_post (c : Component) : Post (backupWhole p c) fun log _ => OwnArchive p c log := by
  have hown (r : Bool) {rest : List (Sigma Answer)} (hrest : ∀ c', made c' rest = []) :
      OwnArchive p c (⟨.archive c (p.fullBackupPath ++ c.fileName), r⟩ :: rest) := by
    refine ⟨.inr ?_, fun c' hc' => ?_⟩
    · have : made c (⟨.archive c (p.fullBackupPath ++ c.fileName), r⟩ :: rest) =
          [p.fullBackupPath ++ c.fileName] ++ made c rest := by
        simp [made, madeBy]
      rw [this, hrest]
      rfl
    · have : made c' (⟨.archive c (p.fullBackupPath ++ c.fileName), r⟩ :: rest) = made c' rest := by
        simp [made, madeBy, Ne.symm hc']
      rw [this, hrest]
  refine post_call (logs_ask _) fun ok => ?_
  cases ok with
  | false => exact post_pure (hown false fun _ => rfl)
  | true =>
    refine post_call (logs_ask _) fun full => ?_
    cases full with
    | false => exact post_pure (hown true fun _ => rfl)
    | true => exact post_pure (hown true fun _ => rfl)

theorem ownArchive_nil (c : Component) : OwnArchive p c [] := ⟨.inl rfl, fun _ _ => rfl⟩

theorem backupDir_post (c : Component) {selected : Bool} {size : Nat} (h : selected = true → size ≤ maxArchiveSize) (fn : Path) :
    Post (backupDir p c selected size fn) fun log _ => OwnArchive p c log := by
  refine post_ite (fun hsel => ?_) fun _ => ?_
  · refine post_ite (fun hlarge => ?_) fun _ => ?_
    · have := h hsel.1
      omega
    · exact backupWhole_post c
  · exact post_pure (ownArchive_nil c)

theorem backupBoot_post (selected : Bool) (size : Nat) : Post (backupBoot p selected size) fun log _ => OwnArchive p .boot log := by
  refine post_ite (fun _ => ?_) fun _ => ?_
  · refine post_bind (backupWhole_post .boot) fun l r hl => ?_
    apply post_pure
    rwa [List.append_nil]
  · exact post_pure (ownArchive_nil .boot)

theorem made_append (c : Component) (l l' : List (Sigma Answer)) : made c (l ++ l') = made c l ++ made c l' := by
  simp [made]

/-- Every component has at most one archive, under its name. -/
def OwnArchives (p : Place) (log : List (Sigma Answer)) : Prop := ∀ c, made c log = [] ∨ made c log = [p.file (.whole c)]

theorem ownArchives_of_parts {l₁ l₂ l₃ : List (Sigma Answer)} (h₁ : OwnArchive p .system l₁) (h₂ : OwnArchive p .data l₂)
    (h₃ : OwnArchive p .boot l₃) (r : Bool) : OwnArchives p (⟨.prepare, r⟩ :: (l₁ ++ (l₂ ++ l₃))) := by
  intro c
  have hmade : made c (⟨.prepare, r⟩ :: (l₁ ++ (l₂ ++ l₃))) = made c l₁ ++ (made c l₂ ++ made c l₃) := by
    simp [made, madeBy]
  rw [hmade]
  cases c with
  | system =>
    rw [h₂.2 _ (by decide), h₃.2 _ (by decide), List.append_nil, List.append_nil]
    exact h₁.1
  | data =>
    rw [h₁.2 _ (by decide), h₃.2 _ (by decide), List.append_nil, List.nil_append]
    exact h₂.1
  | boot =>
    rw [h₁.2 _ (by decide), h₂.2 _ (by decide), List.nil_append, List.nil_append]
    exact h₃.1

theorem backup_post {inc : Selection} {sizes : Sizes} (h : Restorable p inc sizes) :
    Post (backup p inc sizes) fun log _ => OwnArchives p log := by
  refine post_call (logs_ask _) fun prepared => ?_
  cases prepared with
  | false => exact post_pure (ownArchives_of_parts (ownArchive_nil _) (ownArchive_nil _) (ownArchive_nil _) _)
  | true =>
    refine post_bind (backupDir_post .system h.system []) fun l₁ r hl₁ => ?_
    cases r with
    | none => exact post_pure (ownArchives_of_parts hl₁ (ownArchive_nil _) (ownArchive_nil _) _)
    | some fn =>
      refine post_bind (backupDir_post .data h.data fn) fun l₂ r hl₂ => ?_
      cases r with
      | none => exact post_pure (ownArchives_of_parts hl₁ hl₂ (ownArchive_nil _) _)
      | some _ => exact (backupBoot_post _ _).mono fun l₃ _ hl₃ => ownArchives_of_parts hl₁ hl₂ hl₃ _

/-- A restore of single archives extracts those that are selected. -/
theorem extractedBy_eq {f : Folder} {inc : Selection} (hsystem : inc.incSystem = true → f.has (.whole .system) = true)
    (hdata : inc.incData = true → f.has (.whole .data) = true) :
    extractedBy f inc = (if inc.incSystem then [.whole .system] else []) ++ (if inc.incData then [.whole .data] else []) ++
      if inc.incBoot then [.whole .boot] else [] := by
  unfold extractedBy restoreRom restoreSelected
  cases hs : inc.incSystem <;> cases hd : inc.incData <;> cases hb : inc.incBoot <;>
    simp_all [restoreDir, clearDir, restoreBoot, clearBoot, ask, always]

theorem wellNamed_of_ownArchives {log : List (Sigma Answer)} (hname : '@' ∉ p.name) (h : OwnArchives p log) (result : Bool) :
    WellNamed p log result := by
  have hmem {c : Component} {path : Path} (hpath : path ∈ made c log) : path = p.file (.whole c) := by
    rcases h c with hc | hc
    · rw [hc] at hpath
      cases hpath
    · rw [hc] at hpath
      exact List.mem_singleton.mp hpath
  constructor
  · intro c path hpath
    exact ⟨.whole c, rfl, hmem hpath⟩
  · intro c c' hne path hpath hpath'
    have heq := (hmem hpath).symm.trans (hmem hpath')
    exact hne (fileName_inj (List.append_cancel_left heq))
  · exact (restoredName_eq_iff p).mpr hname
  · intro _ old f hf path
    have hhas {c : Component} (hc : made c log ≠ []) (hin : p.file (.whole c) ∈ made c log → p.file (.whole c) ∈ allMade log) :
        f.has (.whole c) = true := by
      rw [hf]
      apply List.mem_append_right
      apply hin
      rw [(h c).resolve_left hc]
      exact List.mem_singleton_self _
    have hsystem : (backedUp log).incSystem = true → f.has (.whole .system) = true :=
      fun hinc => hhas (of_decide_eq_true hinc) fun hin => by simp [allMade, hin]
    have hdata : (backedUp log).incData = true → f.has (.whole .data) = true :=
      fun hinc => hhas (of_decide_eq_true hinc) fun hin => by simp [allMade, hin]
    rw [extractedBy_eq hsystem hdata]
    unfold backedUp allMade
    rcases h .system with hs | hs <;> rcases h .data with hd | hd <;> rcases h .boot with hb | hb <;> simp [hs, hd, hb]

end Whole

/-! ### Backups that are -/

section Split
variable {p : Place} {inc : Selection} {sizes : Sizes}

/-- Everything succeeds, and what is split gives one part. -/
def onePart : (q : BackupCall) → Answer q
  | .split _ _ => (1, true)
  | .archive _ _ => true
  | .filled _ => true
  | .prepare => true

/-- A part that is made under no name is not in the folder. -/
theorem not_file_padded (a : Archive) : padded 3 0 ≠ p.file a := by
  intro h
  have hat : '@' ∈ p.file a := by
    simp [Place.file, Place.fullBackupPath, Place.folder, Place.backupName]
  rw [← h] at hat
  exact absurd hat (by decide)

/-- A part that is made under the name of the system is not one of the data. -/
theorem not_file_system {a : Archive} (ha : a.component = .data) : p.fullBackupPath ++ Component.fileName .system ++ padded 3 0 ≠ p.file a := by
  intro h
  rw [Place.file, List.append_assoc] at h
  have := component_of_fileName_append (List.append_cancel_left h)
  rw [ha] at this
  cases this

theorem mem_made_split {log : List (Sigma Answer)} {c : Component} {fn : Path}
    (h : ⟨.split c fn, (1, true)⟩ ∈ log) : fn ++ padded 3 0 ∈ made c log := by
  apply List.mem_flatMap.mpr
  exact ⟨_, h, by simp [madeBy]⟩

/-- The name that is set when the system is done. -/
theorem backupDir_onePart (c : Component) (selected : Bool) (size : Nat) (fn : Path) :
    ∃ fn', (backupDir p c selected size fn).eval onePart = some fn' ∧ (fn' = fn ∨ fn' = p.fullBackupPath ++ c.fileName) := by
  unfold backupDir
  split
  · split
    · exact ⟨fn, rfl, .inl rfl⟩
    · exact ⟨_, rfl, .inr rfl⟩
  · exact ⟨fn, rfl, .inl rfl⟩

theorem calls_backupDir {c : Component} {selected : Bool} {size : Nat} (hsel : selected = true) (hsize : maxArchiveSize < size) (fn : Path) :
    .split c fn ∈ (backupDir p c selected size fn).calls onePart := by
  rw [backupDir, if_pos ⟨hsel, Nat.zero_lt_of_lt hsize⟩, if_pos hsize]
  exact List.mem_cons_self

/-- A part is made for each component that is split. -/
theorem mem_made_of_calls {c : Component} {fn : Path} (h : .split c fn ∈ (backup p inc sizes).calls onePart) :
    fn ++ padded 3 0 ∈ made c (((backup p inc sizes).calls onePart).map fun q => ⟨q, onePart q⟩) :=
  mem_made_split (List.mem_map_of_mem (f := fun q => (⟨q, onePart q⟩ : Sigma Answer)) h)

theorem restorable_of_wellNamed (h : Post (backup p inc sizes) (WellNamed p)) : Restorable p inc sizes := by
  have hrun := h _ _ (runs_eval onePart (backup p inc sizes))
  have hprepare : prepare.eval onePart = true := rfl
  constructor
  · exact (restoredName_eq_iff p).mp hrun.name
  · intro hinc
    by_contra hsize
    have hcall : .split .system [] ∈ (backup p inc sizes).calls onePart := by
      simp only [backup, calls_bind, hprepare, if_true, List.mem_append]
      exact .inr (.inl (calls_backupDir hinc (Nat.lt_of_not_le hsize) []))
    obtain ⟨a, _, hpath⟩ := hrun.own .system _ (mem_made_of_calls hcall)
    exact not_file_padded a hpath
  · intro hinc
    by_contra hsize
    obtain ⟨fn, heval, hfn⟩ := backupDir_onePart (p := p) .system inc.incSystem sizes.systemSize []
    have hcall : .split .data fn ∈ (backup p inc sizes).calls onePart := by
      simp only [backup, calls_bind, hprepare, if_true, heval, List.mem_append]
      exact .inr (.inr (.inl (calls_backupDir hinc (Nat.lt_of_not_le hsize) fn)))
    obtain ⟨a, ha, hpath⟩ := hrun.own .data _ (mem_made_of_calls hcall)
    rcases hfn with rfl | rfl
    · exact not_file_padded a hpath
    · exact not_file_system ha hpath

end Split

/-- A backup is well named just where nothing is split and the name of the ROM has no `@`. -/
theorem wellNamed_iff_restorable (p : Place) (inc : Selection) (sizes : Sizes) :
    Post (backup p inc sizes) (WellNamed p) ↔ Restorable p inc sizes :=
  ⟨restorable_of_wellNamed, fun h => (backup_post h).mono fun _ result hlog => wellNamed_of_ownArchives h.name hlog result⟩

/-- A ROM called `rom`. -/
def romPlace : Place where
  useSdext2 := false
  name := "rom".toList
  backupFolder := "/sdcard/TWRP".toList
  timestamp := "2013-01-01--00-00-00".toList
  name_slash := by decide
  timestamp_slash := by decide

/-- A system that is too large for one archive. -/
theorem not_wellNamed_split : ¬ ∀ p inc sizes, Post (backup p inc sizes) (WellNamed p) := by
  intro h
  have hrestorable := restorable_of_wellNamed (h romPlace ⟨true, false, false⟩ ⟨1610612737, 0, 0⟩)
  exact absurd (hrestorable.system rfl) (by decide)

end Twrp.NativeSD
