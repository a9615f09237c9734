import Twrp.Base.Process
import Twrp.Partition
import Twrp.Tar.Walk

/-! The restore of one partition.

`Restore` reads the method off the name of the backup: archives are unpacked onto a
freshly wiped partition, images are written over it. What can go wrong outside the recovery
itself are calls of the program: mounting, the tools that format, the unpacking in its own
process, the commands that write images. Which files the restore folder holds is a state of
its own, because the names of archives are looked up there again and again.

The calls of a wipe are marked as such (`Wiping`), so that a mount made by it is told from
the mount before the archives are unpacked. -/
namespace Twrp.Restore
open Base

/-! ### Calls -/

structure Partition extends Slot where
  /-- which object of the table this is -/
  id : Nat
  backupName : Path
  backupPath : Path
  storagePath : Path
  fstabFileSystem : Path
  /-- `Size`, as it was last found out -/
  size : Nat
  canBeWiped : Bool
  hasAndroidSecure : Bool
  hasDataMedia : Bool
  useRmRf : Bool
deriving DecidableEq

/-- What a wipe does. -/
inductive Wiping where
  | mount
  | unmount
  /-- is the tool in `/sbin`? -/
  | tool (name : Path)
  | format (name : Path)
  /-- the library call of builds with SELinux -/
  | makeExt4fs
  /-- `removeDir`, or the deletion of the entries of `/data` -/
  | removeDir
  | openData
  /-- `mtd_find_partition_by_name` -/
  | mtdFind
  /-- `mtd_erase_blocks` with what goes with it -/
  | mtdErase
  /-- `TW_DATA_PATH`, where `TW_DATA_ON_EXT` is set -/
  | dataOnExt
  | pathExists (path : Path)
  | rmRf (pattern : Path)
deriving DecidableEq

inductive Step where
  | wiping (p : Partition) (w : Wiping)
  | mount (p : Partition)
  /-- `Current_File_System` -/
  | fileSystem (p : Partition)
  /-- the first line of `.dataonext` -/
  | readDataPath (p : Partition)
  | tune2fs (p : Partition)
  | entryExists (p : Partition) (file entry : Path)
  /-- `TarExtract` -/
  | extract (p : Partition) (file dir : Path)
  /-- `Find_Partition_Size` -/
  | findSize (p : Partition)
  | fileSize (p : Partition) (file : Path)
  | dd (p : Partition) (file : Path)
  | eraseImage (p : Partition)
  | flashImage (p : Partition) (file : Path)
  | unyaffs (p : Partition) (file : Path)
  | mountStorage
  | uncompressedSize (p : Partition) (file : Path)
  | md5Exists (p : Partition) (file : Path)
  | verifyMD5 (p : Partition) (file : Path)
  /-- the tools that turn a boot backup into the image `image` -/
  | convert (p : Partition) (image : Path)
  /-- `clkpartmgr`, which changes the partition table -/
  | clkpartmgr
  /-- "Skipping '%s' partition." -/
  | skipping (p : Partition)
deriving DecidableEq

def Answer : Step → Type
  | .wiping _ (.format _) => Forked
  | .wiping _ (.rmRf _) => Forked
  | .wiping _ .dataOnExt => Option Path
  | .fileSystem _ => Path
  | .readDataPath _ => Path
  | .tune2fs _ => Forked
  | .extract _ _ _ => Forked
  | .findSize _ => Option Nat
  | .fileSize _ _ => Nat
  | .dd _ _ => Forked
  | .eraseImage _ => Forked
  | .flashImage _ _ => Forked
  | .uncompressedSize _ _ => Nat
  | .skipping _ => Unit
  | _ => Bool

abbrev Session (α : Type) := Prog Answer α

def mount (p : Partition) : Session Bool := Prog.ask (Step.mount p)
def currentFileSystem (p : Partition) : Session Path := Prog.ask (Step.fileSystem p)
def readDataPath (p : Partition) : Session Path := Prog.ask (Step.readDataPath p)
def tune2fs (p : Partition) : Session Forked := Prog.ask (Step.tune2fs p)
def tarEntryExists (p : Partition) (file entry : Path) : Session Bool := Prog.ask (Step.entryExists p file entry)
def tarExtract (p : Partition) (file dir : Path) : Session Forked := Prog.ask (Step.extract p file dir)
def findPartitionSize (p : Partition) : Session (Option Nat) := Prog.ask (Step.findSize p)
def getFileSize (p : Partition) (file : Path) : Session Nat := Prog.ask (Step.fileSize p file)
def execDD (p : Partition) (file : Path) : Session Forked := Prog.ask (Step.dd p file)
def eraseImage (p : Partition) : Session Forked := Prog.ask (Step.eraseImage p)
def flashImage (p : Partition) (file : Path) : Session Forked := Prog.ask (Step.flashImage p file)
def unyaffs (p : Partition) (file : Path) : Session Bool := Prog.ask (Step.unyaffs p file)

/-! ### Wiping -/

/-- What the build and the settings decide. -/
structure Settings where
  /-- built with `TW_DEVICE_IS_HTC_LEO` -/
  leo : Bool
  /-- `HAVE_SELINUX` and `USE_EXT4` -/
  ext4Function : Bool
  /-- the file systems of the optional formatters that were built in -/
  formatters : List Path
  /-- the optional file systems that `Is_File_System` knows -/
  fileSystems : List Path
  /-- `TW_RM_RF_VAR` -/
  rmRf : Bool

def askMount (p : Partition) : Session Bool := Prog.ask (Step.wiping p .mount)
def askUnMount (p : Partition) : Session Bool := Prog.ask (Step.wiping p .unmount)
def toolExists (p : Partition) (name : Path) : Session Bool := Prog.ask (Step.wiping p (.tool name))
def format (p : Partition) (name : Path) : Session Forked := Prog.ask (Step.wiping p (.format name))
def makeExt4fs (p : Partition) : Session Bool := Prog.ask (Step.wiping p .makeExt4fs)
def removeDir (p : Partition) : Session Bool := Prog.ask (Step.wiping p .removeDir)
def openData (p : Partition) : Session Bool := Prog.ask (Step.wiping p .openData)
def mtdFindPartitionByName (p : Partition) : Session Bool := Prog.ask (Step.wiping p .mtdFind)
def mtdErase (p : Partition) : Session Bool := Prog.ask (Step.wiping p .mtdErase)
def dataOnExt (p : Partition) : Session (Option Path) := Prog.ask (Step.wiping p .dataOnExt)
def dataPathExists (p : Partition) (path : Path) : Session Bool := Prog.ask (Step.wiping p (.pathExists path))
def execRmRf (p : Partition) (pattern : Path) : Session Forked := Prog.ask (Step.wiping p (.rmRf pattern))

/-- A formatter's result: the exit code of the tool has no part in it. -/
def formatWith (p : Partition) (name : Path) : Session Bool := do
  return (← format p name).result = 0

def wipeRMRF (p : Partition) : Session Bool := do
  if !(← askMount p) then return false
  let _ ← removeDir p
  return true

/-- `Wipe_FAT`, `Wipe_EXFAT`, `Wipe_F2FS`, `Wipe_NTFS` and `Wipe_NILFS2`, which differ in
the tool. -/
def wipeByTool (p : Partition) (name : Path) : Session Bool := do
  if !(← toolExists p name) then return ← wipeRMRF p
  if !(← askUnMount p) then return false
  formatWith p name

def wipeEXT23 (p : Partition) : Session Bool := do
  if !(← askUnMount p) then return false
  if !(← toolExists p "mke2fs".toList) then return ← wipeRMRF p
  formatWith p "mke2fs".toList

def wipeEXT4 (s : Settings) (p : Partition) : Session Bool := do
  if !(← askUnMount p) then return false
  if s.ext4Function then return ← makeExt4fs p
  if !(← toolExists p "make_ext4fs".toList) then return ← wipeEXT23 p
  formatWith p "make_ext4fs".toList

def wipeYAFFS2 (p : Partition) : Session Bool := do
  if !(← askUnMount p) then return false
  mtdErase p

def wipeMTD (p : Partition) : Session Bool := do
  if !(← mtdFindPartitionByName p) then return false
  formatWith p "erase_image".toList

def wipeDataWithoutWipingMedia (p : Partition) : Session Bool := do
  if !(← askMount p) then return false
  if !(← openData p) then return false
  let _ ← removeDir p
  return true

/-- The two `rm -rf` of a data folder on the card, whose results are not looked at. -/
def removeDataPath (p : Partition) (path : Path) : Session Unit := do
  if ← dataPathExists p path then
    let _ ← execRmRf p (join path ['*'])
    let _ ← execRmRf p (join path ['.', '*'])
  return ()

/-- The choice of a formatter. -/
def wipeAs (s : Settings) (p : Partition) (fs : Path) : Session Bool :=
  if s.rmRf || p.useRmRf then wipeRMRF p
  else if fs = "ext4".toList then wipeEXT4 s p
  else if fs = "ext2".toList ∨ fs = "ext3".toList then wipeEXT23 p
  else if fs = "vfat".toList then wipeByTool p "mkdosfs".toList
  else if fs = "yaffs2".toList then wipeYAFFS2 p
  else if fs = "f2fs".toList ∧ fs ∈ s.formatters then wipeByTool p "mkfs.f2fs".toList
  else if fs = "exfat".toList ∧ fs ∈ s.formatters then wipeByTool p "mkexfatfs".toList
  else if fs = "nilfs2".toList ∧ fs ∈ s.formatters then wipeByTool p "mkfs.nilfs2".toList
  else if fs = "ntfs".toList ∧ fs ∈ s.formatters then wipeByTool p "mkntfs".toList
  else if fs = "mtd".toList then wipeMTD p
  else return false

def sdExt : Path := "/sd-ext".toList

/-- `Wipe(New_File_System)`, up to what it does for later use once the partition is wiped. -/
def wipe (s : Settings) (p : Partition) (fs : Path) : Session Bool := do
  if !p.canBeWiped then return false
  let dataPath ← if s.leo && p.mountPoint = sdExt then dataOnExt p else pure none
  if dataPath.any (· ≠ sdExt) then
    if !(← askMount p) then return false
    removeDataPath p (dataPath.getD [])
    let _ ← askUnMount p
    return true
  if p.hasDataMedia then wipeDataWithoutWipingMedia p else wipeAs s p fs

def wipeAndSec (p : Partition) : Session Bool := do
  if !p.hasAndroidSecure then return false
  if !(← askMount p) then return false
  let _ ← removeDir p
  return true

/-! ### Archives -/

/-- The numbered archives from `index` on, while they are there. At most `fuel` of them
are; `extractParts_enough` says that this stops nothing. -/
def extractParts (folder : List Path) (p : Partition) (file : Path) : Nat → Nat → Session Bool
  | 0, _ => return true
  | fuel + 1, index => do
    if Tar.splitName file index ∉ folder then return index ≠ 0
    if (← tarExtract p (Tar.splitName file index) p.backupPath).result ≠ 0 then return false
    extractParts folder p file fuel (index + 1)

/-- The wipe of `sd-ext`, whose result is not looked at, and whether it is the whole
partition that is restored. -/
def wipeSdExt (s : Settings) (folder : List Path) (p : Partition) (fs : Path) : Session Bool := do
  if s.leo && ".dataonext".toList ∈ folder then
    let dataPath ← readDataPath p
    if dataPath = sdExt then
      let _ ← wipe s p fs
    else
      let _ ← askMount p
      removeDataPath p dataPath
      let _ ← askUnMount p
    return dataPath = p.backupPath
  let _ ← wipe s p fs
  return true

/-- What `Restore_Tar` wipes before it unpacks: nothing where this fails. -/
def wipeForTar (s : Settings) (folder : List Path) (p : Partition) (fs : Path) : Session (Option Bool) := do
  if p.backupName = "sd-ext".toList then return some (← wipeSdExt s folder p fs)
  if p.hasAndroidSecure then
    return if ← wipeAndSec p then some true else none
  return if ← wipe s p fs then some true else none

/-- Where a single archive is unpacked: backups of other recoveries hold the folder itself. -/
def tarDir (p : Partition) (file : Path) : Session Path := do
  if p.backupPath = sdExt then
    return if ← tarEntryExists p file "sd-ext/".toList then ['/'] else p.backupPath
  if p.backupPath = "/and-sec".toList then
    return if ← tarEntryExists p file ".android_secure/".toList then p.storagePath else p.backupPath
  return p.backupPath

def extractSingle (p : Partition) (file : Path) : Session Bool := do
  let dir ← tarDir p file
  return (← tarExtract p file dir).result = 0

def restoreTar (s : Settings) (folder : List Path) (p : Partition) (file fs : Path) : Session Bool := do
  match ← wipeForTar s folder p fs with
  | none => return false
  | some whole =>
    if (p.backupName = "sd-ext".toList ∨ p.backupName = "sdext2".toList) ∧ whole then
      let _ ← tune2fs p
    if !(← mount p) then return false
    if file ∈ folder then extractSingle p file
    else extractParts folder p file (folder.length + 1) 0

/-! ### Images -/

/-- The check before an image is written: it fits. -/
def imageFits (p : Partition) (file : Path) : Session Bool := do
  match ← findPartitionSize p with
  | none => return false
  | some size => return (← getFileSize p file) ≤ size

def restoreDD (p : Partition) (file : Path) : Session Bool := do
  if !(← imageFits p file) then return false
  let _ ← execDD p file
  return true

def restoreFlashImage (p : Partition) (file : Path) : Session Bool := do
  if !(← imageFits p file) then return false
  let _ ← eraseImage p
  let _ ← flashImage p file
  return true

/-- `Is_File_System` -/
def Settings.isFileSystem (s : Settings) (fs : Path) : Bool :=
  fs ∈ ["ext2".toList, "ext3".toList, "ext4".toList, "vfat".toList, "yaffs2".toList, "auto".toList] ||
    fs ∈ ["f2fs".toList, "nilfs2".toList, "ntfs".toList, "exfat".toList] && fs ∈ s.fileSystems

/-- `Wipe()`: as the file system it has, or the one of the table. -/
def wipeAsIs (s : Settings) (p : Partition) : Session Bool := do
  let fs ← currentFileSystem p
  wipe s p (if s.isFileSystem fs then fs else p.fstabFileSystem)

def restoreYaffsImage (s : Settings) (p : Partition) (file : Path) : Session Bool := do
  if !(← imageFits p file) then return false
  if !(← wipeAsIs s p) then return false
  if !(← mount p) then return false
  let _ ← unyaffs p file
  return true

/-! ### The method -/

/-- The part of a backup's name between its first two periods, a leading one apart, and
whether the second is there. -/
def betweenPeriods (file : Path) : Option (Path × Bool) :=
  if '.' ∉ file then none
  else
    let name := if file.head? = some '.' then file.tail else file
    -- with no further period `find` gives -1, and the whole of the name is taken
    let rest := if '.' ∈ name then (name.dropWhile (· != '.')).tail else name
    some (rest.takeWhile (· != '.'), '.' ∈ rest)

/-- `Restore_File_System`, where the name has one. -/
def restoreFileSystem (p : Partition) (file : Path) : Session (Option Path) := do
  match betweenPeriods file with
  | none => return none
  | some (fs, true) => return some fs
  | some (fs, false) =>
    if fs = "img".toList then
      return if (← currentFileSystem p) = "mtd".toList then some "mtd".toList else none
    return none

/-- `Restore`, of the backup `file`. -/
def restore (s : Settings) (folder : List Path) (p : Partition) (file : Path) (useUnyaffs : Bool) : Session Bool := do
  match ← restoreFileSystem p file with
  | none => return false
  | some fs =>
    if s.isFileSystem fs then
      if useUnyaffs then restoreYaffsImage s p file else restoreTar s folder p file fs
    else if fs = "emmc".toList then restoreDD p file
    else if fs = "mtd".toList ∨ fs = "bml".toList then restoreFlashImage p file
    else return false

end Twrp.Restore
