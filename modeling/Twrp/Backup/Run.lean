import Mathlib
import Twrp.Base.Process
import Twrp.Partition
import Twrp.Tar.Fork

/-! A backup of the selected partitions.

`Run_Backup` goes over the list of paths, backs each partition up by its own method
together with the partitions that belong to it, and writes digests. The steps that can
fail outside the recovery itself are calls of the program: mounting, the archiver and the
external commands in their processes, what files are there, and the digests.

What a child process did is part of the answer of its call (`Forked`), though the code
sees no more of it than `Wait_For_Child` returns. -/
namespace Twrp.Backup
open Base

/-! ### Calls -/

section Archiver
open Classical

/-- What the archiver did and what its parent returns, as the backup has them. -/
theorem archiver_result (a : Tar.Archiver) (run : ForkRun a.child) :
    (Forked.ofRun a.ChildFails run).result = run.result := Forked.result_ofRun a.ChildFails run

end Archiver

/-- How a partition is backed up. -/
inductive Method where
  | none
  | files
  | dd
  | flashUtils
deriving DecidableEq

structure Partition extends Slot where
  backupPath : Path
  backupName : Path
  currentFileSystem : Path
  method : Method
  backupSize : Nat
  canBeBackedUp : Bool
  canEncryptBackup : Bool
  useUserdataEncryption : Bool
  hasDataMedia : Bool
  dalvikCacheSize : Nat
deriving DecidableEq

/-- The external commands of a backup. -/
inductive Command where
  | dd
  | dumpImage
  /-- `echo` into `.dataonext` or `.nodalvikcache` -/
  | marker
deriving DecidableEq

inductive Step where
  | mountStorage
  | mkdir (path : Path)
  | mount (p : Partition)
  /-- `createTarFork`, `createTarGZFork` or `splitArchiveFork` -/
  | archive (p : Partition) (split : Bool)
  | command (p : Partition) (cmd : Command)
  | fileSize (p : Partition) (file : Path)
  | pathExists (p : Partition) (file : Path)
  /-- how many of the numbered files are there, from `000` on -/
  | parts (p : Partition) (file : Path)
  | computeMD5 (p : Partition) (file : Path)
  | writeMD5 (p : Partition) (file : Path)
deriving DecidableEq

def Answer : Step → Type
  | .archive _ _ => Forked
  | .command _ _ => Forked
  | .fileSize _ _ => Nat
  | .parts _ _ => Nat
  | _ => Bool

abbrev Session (α : Type) := Prog Answer α

def mount (p : Partition) : Session Bool := Prog.ask (Step.mount p)
def archiveFork (p : Partition) (split : Bool) : Session Forked := Prog.ask (Step.archive p split)
def execCmd (p : Partition) (cmd : Command) : Session Forked := Prog.ask (Step.command p cmd)
def getFileSize (p : Partition) (file : Path) : Session Nat := Prog.ask (Step.fileSize p file)
def pathExists (p : Partition) (file : Path) : Session Bool := Prog.ask (Step.pathExists p file)
def countParts (p : Partition) (file : Path) : Session Nat := Prog.ask (Step.parts p file)
def computeMD5 (p : Partition) (file : Path) : Session Bool := Prog.ask (Step.computeMD5 p file)
def writeMD5 (p : Partition) (file : Path) : Session Bool := Prog.ask (Step.writeMD5 p file)

/-! ### One partition -/

/-- What a backup reads besides the partitions. -/
structure Settings where
  /-- built with `TW_EXCLUDE_ENCRYPTED_BACKUPS` -/
  excludeEncrypted : Bool
  /-- `tw_encrypt_backup` -/
  useEncryption : Bool
  skipDalvik : Bool
  dataOnExt : Bool
  generateMD5 : Bool
  /-- the folder of the backup, with a slash after it -/
  folder : Path

def Partition.backupFileName (p : Partition) : Path :=
  p.backupName ++ '.' :: p.currentFileSystem ++ ".win".toList

/-- The empty data partition, which is skipped. -/
def Partition.emptyData (p : Partition) : Bool := p.backupPath = "/data".toList && p.backupSize < 2097152

/-- The end of `Backup_Tar`: files that tell what kind of backup this is. What their
commands return is not looked at. -/
def writeMarkers (s : Settings) (p : Partition) : Session Int := do
  if p.backupPath = "/sd-ext".toList ∧ s.dataOnExt then
    let _ ← execCmd p .marker
  if s.skipDalvik ∧ p.dalvikCacheSize > 0 then
    let _ ← execCmd p .marker
  return 1

def backupTar (s : Settings) (p : Partition) : Session Int := do
  if !(← mount p) then return 0
  if p.emptyData then return -1
  let file := s.folder ++ p.backupFileName
  if p.backupSize > Tar.maxArchiveSize then
    if (← archiveFork p true).result = -1 then return 0
    writeMarkers s p
  else
    let ret := (← archiveFork p false).result
    -- without encrypted backups a failing archiver counts as an empty one
    if ret ≠ 0 then return if s.excludeEncrypted then -1 else 0
    let first := if !s.excludeEncrypted && p.canEncryptBackup && s.useEncryption then file ++ "000".toList else file
    if (← getFileSize p first) = 0 then return -1
    writeMarkers s p

/-- `Backup_DD` and `Backup_Dump_Image`, which differ in the command only. -/
def backupImage (s : Settings) (p : Partition) (cmd : Command) : Session Int := do
  let _ ← execCmd p cmd
  if (← getFileSize p (s.folder ++ p.backupFileName)) = 0 then return -1
  return 1

def backup (s : Settings) (p : Partition) : Session Int :=
  match p.method with
  | .files => backupTar s p
  | .dd => backupImage s p .dd
  | .flashUtils => backupImage s p .dumpImage
  | .none => return 0

/-- The digests of numbered files. `return -1` from a `bool` is `true`. -/
def partsMD5 (p : Partition) (file : Path) : List Nat → Session Bool
  | [] => return true
  | index :: rest => do
    if !(← computeMD5 p (Tar.splitName file index)) then return true
    let _ ← writeMD5 p (Tar.splitName file index)
    partsMD5 p file rest

/-- `Make_MD5`. `write_md5digest` returns 0 whether or not the file was written. -/
def makeMD5 (s : Settings) (p : Partition) : Session Bool := do
  if !s.generateMD5 then return true
  let file := s.folder ++ p.backupFileName
  if ← pathExists p file then
    if ← computeMD5 p file then
      let _ ← writeMD5 p file
    return true
  else
    let count ← countParts p file
    if count = 0 then return false
    partsMD5 p file (List.range count)

/-- The loop over the partitions that belong to `part`. -/
def backupSubPartitions (s : Settings) (part : Partition) : List Partition → Session Bool
  | [] => return true
  | p :: rest => do
    if !(p.canBeBackedUp && p.toSlot.isSubOf part.toSlot) then return ← backupSubPartitions s part rest
    if (← backup s p) = 0 then return false
    if !(← makeMD5 s p) then return false
    backupSubPartitions s part rest

/-- `Backup_Partition`, without the times it estimates. -/
def backupPartition (s : Settings) (partitions : List Partition) (part : Partition) : Session Bool := do
  let res ← backup s part
  if res = -1 then return true
  if res ≠ 1 then return false
  if part.hasSubPartition then
    if !(← backupSubPartitions s part partitions) then return false
  makeMD5 s part

/-! ### The list -/

/-- What `Run_Backup` starts from. -/
structure Request where
  settings : Settings
  partitions : List Partition
  /-- `tw_backup_list` -/
  backupList : Path
  storagePath : Path
  /-- `Free` of the partition of the storage -/
  free : Nat
  skipFreeSpaceCheck : Bool

namespace Request

def find (r : Request) (path : Path) : Option Partition := findPartitionByPath Partition.toSlot r.partitions path

/-- The partitions of the list that are in the table. -/
def located (r : Request) : List Partition := (pieces r.backupList).filterMap r.find

/-- `file_bytes + img_bytes` of a partition and of what belongs to it. -/
def bytes (r : Request) (p : Partition) : Nat :=
  p.backupSize + if p.hasSubPartition then
    ((r.partitions.filter fun q => q.canBeBackedUp && q.isPresent && q.toSlot.isSubOf p.toSlot).map
      Partition.backupSize).sum
  else 0

def totalBytes (r : Request) : Nat := Tar.ull (r.located.map r.bytes).sum

/-- `free_space - (32 * 1024 * 1024) < total_bytes`, in 64 bits. -/
def tooLittleSpace (r : Request) : Bool :=
  !r.skipFreeSpaceCheck && Tar.ull (r.free + (18446744073709551616 - 33554432)) < r.totalBytes

end Request

/-- The second loop over the list. A path that is not in the table is passed over. -/
def backupAll (s : Settings) (partitions : List Partition) : List (Option Partition) → Session Bool
  | [] => return true
  | none :: rest => backupAll s partitions rest
  | some part :: rest => do
    if !(← backupPartition s partitions part) then return false
    backupAll s partitions rest

def mountCurrentStorage : Session Bool := Prog.ask Step.mountStorage
def recursiveMkdir (path : Path) : Session Bool := Prog.ask (Step.mkdir path)

def runBackup (r : Request) : Session Bool := do
  if !(← mountCurrentStorage) then return false
  if r.located = [] then return false
  if (r.find r.storagePath).isNone then return false
  if r.tooLittleSpace then return false
  if !(← recursiveMkdir r.settings.folder) then return false
  backupAll r.settings r.partitions ((pieces r.backupList).map r.find)

end Twrp.Backup
