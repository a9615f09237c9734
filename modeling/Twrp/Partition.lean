import Twrp.Base.Path

/-! The table of partitions, and how a list of selected paths is read.

Backups and restores go over a list of paths, each closed by a semicolon, and look every
path up in the table. A partition may have others that belong to it, which are handled
along with it. -/
namespace Twrp
open Base

/-- What places a partition in the table. -/
structure Slot where
  mountPoint : Path
  symlinkMountPoint : Path
  isPresent : Bool
  hasSubPartition : Bool
  isSubPartition : Bool
  subPartitionOf : Path
deriving DecidableEq

/-- `TWFunc::Get_Root_Path`: a leading slash, and nothing from the next slash on. -/
def getRootPath (path : Path) : Path :=
  let localPath := if path.head? = some '/' then path else '/' :: path
  localPath.take 2 ++ (localPath.drop 2).takeWhile (· != '/')

/-- The test of `Find_Partition_By_Path` for one entry. -/
def Slot.isAt (s : Slot) (localPath : Path) : Bool :=
  s.mountPoint = localPath || s.symlinkMountPoint ≠ [] && s.symlinkMountPoint = localPath

/-- `Find_Partition_By_Path`: the first entry there. -/
def findPartitionByPath {α : Type} (slot : α → Slot) (partitions : List α) (path : Path) : Option α :=
  partitions.find? fun p => (slot p).isAt (getRootPath path)

/-- The partition `s` belongs to `p`. -/
def Slot.isSubOf (s p : Slot) : Bool := s.isSubPartition && s.subPartitionOf = p.mountPoint

/-- The paths of a list: its pieces up to a semicolon. What stands after the last one is
not looked at. -/
def pieces (list : Path) : List Path := (list.splitOn ';').dropLast

example : pieces "/system;/data;boot".toList = ["/system".toList, "/data".toList] := by decide

end Twrp
