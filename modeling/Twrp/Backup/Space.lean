import Twrp.Backup.Run
import Twrp.NativeSD.Backup
import Twrp.Tar.Division

/-! The free space that a backup asks for.

`Run_Backup` and `TWNativeSDManager::Backup` compare the free space less 32 MB with the size
of what is to be written, in unsigned numbers of 64 bits. The difference wraps around where
less than 32 MB are free, and the second adds up the three directories of a ROM, chosen or
not. -/
namespace Twrp

open Base Prog

/-- The 32 MB that are asked for on top. -/
def reserve : Nat := 33554432

/-- `free_space - (32 * 1024 * 1024) < total_bytes` does not hold. -/
def enough (free total : Nat) : Bool := !(Tar.ull (free + (18446744073709551616 - reserve)) < total)

/-- The comparison without its unsigned difference. -/
theorem enough_iff {free total : Nat} (hfree : free < 18446744073709551616) :
    enough free total = true ↔
      reserve ≤ free ∧ total + reserve ≤ free ∨
        free < reserve ∧ total ≤ free + (18446744073709551616 - reserve) := by
  have hull : Tar.ull (free + (18446744073709551616 - reserve)) =
      if reserve ≤ free then free - reserve else free + (18446744073709551616 - reserve) := by
    unfold Tar.ull reserve
    split <;> omega
  simp only [enough, Bool.not_eq_true', decide_eq_false_iff_not, not_lt, hull]
  unfold reserve
  split <;> omega

namespace Backup

/-- A backup whose check is not skipped, of at least one partition, onto a storage that is
known. -/
structure Checked where
  request : Request
  notSkipped : request.skipFreeSpaceCheck = false
  chosen : request.located ≠ []
  storage : (request.find request.storagePath).isSome
  free_lt : request.free < 18446744073709551616

namespace Checked
variable (c : Checked)

/-- The size of the partitions of the list and of what belongs to them. -/
def chosenBytes : Nat := (c.request.located.map c.request.bytes).sum

/-- The backup goes on to its folder and the archives. -/
def Proceeds : Prop :=
  ∃ log ok, Runs (runBackup c.request) log ok ∧ ∃ answer, ⟨.mkdir c.request.settings.folder, answer⟩ ∈ log

/-- The check is what it is meant to be. -/
def Sound : Prop := c.Proceeds ↔ c.chosenBytes + reserve ≤ c.request.free

/-- Neither the difference nor the sum wraps around, or one that does is still too small or
too large. -/
def Unwrapped : Prop :=
  reserve ≤ c.request.free ∧
      (c.chosenBytes < 18446744073709551616 ∨ c.request.free < Tar.ull c.chosenBytes + reserve) ∨
    c.request.free < reserve ∧ c.request.free + (18446744073709551616 - reserve) < Tar.ull c.chosenBytes

theorem tooLittleSpace_eq : c.request.tooLittleSpace = !enough c.request.free (Tar.ull c.chosenBytes) := by
  simp only [Request.tooLittleSpace, Request.totalBytes, enough, reserve, chosenBytes, c.notSkipped, Bool.not_false,
    Bool.true_and, Bool.not_not]
  exact decide_eq_decide.mpr Iff.rfl

/-- The run in which every call succeeds makes the folder, and no run does after a check that
fails. -/
theorem proceeds_iff : c.Proceeds ↔ enough c.request.free (Tar.ull c.chosenBytes) = true := by
  have htoo := c.tooLittleSpace_eq
  have hlocated : (c.request.located = []) = False := eq_false c.chosen
  have hstorage : (c.request.find c.request.storagePath).isNone = false := by
    simpa using c.storage
  constructor
  · intro ⟨log, ok, hruns, answer, hmem⟩
    by_contra hnot
    rw [Bool.not_eq_true] at hnot
    have hcalls : (runBackup c.request).All fun q => q = .mountStorage := by
      unfold runBackup
      refine all_bind (all_ask rfl : mountCurrentStorage.All fun q => q = .mountStorage) ?_
      intro mounted
      simp only [hlocated, hstorage, htoo, hnot, Bool.not_false, Bool.false_eq_true, if_false, if_true]
      cases mounted
      · exact all_pure _
      · exact all_pure _
    exact absurd (hruns.all hcalls _ hmem) (by simp)
  · intro henough
    refine ⟨[⟨.mountStorage, true⟩, ⟨.mkdir c.request.settings.folder, false⟩], false, ?_, false, by simp⟩
    unfold runBackup
    refine runs_bind.mpr ⟨[⟨.mountStorage, true⟩], true, _, rfl, runs_ask.mpr rfl, ?_⟩
    simp only [hlocated, hstorage, htoo, henough, Bool.not_true, Bool.false_eq_true, if_false]
    refine runs_bind.mpr ⟨[⟨.mkdir c.request.settings.folder, false⟩], false, [], rfl, runs_ask.mpr rfl, ?_⟩
    exact .done false

theorem sound_iff_unwrapped : c.Sound ↔ c.Unwrapped := by
  have hlt := Tar.ull_lt c.chosenBytes
  have hle := Tar.ull_le c.chosenBytes
  have hsmall : c.chosenBytes < 18446744073709551616 → Tar.ull c.chosenBytes = c.chosenBytes := Nat.mod_eq_of_lt
  have hfree := c.free_lt
  unfold Sound Unwrapped
  rw [c.proceeds_iff, enough_iff hfree]
  unfold reserve
  omega

end Checked

end Backup

namespace NativeSD

/-- What `Backup` of a ROM is given. -/
structure Asked where
  place : Place
  inc : Selection
  sizes : Sizes
  /-- `Free` of the partition of the storage -/
  free : Nat
  free_lt : free < 18446744073709551616

namespace Asked
variable (a : Asked)

/-- The size of the three directories. -/
def allBytes : Nat := a.sizes.systemSize + a.sizes.dataSize + a.sizes.bootSize

/-- `total_bytes` -/
def totalBytes : Nat := Tar.ull a.allBytes

/-- `Backup` with its check of the free space. The mounts and the folder before it are part of
`prepare`. -/
def checkedBackup : BackupSession Bool :=
  if enough a.free a.totalBytes then NativeSD.backup a.place a.inc a.sizes else pure false

/-- The size of the directories that are chosen. -/
def chosenBytes : Nat :=
  (if a.inc.incSystem then a.sizes.systemSize else 0) + (if a.inc.incData then a.sizes.dataSize else 0) +
    if a.inc.incBoot then a.sizes.bootSize else 0

/-- The backup goes on to the archives. -/
def Proceeds : Prop := ∃ log ok, Runs a.checkedBackup log ok ∧ ∃ answer, ⟨.prepare, answer⟩ ∈ log

def Sound : Prop := a.Proceeds ↔ a.chosenBytes + reserve ≤ a.free

/-- The free space is at least 32 MB and not between what the chosen directories and what all
of them ask for, or what wraps around is still too small or too large. -/
def Unwrapped : Prop :=
  reserve ≤ a.free ∧
      (a.free < a.chosenBytes + reserve ∧ a.free < Tar.ull a.allBytes + reserve ∨
        a.chosenBytes + reserve ≤ a.free ∧ Tar.ull a.allBytes + reserve ≤ a.free) ∨
    a.free < reserve ∧ a.free + (18446744073709551616 - reserve) < Tar.ull a.allBytes

theorem proceeds_iff : a.Proceeds ↔ enough a.free a.totalBytes = true := by
  unfold Proceeds checkedBackup
  by_cases henough : enough a.free a.totalBytes = true
  · simp only [henough, if_true, iff_true]
    refine ⟨[⟨.prepare, false⟩], false, ?_, false, by simp⟩
    unfold NativeSD.backup
    refine runs_bind.mpr ⟨[⟨.prepare, false⟩], false, [], rfl, runs_ask.mpr rfl, ?_⟩
    exact .done false
  · rw [Bool.not_eq_true] at henough
    simp only [henough, Bool.false_eq_true, if_false, iff_false]
    intro ⟨log, ok, hruns, answer, hmem⟩
    obtain ⟨rfl, -⟩ := runs_pure.mp hruns
    cases hmem

theorem sound_iff_unwrapped : a.Sound ↔ a.Unwrapped := by
  have hfree := a.free_lt
  unfold Sound Unwrapped
  rw [a.proceeds_iff, enough_iff hfree, totalBytes]
  unfold reserve
  omega

end Asked

end NativeSD

/-- **The free space check of both backups** asks for the size of what is chosen and 32 MB
exactly where nothing wraps around and, for a ROM, where the directories that are not chosen
make no difference. -/
theorem space_sound_iff (c : Backup.Checked) (a : NativeSD.Asked) :
    (c.Sound ↔ c.Unwrapped) ∧ (a.Sound ↔ a.Unwrapped) := ⟨c.sound_iff_unwrapped, a.sound_iff_unwrapped⟩

/-- A boot partition of a megabyte, onto a storage that has nothing left. -/
def fullStorage : Backup.Checked where
  request :=
    { settings := ⟨false, false, false, false, false, "/s/".toList⟩
      partitions :=
        [{ mountPoint := "/boot".toList, symlinkMountPoint := [], isPresent := true, hasSubPartition := false,
           isSubPartition := false, subPartitionOf := [], backupPath := "/boot".toList, backupName := "boot".toList,
           currentFileSystem := "emmc".toList, method := .dd, backupSize := 1048576, canBeBackedUp := true,
           canEncryptBackup := false, useUserdataEncryption := false, hasDataMedia := false, dalvikCacheSize := 0 }]
      backupList := "/boot;".toList
      storagePath := "/boot".toList
      free := 0
      skipFreeSpaceCheck := false }
  notSkipped := rfl
  chosen := by decide
  storage := by decide
  free_lt := by decide

theorem rom_slash : '/' ∉ "rom".toList := by decide

/-- The boot files of a ROM, which fit, with a system that is not chosen and would not. -/
def bootOnly : NativeSD.Asked where
  place := ⟨false, "rom".toList, "/b".toList, "t".toList, rom_slash, by decide⟩
  inc := ⟨false, false, true⟩
  sizes := ⟨1048576, 0, 1048576⟩
  free := reserve + 1048576
  free_lt := by decide

theorem not_space_sound : ¬fullStorage.Sound ∧ ¬bootOnly.Sound := by
  rw [Backup.Checked.sound_iff_unwrapped, NativeSD.Asked.sound_iff_unwrapped]
  unfold Backup.Checked.Unwrapped NativeSD.Asked.Unwrapped
  decide

end Twrp
