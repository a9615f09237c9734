import Twrp.Base.CString

/-! Repartitioning the card (`TWPartitionManager::Partition_SDCard`).

The sizes are checked, the old table is removed, and then the partitions are made one after
the other, each from where the one before it ends. What was asked for is said apart from the
code (`requested`, `Follows`). The file system of the first partition is looked at only after
the table is gone, the signs of the other sizes are never looked at, and what is missing in
the fstab is found out when it is needed; when all that does not matter is `Proper`, exactly
(`partitionSDCard_fine_iff`). -/
namespace Twrp.Storage
open Base

/-! ### Commands -/

inductive Part where
  | sdcard
  | sdext
  | sdext2
  | swap
deriving DecidableEq

inductive Command where
  | swapoff
  /-- `rm -f` -/
  | rm (file : String)
  /-- `parted mklabel msdos` -/
  | mklabel
  /-- `parted mkpartfs primary`, or `mkpart` where no file system is named, from and to these MB -/
  | mkpart (part : Part) (fs : Option String) (start stop : Int)
  /-- a tool that makes a file system on the partition's device -/
  | mkfs (tool : CString) (part : Part)
  | mount (how : String)
  | umount
  | tune2fs (mounts : Int) (part : Part)
deriving DecidableEq

/-- The commands of parted and the tools that make file systems. -/
def Command.destroys : Command → Bool
  | .mklabel => true
  | .mkpart .. => true
  | .mkfs .. => true
  | _ => false

structure Range where
  part : Part
  start : Int
  stop : Int
deriving DecidableEq

def Command.range : Command → Option Range
  | .mkpart part _ start stop => some ⟨part, start, stop⟩
  | _ => none

inductive Outcome where
  | returned (ok : Bool)
  | rebooted
  /-- a null pointer is followed, an array overflows or a sum does -/
  | undefined
deriving DecidableEq

structure Run where
  commands : List Command
  outcome : Outcome
deriving DecidableEq

def Run.after (cs : List Command) (r : Run) : Run := {r with commands := cs ++ r.commands}

def stop (o : Outcome) : Run := ⟨[], o⟩

/-! ### What is read -/

/-- What there is before it starts. A partition is in the fstab or not, and unmounts or not. -/
structure Device where
  /-- `SD_Partitioning_Done_Once` -/
  doneOnce : Bool
  cache : Bool
  /-- `/cache/recovery` is there, and has no room for the settings file -/
  cacheFull : Bool
  sdcard : Option Bool
  sdext : Option Bool
  sdext2 : Option Bool
  /-- from `/proc/partitions`, where that can be opened; 0 where the device is not listed -/
  totalSize : Option (BitVec 32)
  /-- built with `TW_INCLUDE_MKNTFS` -/
  mkntfs : Bool
  /-- built with `TW_INCLUDE_EXFAT` -/
  exfat : Bool

structure Settings where
  sdextSize : BitVec 32
  sdext2Size : BitVec 32
  swapSize : BitVec 32
  numOfMounts : BitVec 32
  quickFormat : BitVec 32
  sdcardFs : CString
  sdextFs : CString
  sdext2Fs : CString

/-- What the commands return that are looked at, and what is found afterwards. -/
structure Answers where
  mklabel : Int
  sdext : Int
  sdext2 : Int
  setBootloaderMsg : Int
  mounted : Bool
  settingsCopied : Bool

/-! ### The sizes -/

structure Sizes where
  sdcard : Int
  sdext : Int
  sdext2 : Int
  swap : Int

def sizes (totalSize : BitVec 32) (u : Settings) : Sizes :=
  let sdext := u.sdextSize.toInt
  let sdext2 := if sdext = 0 then 0 else u.sdext2Size.toInt
  let swap := u.swapSize.toInt
  ⟨totalSize.toInt - (sdext + sdext2 + swap), sdext, sdext2, swap⟩

def IsInt (n : Int) : Prop := -2147483648 ≤ n ∧ n < 2147483648

instance (n : Int) : Decidable (IsInt n) := inferInstanceAs (Decidable (_ ∧ _))

/-- No sum of them overflows. -/
structure Sizes.Fit (z : Sizes) : Prop where
  two : IsInt (z.sdext + z.sdext2)
  three : IsInt (z.sdext + z.sdext2 + z.swap)
  rest : IsInt z.sdcard
  sdext : IsInt (z.sdcard + z.sdext)
  sdext2 : IsInt (z.sdcard + z.sdext + z.sdext2)

instance (z : Sizes) : Decidable z.Fit :=
  decidable_of_iff (IsInt (z.sdext + z.sdext2) ∧ IsInt (z.sdext + z.sdext2 + z.swap) ∧ IsInt z.sdcard ∧
      IsInt (z.sdcard + z.sdext) ∧ IsInt (z.sdcard + z.sdext + z.sdext2))
    ⟨fun ⟨h₁, h₂, h₃, h₄, h₅⟩ => ⟨h₁, h₂, h₃, h₄, h₅⟩, fun ⟨h₁, h₂, h₃, h₄, h₅⟩ => ⟨h₁, h₂, h₃, h₄, h₅⟩⟩

/-! ### The code, from its end -/

section Code
variable (d : Device) (u : Settings) (a : Answers) (z : Sizes)

/-- `boot_recovery`, with the partitions that were made. -/
def bootSdext : CString := ("recovery\\n--partition=" : CString) ++ "/dev/block/mmcblk0p2:" ++ u.sdextFs ++ " "

def bootSdext2 : CString := bootSdext u ++ "/dev/block/mmcblk0p3:" ++ u.sdext2Fs ++ " "

def mkfsTool (fs : CString) : CString :=
  if fs = "nilfs2" then "mkfs.nilfs2 " else ("mke2fs -t " : CString) ++ fs ++ " -m 0 "

/-- From the reboot on. -/
def formatStage (rebootNeeded : Bool) : Run :=
  if rebootNeeded ∧ a.setBootloaderMsg = 0 then stop .rebooted
  else
    Run.after (if 0 < z.sdext then [.mkfs (mkfsTool u.sdextFs) .sdext] else []) <|
    Run.after (if 0 < z.sdext ∧ 0 < z.sdext2 then [.mkfs (mkfsTool u.sdext2Fs) .sdext2] else []) <|
    Run.after (if 0 < z.sdext then [.tune2fs u.numOfMounts.toInt .sdext] else []) <|
    Run.after (if 0 < z.sdext ∧ 0 < z.sdext2 then [.tune2fs u.numOfMounts.toInt .sdext2] else []) <|
    stop (.returned true)

/-- From the swap partition on. Without a second or a third partition, that of the fstab becomes it. -/
def swapStage (rebootNeeded : Bool) : Run :=
  if 0 < z.swap then
    if z.sdext = 0 ∧ d.sdext = none then stop .undefined
    else if z.sdext ≠ 0 ∧ z.sdext2 = 0 ∧ d.sdext2 = none then stop .undefined
    else
      Run.after [.mkpart .swap (some "linux-swap") (z.sdcard + z.sdext + z.sdext2)
        (z.sdcard + z.sdext + z.sdext2 + z.swap)] (formatStage u a z rebootNeeded)
  else formatStage u a z rebootNeeded

def sdext2Stage (rebootNeeded : Bool) : Run :=
  if 0 < z.sdext ∧ 0 < z.sdext2 then
    if d.sdext2 = none then stop .undefined
    else if 1024 ≤ (bootSdext2 u).length then stop .undefined
    else
      Run.after [.mkpart .sdext2 (if u.sdext2Fs = "nilfs2" then none else some "ext2") (z.sdcard + z.sdext)
        (z.sdcard + z.sdext + z.sdext2)] (swapStage d u a z (rebootNeeded || a.sdext2 ≠ 0))
  else swapStage d u a z rebootNeeded

def sdextStage : Run :=
  if 0 < z.sdext then
    if d.sdext = none then stop .undefined
    else if 1024 ≤ (bootSdext u).length then stop .undefined
    else
      Run.after [.mkpart .sdext (if u.sdextFs = "nilfs2" then none else some "ext2") z.sdcard (z.sdcard + z.sdext)]
        (sdext2Stage d u a z (a.sdext ≠ 0))
  else sdext2Stage d u a z false

def mountCommand : List Command :=
  if u.sdcardFs = "vfat" then [.mount "mount"]
  else if u.sdcardFs = "ntfs" then [.mount "ntfs-3g -o rw,umask=0"]
  else [.mount "exfat-fuse -o nonempty,big_writes,max_read=131072,max_write=131072"]

/-- From the mount of the new card on. -/
def mountStage : Run :=
  Run.after (mountCommand u) <|
  if a.mounted then
    Run.after [.umount] <|
    if d.cache then
      Run.after (if a.settingsCopied then [.rm "/cache/recovery/.twrps"] else []) (sdextStage d u a z)
    else stop .undefined
  else sdextStage d u a z

/-- The first partition, by the file systems that the build knows. -/
def sdcardStage : Run :=
  if u.sdcardFs = "vfat" then Run.after [.mkpart .sdcard (some "fat32") 0 z.sdcard] (mountStage d u a z)
  else if d.mkntfs ∧ u.sdcardFs = "ntfs" then
    Run.after [.mkpart .sdcard none 0 z.sdcard, .mkfs (if u.quickFormat ≠ 0 then "mkntfs -vIf " else "mkntfs -vI ") .sdcard]
      (mountStage d u a z)
  else if d.exfat ∧ u.sdcardFs = "exfat" then
    Run.after [.mkpart .sdcard none 0 z.sdcard, .mkfs "mkexfatfs " .sdcard] (mountStage d u a z)
  else stop (.returned false)

/-- The checks before the table is removed. -/
def Refused : Prop :=
  u.sdcardFs = "" ∨ 0 < z.sdext ∧ u.sdextFs = "" ∨ 0 < z.sdext2 ∧ u.sdext2Fs = "" ∨ z.sdcard ≤ 0

instance : Decidable (Refused u z) := inferInstanceAs (Decidable (_ ∨ _))

def labelStage : Run :=
  if Refused u z then stop (.returned false)
  else Run.after [.mklabel] (if a.mklabel ≠ 0 then stop (.returned false) else sdcardStage d u a z)

/-- What returns false before the sizes are read. -/
def Unready : Prop :=
  d.doneOnce = true ∨ d.sdext2 = some false ∨ d.sdext = some false ∨ d.sdcard ≠ some true ∨ d.totalSize = none

/-- `Partition_SDCard` -/
def partitionSDCard : Run :=
  if d.doneOnce then stop (.returned false)
  else
    Run.after [.swapoff] <|
    if d.sdext2 = some false then stop (.returned false)
    else if d.sdext = some false then stop (.returned false)
    else
      match d.sdcard with
      | none => stop (.returned false)
      | some unmounts =>
        Run.after (if d.cache ∧ d.cacheFull then
          [.rm "/cache/recovery/last_log", .rm "/cache/recovery/last_install"] else []) <|
        if !unmounts then stop (.returned false)
        else
          match d.totalSize with
          | none => stop (.returned false)
          | some totalSize =>
            if (sizes totalSize u).Fit then labelStage d u a (sizes totalSize u) else stop .undefined

end Code

/-! ### What was asked for -/

/-- The partitions and their sizes; the card gets what the others leave. -/
def requested (z : Sizes) : List (Part × Int) :=
  [(.sdcard, z.sdcard), (.sdext, z.sdext), (.sdext2, z.sdext2), (.swap, z.swap)]

/-- Ranges that begin at `start`, each where the one before it ends, and end at `stop`. -/
def Follows (start : Int) : List Range → Int → Prop
  | [], stop => start = stop
  | r :: rest, stop => r.start = start ∧ Follows r.stop rest stop

structure Laid (z : Sizes) (total : Int) (made : List Range) : Prop where
  follows : Follows 0 made total
  sizes : made.map (fun r => (r.part, r.stop - r.start)) = (requested z).filter fun p => 0 < p.2

def Run.made (r : Run) : List Range := r.commands.filterMap Command.range

def Run.Done (r : Run) : Prop := r.outcome = .rebooted ∨ r.outcome = .returned true

/-- What the settings may lead to, whatever the commands return. -/
inductive Fine (d : Device) (u : Settings) (a : Answers) (r : Run) : Prop where
  /-- nothing was run that destroys anything -/
  | refused (outcome : r.outcome = .returned false) (commands : ∀ c ∈ r.commands, c.destroys = false)
  /-- the table could not be removed -/
  | unlabelled (label : a.mklabel ≠ 0) (outcome : r.outcome = .returned false)
      (commands : r.commands.filter (·.destroys) = [.mklabel])
  /-- it was removed, and all was made as it was asked for -/
  | repartitioned (label : a.mklabel = 0) (outcome : r.Done)
      (first : (r.commands.filter (·.destroys)).head? = some .mklabel)
      (laid : ∃ totalSize, d.totalSize = some totalSize ∧ Laid (sizes totalSize u) totalSize.toInt r.made)

/-! ### When it comes to that -/

section Proper
variable (d : Device) (u : Settings) (z : Sizes)

/-- A file system that the build can make on the card. -/
def Supported : Prop :=
  u.sdcardFs = "vfat" ∨ d.mkntfs = true ∧ u.sdcardFs = "ntfs" ∨ d.exfat = true ∧ u.sdcardFs = "exfat"

/-- What is in the fstab, and fits the message for the bootloader, of what is needed later. -/
structure Needs : Prop where
  sdext : 0 < z.sdext → d.sdext ≠ none ∧ (bootSdext u).length < 1024
  sdext2 : 0 < z.sdext → 0 < z.sdext2 → d.sdext2 ≠ none ∧ (bootSdext2 u).length < 1024
  swap : 0 < z.swap → z.sdext = 0 → d.sdext ≠ none
  swap2 : 0 < z.swap → z.sdext ≠ 0 → z.sdext2 = 0 → d.sdext2 ≠ none

structure Proper : Prop where
  supported : Supported d u
  sdext : 0 ≤ z.sdext
  sdext2 : 0 ≤ z.sdext2
  swap : 0 ≤ z.swap
  cache : d.cache = true
  needs : Needs d u z

end Proper

/-! ### The ranges -/

/-- The ranges from the second partition on. -/
def laterRanges (z : Sizes) : List Range :=
  (if 0 < z.sdext then [⟨.sdext, z.sdcard, z.sdcard + z.sdext⟩] else []) ++
    (if 0 < z.sdext ∧ 0 < z.sdext2 then [⟨.sdext2, z.sdcard + z.sdext, z.sdcard + z.sdext + z.sdext2⟩] else []) ++
      if 0 < z.swap then
        [⟨.swap, z.sdcard + z.sdext + z.sdext2, z.sdcard + z.sdext + z.sdext2 + z.swap⟩] else []

/-- They are what was asked for exactly where no size is negative. -/
theorem laid_iff {z : Sizes} (hcard : 0 < z.sdcard) (hzero : z.sdext = 0 → z.sdext2 = 0) :
    Laid z (z.sdcard + z.sdext + z.sdext2 + z.swap) (⟨.sdcard, 0, z.sdcard⟩ :: laterRanges z) ↔
      0 ≤ z.sdext ∧ 0 ≤ z.sdext2 ∧ 0 ≤ z.swap := by
  have hsplit : Laid z (z.sdcard + z.sdext + z.sdext2 + z.swap) (⟨.sdcard, 0, z.sdcard⟩ :: laterRanges z) ↔
      Follows 0 (⟨.sdcard, 0, z.sdcard⟩ :: laterRanges z) (z.sdcard + z.sdext + z.sdext2 + z.swap) ∧
        (⟨.sdcard, 0, z.sdcard⟩ :: laterRanges z).map (fun r => (r.part, r.stop - r.start)) =
          (requested z).filter fun p => 0 < p.2 :=
    ⟨fun h => ⟨h.follows, h.sizes⟩, fun h => ⟨h.1, h.2⟩⟩
  rw [hsplit]
  by_cases hs : 0 < z.sdext <;> by_cases hs2 : 0 < z.sdext2 <;> by_cases hw : 0 < z.swap <;>
    simp [laterRanges, requested, Follows, hcard, hs, hs2, hw] <;> omega

/-! ### The stages -/

theorem made_after (cs : List Command) (r : Run) : (Run.after cs r).made = cs.filterMap Command.range ++ r.made :=
  List.filterMap_append

theorem done_after (cs : List Command) (r : Run) : (Run.after cs r).Done ↔ r.Done := Iff.rfl

theorem outcome_after (cs : List Command) (r : Run) : (Run.after cs r).outcome = r.outcome := rfl

section Stages
variable (d : Device) (u : Settings) (a : Answers) (z : Sizes)

theorem formatStage_done (rebootNeeded : Bool) :
    (formatStage u a z rebootNeeded).Done ∧ (formatStage u a z rebootNeeded).made = [] := by
  unfold formatStage
  split
  · exact ⟨Or.inl rfl, rfl⟩
  · refine ⟨Or.inr rfl, ?_⟩
    simp only [made_after]
    split <;> split <;> rfl

theorem swapStage_done (rebootNeeded : Bool) (hswap : 0 < z.swap → z.sdext = 0 → d.sdext ≠ none)
    (hswap2 : 0 < z.swap → z.sdext ≠ 0 → z.sdext2 = 0 → d.sdext2 ≠ none) :
    (swapStage d u a z rebootNeeded).Done ∧ (swapStage d u a z rebootNeeded).made =
      if 0 < z.swap then [⟨.swap, z.sdcard + z.sdext + z.sdext2, z.sdcard + z.sdext + z.sdext2 + z.swap⟩] else [] := by
  obtain ⟨hdone, hmade⟩ := formatStage_done u a z rebootNeeded
  unfold swapStage
  by_cases hw : 0 < z.swap
  · have hone : ¬(z.sdext = 0 ∧ d.sdext = none) := fun h => hswap hw h.1 h.2
    have htwo : ¬(z.sdext ≠ 0 ∧ z.sdext2 = 0 ∧ d.sdext2 = none) := fun h => hswap2 hw h.1 h.2.1 h.2.2
    simp only [hw, hone, htwo, if_true, if_false]
    exact ⟨hdone, by rw [made_after, hmade]; rfl⟩
  · simp only [hw, if_false]
    exact ⟨hdone, hmade⟩

theorem swapStage_needs {rebootNeeded : Bool} (h : (swapStage d u a z rebootNeeded).outcome ≠ .undefined) :
    (0 < z.swap → z.sdext = 0 → d.sdext ≠ none) ∧
      (0 < z.swap → z.sdext ≠ 0 → z.sdext2 = 0 → d.sdext2 ≠ none) := by
  unfold swapStage at h
  constructor
  · intro hw hzero hnone
    rw [if_pos hw, if_pos ⟨hzero, hnone⟩] at h
    exact h rfl
  · intro hw hzero hzero2 hnone
    rw [if_pos hw, if_neg fun hand => hzero hand.1, if_pos ⟨hzero, hzero2, hnone⟩] at h
    exact h rfl

theorem sdextStage_done (h : Needs d u z) : (sdextStage d u a z).Done ∧ (sdextStage d u a z).made = laterRanges z := by
  have hlate (rebootNeeded : Bool) := swapStage_done d u a z rebootNeeded h.swap h.swap2
  unfold sdextStage sdext2Stage laterRanges
  by_cases hs : 0 < z.sdext
  · obtain ⟨hthere, hboot⟩ := h.sdext hs
    by_cases hs2 : 0 < z.sdext2
    · obtain ⟨hthere2, hboot2⟩ := h.sdext2 hs hs2
      simp only [hs, hs2, hthere, hthere2, Nat.not_le.mpr hboot, Nat.not_le.mpr hboot2, and_self, if_true, if_false,
        done_after, made_after, (hlate _).2]
      exact ⟨(hlate _).1, rfl⟩
    · simp only [hs, hs2, hthere, Nat.not_le.mpr hboot, and_false, if_true, if_false, done_after, made_after, (hlate _).2]
      exact ⟨(hlate _).1, rfl⟩
  · simp only [hs, false_and, if_false, (hlate _).2]
    exact ⟨(hlate _).1, rfl⟩

theorem sdextStage_needs (h : (sdextStage d u a z).outcome ≠ .undefined) : Needs d u z := by
  unfold sdextStage at h
  by_cases hs : 0 < z.sdext
  · rw [if_pos hs] at h
    by_cases hthere : d.sdext = none
    · rw [if_pos hthere] at h
      exact absurd rfl h
    · rw [if_neg hthere] at h
      by_cases hboot : 1024 ≤ (bootSdext u).length
      · rw [if_pos hboot] at h
        exact absurd rfl h
      · rw [if_neg hboot, outcome_after, sdext2Stage] at h
        by_cases hs2 : 0 < z.sdext2
        · rw [if_pos ⟨hs, hs2⟩] at h
          by_cases hthere2 : d.sdext2 = none
          · rw [if_pos hthere2] at h
            exact absurd rfl h
          · rw [if_neg hthere2] at h
            by_cases hboot2 : 1024 ≤ (bootSdext2 u).length
            · rw [if_pos hboot2] at h
              exact absurd rfl h
            · rw [if_neg hboot2, outcome_after] at h
              obtain ⟨hswap, hswap2⟩ := swapStage_needs d u a z h
              exact ⟨fun _ => ⟨hthere, Nat.not_le.mp hboot⟩, fun _ _ => ⟨hthere2, Nat.not_le.mp hboot2⟩, hswap, hswap2⟩
        · rw [if_neg fun hand => hs2 hand.2] at h
          obtain ⟨hswap, hswap2⟩ := swapStage_needs d u a z h
          exact ⟨fun _ => ⟨hthere, Nat.not_le.mp hboot⟩, fun _ hpos => absurd hpos hs2, hswap, hswap2⟩
  · rw [if_neg hs, sdext2Stage, if_neg fun hand => hs hand.1] at h
    obtain ⟨hswap, hswap2⟩ := swapStage_needs d u a z h
    exact ⟨fun hpos => absurd hpos hs, fun hpos => absurd hpos hs, hswap, hswap2⟩

theorem mountCommand_range : (mountCommand u).filterMap Command.range = [] := by
  unfold mountCommand
  split
  · rfl
  · split <;> rfl

theorem mountStage_done (hcache : d.cache = true) (h : Needs d u z) :
    (mountStage d u a z).Done ∧ (mountStage d u a z).made = laterRanges z := by
  obtain ⟨hdone, hmade⟩ := sdextStage_done d u a z h
  unfold mountStage
  rw [done_after, made_after, mountCommand_range, List.nil_append]
  cases a.mounted with
  | false => exact ⟨hdone, hmade⟩
  | true =>
    simp only [if_true, hcache, done_after, made_after, hmade]
    refine ⟨hdone, ?_⟩
    split <;> rfl

theorem mountStage_needs (hmounted : a.mounted = true) (h : (mountStage d u a z).outcome ≠ .undefined) :
    d.cache = true ∧ Needs d u z := by
  rw [mountStage, outcome_after, if_pos hmounted, outcome_after] at h
  by_cases hcache : d.cache = true
  · rw [if_pos hcache, outcome_after] at h
    exact ⟨hcache, sdextStage_needs d u a z h⟩
  · rw [if_neg hcache] at h
    exact absurd rfl h

/-- With a file system that the build knows, the first range comes before what is made later. -/
theorem sdcardStage_supported (h : Supported d u) : ∃ cs : List Command, sdcardStage d u a z = Run.after cs (mountStage d u a z) ∧
    cs.filterMap Command.range = [⟨.sdcard, 0, z.sdcard⟩] := by
  unfold sdcardStage
  by_cases hvfat : u.sdcardFs = "vfat"
  · rw [if_pos hvfat]
    exact ⟨_, rfl, rfl⟩
  · rw [if_neg hvfat]
    by_cases hntfs : d.mkntfs = true ∧ u.sdcardFs = "ntfs"
    · rw [if_pos hntfs]
      exact ⟨_, rfl, rfl⟩
    · rw [if_neg hntfs, if_pos ((h.resolve_left hvfat).resolve_left hntfs)]
      exact ⟨_, rfl, rfl⟩

theorem sdcardStage_unsupported (h : ¬Supported d u) : sdcardStage d u a z = stop (.returned false) := by
  unfold Supported at h
  push Not at h
  obtain ⟨hvfat, hntfs, hexfat⟩ := h
  rw [sdcardStage, if_neg hvfat, if_neg fun hand => hntfs hand.1 hand.2, if_neg fun hand => hexfat hand.1 hand.2]

end Stages

/-! ### The whole -/

section Whole
variable (d : Device) (u : Settings) (a : Answers)

/-- What is run before the sizes are read. -/
def early : List Command :=
  .swapoff :: if d.cache ∧ d.cacheFull then [.rm "/cache/recovery/last_log", .rm "/cache/recovery/last_install"] else []

theorem early_quiet : ∀ c ∈ early d, c.destroys = false := by
  unfold early
  split <;> simp [Command.destroys]

theorem partitionSDCard_unready (h : Unready d) :
    (partitionSDCard d u a).outcome = .returned false ∧ ∀ c ∈ (partitionSDCard d u a).commands, c.destroys = false := by
  have hquiet := early_quiet d
  unfold partitionSDCard
  by_cases hdone : d.doneOnce = true
  · rw [if_pos hdone]
    exact ⟨rfl, fun c hc => absurd hc List.not_mem_nil⟩
  · rw [if_neg hdone]
    by_cases hsdext2 : d.sdext2 = some false
    · rw [if_pos hsdext2]
      exact ⟨rfl, by simp [Run.after, stop, Command.destroys]⟩
    · rw [if_neg hsdext2]
      by_cases hsdext : d.sdext = some false
      · rw [if_pos hsdext]
        exact ⟨rfl, by simp [Run.after, stop, Command.destroys]⟩
      · rw [if_neg hsdext]
        cases hcard : d.sdcard with
        | none => exact ⟨rfl, by simp [Run.after, stop, Command.destroys]⟩
        | some unmounts =>
          cases unmounts with
          | false =>
            refine ⟨rfl, ?_⟩
            intro c hc
            exact hquiet c (by simpa [Run.after, stop, early] using hc)
          | true =>
            have htotal : d.totalSize = none := by
              unfold Unready at h
              simpa [hdone, hsdext2, hsdext, hcard] using h
            simp only [htotal]
            refine ⟨rfl, ?_⟩
            intro c hc
            exact hquiet c (by simpa [Run.after, stop, early] using hc)

theorem partitionSDCard_ready (h : ¬Unready d) {totalSize : BitVec 32} (htotal : d.totalSize = some totalSize) :
    partitionSDCard d u a = Run.after (early d)
      (if (sizes totalSize u).Fit then labelStage d u a (sizes totalSize u) else stop .undefined) := by
  unfold Unready at h
  push Not at h
  obtain ⟨hdone, hsdext2, hsdext, hcard, -⟩ := h
  rw [partitionSDCard, if_neg hdone, if_neg hsdext2, if_neg hsdext, hcard]
  simp only [htotal, Bool.not_true, Bool.false_eq_true, if_false]
  simp [Run.after, early]

theorem sizes_total (totalSize : BitVec 32) (u : Settings) :
    totalSize.toInt = (sizes totalSize u).sdcard + (sizes totalSize u).sdext + (sizes totalSize u).sdext2 +
      (sizes totalSize u).swap := by
  simp only [sizes]
  omega

theorem sizes_zero {totalSize : BitVec 32} {u : Settings} (h : (sizes totalSize u).sdext = 0) :
    (sizes totalSize u).sdext2 = 0 := if_pos h

theorem early_range : (early d).filterMap Command.range = [] := by
  unfold early
  split <;> rfl

theorem early_destroys : (early d).filter (·.destroys) = [] :=
  List.filter_eq_nil_iff.mpr fun c hc => by simp [early_quiet d c hc]

theorem label_destroys (r : Run) : (Run.after (early d) (Run.after [.mklabel] r)).commands.filter (·.destroys) =
    .mklabel :: r.commands.filter (·.destroys) := by
  show (early d ++ .mklabel :: r.commands).filter (·.destroys) = _
  rw [List.filter_append, early_destroys, List.nil_append, List.filter_cons_of_pos rfl]

variable {d u}

/-- Once the table can be removed, the rest is right only where it is proper. -/
theorem proper_of_fine (hready : ¬Unready d) {totalSize : BitVec 32} (htotal : d.totalSize = some totalSize)
    (hfit : (sizes totalSize u).Fit) (hrefused : ¬Refused u (sizes totalSize u))
    (h : ∀ a, Fine d u a (partitionSDCard d u a)) : Proper d u (sizes totalSize u) := by
  have hcard : 0 < (sizes totalSize u).sdcard := by
    unfold Refused at hrefused
    push Not at hrefused
    exact hrefused.2.2.2
  let a : Answers := ⟨0, 0, 0, 0, true, false⟩
  have hrun : partitionSDCard d u a = Run.after (early d) (Run.after [.mklabel] (sdcardStage d u a (sizes totalSize u))) := by
    rw [partitionSDCard_ready d u a hready htotal, if_pos hfit, labelStage, if_neg hrefused]
    rfl
  have hfine := h a
  rw [hrun] at hfine
  cases hfine with
  | refused _ commands =>
    have hlabel : Command.mklabel.destroys = false :=
      commands .mklabel (List.mem_append_right _ (List.mem_append_left _ (List.mem_singleton_self _)))
    cases hlabel
  | unlabelled label => exact absurd rfl label
  | repartitioned _ outcome _ laid =>
    rw [done_after, done_after] at outcome
    by_cases hsupported : Supported d u
    · obtain ⟨cs, hstage, hrange⟩ := sdcardStage_supported d u a (sizes totalSize u) hsupported
      have hdefined : (mountStage d u a (sizes totalSize u)).outcome ≠ .undefined := by
        rw [hstage, done_after] at outcome
        intro hbad
        rw [Run.Done, hbad] at outcome
        simp at outcome
      obtain ⟨hcache, hneeds⟩ := mountStage_needs d u a _ rfl hdefined
      obtain ⟨total, htotal', hlaid⟩ := laid
      obtain rfl : totalSize = total := Option.some.inj (htotal.symm.trans htotal')
      rw [made_after, early_range, made_after, hstage, made_after, hrange, (mountStage_done d u a _ hcache hneeds).2,
        sizes_total] at hlaid
      obtain ⟨hs, hs2, hw⟩ := (laid_iff hcard sizes_zero).mp hlaid
      exact ⟨hsupported, hs, hs2, hw, hcache, hneeds⟩
    · rw [sdcardStage_unsupported d u a _ hsupported] at outcome
      obtain hbad | hbad := outcome
      · cases hbad
      · cases hbad

/-- Where it is, it is right. -/
theorem fine_of_proper (hready : ¬Unready d) {totalSize : BitVec 32} (htotal : d.totalSize = some totalSize)
    (hfit : (sizes totalSize u).Fit) (h : Refused u (sizes totalSize u) ∨ Proper d u (sizes totalSize u)) (a : Answers) :
    Fine d u a (partitionSDCard d u a) := by
  rw [partitionSDCard_ready d u a hready htotal, if_pos hfit, labelStage]
  by_cases hrefused : Refused u (sizes totalSize u)
  · rw [if_pos hrefused]
    apply Fine.refused rfl
    intro c hc
    exact early_quiet d c (by simpa [Run.after, stop] using hc)
  · have hproper := h.resolve_left hrefused
    have hcard : 0 < (sizes totalSize u).sdcard := by
      unfold Refused at hrefused
      push Not at hrefused
      exact hrefused.2.2.2
    rw [if_neg hrefused]
    by_cases hlabel : a.mklabel ≠ 0
    · rw [if_pos hlabel]
      apply Fine.unlabelled hlabel rfl
      rw [label_destroys]
      rfl
    · rw [if_neg hlabel]
      obtain ⟨cs, hstage, hrange⟩ := sdcardStage_supported d u a (sizes totalSize u) hproper.supported
      obtain ⟨hdone, hmade⟩ := mountStage_done d u a _ hproper.cache hproper.needs
      apply Fine.repartitioned (not_not.mp hlabel)
      · rw [done_after, done_after, hstage, done_after]
        exact hdone
      · rw [label_destroys]
        rfl
      · refine ⟨totalSize, htotal, ?_⟩
        rw [made_after, early_range, made_after, hstage, made_after, hrange, hmade, sizes_total]
        exact (laid_iff hcard sizes_zero).mpr ⟨hproper.sdext, hproper.sdext2, hproper.swap⟩

variable (d u)

end Whole

/-- A card of 8000 MB, with all partitions in the fstab. -/
def newDevice : Device where
  doneOnce := false
  cache := true
  cacheFull := false
  sdcard := some true
  sdext := some true
  sdext2 := some true
  totalSize := some 8000
  mkntfs := false
  exfat := false

def ntfsSettings : Settings where
  sdextSize := 512
  sdext2Size := 0
  swapSize := 32
  numOfMounts := 30
  quickFormat := 0
  sdcardFs := "ntfs"
  sdextFs := "ext4"
  sdext2Fs := "ext4"

example : (partitionSDCard newDevice {ntfsSettings with sdcardFs := "vfat"} ⟨0, 0, 0, 0, true, false⟩).made =
    [⟨.sdcard, 0, 7456⟩, ⟨.sdext, 7456, 7968⟩, ⟨.swap, 7968, 8000⟩] := by decide

end Twrp.Storage
