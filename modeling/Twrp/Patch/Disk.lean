import Twrp.Patch.Image
import Twrp.Base.Crash
import Twrp.Base.Path

/-! The files and partitions that a patch is applied to.

A disk is the contents of the ordinary files and of the partitions. The calls of `applypatch`
act on it as the system does: a read gives the content or fails, a write appends some of the
bytes or fails, an unlink or a rename is done or not. A name that starts with `MTD:` or `EMMC:`
is given by its fields: the partition and the pairs of a size and a SHA-1 that it lists. -/
namespace Twrp.Patch
open Base

/-! ### Names and contents -/

abbrev Digest := Bytes

inductive PartitionType where
  | MTD
  | EMMC
deriving DecidableEq

structure Partition where
  type : PartitionType
  device : Path
  pairs : List (Nat × CString)
deriving DecidableEq

inductive Name where
  | file (path : Path)
  | part (p : Partition)
deriving DecidableEq

def Name.isPart : Name → Bool
  | file _ => false
  | part _ => true

structure Stat where
  mode : Nat
  uid : Nat
  gid : Nat
deriving DecidableEq

structure FileContents where
  sha1 : Digest
  data : Option Bytes
  size : Int
  st : Stat
deriving DecidableEq

structure Disk where
  files : Path → Option Bytes
  parts : PartitionType → Path → Bytes

def CACHE_TEMP_SOURCE : Path := "/cache/saved.file".toList

/-- SHA-1, and `retouch_mask_data`, which puts the retouched words of a binary back in place. -/
structure Tools extends Codec where
  sha1 : Bytes → Digest
  mask : Bytes → Option Bytes
  mask_length : ∀ {data masked}, mask data = some masked → masked.length = data.length

/-! ### Calls -/

/-- How a read or a write of a device ends. -/
inductive DeviceAnswer (α : Type) where
  | got (a : α)
  | interrupted
  | error

/-- How writing an MTD partition ends: reported as failed, or as done, with every block in its
place or with a block left out that is not marked bad. -/
inductive MtdAnswer where
  | failed
  | written
  | skipped

inductive Call where
  /-- A `FileContents` on the stack. -/
  | uninit
  | stat (path : Path)
  | readFile (path : Path)
  | openPart (type : PartitionType) (device : Path)
  | readPart (type : PartitionType) (device : Path) (pos len : Nat)
  /-- `open` with `O_WRONLY | O_CREAT | O_TRUNC`. -/
  | create (path : Path)
  | write (path : Path) (data : Bytes)
  | chmod (path : Path) (st : Stat)
  | chown (path : Path) (st : Stat)
  | unlink (path : Path)
  | rename (path path' : Path)
  | freeSpace (path : Path)
  | listDir (dir : Path)
  | isRegular (path : Path)
  /-- The links of all open descriptors in `/proc`. -/
  | openFiles
  | malloc (size : Nat)
  | openMtd (device : Path)
  /-- How many blocks of an MTD partition are erased and written on the way. -/
  | mtdBlocks (device : Path)
  | mtdBlock (device : Path)
  | mtdClose (device : Path) (data : Bytes)
  | openDevice (device : Path)
  | writeDevice (device : Path) (pos : Nat) (data : Bytes)
  | readDevice (device : Path) (pos len : Nat)
  | closeDevice (device : Path)
  /-- How often a loop that need not end goes round before the program is given up. -/
  | patience
  | hang

def Answer : Call → Type
  | .uninit => FileContents
  | .stat _ => Option (Nat × Stat)
  | .readFile _ => Option Bytes
  | .openPart _ _ => Bool
  | .readPart _ _ _ _ => Option Bytes
  | .create _ => Bool
  | .write _ _ => Int
  | .chmod _ _ => Bool
  | .chown _ _ => Bool
  | .unlink _ => Bool
  | .rename _ _ => Bool
  | .freeSpace _ => Nat
  | .listDir _ => Option (List Path)
  | .isRegular _ => Bool
  | .openFiles => Option (List Path)
  | .malloc _ => Bool
  | .openMtd _ => Bool
  | .mtdBlocks _ => Nat
  | .mtdBlock _ => Unit
  | .mtdClose _ _ => MtdAnswer
  | .openDevice _ => Bool
  | .writeDevice _ _ _ => DeviceAnswer Nat
  | .readDevice _ _ _ => DeviceAnswer Bytes
  | .closeDevice _ => Bool
  | .patience => Nat
  | .hang => Empty

abbrev Io (α : Type) := Prog Answer α

def Disk.setFile (d : Disk) (path : Path) (content : Option Bytes) : Disk :=
  {d with files := Function.update d.files path content}

def Disk.setPart (d : Disk) (type : PartitionType) (device : Path) (content : Bytes) : Disk :=
  {d with parts := Function.update d.parts type (Function.update (d.parts type) device content)}

/-- What a call may be answered and what it does. -/
def Disk.step (d : Disk) : (q : Call) → Answer q → Disk → Prop
  | .stat path, r, d' => d' = d ∧ ∀ size st, r = some (size, st) → ∃ bytes, d.files path = some bytes ∧ size = bytes.length
  | .readFile path, r, d' => d' = d ∧ ∀ bytes, r = some bytes → d.files path = some bytes
  | .readPart type device pos len, r, d' => d' = d ∧ ∀ bytes, r = some bytes →
      bytes = ((d.parts type device).drop pos).take len ∧ bytes.length = len
  | .create path, (r : Bool), d' => d' = if r then d.setFile path (some []) else d
  | .write path data, (r : Int), d' => r ≤ data.length ∧
      d' = if r ≤ 0 then d else d.setFile path (some ((d.files path).getD [] ++ data.take r.toNat))
  | .unlink path, (r : Bool), d' => d' = if r then d.setFile path none else d
  | .rename path path', (r : Bool), d' =>
      d' = if r then (d.setFile path' (d.files path)).setFile path none else d
  | .listDir _, r, d' => d' = d ∧ ∀ names, r = some names → ∀ name ∈ names, '/' ∉ name
  | .isRegular path, (r : Bool), d' => d' = d ∧ (r = true → d.files path ≠ none)
  | .mtdBlock device, _, d' => ∃ content, d' = d.setPart .MTD device content
  | .mtdClose device data, r, d' => ∃ content, d' = d.setPart .MTD device content ∧ (r = .written → data <+: content)
  | .writeDevice device pos data, r, d' => ∃ stored : Bytes,
      d' = d.setPart .EMMC device
        ((d.parts .EMMC device).take pos ++ stored ++ (d.parts .EMMC device).drop (pos + stored.length)) ∧
      match r with
      | .got n => n ≤ data.length ∧ stored.length = n ∧ pos + n ≤ (d.parts .EMMC device).length
      | _ => stored = []
  | .readDevice device pos len, r, d' => d' = d ∧ match r with
      | .got bytes => bytes.length ≤ len ∧ bytes = ((d.parts .EMMC device).drop pos).take bytes.length
      | _ => True
  | .hang, _, _ => False
  | _, _, d' => d' = d

/-- A loop that does not end. -/
def hang {α : Type} : Io α := .call .hang fun r => r.elim

/-! ### The calls -/

namespace Sys

abbrev uninit : Io FileContents := Prog.ask Call.uninit
abbrev stat (path : Path) : Io (Option (Nat × Stat)) := Prog.ask (Call.stat path)
abbrev readFile (path : Path) : Io (Option Bytes) := Prog.ask (Call.readFile path)
abbrev openPart (type : PartitionType) (device : Path) : Io Bool := Prog.ask (Call.openPart type device)
abbrev readPart (type : PartitionType) (device : Path) (pos len : Nat) : Io (Option Bytes) :=
  Prog.ask (Call.readPart type device pos len)
abbrev create (path : Path) : Io Bool := Prog.ask (Call.create path)
abbrev write (path : Path) (data : Bytes) : Io Int := Prog.ask (Call.write path data)
abbrev chmod (path : Path) (st : Stat) : Io Bool := Prog.ask (Call.chmod path st)
abbrev chown (path : Path) (st : Stat) : Io Bool := Prog.ask (Call.chown path st)
abbrev unlink (path : Path) : Io Bool := Prog.ask (Call.unlink path)
abbrev rename (path path' : Path) : Io Bool := Prog.ask (Call.rename path path')
/-- `FreeSpaceForFile` -/
abbrev freeSpace (path : Path) : Io Nat := Prog.ask (Call.freeSpace path)
abbrev listDir (dir : Path) : Io (Option (List Path)) := Prog.ask (Call.listDir dir)
abbrev isRegular (path : Path) : Io Bool := Prog.ask (Call.isRegular path)
abbrev openFiles : Io (Option (List Path)) := Prog.ask Call.openFiles
abbrev malloc (size : Nat) : Io Bool := Prog.ask (Call.malloc size)
abbrev openMtd (device : Path) : Io Bool := Prog.ask (Call.openMtd device)
abbrev mtdBlocks (device : Path) : Io Nat := Prog.ask (Call.mtdBlocks device)
abbrev mtdBlock (device : Path) : Io Unit := Prog.ask (Call.mtdBlock device)
abbrev mtdClose (device : Path) (data : Bytes) : Io MtdAnswer := Prog.ask (Call.mtdClose device data)
abbrev openDevice (device : Path) : Io Bool := Prog.ask (Call.openDevice device)
abbrev writeDevice (device : Path) (pos : Nat) (data : Bytes) : Io (DeviceAnswer Nat) :=
  Prog.ask (Call.writeDevice device pos data)
abbrev readDevice (device : Path) (pos len : Nat) : Io (DeviceAnswer Bytes) :=
  Prog.ask (Call.readDevice device pos len)
abbrev closeDevice (device : Path) : Io Bool := Prog.ask (Call.closeDevice device)
abbrev patience : Io Nat := Prog.ask Call.patience

end Sys

/-! ### SHA-1 in text -/

def hexDigit (b : UInt8) : Option UInt8 :=
  if 48 ≤ b ∧ b ≤ 57 then some (b - 48)
  else if 97 ≤ b ∧ b ≤ 102 then some (b - 97 + 10)
  else if 65 ≤ b ∧ b ≤ 70 then some (b - 65 + 10)
  else none

/-- `n` bytes in hexadecimal, and nothing after them. -/
def parseHex : Nat → Bytes → Option Digest
  | 0, [] => some []
  | n + 1, high :: low :: rest => do
    let h ← hexDigit high
    let l ← hexDigit low
    let digest ← parseHex n rest
    return (h * 16 + l) :: digest
  | _, _ => none

def parseSha1 (str : CString) : Option Digest := parseHex 20 str.bytes

/-- The index of the first patch for this source. -/
def findMatchingPatch (sha1 : Digest) (patches : List CString) : Option Nat :=
  patches.findIdx? fun str => parseSha1 str = some sha1

/-! ### Loading -/

/-- The next `len` bytes of a partition; none are read where none are asked for. -/
def readNext (p : Partition) (pos len : Nat) : Io (Option Bytes) :=
  if 0 < len then Sys.readPart p.type p.device pos len else pure (some [])

/-- The possible contents of a partition in turn, smallest first; `soFar` has been read. -/
def loadPairs (t : Tools) (p : Partition) : List (Nat × CString) → Bytes → FileContents → Io (Int × FileContents)
  | [], _, file => pure (-1, {file with data := none})
  | (size, sha1sum) :: rest, soFar, file => do
    match ← readNext p soFar.length (size - soFar.length) with
    | none => pure (-1, {file with data := none})
    | some bytes =>
      let soFar := soFar ++ bytes
      let file := {file with size := soFar.length}
      match parseSha1 sha1sum with
      | none => pure (-1, {file with data := none})
      | some sha1 =>
        if t.sha1 soFar = sha1 then
          pure (0, {file with data := some soFar, sha1 := sha1, st := ⟨0o644, 0, 0⟩})
        else loadPairs t p rest soFar file

def loadPartitionContents (t : Tools) (p : Partition) (file : FileContents) : Io (Int × FileContents) :=
  if p.pairs.any (·.1 = 0) then pure (-1, file)
  else do
    if !(← Sys.openPart p.type p.device) then pure (-1, file)
    else loadPairs t p (p.pairs.insertionSort fun a b => a.1 ≤ b.1) [] {file with size := 0}

/-- `LoadFileContents` with the retouched words masked. -/
def loadFileContents (t : Tools) (name : Name) (file : FileContents) : Io (Int × FileContents) :=
  let file := {file with data := none}
  match name with
  | .part p => loadPartitionContents t p file
  | .file path => do
    match ← Sys.stat path with
    | none => pure (-1, file)
    | some (size, st) =>
      let file := {file with size := size, st := st}
      match ← Sys.readFile path with
      | none => pure (-1, file)
      | some bytes =>
        match t.mask bytes with
        | none => pure (-1, file)
        | some data => pure (0, {file with data := some data, sha1 := t.sha1 data})

/-! ### Saving -/

/-- The writes of `FileSink`, with `rest` left to write and `done` bytes written. -/
def sinkLoop (path : Path) : Nat → Bytes → Nat → Io Int
  | 0, _, done => pure done
  | fuel + 1, rest, done =>
    if rest = [] then pure done
    else do
      let wrote ← Sys.write path rest
      if wrote ≤ 0 then pure done else sinkLoop path fuel (rest.drop wrote.toNat) (done + wrote.toNat)

/-- `FileSink`: the number of bytes it could write. -/
def fileSink (path : Path) (data : Bytes) : Io Int := sinkLoop path data.length data 0

/-- Where there is no data in hand, writing from the null pointer fails. -/
def sinkData (path : Path) : Option Bytes → Io Int
  | none => pure 0
  | some data => fileSink path data

def saveFileContents (path : Path) (file : FileContents) : Io Int := do
  if !(← Sys.create path) then pure (-1)
  else
    let wrote ← sinkData path file.data
    if wrote ≠ file.size then pure (-1)
    else if !(← Sys.chmod path file.st) then pure (-1)
    else if !(← Sys.chown path file.st) then pure (-1)
    else pure 0

/-! ### Room on the cache -/

def expendableDirs : List Path := ["/cache".toList, "/cache/recovery/otatest".toList]

/-- The regular files among the entries of a directory, less the copy of a source. -/
def regularFiles (dir : Path) : List Path → Io (List Path)
  | [] => pure []
  | name :: rest =>
    if join dir name = CACHE_TEMP_SOURCE then regularFiles dir rest
    else do
      let regular ← Sys.isRegular (join dir name)
      let later ← regularFiles dir rest
      pure (if regular then join dir name :: later else later)

def filesIn (dir : Path) : Io (List Path) := do
  match ← Sys.listDir dir with
  | none => pure []
  | some names => regularFiles dir names

def findInDirs : List Path → Io (List Path)
  | [] => pure []
  | dir :: rest => do
    let here ← filesIn dir
    let later ← findInDirs rest
    pure (here ++ later)

/-- `FindExpendableFiles`; files that are open are taken out of their places. -/
def findExpendableFiles : Io (Option (List (Option Path))) := do
  let names ← findInDirs expendableDirs
  match ← Sys.openFiles with
  | none => pure none
  | some links =>
    let isOpen (name : Path) : Bool := links.any fun link => "/cache/".toList.isPrefixOf link && link = name
    pure (some (names.map fun name => if isOpen name then none else some name))

/-- Deletes until there is room; the space that is free then. -/
def deleteLoop (needed : Nat) : List (Option Path) → Nat → Io Nat
  | [], free => pure free
  | none :: rest, free => if free < needed then deleteLoop needed rest free else pure free
  | some name :: rest, free =>
    if free < needed then do
      let _ ← Sys.unlink name
      let free ← Sys.freeSpace "/cache".toList
      deleteLoop needed rest free
    else pure free

def makeFreeSpaceOnCache (needed : Nat) : Io Int := do
  let free ← Sys.freeSpace "/cache".toList
  if needed ≤ free then pure 0
  else
    match ← findExpendableFiles with
    | none => pure (-1)
    | some names =>
      if names = [] then pure (-1)
      else
        let free ← deleteLoop needed names free
        pure (if needed ≤ free then 0 else -1)

/-! ### Writing a partition -/

/-- The blocks of an MTD partition that are erased and written on the way. -/
def mtdBlocks (device : Path) : Nat → Io Unit
  | 0 => pure ()
  | n + 1 => do
    Sys.mtdBlock device
    mtdBlocks device n

/-- An MTD partition, written by `mtd_write_data`, `mtd_erase_blocks` and `mtd_write_close`. -/
def writeMtd (device : Path) (data : Bytes) : Io Int := do
  if !(← Sys.openMtd device) then pure (-1)
  else
    let blocks ← Sys.mtdBlocks device
    mtdBlocks device blocks
    match ← Sys.mtdClose device data with
    | .failed => pure (-1)
    | _ => pure 0

/-- The writes of one attempt from `start` on; `none` where one fails. -/
def writeFrom (device : Path) (data : Bytes) : Nat → Nat → Io (Option Unit)
  | 0, _ => hang
  | fuel + 1, start =>
    if start < data.length then do
      match ← Sys.writeDevice device start ((data.drop start).take 4096) with
      | .error => pure none
      | .interrupted => writeFrom device data fuel start
      | .got written => writeFrom device data fuel (start + written)
    else pure (some ())

/-- `toRead` bytes from `pos` on, of which `soFar` have been read. -/
def readBuffer (device : Path) (pos toRead : Nat) : Nat → Bytes → Io (Option Bytes)
  | 0, _ => hang
  | fuel + 1, soFar =>
    if soFar.length < toRead then do
      match ← Sys.readDevice device (pos + soFar.length) (toRead - soFar.length) with
      | .error => pure none
      | .interrupted => readBuffer device pos toRead fuel soFar
      | .got bytes => readBuffer device pos toRead fuel (soFar ++ bytes)
    else pure (some soFar)

/-- The verification from `p` on, 4096 bytes at a time: where it stops, which is the end if all
is well; `none` where a read fails. -/
def verifyFrom (device : Path) (data : Bytes) (patience : Nat) : Nat → Nat → Io (Option Nat)
  | 0, _ => hang
  | fuel + 1, p =>
    if p < data.length then do
      let expected := (data.drop p).take 4096
      match ← readBuffer device p expected.length patience [] with
      | none => pure none
      | some buffer => if buffer = expected then verifyFrom device data patience fuel (p + 4096) else pure (some p)
    else pure (some data.length)

/-- Up to `n` attempts to write and verify; whether one succeeded, or `none` where the write or
the read fails. -/
def attempts (device : Path) (data : Bytes) : Nat → Nat → Io (Option Bool)
  | 0, _ => pure (some false)
  | n + 1, start => do
    let patience ← Sys.patience
    match ← writeFrom device data patience start with
    | none => pure none
    | some () =>
      match ← verifyFrom device data patience (data.length + 1) 0 with
      | none => pure none
      | some start => if start = data.length then pure (some true) else attempts device data n start

def writeEmmc (device : Path) (data : Bytes) : Io Int := do
  if !(← Sys.openDevice device) then pure (-1)
  else
    match ← attempts device data 10 0 with
    | none => pure (-1)
    | some success =>
      if !success then pure (-1)
      else if !(← Sys.closeDevice device) then pure (-1)
      else pure 0

def writeToPartition (p : Partition) (data : Bytes) : Io Int :=
  match p.type with
  | .MTD => writeMtd p.device data
  | .EMMC => writeEmmc p.device data

end Twrp.Patch
