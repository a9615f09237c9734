import Twrp.Base.Process
import Twrp.Edify.Readme
import Twrp.Install.Pipe
import Twrp.Patch.Disk

/-! The functions of the updater.

Each function checks the number of its arguments, reads them, and then acts on files,
partitions or the command pipe. `Act` lists what they call on outside the language; the
answers are free. -/
namespace Twrp.Updater
open Base Edify

/-! ### What the functions call on -/

/-- Why a call of the system failed, with the text of `strerror`. -/
structure Errno where
  code : Nat
  text : CString

def ENOENT : Nat := 2
def EEXIST : Nat := 17
def ENODATA : Nat := 61
def ENOTSUP : Nat := 95

/-- What `st_mode` says a file is. -/
inductive FileKind where
  | regular | directory | symlink | other
deriving DecidableEq

/-- `perm_parsed_args`; what was not given is `none`. -/
structure PermArgs where
  uid : Option Int := none
  gid : Option Int := none
  mode : Option Int := none
  fmode : Option Int := none
  dmode : Option Int := none
  selabel : Option CString := none
  capabilities : Option Int := none

/-- How the reading of a property file comes out. -/
inductive PropFile where
  | noStat (e : Errno)
  | tooLarge
  | noMemory (size : Nat)
  | noOpen (e : Errno)
  | short (size : Nat)
  | contents (data : List UInt8)

/-- A command for the recovery; the fraction is as the script wrote it. -/
inductive Command where
  | progress (fraction : CString) (seconds : Int)
  | setProgress (fraction : CString)
  | text (bytes : List UInt8)

inductive Act where
  | mkdir (path : List UInt8) (mode : Nat)
  | mtdFindPartition (name : CString)
  | mtdMountPartition (name mountPoint fsType : CString)
  | mount (location mountPoint fsType : CString)
  /-- `scan_mounted_volumes` and `find_mounted_volume_by_mount_point` -/
  | findMountedVolume (mountPoint : CString)
  | unmountMountedVolume (mountPoint : CString)
  | mtdWritePartition (name : CString)
  | mtdEraseBlocks (name : CString)
  | mtdWriteClose (name : CString)
  | makeExt4fs (location : CString) (size : Int) (mountPoint : CString)
  | unlink (path : CString)
  | dirUnlinkHierarchy (path : CString)
  | cmdPipe (c : Command)
  | mzExtractRecursive (zipPath destPath : CString)
  | mzFindZipEntry (zipPath : CString)
  | fopen (path : CString)
  | mzExtractZipEntryToFile (zipPath destPath : CString)
  /-- the data of an entry, where the memory for it is there and it can be read -/
  | mzExtractZipEntryToBuffer (zipPath : CString)
  | symlink (target path : CString)
  | chown (path : CString) (uid gid : Option Int)
  | chmod (path : CString) (mode : Int)
  | dirSetHierarchyPermissions (path : CString) (uid gid dirMode fileMode : Int)
  | lstat (path : CString)
  | lsetfilecon (path label : CString)
  | removexattr (path : CString)
  | setxattr (path : CString) (capabilities : Int)
  /-- `nftw` with `do_SetMetadataRecursive` -/
  | setMetadataRecursive (path : CString) (parsed : PermArgs)
  | propertyGet (key : CString)
  | readPropFile (path : CString)
  | restoreRawPartition (partition filename : CString)
  | cacheSizeCheck (bytes : Int)
  | applypatch (source target targetSha1 : CString) (targetSize : Int) (patches : List (CString × Option (List UInt8)))
  /-- with NULL for the list of sums where reading it aborted -/
  | applypatchCheck (filename : CString) (sha1s : Option (List CString))
  | loadFileContents (filename : CString)
  /-- `fork`, `execv` and `waitpid` -/
  | runProgram (args : List CString)

/-- What comes back; a call that fails tells why. -/
def Act.Answer : Act → Type
  | mkdir _ _ => Option Errno
  | mtdFindPartition _ => Bool
  | mtdMountPartition _ _ _ => Option Errno
  | mount _ _ _ => Option Errno
  | findMountedVolume _ => Bool
  | unmountMountedVolume _ => Unit
  | mtdWritePartition _ => Bool
  | mtdEraseBlocks _ => Bool
  | mtdWriteClose _ => Bool
  | makeExt4fs _ _ _ => Int
  | unlink _ => Option Errno
  | dirUnlinkHierarchy _ => Bool
  | cmdPipe _ => Unit
  | mzExtractRecursive _ _ => Bool
  | mzFindZipEntry _ => Bool
  | fopen _ => Option Errno
  | mzExtractZipEntryToFile _ _ => Bool
  | mzExtractZipEntryToBuffer _ => Option (List UInt8)
  | symlink _ _ => Option Errno
  | chown _ _ _ => Option Errno
  | chmod _ _ => Option Errno
  | dirSetHierarchyPermissions _ _ _ _ _ => Unit
  | lstat _ => Errno ⊕ FileKind
  | lsetfilecon _ _ => Option Errno
  | removexattr _ => Option Errno
  | setxattr _ _ => Option Errno
  | setMetadataRecursive _ _ => Int
  | propertyGet _ => CString
  | readPropFile _ => PropFile
  | restoreRawPartition _ _ => Bool
  | cacheSizeCheck _ => Bool
  | applypatch _ _ _ _ _ => Int
  | applypatchCheck _ _ => Int
  | loadFileContents _ => Errno ⊕ List UInt8
  | runProgram _ => Nat

abbrev Fn := Function Act.Answer
abbrev Step (α : Type) := Partial Act.Answer α

def perform (e : Act) : Step e.Answer := act e

/-! ### Texts and numbers -/

def text (parts : List CString) : List UInt8 := parts.flatMap CString.bytes

def log (parts : List CString) : Step Unit := say (.stdout (text parts))

def logIf (c : Bool) (parts : List CString) : Step Unit := if c then log parts else pure ()

/-- What is printed where a call failed. -/
def logFailure (failed : Option Errno) (parts : CString → List CString) : Step Unit :=
  match failed with
  | some e => log (parts e.text)
  | none => pure ()

/-- `ErrorAbort` -/
def abortWith (parts : List CString) : Step (Option Value) := errorAbort (text parts)

/-- The message for a wrong number of arguments. -/
def expects (site : Site) (what : CString) : Step (Option Value) :=
  abortWith [site.name, "() expects ", what, ", got ", CString.ofInt site.argc]

def cantBeEmpty (site : Site) (arg : CString) : Step (Option Value) :=
  abortWith [arg, " argument to ", site.name, "() can't be empty"]

def digitOf (b : UInt8) : Option Nat :=
  if 48 ≤ b ∧ b ≤ 57 then some (b.toNat - 48)
  else if 97 ≤ b ∧ b ≤ 102 then some (b.toNat - 87)
  else if 65 ≤ b ∧ b ≤ 70 then some (b.toNat - 55)
  else none

/-- The leading digits in a base, and what stands after them. -/
def baseDigits (base : Nat) : List UInt8 → Nat → Nat × List UInt8
  | [], n => (n, [])
  | b :: rest, n =>
    match digitOf b with
    | some d => if d < base then baseDigits base rest (base * n + d) else (n, b :: rest)
    | none => (n, b :: rest)

/-- A number at the front of a string: its sign, its value, and what stands after it. Where no
base is given, the first digits tell it, as for `%i` and `strtoul` with base 0. -/
def number (fixed : Option Nat) (s : CString) : Option (Bool × Nat × List UInt8) :=
  let start := s.bytes.dropWhile fun b => b == 32 || (9 ≤ b && b ≤ 13)
  let negative := start.head? = some 45
  let unsigned := match start with
    | 45 :: rest => rest
    | 43 :: rest => rest
    | rest => rest
  let (base, digits) := match fixed, unsigned with
    | some base, _ => (base, unsigned)
    | none, 48 :: 120 :: d :: rest => if (digitOf d).isSome then (16, d :: rest) else (8, unsigned)
    | none, 48 :: 88 :: d :: rest => if (digitOf d).isSome then (16, d :: rest) else (8, unsigned)
    | none, 48 :: _ => (8, unsigned)
    | none, _ => (10, unsigned)
  let (value, rest) := baseDigits base digits 0
  if rest = digits then none else some (negative, value, rest)

/-- `int x = strtoul(s, &end, 0)`, refused where the string is not a number to its end. -/
def wholeUl (s : CString) : Option Int :=
  match number none s with
  | some (negative, value, []) =>
    let long := min 4294967295 value
    let word := if negative then (4294967296 - long) % 4294967296 else long
    some (if word < 2147483648 then word else (word : Int) - 4294967296)
  | _ => none

/-- `sscanf` with `%lld` for base ten, and with `%i` -/
def scanInt (fixed : Option Nat) (s : CString) : Option Int :=
  (number fixed s).map fun (negative, value, _) => if negative then -value else value

/-! ### Mounting and formatting -/

/-- `MountFn` -/
def mountFn : Fn := fun site =>
  if site.argc ≠ 4 then expects site "4 args"
  else do
    match ← readArgs 0 4 with
    | some [fs_type, partition_type, location, mount_point] =>
      if fs_type.length = 0 then cantBeEmpty site "fs_type"
      else if partition_type.length = 0 then cantBeEmpty site "partition_type"
      else if location.length = 0 then cantBeEmpty site "location"
      else if mount_point.length = 0 then cantBeEmpty site "mount_point"
      else do
        -- made with the security context of the mount point where there are contexts
        let _ ← perform (.mkdir mount_point.bytes 0o755)
        if partition_type = "MTD" then
          let found : Bool ← perform (.mtdFindPartition location)
          if !found then
            log [site.name, ": no mtd partition named \"", location, "\""]
            ret ""
          else
            let failed : Option Errno ← perform (.mtdMountPartition location mount_point fs_type)
            match failed with
            | some e =>
              log ["mtd mount of ", location, " failed: ", e.text, "\n"]
              ret ""
            | none => ret mount_point
        else
          let failed : Option Errno ← perform (.mount location mount_point fs_type)
          match failed with
          | some e =>
            log [site.name, ": failed to mount ", location, " at ", mount_point, ": ", e.text, "\n"]
            ret ""
          | none => ret mount_point
    | _ => pure none

/-- `IsMountedFn` -/
def isMountedFn : Fn := fun site =>
  if site.argc ≠ 1 then expects site "1 arg"
  else do
    match ← readArgs 0 1 with
    | some [mount_point] =>
      if mount_point.length = 0 then abortWith ["mount_point argument to unmount() can't be empty"]
      else do
        let found : Bool ← perform (.findMountedVolume mount_point)
        ret (if found then mount_point else "")
    | _ => pure none

/-- `UnmountFn` -/
def unmountFn : Fn := fun site =>
  if site.argc ≠ 1 then expects site "1 arg"
  else do
    match ← readArgs 0 1 with
    | some [mount_point] =>
      if mount_point.length = 0 then abortWith ["mount_point argument to unmount() can't be empty"]
      else do
        let found : Bool ← perform (.findMountedVolume mount_point)
        if !found then
          log ["unmount of ", mount_point, " failed; no such volume\n"]
          ret ""
        else
          let _ ← perform (.unmountMountedVolume mount_point)
          ret mount_point
    | _ => pure none

/-- The branch of `FormatFn` for a partition of the flash. -/
def formatMtd (site : Site) (location : CString) : Step (Option Value) := do
  let found : Bool ← perform (.mtdFindPartition location)
  if !found then
    log [site.name, ": no mtd partition named \"", location, "\""]
    ret ""
  else
    let opened : Bool ← perform (.mtdWritePartition location)
    if !opened then
      log [site.name, ": can't write \"", location, "\""]
      ret ""
    else
      let erased : Bool ← perform (.mtdEraseBlocks location)
      let closed : Bool ← perform (.mtdWriteClose location)
      if !erased then
        log [site.name, ": failed to erase \"", location, "\""]
        ret ""
      else if !closed then
        log [site.name, ": failed to close \"", location, "\""]
        ret ""
      else ret location

/-- `FormatFn`; `ext4` where the build has it -/
def formatFn (ext4 : Bool) : Fn := fun site =>
  if site.argc ≠ 5 then expects site "5 args"
  else do
    match ← readArgs 0 5 with
    | some [fs_type, partition_type, location, fs_size, mount_point] =>
      if fs_type.length = 0 then cantBeEmpty site "fs_type"
      else if partition_type.length = 0 then cantBeEmpty site "partition_type"
      else if location.length = 0 then cantBeEmpty site "location"
      else if mount_point.length = 0 then cantBeEmpty site "mount_point"
      else if partition_type = "MTD" then formatMtd site location
      else if ext4 ∧ fs_type = "ext4" then do
        -- `atoll`
        let status : Int ← perform (.makeExt4fs location ((scanInt (some 10) fs_size).getD 0) mount_point)
        if status ≠ 0 then
          log [site.name, ": make_ext4fs failed (", CString.ofInt status, ") on ", location]
          ret ""
        else ret location
      else do
        log [site.name, ": unsupported fs_type \"", fs_type, "\" partition_type \"", partition_type, "\""]
        -- the result is still NULL
        pure none
    | _ => pure none

/-! ### Files -/

/-- The removal loop of `DeleteFn`: how many could be removed. -/
def deletePaths (recursive : Bool) : List CString → Step Nat
  | [] => pure 0
  | path :: rest => do
    if recursive then
      let removed : Bool ← perform (.dirUnlinkHierarchy path)
      let count ← deletePaths recursive rest
      pure (if removed then count + 1 else count)
    else
      let failed : Option Errno ← perform (.unlink path)
      let count ← deletePaths recursive rest
      pure (if failed.isNone then count + 1 else count)

/-- The reading loop of `DeleteFn` from argument `i` on. Where a later argument than the first
aborts, the loop that frees what was read counts up `i` and not `j`, and frees the first path
without end. -/
def readPaths (i : Nat) : Nat → Step (Option (List CString))
  | 0 => pure (some [])
  | count + 1 => do
    match ← evaluate i with
    | none => if i = 0 then pure none else undefined
    | some path =>
      match ← readPaths (i + 1) count with
      | none => pure none
      | some paths => pure (some (path :: paths))

/-- `DeleteFn` -/
def deleteFn : Fn := fun site => do
  match ← readPaths 0 site.argc with
  | none => pure none
  | some paths =>
    let success ← deletePaths (site.name = "delete_recursive") paths
    ret (CString.ofInt success)

/-- `PackageExtractDirFn` -/
def packageExtractDirFn : Fn := fun site =>
  if site.argc ≠ 2 then expects site "2 args"
  else do
    match ← readArgs 0 2 with
    | some [zip_path, dest_path] =>
      let success : Bool ← perform (.mzExtractRecursive zip_path dest_path)
      ret (truth success)
    | _ => pure none

/-- `PackageExtractFileFn` with two arguments, from their values on. -/
def extractToFile (site : Site) (zip_path dest_path : CString) : Step (Option Value) := do
  let found : Bool ← perform (.mzFindZipEntry zip_path)
  if !found then
    log [site.name, ": no ", zip_path, " in package\n"]
    ret ""
  else
    let failed : Option Errno ← perform (.fopen dest_path)
    match failed with
    | some e =>
      log [site.name, ": can't open ", dest_path, " for write: ", e.text, "\n"]
      ret ""
    | none =>
      let success : Bool ← perform (.mzExtractZipEntryToFile zip_path dest_path)
      ret (truth success)

/-- `PackageExtractFileFn` with one argument: the value is the data of the entry. -/
def extractToValue (site : Site) (zip_path : CString) : Step (Option Value) := do
  let found : Bool ← perform (.mzFindZipEntry zip_path)
  if !found then
    log [site.name, ": no ", zip_path, " in package\n"]
    pure (some (.blob none))
  else
    let data : Option (List UInt8) ← perform (.mzExtractZipEntryToBuffer zip_path)
    pure (some (.blob data))

/-- `PackageExtractFileFn` -/
def packageExtractFileFn : Fn := fun site =>
  if site.argc ≠ 1 ∧ site.argc ≠ 2 then expects site "1 or 2 args"
  else if site.argc = 2 then do
    match ← readArgs 0 2 with
    | some [zip_path, dest_path] => extractToFile site zip_path dest_path
    | _ => pure none
  else do
    match ← readArgs 0 1 with
    | some [zip_path] => extractToValue site zip_path
    | _ => pure none

/-- What stands before the last slash that is not the first byte. -/
def parent (name : List UInt8) : Option (List UInt8) :=
  match (List.range name.length).reverse.find? fun p => 0 < p ∧ name[p]? = some 47 with
  | none => none
  | some p => some (name.take p)

/-- `make_parents`; a parent is shorter than its child, so the length bounds the depth. -/
def makeParents : Nat → List UInt8 → Step Bool
  | 0, _ => pure true
  | depth + 1, name =>
    match parent name with
    | none => pure true
    | some dir => do
      if !(← makeParents depth dir) then pure false
      else
        let failed : Option Errno ← perform (.mkdir dir 0o700)
        match failed with
        | none =>
          log ["symlink(): created [", CString.ofBytes dir, "]\n"]
          pure true
        | some e =>
          if e.code = EEXIST then pure true
          else
            log ["failed to mkdir ", CString.ofBytes dir, ": ", e.text, "\n"]
            pure false

/-- One turn of the loop of `SymlinkFn`: how much went wrong. -/
def symlinkOne (site : Site) (target src : CString) : Step Nat := do
  let kept : Option Errno ← perform (.unlink src)
  let stuck := kept.any fun e => e.code ≠ ENOENT
  logIf stuck [site.name, ": failed to remove ", src, ": ", (kept.map Errno.text).getD "", "\n"]
  let parents ← makeParents src.length src.bytes
  logIf (!parents) [site.name, ": failed to symlink ", src, " to ", target, ": making parents failed\n"]
  let failed : Option Errno ← perform (.symlink target src)
  logFailure failed fun why => [site.name, ": failed to symlink ", src, " to ", target, ": ", why, "\n"]
  pure (stuck.toNat + (!parents).toNat + failed.isSome.toNat)

def symlinkAll (site : Site) (target : CString) : List CString → Step Nat
  | [] => pure 0
  | src :: rest => do
    let bad ← symlinkOne site target src
    let more ← symlinkAll site target rest
    pure (bad + more)

/-- `SymlinkFn` -/
def symlinkFn : Fn := fun site =>
  if site.argc = 0 then expects site "1+ args"
  else do
    match ← evaluate 0 with
    | none => pure none
    | some target =>
      match ← readArgs 1 (site.argc - 1) with
      | none => pure none
      | some srcs =>
        let bad ← symlinkAll site target srcs
        if bad ≠ 0 then abortWith [site.name, ": some symlinks failed"] else ret ""

/-! ### Permissions and metadata -/

/-- The arguments of `SetPermFn` that must be numbers, with what they are called, in turn. -/
def permNumbers (site : Site) : List (CString × CString) → (List Int → Step (Option Value)) → Step (Option Value)
  | [], f => f []
  | (arg, what) :: rest, f =>
    match wholeUl arg with
    | none => abortWith [site.name, ": \"", arg, "\" not a valid ", what]
    | some value => permNumbers site rest fun values => f (value :: values)

def setHierarchies (uid gid dir_mode file_mode : Int) : List CString → Step Unit
  | [] => pure ()
  | path :: rest => do
    let _ ← perform (.dirSetHierarchyPermissions path uid gid dir_mode file_mode)
    setHierarchies uid gid dir_mode file_mode rest

/-- The loop over the files of `set_perm`: how much went wrong. -/
def setPerms (site : Site) (uid gid mode : Int) : List CString → Step Nat
  | [] => pure 0
  | path :: rest => do
    let owned : Option Errno ← perform (.chown path (some uid) (some gid))
    logFailure owned fun why =>
      [site.name, ": chown of ", path, " to ", CString.ofInt uid, " ", CString.ofInt gid, " failed: ", why, "\n"]
    let moded : Option Errno ← perform (.chmod path mode)
    -- `%o`
    logFailure moded fun why =>
      [site.name, ": chmod of ", path, " to ", String.ofList (Nat.toDigits 8 (mode % 4294967296).toNat), " failed: ",
        why, "\n"]
    let more ← setPerms site uid gid mode rest
    pure (owned.isSome.toNat + moded.isSome.toNat + more)

/-- `SetPermFn` -/
def setPermFn : Fn := fun site =>
  let recursive := decide (site.name = "set_perm_recursive")
  let min_args := if recursive then 5 else 4
  if site.argc < min_args then
    abortWith [site.name, "() expects ", CString.ofInt min_args, "+ args, got ", CString.ofInt site.argc]
  else do
    match ← readArgs 0 site.argc with
    | some (uid :: gid :: mode :: rest) =>
      if recursive then
        match rest with
        | file_mode :: paths =>
          permNumbers site [(uid, "uid"), (gid, "gid"), (mode, "dirmode"), (file_mode, "filemode")] fun
            | [uid, gid, dir_mode, file_mode] => do
              setHierarchies uid gid dir_mode file_mode paths
              ret ""
            | _ => pure none
        | [] => pure none
      else
        permNumbers site [(uid, "uid"), (gid, "gid"), (mode, "mode")] fun
          | [uid, gid, mode] => do
            let bad ← setPerms site uid gid mode rest
            if bad ≠ 0 then abortWith [site.name, ": some changes failed"] else ret ""
          | _ => pure none
    | _ => pure none

/-- One key and its value; what is wrong with it is told, and the value left out. -/
def parsePermArg (parsed : PermArgs) (key value : CString) : PermArgs × List CString :=
  let invalid (what : CString) : List CString := ["ParsePermArgs: invalid ", what, " \"", value, "\"\n"]
  if key = "uid" then
    match scanInt (some 10) value with
    | some n => ({parsed with uid := some n}, [])
    | none => (parsed, invalid "UID")
  else if key = "gid" then
    match scanInt (some 10) value with
    | some n => ({parsed with gid := some n}, [])
    | none => (parsed, invalid "GID")
  else if key = "mode" then
    match scanInt none value with
    | some n => ({parsed with mode := some n}, [])
    | none => (parsed, invalid "mode")
  else if key = "dmode" then
    match scanInt none value with
    | some n => ({parsed with dmode := some n}, [])
    | none => (parsed, invalid "dmode")
  else if key = "fmode" then
    match scanInt none value with
    | some n => ({parsed with fmode := some n}, [])
    | none => (parsed, invalid "fmode")
  else if key = "capabilities" then
    match scanInt none value with
    | some n => ({parsed with capabilities := some n}, [])
    | none => (parsed, invalid "capabilities")
  else if key = "selabel" then
    if value.length ≠ 0 then ({parsed with selabel := some value}, []) else (parsed, invalid "selabel")
  -- after twenty of these in one run the code is silent
  else (parsed, ["ParsedPermArgs: unknown key \"", key, "\", ignoring\n"])

/-- `ParsePermArgs` on the arguments after the first -/
def parsePermArgs (parsed : PermArgs) : List CString → Step PermArgs
  | key :: value :: rest => do
    let (parsed, wrong) := parsePermArg parsed key value
    logIf (wrong ≠ []) wrong
    parsePermArgs parsed rest
  | _ => pure parsed

/-- One change of `ApplyParsedPerms`, where it is asked for; failures that are `allowed` count
as none. -/
def applyOne {α : Type} (field : Option α) (change : α → Step (Option Errno)) (allowed : Nat → Bool)
    (message : α → List CString) : Step Nat :=
  match field with
  | none => pure 0
  | some value => do
    match ← change value with
    | none => pure 0
    | some e =>
      if allowed e.code then pure 0
      else
        log (message value ++ [(" failed: " : CString), e.text, "\n"])
        pure 1

/-- `ApplyParsedPerms` -/
def applyParsedPerms (filename : CString) (kind : FileKind) (parsed : PermArgs) : Step Nat :=
  if kind = .symlink then pure 0
  else do
    let never (_ : Nat) := false
    let uid ← applyOne parsed.uid (fun uid => perform (.chown filename (some uid) none)) never
      fun uid => ["ApplyParsedPerms: chown of ", filename, " to ", CString.ofInt uid]
    let gid ← applyOne parsed.gid (fun gid => perform (.chown filename none (some gid))) never
      fun gid => ["ApplyParsedPerms: chgrp of ", filename, " to ", CString.ofInt gid]
    let chmod (mode : Option Int) := applyOne mode (fun mode => perform (.chmod filename mode)) never
      fun mode => ["ApplyParsedPerms: chmod of ", filename, " to ", CString.ofInt mode]
    let mode ← chmod parsed.mode
    let dmode ← chmod (if kind = .directory then parsed.dmode else none)
    let fmode ← chmod (if kind = .regular then parsed.fmode else none)
    let selabel ← applyOne parsed.selabel (fun label => perform (.lsetfilecon filename label)) (· = ENOTSUP)
      fun label => ["ApplyParsedPerms: lsetfilecon of ", filename, " to ", label]
    let capabilities ← applyOne (if kind = .regular then parsed.capabilities else none)
      (fun caps => if caps = 0 then perform (.removexattr filename) else perform (.setxattr filename caps))
      (fun code => code = ENODATA ∧ parsed.capabilities = some 0)
      fun caps => ["ApplyParsedPerms: ", if caps = 0 then "removexattr of " else "setcap of ", filename, " to ",
        String.ofList (Nat.toDigits 16 (caps % 18446744073709551616).toNat)]
    pure (uid + gid + mode + dmode + fmode + selabel + capabilities)

/-- `SetMetadataFn` -/
def setMetadataFn : Fn := fun site =>
  if site.argc % 2 ≠ 1 then
    abortWith [site.name, "() expects an odd number of arguments, got ", CString.ofInt site.argc]
  else do
    match ← readArgs 0 site.argc with
    | some (path :: args) =>
      let stat : Errno ⊕ FileKind ← perform (.lstat path)
      match stat with
      | .inl e =>
        -- the error message is set and then forgotten: the result is NULL and nothing went wrong so far
        say (.errmsg (text [site.name, ": Error on lstat of \"", path, "\": ", e.text]))
        ret ""
      | .inr kind =>
        let parsed ← parsePermArgs {} args
        if site.name = "set_metadata_recursive" then
          let bad : Int ← perform (.setMetadataRecursive path parsed)
          if bad > 0 then abortWith [site.name, ": some changes failed"] else ret ""
        else
          let bad ← applyParsedPerms path kind parsed
          if bad > 0 then abortWith [site.name, ": some changes failed"] else ret ""
    | _ => pure none

/-! ### Properties -/

/-- `GetPropFn` -/
def getPropFn : Fn := fun site =>
  if site.argc ≠ 1 then expects site "1 arg"
  else do
    match ← evaluate 0 with
    | none => pure none
    | some key =>
      let value : CString ← perform (.propertyGet key)
      ret value

def isspace (b : UInt8) : Bool := b == 32 || (9 ≤ b && b ≤ 13)

/-- Blanks at the end are cut off, but not the first byte. -/
def trimEnd : List UInt8 → List UInt8
  | [] => []
  | b :: rest => b :: (rest.reverse.dropWhile isspace).reverse

/-- The loop of `FileGetPropFn` over the lines: the value, nothing where the key is not there,
or the line without an equals sign. -/
def findProp (key : CString) : List (List UInt8) → List UInt8 ⊕ Option (List UInt8)
  | [] => .inr none
  | line :: rest =>
    match line.dropWhile isspace with
    | [] => findProp key rest
    | 35 :: _ => findProp key rest
    | line =>
      if 61 ∉ line then .inl line
      else if trimEnd (line.takeWhile (· != 61)) = key.bytes then
        .inr (some (trimEnd (((line.dropWhile (· != 61)).drop 1).dropWhile isspace)))
      else findProp key rest

/-- `FileGetPropFn`: the number of arguments is not looked at. -/
def fileGetPropFn : Fn := fun site => do
  match ← readArgs 0 2 with
  | some [filename, key] =>
    let file : PropFile ← perform (.readPropFile filename)
    match file with
    | .noStat e => abortWith [site.name, ": failed to stat \"", filename, "\": ", e.text]
    | .tooLarge => abortWith [filename, " too large for ", site.name, " (max 65536)"]
    | .noMemory size => abortWith [site.name, ": failed to alloc ", CString.ofInt (size + 1), " bytes"]
    | .noOpen e => abortWith [site.name, ": failed to open ", filename, ": ", e.text]
    | .short size => abortWith [site.name, ": failed to read ", CString.ofInt (size + 1), " bytes from ", filename]
    | .contents data =>
      match tokens [10] (CString.ofBytes data).bytes with
      -- the loop looks at its first line before it knows that there is one
      | [] => undefined
      | lines =>
        match findProp key lines with
        | .inl line =>
          abortWith [site.name, ": malformed line \"", CString.ofBytes line, "\": ", filename, " not a prop file?"]
        | .inr value => ret (CString.ofBytes (value.getD []))
  | _ => pure none

/-! ### Partitions and patches -/

def Value.bytes : Value → Option (List UInt8)
  | .string s => some s.bytes
  | .blob data => data

/-- `WriteRawImageFn`: the number of arguments is not looked at. -/
def writeRawImageFn : Fn := fun site => do
  match ← readValueArgs 0 2 with
  | some [contents, .string partition] =>
    if partition.length = 0 then abortWith ["partition argument to ", site.name, " can't be empty"]
    else if contents = .string "" then abortWith ["file argument to ", site.name, " can't be empty"]
    else do
      -- the data of a blob are taken for a file name
      let written : Bool ← perform (.restoreRawPartition partition (CString.ofBytes ((Value.bytes contents).getD [])))
      ret (if written then partition else "")
  | some [_, .blob _] => abortWith ["partition argument to ", site.name, " must be string"]
  | _ => pure none

/-- `ApplyPatchSpaceFn`: the number of arguments is not looked at. -/
def applyPatchSpaceFn : Fn := fun site => do
  match ← readArgs 0 1 with
  | some [bytes_str] =>
    if bytes_str.strtol.1 = 0 ∧ bytes_str.strtol.2 = bytes_str.bytes then
      abortWith [site.name, "(): can't parse \"", bytes_str, "\" as byte count\n\n"]
    else do
      let short : Bool ← perform (.cacheSizeCheck bytes_str.strtol.1)
      ret (truth (!short))
  | _ => pure none

/-- The loop of `ApplyPatchFn` over the pairs of a sum and a patch: the pairs, or what is wrong
with pair `i`. -/
def checkPatches (site : Site) (i : Nat) : List Value → List UInt8 ⊕ List (CString × Option (List UInt8))
  | .string sha1 :: .blob patch :: rest => (checkPatches site (i + 1) rest).map id ((sha1, patch) :: ·)
  | .blob _ :: _ => .inl (text [site.name, "(): sha-1 #", CString.ofInt i, " is not string"])
  | _ :: .string _ :: _ => .inl (text [site.name, "(): patch #", CString.ofInt i, " is not blob"])
  | _ => .inr []

/-- `ApplyPatchFn` -/
def applyPatchFn : Fn := fun site =>
  if site.argc < 6 ∨ site.argc % 2 = 1 then
    abortWith [site.name, "(): expected at least 6 args and an even number, got ", CString.ofInt site.argc]
  else do
    match ← readArgs 0 4 with
    | some [source_filename, target_filename, target_sha1, target_size_str] =>
      if target_size_str.strtol.1 = 0 ∧ target_size_str.strtol.2 = target_size_str.bytes then
        abortWith [site.name, "(): can't parse \"", target_size_str, "\" as byte count"]
      else do
        match ← readValueArgs 4 (site.argc - 4) with
        -- the list is used without a look at whether there is one
        | none => undefined
        | some patches =>
          match checkPatches site 0 patches with
          | .inl wrong => errorAbort wrong
          | .inr patches =>
            let result : Int ← perform
              (.applypatch source_filename target_filename target_sha1 target_size_str.strtol.1 patches)
            ret (truth (result = 0))
    | _ => pure none

/-- `ApplyPatchCheckFn` -/
def applyPatchCheckFn : Fn := fun site =>
  if site.argc < 1 then abortWith [site.name, "(): expected at least 1 arg, got ", CString.ofInt site.argc]
  else do
    match ← readArgs 0 1 with
    | some [filename] =>
      -- the list is used without a look at whether there is one
      let sha1s ← readArgs 1 (site.argc - 1)
      let result : Int ← perform (.applypatchCheck filename sha1s)
      if sha1s.isNone then undefined else ret (truth (result = 0))
    | _ => pure none

/-! ### The recovery and other programs -/

/-- `ShowProgressFn` -/
def showProgressFn : Fn := fun site =>
  if site.argc ≠ 2 then expects site "2 args"
  else do
    match ← readArgs 0 2 with
    | some [frac_str, sec_str] =>
      let _ ← perform (.cmdPipe (.progress frac_str sec_str.strtol.1))
      ret frac_str
    | _ => pure none

/-- `SetProgressFn` -/
def setProgressFn : Fn := fun site =>
  if site.argc ≠ 1 then expects site "1 arg"
  else do
    match ← readArgs 0 1 with
    | some [frac_str] =>
      let _ ← perform (.cmdPipe (.setProgress frac_str))
      ret frac_str
    | _ => pure none

/-- `UIPrintFn` -/
def uiPrintFn : Fn := fun site => do
  match ← readArgs 0 site.argc with
  | none => pure none
  | some args =>
    let _ ← perform (.cmdPipe (.text (Install.uiPrintFn args).written))
    ret (CString.ofBytes (Install.uiPrintFn args).value)

/-- `WipeCacheFn` -/
def wipeCacheFn : Fn := fun site =>
  if site.argc ≠ 0 then expects site "no args"
  else do
    let _ ← perform (.cmdPipe (.text ("wipe_cache\n" : CString).bytes))
    ret "t"

/-- `RunProgramFn` -/
def runProgramFn : Fn := fun site =>
  if site.argc < 1 then abortWith [site.name, "() expects at least 1 arg"]
  else do
    match ← readArgs 0 site.argc with
    | none => pure none
    | some args =>
      log ["about to run program [", args.headD "", "] with ", CString.ofInt site.argc, " args\n"]
      let status : Nat ← perform (.runProgram args)
      logIf (wifexited status && wexitstatus status ≠ 0)
        ["run_program: child exited with status ", CString.ofInt (wexitstatus status), "\n"]
      logIf (!wifexited status && wifsignaled status)
        ["run_program: child terminated by signal ", CString.ofInt (wtermsig status), "\n"]
      ret (CString.ofInt status)

/-! ### Data -/

/-- `PrintSha1` -/
def printSha1 (digest : List UInt8) : CString :=
  String.ofList (digest.flatMap fun b => [Nat.digitChar (b.toNat / 16), Nat.digitChar (b.toNat % 16)])

/-- The loop of `Sha1CheckFn` over the sums from argument `i` on: the first that is the digest. -/
def findSha1 (site : Site) (digest : List UInt8) (i : Nat) : List Value → Step (Option Value)
  | [] => ret ""
  | .blob _ :: rest => do
    log [site.name, "(): arg ", CString.ofInt i, " is not a string; skipping"]
    findSha1 site digest (i + 1) rest
  | .string arg :: rest =>
    match Patch.parseSha1 arg with
    | none => do
      log [site.name, "(): error parsing \"", arg, "\" as sha-1; skipping"]
      findSha1 site digest (i + 1) rest
    | some sum => if sum = digest then ret arg else findSha1 site digest (i + 1) rest

/-- `Sha1CheckFn` -/
def sha1CheckFn (sha1 : List UInt8 → List UInt8) : Fn := fun site =>
  if site.argc < 1 then abortWith [site.name, "() expects at least 1 arg"]
  else do
    match ← readValueArgs 0 site.argc with
    | some (first :: sums) =>
      match Value.bytes first with
      | none =>
        log [site.name, "(): no file contents received"]
        ret ""
      | some data => if site.argc = 1 then ret (printSha1 (sha1 data)) else findSha1 site (sha1 data) 1 sums
    | _ => pure none

/-- `ReadFileFn` -/
def readFileFn : Fn := fun site =>
  if site.argc ≠ 1 then expects site "1 arg"
  else do
    match ← readArgs 0 1 with
    | some [filename] =>
      let file : Errno ⊕ List UInt8 ← perform (.loadFileContents filename)
      match file with
      | .inl e => abortWith [site.name, "() loading \"", filename, "\" failed: ", e.text]
      | .inr data => pure (some (.blob (some data)))
    | _ => pure none

/-! ### The table -/

/-- The functions that `RegisterInstallFunctions` registers. -/
inductive Registered where
  | mount | isMounted | unmount | format | showProgress | setProgress | delete | deleteRecursive
  | packageExtractDir | packageExtractFile | symlink | setPerm | setPermRecursive | setMetadata | setMetadataRecursive
  | getprop | fileGetprop | writeRawImage | applyPatch | applyPatchCheck | applyPatchSpace | readFile | sha1Check
  | wipeCache | uiPrint | runProgram
deriving DecidableEq

/-- What the functions depend on: how the updater was built, and the hash. -/
structure Build where
  ext4 : Bool
  sha1 : List UInt8 → List UInt8

def Registered.fn (b : Build) : Registered → Fn
  | mount => mountFn
  | isMounted => isMountedFn
  | unmount => unmountFn
  | format => formatFn b.ext4
  | showProgress => showProgressFn
  | setProgress => setProgressFn
  | delete => deleteFn
  | deleteRecursive => deleteFn
  | packageExtractDir => packageExtractDirFn
  | packageExtractFile => packageExtractFileFn
  | symlink => symlinkFn
  | setPerm => setPermFn
  | setPermRecursive => setPermFn
  | setMetadata => setMetadataFn
  | setMetadataRecursive => setMetadataFn
  | getprop => getPropFn
  | fileGetprop => fileGetPropFn
  | writeRawImage => writeRawImageFn
  | applyPatch => applyPatchFn
  | applyPatchCheck => applyPatchCheckFn
  | applyPatchSpace => applyPatchSpaceFn
  | readFile => readFileFn
  | sha1Check => sha1CheckFn b.sha1
  | wipeCache => wipeCacheFn
  | uiPrint => uiPrintFn
  | runProgram => runProgramFn

end Twrp.Updater
