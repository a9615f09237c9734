import Twrp.Base.Prog
import Twrp.Zip.Directory

/-! Recursive extraction (`mzExtractRecursive`).

The program asks its environment for memory, the state of paths, bytes of the archive, steps of the
inflater and writes, and may be refused any of them. An entry that fails stops the loop; what is
returned then is the outer `ok`, which a regular file that fails after it was created does not reach:
its block has an `ok` of its own. The target of a link is what was copied of the entry, up to a NUL,
or on into the memory behind it if the entry has fewer bytes than it says. -/
namespace Twrp.Zip
open Base

abbrev Bytes := List UInt8

def slash : UInt8 := 0x2f

inductive DirStatus where
  | DMISSING
  | DDIR
  | DILLEGAL
deriving DecidableEq

/-- The result of `inflate`: `Z_OK`, `Z_STREAM_END` or an error. -/
inductive Zerr where
  | ok
  | streamEnd
  | error
deriving DecidableEq

/-- What a call of `inflate` does: how much of the input it leaves, and what it puts out. -/
structure Inflated where
  availIn : Nat
  out : Bytes
  zerr : Zerr

inductive Call where
  | malloc (size : Nat)
  | stat (path : Bytes)
  | mkdir (path : Bytes)
  | utime (path : Bytes)
  | creat (path : Bytes)
  /-- `read` of so many bytes of the archive at its offset `pos`. -/
  | read (pos count : Nat)
  | inflateInit
  /-- `inflate` in a stream that has been given `fed`, has put out `made`, and has `room` for more. -/
  | inflate (fed made : Bytes) (room : Nat)
  /-- `write` to the file just created, until it is not interrupted. -/
  | write (data : Bytes)
  /-- What the `count` bytes behind `copied` in the memory for a link's target hold: nothing was put there. -/
  | residue (copied : Bytes) (count : Nat)
  | symlink (linkTarget path : Bytes)
  | callback (path : Bytes)
  | undefined
  | hang
deriving DecidableEq

def Answer : Call → Type
  | .malloc _ => Bool
  | .stat _ => DirStatus
  | .mkdir _ => Bool
  | .utime _ => Bool
  | .creat _ => Bool
  | .read _ _ => Option Bytes
  | .inflateInit => Bool
  | .inflate _ _ _ => Inflated
  | .write _ => Option Nat
  | .residue _ _ => Bytes
  | .symlink _ _ => Bool
  | .callback _ => Unit
  | .undefined => Empty
  | .hang => Empty

abbrev Io := Prog Answer
abbrev Log := List (Sigma Answer)

abbrev malloc (size : Nat) : Io Bool := Prog.ask (Call.malloc size)
abbrev stat (path : Bytes) : Io DirStatus := Prog.ask (Call.stat path)
abbrev mkdir (path : Bytes) : Io Bool := Prog.ask (Call.mkdir path)
abbrev utime (path : Bytes) : Io Bool := Prog.ask (Call.utime path)
abbrev creat (path : Bytes) : Io Bool := Prog.ask (Call.creat path)
abbrev read (pos count : Nat) : Io (Option Bytes) := Prog.ask (Call.read pos count)
abbrev inflateInit : Io Bool := Prog.ask Call.inflateInit
abbrev inflate (fed made : Bytes) (room : Nat) : Io Inflated := Prog.ask (Call.inflate fed made room)
abbrev write (data : Bytes) : Io (Option Nat) := Prog.ask (Call.write data)
abbrev residue (copied : Bytes) (count : Nat) : Io Bytes := Prog.ask (Call.residue copied count)
abbrev symlink (linkTarget path : Bytes) : Io Bool := Prog.ask (Call.symlink linkTarget path)
abbrev callback (path : Bytes) : Io Unit := Prog.ask (Call.callback path)
def undefined {α : Type} : Io α := .call Call.undefined Empty.elim
def hang {α : Type} : Io α := .call Call.hang Empty.elim

/-! ### The contents of an entry -/

/-- A buffer of 32 KiB. -/
def bufSize : Nat := 32 * 1024

section Contents
variable {σ : Type} (process : σ → Bytes → Io (Option σ))

/-- The loop of `processStoredEntry`; `none` for a failure. -/
def storedLoop : (left pos bytesLeft : Nat) → σ → Io (Option σ)
  | 0, _, _, cookie => pure (some cookie)
  | left + 1, pos, bytesLeft, cookie =>
    if bytesLeft = 0 then pure (some cookie)
    else do
      match ← read pos (min bytesLeft bufSize) with
      | none => pure none
      | some buf =>
        if buf.length ≠ min bytesLeft bufSize then pure none
        else do
          match ← process cookie buf with
          | none => pure none
          | some cookie => storedLoop left (pos + min bytesLeft bufSize) (bytesLeft - min bytesLeft bufSize) cookie

def processStoredEntry (e : ZipEntry) (cookie : σ) : Io (Option σ) := storedLoop process e.compLen e.offset e.compLen cookie

/-- The `z_stream` with the buffers around it: all it has been given and has put out, how much of its
input is left, what waits in the output buffer, and what is still to be read of the entry. -/
structure ZStream where
  fed : Bytes
  made : Bytes
  availIn : Nat
  procBuf : Bytes
  pos : Nat
  compRemaining : Nat

/-- Read as much as we can, if the stream has no input left. -/
def fill (z : ZStream) : Io (Option ZStream) :=
  if z.availIn ≠ 0 then pure (some z)
  else do
    match ← read z.pos (min z.compRemaining bufSize) with
    | none => pure none
    | some buf =>
      if buf.length ≠ min z.compRemaining bufSize then pure none
      else pure (some { z with
        fed := z.fed ++ buf
        availIn := min z.compRemaining bufSize
        pos := z.pos + min z.compRemaining bufSize
        compRemaining := z.compRemaining - min z.compRemaining bufSize })

/-- The stream after a call of `inflate`. -/
def ZStream.after (z : ZStream) (r : Inflated) : ZStream :=
  { z with made := z.made ++ r.out, availIn := r.availIn, procBuf := z.procBuf ++ r.out }

/-- Read, and uncompress the data; `none` for a failure. -/
def inflateStep (z : ZStream) : Io (Option (ZStream × Zerr)) := do
  match ← fill z with
  | none => pure none
  | some z =>
    let r ← inflate z.fed z.made (bufSize - z.procBuf.length)
    if r.zerr = .error then pure none else pure (some (z.after r, r.zerr))

/-- Write when we're full or when we're done. -/
def handOver (z : ZStream) (zerr : Zerr) (cookie : σ) : Io (Option (ZStream × σ)) :=
  if z.procBuf.length = bufSize ∨ (zerr = .streamEnd ∧ z.procBuf ≠ []) then do
    match ← process cookie z.procBuf with
    | none => pure none
    | some cookie => pure (some ({ z with procBuf := [] }, cookie))
  else pure (some (z, cookie))

/-- The loop of `processDeflatedEntry`: what was put out in all. -/
def deflatedLoop : (fuel : Nat) → ZStream → σ → Io (Option (Bytes × σ))
  | 0, _, _ => hang
  | fuel + 1, z, cookie => do
    match ← inflateStep z with
    | none => pure none
    | some (z, zerr) =>
      match ← handOver process z zerr cookie with
      | none => pure none
      | some (z, cookie) => if zerr = .ok then deflatedLoop fuel z cookie else pure (some (z.made, cookie))

def processDeflatedEntry (fuel : Nat) (e : ZipEntry) (cookie : σ) : Io (Option σ) := do
  if !(← inflateInit) then pure none
  else
    match ← deflatedLoop process fuel ⟨[], [], 0, [], e.offset, e.compLen⟩ cookie with
    | none => pure none
    | some (made, cookie) => if int made.length ≠ e.uncompLen then pure none else pure (some cookie)

def STORED : Nat := 0
def DEFLATED : Nat := 8

def mzProcessZipEntryContents (fuel : Nat) (e : ZipEntry) (cookie : σ) : Io (Option σ) :=
  if e.compression = STORED then processStoredEntry process e cookie
  else if e.compression = DEFLATED then processDeflatedEntry process fuel e cookie
  else pure none

end Contents

/-- The loop of `writeProcessFunction`. -/
def writeLoop : (left : Nat) → Bytes → Io Bool
  | 0, _ => pure false
  | left + 1, data => do
    match ← write data with
    | none => pure false
    | some n =>
      if n = 0 then pure false
      else if n = data.length then pure true
      else if data.length < n then pure false
      else writeLoop left (data.drop n)

def writeProcessFunction (_ : Unit) (data : Bytes) : Io (Option Unit) := do
  if ← writeLoop data.length data then pure (some ()) else pure none

def mzExtractZipEntryToFile (fuel : Nat) (e : ZipEntry) : Io Bool := do
  match ← mzProcessZipEntryContents writeProcessFunction fuel e () with
  | none => pure false
  | some _ => pure true

/-- `copyProcessFunction` into a buffer of `bufLen` bytes, of which `copied` are filled. -/
def copyProcessFunction (bufLen : Int) (copied data : Bytes) : Io (Option Bytes) :=
  if (data.length : Int) ≤ bufLen - copied.length then pure (some (copied ++ data)) else pure none

def mzReadZipEntry (fuel : Nat) (e : ZipEntry) (bufLen : Int) : Io (Option Bytes) :=
  mzProcessZipEntryContents (copyProcessFunction bufLen) fuel e []

/-! ### Directories -/

/-- The levels of a path: what stands before each slash that ends a component. -/
def levelsFrom (front : Bytes) : Bytes → List Bytes
  | [] => []
  | b :: rest =>
    if b = slash ∧ front ≠ [] ∧ front.getLast? ≠ some slash then front :: levelsFrom (front ++ [b]) rest
    else levelsFrom (front ++ [b]) rest

def levels (path : Bytes) : List Bytes := levelsFrom [] path

/-- The path up to its last slash, unless that is its first byte. -/
def stripFileName (path : Bytes) : Option Bytes :=
  let dir := path.reverse.dropWhile (· ≠ slash)
  if dir.length ≤ 1 then none else some dir.reverse

/-- Set the time stamp, if one is asked for. -/
def stamp (timestamp : Bool) (path : Bytes) : Io Bool := if timestamp then utime path else pure true

/-- Make each level that is missing. -/
def makeLevels (timestamp : Bool) : List Bytes → Io Bool
  | [] => pure true
  | level :: rest => do
    match ← stat level with
    | .DILLEGAL => pure false
    | .DDIR => makeLevels timestamp rest
    | .DMISSING =>
      if !(← mkdir level) then pure false
      else if !(← stamp timestamp level) then pure false
      else makeLevels timestamp rest

/-- `dirCreateHierarchy`, once the path to make is known. -/
def makeHierarchy (timestamp : Bool) (cpath : Bytes) : Io Bool := do
  match ← stat cpath with
  | .DDIR => pure true
  | .DILLEGAL => pure false
  | .DMISSING => makeLevels timestamp (levels cpath)

/-- `dirCreateHierarchy` -/
def dirCreateHierarchy (path : Bytes) (timestamp strip : Bool) : Io Bool := do
  if path = [] then pure false
  else if !(← malloc (path.length + 2)) then pure false
  else if strip then
    match stripFileName path with
    | none => pure false
    | some cpath => makeHierarchy timestamp cpath
  else makeHierarchy timestamp (path ++ [slash])

/-! ### The loop over the entries -/

structure Flags where
  FILES_ONLY : Bool
  DRY_RUN : Bool

/-- What stays the same in one call of `mzExtractRecursive`. -/
structure Request where
  zpath : Bytes
  targetDir : Bytes
  flags : Flags
  timestamp : Bool
  /-- Whether there is a callback. -/
  callback : Bool
  /-- The steps the inflater may take for one entry. -/
  fuel : Nat

/-- Whether the loop goes on after an entry, or with which `ok` it stops. -/
inductive Step where
  | go
  | stop (ok : Bool)

/-- `MzPathHelper`; the part of the buffer that does not change is `targetDir` and a slash. -/
structure MzPathHelper where
  allocated : Bool
  targetDirLen : Nat
  bufLen : Nat

def mzIsZipEntrySymlink (e : ZipEntry) : Bool :=
  decide (e.versionMadeBy &&& 0xff00 = CENVEM_UNIX) && decide ((e.externalFileAttributes >>> 16) &&& 0xf000 = 0xa000)

/-- Whether the name ends with a slash; of an empty name the byte in front of it is looked at. -/
def isDirectory (e : ZipEntry) : Bool := e.fileName.getLast?.getD e.before = slash

namespace Request
variable (q : Request)

/-- Whether an entry is below `zipDir`. -/
def isBelow (e : ZipEntry) : Bool :=
  !decide (e.fileName.length < q.zpath.length) && decide (strncmp e.fileName q.zpath q.zpath.length = 0)

/-- `targetDir` with a slash at its end. -/
def root : Bytes := if q.targetDir.getLast? = some slash then q.targetDir else q.targetDir ++ [slash]

/-- Where an entry goes. -/
def path (e : ZipEntry) : Bytes := q.root ++ e.fileName.drop q.zpath.length

/-- `targetEntryPath`: the path, and the helper then; `none` when there is no memory. -/
def targetEntryPath (h : MzPathHelper) (e : ZipEntry) : Io (Option MzPathHelper) :=
  let needLen := h.targetDirLen + 1 + (e.fileName.length - q.zpath.length) + 1
  let dirLen := if h.allocated then h.targetDirLen else q.root.length
  if h.bufLen < needLen then do
    if !(← malloc (needLen * 2)) then pure none
    else pure (some ⟨true, dirLen, needLen * 2⟩)
  else pure (some ⟨true, dirLen, h.bufLen⟩)

/-- A symbolic link. -/
def extractSymlink (e : ZipEntry) : Io Step := do
  if e.uncompLen = 0 then pure (.stop false)
  else if !(← malloc ((e.uncompLen + 1) % 4294967296).toNat) then pure (.stop false)
  else
    match ← mzReadZipEntry q.fuel e e.uncompLen with
    | none => pure (.stop false)
    | some copied =>
      -- the terminating NUL goes to `linkTarget[uncompLen]`
      if e.uncompLen < 0 then undefined
      else do
        let rest ← residue copied (e.uncompLen.toNat - copied.length)
        if !(← symlink (CString.ofBytes (copied ++ rest)).bytes (q.path e)) then pure (.stop false)
        else pure .go

/-- A regular file. Once it is created, a failure stops the loop with the outer `ok`, still `true`. -/
def extractFile (e : ZipEntry) : Io Step := do
  if !(← creat (q.path e)) then pure (.stop false)
  else if !(← mzExtractZipEntryToFile q.fuel e) then pure (.stop true)
  else if !(← stamp q.timestamp (q.path e)) then pure (.stop true)
  else pure .go

/-- The file or directory of an entry. -/
def create (e : ZipEntry) : Io Step := do
  if isDirectory e then
    if q.flags.FILES_ONLY then pure .go
    else if !(← dirCreateHierarchy (q.path e) q.timestamp false) then pure (.stop false)
    else pure .go
  else if !(← dirCreateHierarchy (q.path e) q.timestamp true) then pure (.stop false)
  else if !q.flags.FILES_ONLY && mzIsZipEntrySymlink e then q.extractSymlink e
  else q.extractFile e

/-- Tell the callback, if there is one. -/
def notify (e : ZipEntry) : Io Unit := if q.callback then Zip.callback (q.path e) else pure ()

/-- What is done for an entry below `zipDir`. -/
def extractEntry (e : ZipEntry) : Io Step :=
  if q.flags.DRY_RUN then do
    q.notify e
    pure .go
  else do
    match ← q.create e with
    | .stop ok => pure (.stop ok)
    | .go => do
      q.notify e
      pure .go

/-- The loop over the entries. The entries are sorted: it gives up on the first mismatch after the
first match. -/
def extractLoop : List ZipEntry → (seenMatch : Bool) → MzPathHelper → Io Bool
  | [], _, _ => pure true
  | e :: rest, seenMatch, h =>
    if !q.isBelow e then (if seenMatch then pure true else extractLoop rest seenMatch h)
    else do
      match ← q.targetEntryPath h e with
      | none => pure false
      | some h =>
        match ← q.extractEntry e with
        | .stop ok => pure ok
        | .go => extractLoop rest true h

end Request

/-- `zipDir` with a slash at its end, unless it is empty. -/
def zipPath (zipDir : Bytes) : Bytes := if zipDir = [] ∨ zipDir.getLast? = some slash then zipDir else zipDir ++ [slash]

/-- The request that a call of `mzExtractRecursive` works on. -/
def request (zipDir targetDir : CString) (flags : Flags) (timestamp callback : Bool) (fuel : Nat) : Request :=
  ⟨zipPath zipDir.bytes, targetDir.bytes, flags, timestamp, callback, fuel⟩

/-- `mzExtractRecursive` -/
def mzExtractRecursive (archive : ZipArchive) (zipDir targetDir : CString) (flags : Flags) (timestamp callback : Bool) (fuel : Nat) : Io Bool := do
  if zipDir.bytes.head? = some slash then pure false
  else if targetDir.bytes.head? ≠ some slash then pure false
  else if !(← malloc (zipDir.length + 2)) then pure false
  else (request zipDir targetDir flags timestamp callback fuel).extractLoop archive.entries false ⟨false, targetDir.length, 0⟩

end Twrp.Zip
