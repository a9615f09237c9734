import Twrp.Patch.Disk

/-! `applypatch`.

The target is already right, or the source is loaded and has one of the listed SHA-1s, or else
the copy of a source that an earlier run left in the cache has. The patch for it is applied in
memory for a partition and into `<target>.patch` for a file, which then takes the target's
place. Where the target file system has no room, or the first try fails, the source is copied
to the cache and deleted to make room. -/
namespace Twrp.Patch
open Base

/-- A `Value` of the script language. -/
structure Value where
  blob : Bool
  data : Bytes
deriving DecidableEq

structure Args where
  source : Name
  /-- `none` is the name `-`. -/
  target : Option Name
  target_sha1 : CString
  target_size : Nat
  patches : List (CString × Value)
  bonus : Option Bytes

def Args.targetName (a : Args) : Name := a.target.getD a.source

/-- The top-level directory of a path. -/
def topDir : Path → Path
  | [] => []
  | c :: rest => c :: rest.takeWhile (· ≠ '/')

def patchName (path : Path) : Path := path ++ ".patch".toList

/-- Whether there is room for the target. -/
def enoughSpace (abi : Abi) (target_size free : Nat) : Bool :=
  256 * 1024 < free && target_size * 3 % abi.word / 2 < free

/-- `MemorySink` into a buffer of `size` bytes. -/
def memorySink (size : Nat) (buffer data : Bytes) : Int × Bytes :=
  if size < buffer.length + data.length then (-1, buffer) else (data.length, buffer ++ data)

section Generate
variable (abi : Abi) (t : Tools) (a : Args)

/-- `MakeFreeSpaceOnCache` and `SaveFileContents` for the source in hand; whether both succeed. -/
def backUp (source_file : FileContents) : Io Bool := do
  if (← makeFreeSpaceOnCache (source_file.size % abi.word).toNat) < 0 then pure false
  else if (← saveFileContents CACHE_TEMP_SOURCE source_file) < 0 then pure false
  else pure true

/-- The patch applied to the data in hand: the result, the sink, and what was hashed; `none`
for a patch of an unknown format. -/
def applyPatch {σ : Type} (sink : σ → Bytes → Io (Int × σ)) (old : Bytes) (patch : Bytes) (token : σ) :
    Io (Option (Int × σ × Bytes)) :=
  if 8 ≤ patch.length ∧ patch.take 8 = magicBSDIFF then some <$> applyBSDiffPatch sink t.toCodec old patch token
  else if 8 ≤ patch.length ∧ patch.take 8 = magicIMGDIFF then
    some <$> perform hang sink (imageActions abi t.toCodec old patch a.bonus) token []
  else pure none

/-- What is decided before the first try: the source in hand with its patch, if it has one, and
the copy with its patch otherwise. -/
structure Chosen where
  source_file : FileContents
  source_patch : Option Value
  copy_file : FileContents
  copy_patch : Option Value

def Chosen.used (c : Chosen) : FileContents := if c.source_patch.isSome then c.source_file else c.copy_file

def Chosen.patch (c : Chosen) : Option Value := if c.source_patch.isSome then c.source_patch else c.copy_patch

/-! ### A partition -/

def generatePart (p : Partition) (target_sha1 : Digest) (c : Chosen) : Io Int := do
  if !(← backUp abi c.source_file) then pure 1
  else
    match c.patch, c.used.data with
    | some patch, some old =>
      if !patch.blob then pure 1
      else if !(← Sys.malloc a.target_size) then pure 1
      else
        match ← applyPatch abi t a (fun buffer data => pure (memorySink a.target_size buffer data)) old patch.data [] with
        | none => pure 1
        | some (result, buffer, ctx) =>
          if result ≠ 0 then pure 1
          else if t.sha1 ctx ≠ target_sha1 then pure 1
          else if (← writeToPartition p buffer) ≠ 0 then pure 1
          else do
            let _ ← Sys.unlink CACHE_TEMP_SOURCE
            pure 0
    | _, _ => hang

/-! ### A file -/

/-- What one turn of the loop comes to. -/
inductive Turn where
  | returned (ret : Int)
  | failed (made_copy : Bool)
  | patched (ctx : Bytes) (made_copy : Bool)

/-- Room for the target file: whether a copy of the source was made, or `none` where the run is
given up. -/
def makeRoom (source_file : FileContents) : Io (Option Bool) :=
  match a.source with
  | .part _ => pure none
  | .file source => do
    if !(← backUp abi source_file) then pure none
    else
      let _ ← Sys.unlink source
      pure (some true)

/-- The patch applied into `<target>.patch`. -/
def patchFile (target : Path) (c : Chosen) (made_copy : Bool) : Io Turn :=
  match c.patch, c.used.data with
  | some patch, some old => do
    if !patch.blob then pure (.returned 1)
    else if !(← Sys.create (patchName target)) then pure (.returned 1)
    else
      match ← applyPatch abi t a (fun (_ : Unit) data => (·, ()) <$> fileSink (patchName target) data) old patch.data () with
      | none => pure (.returned 1)
      | some (result, _, ctx) => if result ≠ 0 then pure (.failed made_copy) else pure (.patched ctx made_copy)
  | _, _ => hang

/-- One turn, with or without room for the target. -/
def turn (target : Path) (c : Chosen) (enough made_copy : Bool) : Io Turn :=
  if !enough ∧ c.source_patch.isSome then do
    match ← makeRoom abi a c.source_file with
    | none => pure (.returned 1)
    | some made => patchFile abi t a target c made
  else patchFile abi t a target c made_copy

/-- The patched file takes the target's place. -/
def replaceTarget (target : Path) (target_sha1 : Digest) (used : FileContents) (ctx : Bytes) (made_copy : Bool) : Io Int := do
  if t.sha1 ctx ≠ target_sha1 then pure 1
  else if !(← Sys.chmod (patchName target) used.st) then pure 1
  else if !(← Sys.chown (patchName target) used.st) then pure 1
  else if !(← Sys.rename (patchName target) target) then pure 1
  else if made_copy then do
    let _ ← Sys.unlink CACHE_TEMP_SOURCE
    pure 0
  else pure 0

/-- The last turn: without room, and not tried again. -/
def lastTurn (target : Path) (target_sha1 : Digest) (c : Chosen) : Io Int := do
  match ← turn abi t a target c false false with
  | .returned ret => pure ret
  | .failed _ => pure 1
  | .patched ctx made_copy => replaceTarget t target target_sha1 c.used ctx made_copy

/-- The loop: a first turn that is tried again if there was room, and a last one. -/
def generateFile (target : Path) (target_sha1 : Digest) (c : Chosen) : Io Int := do
  let free ← Sys.freeSpace (topDir target)
  if enoughSpace abi a.target_size free then
    match ← turn abi t a target c true false with
    | .returned ret => pure ret
    | .failed _ =>
      let _ ← Sys.unlink (patchName target)
      lastTurn abi t a target target_sha1 c
    | .patched ctx made_copy => replaceTarget t target target_sha1 c.used ctx made_copy
  else lastTurn abi t a target target_sha1 c

def generateTarget (target_sha1 : Digest) (c : Chosen) : Io Int :=
  match a.targetName with
  | .part p => generatePart abi t a p target_sha1 c
  | .file target => generateFile abi t a target target_sha1 c

/-! ### The run -/

/-- The patch for what was loaded. -/
def patchFor (file : FileContents) : Option Value :=
  (findMatchingPatch file.sha1 (a.patches.map Prod.fst)).bind fun i => (a.patches.map Prod.snd)[i]?

/-- The source is loaded, unless the target that was loaded is the source. -/
def loadSource (file : FileContents) : Io FileContents :=
  if file.data.isNone ∨ a.targetName ≠ a.source then Prod.snd <$> loadFileContents t a.source file
  else pure file

/-- From the source in hand on. -/
def applySource (target_sha1 : Digest) (source_file copy_file : FileContents) : Io Int :=
  match source_file.data.bind fun _ => patchFor a source_file with
  | some patch => generateTarget abi t a target_sha1 ⟨source_file, some patch, copy_file, none⟩
  | none => do
    let (ret, copy_file) ← loadFileContents t (.file CACHE_TEMP_SOURCE) copy_file
    if ret < 0 then pure 1
    else
      match patchFor a copy_file with
      | none => pure 1
      | some patch =>
        generateTarget abi t a target_sha1 ⟨{source_file with data := none}, none, copy_file, some patch⟩

def applypatch : Io Int :=
  match parseSha1 a.target_sha1 with
  | none => pure 1
  | some target_sha1 => do
    let copy_file ← Sys.uninit
    let source_file ← Sys.uninit
    let (ret, source_file) ← loadFileContents t a.targetName {source_file with data := none}
    if ret = 0 ∧ source_file.sha1 = target_sha1 then pure 0
    else
      let source_file ← loadSource t a source_file
      applySource abi t a target_sha1 source_file {copy_file with data := none}

end Generate

end Twrp.Patch
