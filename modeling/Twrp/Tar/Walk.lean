import Twrp.Base.Prog
import Twrp.Tar.Tree

/-! The walks that put a tree into archives.

The archiver is a program over the calls it makes: opening directories, creating,
filling and closing archives. A call may fail, and the walks go on or give up as the
source does. Three walks select what is archived: `tarDirs` with `tar_append_tree`
below it (the single archive), `Generate_Multiple_Archives` (archives split by size),
and `Generate_TarList` with `tarList` (lists for threads, in `Tar/Threads.lean`).

A path longer than `MAXPATHLEN` is cut by the source and then not found by `lstat`;
here it is kept whole. -/
namespace Twrp.Tar
open Base

/-! ### Calls -/

/-- What `stat` gives of an item: whether `st_mode & S_IFREG` holds, and `st_size`. -/
structure Stat where
  isReg : Bool
  size : Nat
deriving DecidableEq

/-- The name an entry is stored under: known, or a `0` with what `charTarPath` held for
`buf` after it, then the path below. Nothing sets that part of the buffer. -/
inductive Stored where
  | known (name : Path)
  | unset (buf below : Path)
deriving DecidableEq

def Stored.join : Stored → Path → Stored
  | known name, n => known (Base.join name n)
  | unset buf below, n => unset buf (Base.join below n)

/-- The text of a stored name, given what the buffer held. -/
def Stored.text (junk : Path → Path) : Stored → Path
  | known name => name
  | unset buf below => '0' :: (junk buf ++ below)

inductive Call where
  | opendir (path : Path)
  | lstat (path : Path)
  | stat (path : Path)
  /-- `tar_append_file(t, real, save)`, a null `save` standing for `real` -/
  | append (real : Path) (save : Stored)
  | createTar (file : Path)
  | closeTar (file : Path)
  | fileSize (file : Path)
  /-- the error of an archive counter that has run out -/
  | tooMany (file : Path)
  | threadAttr
  | threadCreate (id : Nat)
  | threadJoin (id : Nat)
deriving DecidableEq

/-- Answers: `true` where the source sees success. -/
def Ans : Call → Type
  | .stat _ => Option Stat
  | .fileSize _ => Nat
  | .tooMany _ => Unit
  | _ => Bool

abbrev Walk (α : Type) := Prog Ans α

def opendir (path : Path) : Walk Bool := Prog.ask (Call.opendir path)
def lstat (path : Path) : Walk Bool := Prog.ask (Call.lstat path)
def stat (path : Path) : Walk (Option Stat) := Prog.ask (Call.stat path)
def tarAppendFile (real : Path) (save : Stored) : Walk Bool := Prog.ask (Call.append real save)
def createTar (file : Path) : Walk Bool := Prog.ask (Call.createTar file)
def closeTar (file : Path) : Walk Bool := Prog.ask (Call.closeTar file)
def getFileSize (file : Path) : Walk Nat := Prog.ask (Call.fileSize file)
def tooMany (file : Path) : Walk Unit := Prog.ask (Call.tooMany file)

/-- `MAX_ARCHIVE_SIZE` -/
def maxArchiveSize : Nat := 1610612736

/-! ### Runs of calls -/

/-- The entries a run has put into archives: paths with the names they are stored
under. -/
def archived (log : List (Sigma Ans)) : List (Path × Stored) :=
  log.filterMap fun
    | ⟨.append real save, true⟩ => some (real, save)
    | _ => none

theorem mem_archived {log : List (Sigma Ans)} {e : Path × Stored} (he : e ∈ archived log) :
    ⟨.append e.1 e.2, true⟩ ∈ log := by
  simp only [archived, List.mem_filterMap] at he
  obtain ⟨⟨q, r⟩, hmem, heq⟩ := he
  split at heq
  · rename_i real save hq
    cases heq
    rw [← hq]
    exact hmem
  · cases heq

/-- Calls that all succeed, on files of one block. -/
def succeed : (q : Call) → Ans q
  | .stat _ => some ⟨true, 1⟩
  | .fileSize _ => (1 : Nat)
  | .tooMany _ => ()
  | .opendir _ => true
  | .lstat _ => true
  | .append _ _ => true
  | .createTar _ => true
  | .closeTar _ => true
  | .threadAttr => true
  | .threadCreate _ => true
  | .threadJoin _ => true

/-- A call that reports an error: one that fails, or the counter running out. -/
def reportsError : Sigma Ans → Bool
  | ⟨.opendir _, ok⟩ => !ok
  | ⟨.lstat _, ok⟩ => !ok
  | ⟨.append _ _, ok⟩ => !ok
  | ⟨.createTar _, ok⟩ => !ok
  | ⟨.closeTar _, ok⟩ => !ok
  | ⟨.fileSize _, size⟩ => Nat.beq size 0
  | ⟨.tooMany _, _⟩ => true
  | _ => false

theorem logs_opendir (p : Path) : Prog.Logs (fun ok => ⟨.opendir p, ok⟩) (opendir p) := Prog.post_ask fun _ => rfl
theorem logs_lstat (p : Path) : Prog.Logs (fun ok => ⟨.lstat p, ok⟩) (lstat p) := Prog.post_ask fun _ => rfl
theorem logs_tarAppendFile (real : Path) (save : Stored) :
    Prog.Logs (fun ok => ⟨.append real save, ok⟩) (tarAppendFile real save) := Prog.post_ask fun _ => rfl
theorem logs_createTar (f : Path) : Prog.Logs (fun ok => ⟨.createTar f, ok⟩) (createTar f) := Prog.post_ask fun _ => rfl
theorem logs_closeTar (f : Path) : Prog.Logs (fun ok => ⟨.closeTar f, ok⟩) (closeTar f) := Prog.post_ask fun _ => rfl

theorem post_tooMany (f : Path) : (tooMany f).Post fun l _ => l = [⟨.tooMany f, ()⟩] := Prog.post_ask fun _ => rfl

/-! ### One file, one tree -/

/-- `Strip_Root_Dir`: the path without its first component. -/
def stripRootDir (path : Path) : Path :=
  let temp := if path.head? = some '/' then path.tail else path
  if '/' ∈ temp then temp.dropWhile (· != '/') else temp

def addFile (fn : Path) (includeRoot : Bool) : Walk Int := do
  if ← tarAppendFile fn (.known (if includeRoot then fn else stripRootDir fn)) then return 0 else return -1

/-- The loop of `tar_append_tree` over the entries of `realdir`. The exclusions it is
given are compared as pointers, which never meet, so nothing is left out. -/
def appendEntries (realdir : Path) (savedir : Stored) : Listing → Walk Int
  | .nil => return 0
  | .leaf name _ rest => do
    if !(← lstat (join realdir name)) then return -1
    if !(← tarAppendFile (join realdir name) (savedir.join name)) then return -1
    appendEntries realdir savedir rest
  | .dir name sub rest => do
    if !(← lstat (join realdir name)) then return -1
    -- `tar_append_tree` on the subdirectory
    if !(← tarAppendFile (join realdir name) (savedir.join name)) then return -1
    if !(← opendir (join realdir name)) then return -1
    if (← appendEntries (join realdir name) (savedir.join name) sub) ≠ 0 then return -1
    appendEntries realdir savedir rest

def tarAppendTree (realdir : Path) (savedir : Stored) (sub : Listing) : Walk Int := do
  if !(← tarAppendFile realdir savedir) then return -1
  if !(← opendir realdir) then return -1
  appendEntries realdir savedir sub

/-! ### The single archive -/

/-- What a walk reads of its object and of the build. -/
structure Config where
  /-- built with `RECOVERY_SDCARD_ON_DATA` -/
  sdcardOnData : Bool
  hasDataMedia : Bool
  /-- `Excluded` -/
  excluded : List Path

/-- `has_data_media == 1` and the path is skipped as `/data/media` -/
def Config.skipsMedia (cfg : Config) (path : Path) : Bool := cfg.hasDataMedia && dataMediaPrefix path

/-- `skip` -/
def Config.skip (cfg : Config) (name : Path) : Bool := name ∈ cfg.excluded

/-- The loop of `tarDirs` over the entries after `.` and `..`. -/
def tarEntries (cfg : Config) (tardir : Path) (includeRoot : Bool) : Listing → Walk Int
  | .nil => return 0
  | .leaf name kind rest => do
    if cfg.sdcardOnData ∧ (tardir = "/data".toList ∨ tardir = "/data/".toList) ∧ name = "media".toList then
      return ← tarEntries cfg tardir includeRoot rest
    if kind.isDevice || cfg.skip name then return ← tarEntries cfg tardir includeRoot rest
    if tardir ≠ ['/'] ∧ kind.isFile then
      if (← addFile (join tardir name) includeRoot) ≠ 0 then return -1
    tarEntries cfg tardir includeRoot rest
  | .dir name sub rest => do
    if cfg.sdcardOnData ∧ (tardir = "/data".toList ∨ tardir = "/data/".toList) ∧ name = "media".toList then
      return ← tarEntries cfg tardir includeRoot rest
    if cfg.skip name then return ← tarEntries cfg tardir includeRoot rest
    let buf := join tardir name
    let charTarPath : Stored := if includeRoot then .unset buf [] else .known (stripRootDir buf)
    if (← tarAppendTree buf charTarPath sub) ≠ 0 then return -1
    tarEntries cfg tardir includeRoot rest

def tarDirs (cfg : Config) (tardir : Path) (includeRoot : Bool) (listing : Listing) : Walk Int := do
  -- a directory that does not open is no error here
  if !(← opendir tardir) then return 0
  if !cfg.skip ['.'] ∧ basename (tardir ++ ['/']) ≠ lostFound then
    if (← addFile (tardir ++ ['/']) includeRoot) ≠ 0 then return -1
  tarEntries cfg tardir includeRoot listing

/-- `create`, the single archive. -/
def create (cfg : Config) (tarfn tardir : Path) (listing : Listing) : Walk Int := do
  if !(← createTar tarfn) then return -1
  if (← tarDirs cfg tardir false listing) = -1 then return -1
  if !(← closeTar tarfn) then return -1
  return 0

/-! ### Archives split by size -/

/-- The members of the archiver that the split walk moves along. -/
structure SplitState where
  tarfn : Path
  fileCount : Nat
  currentSize : Nat

/-- The archive of index `n`: `basefn` with `%03i`. -/
def splitName (basefn : Path) (n : Nat) : Path := basefn ++ padded 3 n

/-- Before a file of `size` bytes: close a full archive and open the next. -/
def nextArchive (basefn : Path) (size : Nat) (s : SplitState) : Walk (Int × SplitState) := do
  if s.currentSize ≠ 0 ∧ ull (s.currentSize + size) > maxArchiveSize then
    let _ ← closeTar s.tarfn
    if (← getFileSize s.tarfn) = 0 then return (-1, s)
    let count := s.fileCount + 1
    if count > 999 then
      tooMany s.tarfn
      return (-1, {s with fileCount := count})
    let s := ⟨splitName basefn count, count, 0⟩
    if !(← createTar s.tarfn) then return (-1, s)
    return (0, s)
  else return (0, s)

/-- A file or a link in the split walk. Links are not counted and open no archive. -/
def addSplitFile (basefn fileName : Path) (kind : Kind) (s : SplitState) : Walk (Int × SplitState) := do
  let (ret, s) ← if kind = .lnk then pure (0, s) else nextArchive basefn kind.size s
  if ret < 0 then return (-1, s)
  if (← addFile fileName true) < 0 then return (-1, s)
  return (0, if kind = .lnk then s else {s with currentSize := ull (s.currentSize + kind.size)})

/-- The loop of `Generate_Multiple_Archives` over the entries of `path`. -/
def generateEntries (cfg : Config) (basefn path : Path) : Listing → SplitState → Walk (Int × SplitState)
  | .nil, s => return (0, s)
  | .leaf name kind rest, s => do
    let fileName := join path name
    if cfg.skip name || cfg.skipsMedia fileName || !kind.isFile then
      return ← generateEntries cfg basefn path rest s
    let (ret, s) ← addSplitFile basefn fileName kind s
    if ret < 0 then return (-1, s)
    generateEntries cfg basefn path rest s
  | .dir name sub rest, s => do
    let fileName := join path name
    if cfg.skip name || cfg.skipsMedia fileName then return ← generateEntries cfg basefn path rest s
    if ull (s.currentSize + sub.folderSize) > maxArchiveSize then
      if (← addFile fileName true) ≠ 0 then return (-1, s)
      -- `Generate_Multiple_Archives` on the subdirectory
      if !(← opendir fileName) then return (-1, s)
      let (ret, s) ← generateEntries cfg basefn fileName sub s
      if ret < 0 then return (-1, s)
      generateEntries cfg basefn path rest s
    else
      if (← tarDirs cfg fileName true sub) < 0 then return (-1, s)
      generateEntries cfg basefn path rest {s with currentSize := ull (s.currentSize + sub.folderSize)}

def generateMultipleArchives (cfg : Config) (basefn path : Path) (listing : Listing) (s : SplitState) :
    Walk (Int × SplitState) := do
  if cfg.skipsMedia path then return (0, s)
  if !(← opendir path) then return (-1, s)
  generateEntries cfg basefn path listing s

/-- `Split_Archive`: what creating the first archive and closing the last one report is
not looked at. -/
def splitArchive (cfg : Config) (tarfn tardir : Path) (listing : Listing) : Walk Int := do
  let s : SplitState := ⟨splitName tarfn 0, 0, 0⟩
  let _ ← createTar s.tarfn
  let (ret, s) ← generateMultipleArchives cfg tarfn tardir listing s
  if ret < 0 then return -1
  let _ ← closeTar s.tarfn
  return s.fileCount + 1

end Twrp.Tar
