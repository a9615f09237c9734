import Twrp.Base.CString

/-! The lists of a file selector (`GUIFileSelector::GetFileList` and `fileSort`).

The directory is read entry by entry into two lists. What `stat` answers is not looked at: where it fails,
`st` still holds what the entry before left in it, and at the first one whatever the stack held. The type of
an entry whose directory does not tell types is taken from a `stat` of its own, with the same gap. -/
namespace Twrp.Gui.FileSelector
open Base

/-- `d_type` of an entry -/
inductive DType where
  | unknown | fifo | chr | dir | blk | reg | lnk | sock | wht
deriving DecidableEq

structure Stat where
  mode : Nat
  uid : Nat
  gid : Nat
  size : Int
  atime : Int
  mtime : Int
  ctime : Int
deriving DecidableEq

structure FileData where
  fileName : CString
  fileType : DType
  protection : Nat
  userId : Nat
  groupId : Nat
  fileSize : Int
  lastAccess : Int
  lastModified : Int
  lastStatChange : Int
deriving DecidableEq

/-- `TW_FILESELECTOR_UP_A_LEVEL` -/
def upALevel : CString := "(Up A Level)"

/-! ### The comparison -/

def toLower (b : UInt8) : UInt8 := if 65 ≤ b ∧ b ≤ 90 then b + 32 else b

/-- `strcasecmp`, in the C locale. -/
def strcasecmp : List UInt8 → List UInt8 → Int
  | [], [] => 0
  | [], b :: _ => 0 - (toLower b).toNat
  | a :: _, [] => (toLower a).toNat
  | a :: s, b :: t => if toLower a = toLower b then strcasecmp s t else (toLower a).toNat - (toLower b).toNat

/-- `fileSort`; the -1 that it returns is true. -/
def fileSort (mSortOrder : Int) (d1 d2 : FileData) : Bool :=
  let cmp := strcasecmp d1.fileName.bytes d2.fileName.bytes
  if d1.fileName = "." then true
  else if d2.fileName = "." then false
  else if d1.fileName = upALevel then true
  else if d2.fileName = upALevel then false
  else
    match mSortOrder with
    | 3 => if d1.fileSize = d2.fileSize ∨ d1.fileType = .dir then cmp < 0 else d1.fileSize < d2.fileSize
    | -3 => if d1.fileSize = d2.fileSize ∨ d1.fileType = .dir then cmp > 0 else d1.fileSize > d2.fileSize
    | 2 => if d1.lastModified = d2.lastModified then cmp < 0 else d1.lastModified < d2.lastModified
    | -2 => if d1.lastModified = d2.lastModified then cmp > 0 else d1.lastModified > d2.lastModified
    | -1 => cmp > 0
    | _ => cmp < 0

/-! ### Reading a directory -/

/-- `TWFunc::Get_D_Type_From_Stat`, by the mode that its `st` holds. The kinds of a mode share bits: a
block device is taken for a directory here, and a file for a link. -/
def dTypeOfMode (mode : Nat) : DType :=
  if mode &&& 0x4000 ≠ 0 then .dir
  else if mode &&& 0x6000 ≠ 0 then .blk
  else if mode &&& 0x2000 ≠ 0 then .chr
  else if mode &&& 0x1000 ≠ 0 then .fifo
  else if mode &&& 0xa000 ≠ 0 then .lnk
  else if mode &&& 0x8000 ≠ 0 then .reg
  else if mode &&& 0xc000 ≠ 0 then .sock
  else .unknown

structure Dirent where
  name : CString
  type : DType
deriving DecidableEq

/-- What the theme and the settings say about the lists. -/
structure Config where
  mSortOrder : Int
  mShowNavFolders : Int
  mExtn : CString

/-- `mFolderList` or `mFileList` -/
inductive Which where
  | folders | files
deriving DecidableEq

structure Lists where
  mFolderList : List FileData
  mFileList : List FileData

namespace Lists

def get (l : Lists) : Which → List FileData
  | .folders => l.mFolderList
  | .files => l.mFileList

def push (l : Lists) (d : FileData) : Which → Lists
  | .folders => {l with mFolderList := l.mFolderList ++ [d]}
  | .files => {l with mFileList := l.mFileList ++ [d]}

theorem get_push (l : Lists) (d : FileData) (w w' : Which) :
    (l.push d w).get w' = l.get w' ++ if w = w' then [d] else [] := by
  cases w <;> cases w' <;> simp [push, get]

end Lists

/-- An entry as it goes on to `stat`: the own directory is skipped, and the one above it in the root. -/
def seen (folder : CString) (de : Dirent) : Option Dirent :=
  if de.name = "." then none
  else if de.name = ".." ∧ folder = "/" then none
  else if de.name = ".." then some ⟨upALevel, .dir⟩
  else some de

/-- Where an entry is pushed. -/
def placed (c : Config) (fileName : CString) (fileType : DType) : Option Which :=
  if fileType = .dir then
    if c.mShowNavFolders ≠ 0 ∨ (fileName ≠ "." ∧ fileName ≠ upALevel) then some .folders else none
  else if fileType = .reg ∨ fileType = .lnk ∨ fileType = .blk then
    let name := fileName.bytes
    let extn := c.mExtn.bytes
    if extn = [] ∨ (name.length > extn.length ∧ name.drop (name.length - extn.length) = extn) then some .files else none
  else none

def record (fileName : CString) (fileType : DType) (st : Stat) : FileData where
  fileName := fileName
  fileType := fileType
  protection := st.mode
  userId := st.uid
  groupId := st.gid
  fileSize := st.size
  lastAccess := st.atime
  lastModified := st.mtime
  lastStatChange := st.ctime

/-- A directory: its entries, and what `stat` answers for a path, nothing when it fails. -/
structure Directory where
  dirents : List Dirent
  stat : CString → Option Stat

section Scan
variable (c : Config) (folder : CString) (stat : CString → Option Stat)

def statOf (fileName : CString) : Option Stat := stat (folder ++ "/" ++ fileName)

/-- The type of an entry; `junk` is the mode in the uninitialised `st` of `Get_D_Type_From_Stat`. -/
def typeOf (e : Dirent) (junk : Nat) : DType :=
  if e.type = .unknown then dTypeOfMode (((statOf folder stat e.name).map Stat.mode).getD junk) else e.type

/-- `st` behind `stat(path.c_str(), &st)`. -/
def fill (st : Stat) (e : Dirent) : Stat := (statOf folder stat e.name).getD st

def pushEntry (s : Stat × Lists) (e : Dirent × Nat) : Stat × Lists :=
  let st := fill folder stat s.1 e.1
  let fileType := typeOf folder stat e.1 e.2
  let data := record e.1.name fileType st
  (st, ((placed c e.1.name fileType).map (s.2.push data)).getD s.2)

/-- One turn of the loop over `readdir`. -/
def readEntry (s : Stat × Lists) (de : Dirent × Nat) : Stat × Lists :=
  match seen folder de.1 with
  | none => s
  | some e => pushEntry c folder stat s (e, de.2)

end Scan

/-- One way in which a directory is read: an order of its entries, and what is in the uninitialised memory. -/
structure Reading (dir : Directory) where
  dirents : List (Dirent × Nat)
  perm : (dirents.map Prod.fst).Perm dir.dirents
  initial : Stat

/-- The lists before they are sorted. -/
def readLists (c : Config) (folder : CString) {dir : Directory} (r : Reading dir) : Lists :=
  (r.dirents.foldl (readEntry c folder dir.stat) (r.initial, ⟨[], []⟩)).2

end Twrp.Gui.FileSelector
