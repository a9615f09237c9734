import Twrp.Base.Path

/-! Directory trees, as the archiver reads them.

A `Listing` is what `readdir` gives for a directory, with the listing of each
subdirectory in its place. The entries `.` and `..` come first in every directory and
are not written out; the walks treat them where they start. Sizes are those `stat`
gives for regular files. -/
namespace Twrp.Tar
open Base

/-- The kinds of entries that are not directories. -/
inductive Kind where
  | reg (size : Nat)
  | lnk
  | blk
  | chr
  | fifo
  | sock
deriving DecidableEq

/-- The entries of a directory, in the order they are read. -/
inductive Listing where
  | nil
  | leaf (name : Path) (kind : Kind) (rest : Listing)
  | dir (name : Path) (sub rest : Listing)
deriving DecidableEq

def Kind.isDevice : Kind → Bool
  | .blk => true
  | .chr => true
  | _ => false

/-- Regular files and symbolic links. -/
def Kind.isFile : Kind → Bool
  | .reg _ => true
  | .lnk => true
  | _ => false

/-- `st_size`, where it is counted. -/
def Kind.size : Kind → Nat
  | .reg size => size
  | _ => 0

/-- An unsigned 64-bit value. -/
def ull (n : Nat) : Nat := n % 18446744073709551616

/-- A name `readdir` gives for an entry other than `.` and `..`. -/
structure GoodName (name : Path) : Prop where
  nonempty : name ≠ []
  noSlash : '/' ∉ name
  notDot : name ≠ ['.']
  notDotDot : name ≠ ['.', '.']

instance (name : Path) : Decidable (GoodName name) :=
  decidable_of_iff (name ≠ [] ∧ '/' ∉ name ∧ name ≠ ['.'] ∧ name ≠ ['.', '.'])
    ⟨fun h => ⟨h.1, h.2.1, h.2.2.1, h.2.2.2⟩, fun h => ⟨h.nonempty, h.noSlash, h.notDot, h.notDotDot⟩⟩

namespace Listing

/-- `TWFunc::Get_Folder_Size`: the sum over all regular files, at any depth. -/
def folderSize : Listing → Nat
  | nil => 0
  | leaf _ (.reg size) rest => ull (size + rest.folderSize)
  | leaf _ _ rest => rest.folderSize
  | dir _ sub rest => ull (sub.folderSize + rest.folderSize)

/-- The entries at the top, each as a listing of its own with nothing after it. -/
def names : Listing → List Path
  | nil => []
  | leaf name _ rest => name :: rest.names
  | dir name _ rest => name :: rest.names

/-- Names are good, and those of one directory differ. -/
def WellFormed : Listing → Prop
  | nil => True
  | leaf name _ rest => GoodName name ∧ name ∉ rest.names ∧ rest.WellFormed
  | dir name sub rest => GoodName name ∧ name ∉ rest.names ∧ sub.WellFormed ∧ rest.WellFormed

instance decidableWellFormed : (listing : Listing) → Decidable listing.WellFormed
  | nil => .isTrue trivial
  | leaf name _ rest =>
    have := decidableWellFormed rest
    inferInstanceAs (Decidable (GoodName name ∧ name ∉ rest.names ∧ rest.WellFormed))
  | dir name sub rest =>
    have := decidableWellFormed sub
    have := decidableWellFormed rest
    inferInstanceAs (Decidable (GoodName name ∧ name ∉ rest.names ∧ sub.WellFormed ∧ rest.WellFormed))

/-- No block or character device at any depth. -/
def NoDevices : Listing → Prop
  | nil => True
  | leaf _ kind rest => kind.isDevice = false ∧ rest.NoDevices
  | dir _ sub rest => sub.NoDevices ∧ rest.NoDevices

end Listing

/-- `strncmp(path, "/data/media", 11) == 0`, for a path of at least 11 bytes. -/
def dataMediaPrefix (p : Path) : Bool := "/data/media".toList.isPrefixOf p

def lostFound : Path := "lost+found".toList

/-- `TWFunc::split_string(text, ' ', true)` -/
def splitSpaces (text : Path) : List Path := (text.splitOn ' ').filter (· ≠ [])

end Twrp.Tar
