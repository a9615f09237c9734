import Twrp.Base.CString

/-! Where the reader of an archive finds its end record.

`parseZipArchive` looks backward from the last place an end-of-central-directory record can
start, takes the first marker it meets, and reads from there how many entries there are and
where the central directory is. -/
namespace Twrp.Zip
open Base

def ENDSIG : Nat := 0x06054b50
def LOCSIG : Nat := 0x04034b50
def ENDHDR : Nat := 22
def ENDSUB : Nat := 8
def ENDOFF : Nat := 16

def get2LE (map : List UInt8) (ptr : Nat) : Nat := fromLe ((map.drop ptr).take 2)
def get4LE (map : List UInt8) (ptr : Nat) : Nat := fromLe ((map.drop ptr).take 4)

/-- The test of the backward scan at one place. -/
def isEnd (map : List UInt8) (ptr : Nat) : Bool := map[ptr]? = some 0x50 && get4LE map ptr = ENDSIG

/-- The scan from `ptr` down to the start of the map. -/
def findEnd (map : List UInt8) : Nat → Option Nat
  | 0 => if isEnd map 0 then some 0 else none
  | ptr + 1 => if isEnd map (ptr + 1) then some (ptr + 1) else findEnd map ptr

structure EndRecord where
  ptr : Nat
  numEntries : Nat
  cdOffset : Nat
deriving DecidableEq

/-- `parseZipArchive` up to the central directory; `none` where it bails out. -/
def readEnd (map : List UInt8) : Option EndRecord :=
  if get4LE map 0 = ENDSIG then none
  else if get4LE map 0 ≠ LOCSIG then none
  else
    match findEnd map (map.length - ENDHDR) with
    | none => none
    | some ptr =>
      let numEntries := get2LE map (ptr + ENDSUB)
      let cdOffset := get4LE map (ptr + ENDOFF)
      if numEntries = 0 ∨ map.length ≤ cdOffset then none
      else some ⟨ptr, numEntries, cdOffset⟩

/-- `mzOpenZipArchive` as far as the end record: a file too small for one is refused. -/
def openEnd (map : List UInt8) : Option EndRecord := if map.length < ENDHDR then none else readEnd map

/-- The last place that passes the test is what the scan finds. -/
theorem findEnd_of_last {map : List UInt8} {ptr : Nat} (hend : isEnd map ptr = true) {top : Nat} (hle : ptr ≤ top)
    (hlast : ∀ p, ptr < p → p ≤ top → isEnd map p = false) : findEnd map top = some ptr := by
  induction top with
  | zero =>
    obtain rfl : ptr = 0 := by omega
    rw [findEnd, if_pos hend]
  | succ top ih =>
    by_cases heq : ptr = top + 1
    · rw [findEnd, ← heq, if_pos hend]
    · have hnot : ¬isEnd map (top + 1) = true := by
        rw [hlast (top + 1) (by omega) le_rfl]
        exact Bool.false_ne_true
      rw [findEnd, if_neg hnot]
      exact ih (by omega) fun p hp hle' => hlast p hp (by omega)

/-- The entry count and the offset are read at the record that the scan finds. -/
theorem readEnd_fields {map : List UInt8} {ptr : Nat} (hfind : findEnd map (map.length - ENDHDR) = some ptr) {e : EndRecord}
    (he : readEnd map = some e) :
    e.ptr = ptr ∧ e.numEntries = get2LE map (ptr + ENDSUB) ∧ e.cdOffset = get4LE map (ptr + ENDOFF) := by
  unfold readEnd at he
  rw [hfind] at he
  dsimp only at he
  split_ifs at he
  cases he
  exact ⟨rfl, rfl, rfl⟩

/-- Four bytes that lie inside a prefix are the same in the prefix. -/
theorem get4LE_take (map : List UInt8) {n ptr : Nat} (h : ptr + 4 ≤ n) : get4LE (map.take n) ptr = get4LE map ptr := by
  unfold get4LE
  rw [List.drop_take, List.take_take, Nat.min_eq_left (by omega)]

theorem get2LE_take (map : List UInt8) {n ptr : Nat} (h : ptr + 2 ≤ n) : get2LE (map.take n) ptr = get2LE map ptr := by
  unfold get2LE
  rw [List.drop_take, List.take_take, Nat.min_eq_left (by omega)]

end Twrp.Zip
