import Twrp.Patch.Image

/-! Applying a bsdiff patch (`ApplyBSDiffPatchMem` and `FillBuffer`).

A patch has three bzip2 streams. Triples of numbers from the first say how many bytes of the
second are added to bytes of the old data, how many of the third are copied, and where to go on
in the old data. The numbers have a sign, and are only compared from above; a buffer is filled
until it is full, whatever the stream still has. So which bytes are touched, and whether it
ends, hangs on the triples: `Orderly` says of them in turn what the code does not check, and
where each meets it, the run ends, keeps to its bytes and makes all of the new file when it
returns 0 (`applyBSDiffPatchMem_safe`). -/
namespace Twrp.Patch.BsPatch
open Base

/-! ### bzip2 -/

/-- What comes after the output of a stream: its end, corrupt data, or nothing, as the input is
used up before the end. -/
inductive End where
  | finished
  | corrupt
  | starved
deriving DecidableEq

/-- The library: what the bytes of a stream decompress to, and how much of what is left of that
one call hands over. -/
structure Bzip2 where
  decode : Bytes → Bytes × End
  piece : Bytes → Nat → Nat
  piece_pos : ∀ {left room}, left ≠ [] → 0 < room → 0 < piece left room
  piece_le : ∀ left room, piece left room ≤ room

/-- A `bz_stream`: where in the patch its input is, and what of its output is left. -/
structure Stream where
  start : Int
  avail : Nat
  left : Bytes
  ending : End
  /-- `BZ_STREAM_END` was returned -/
  ended : Bool
deriving DecidableEq

inductive Ret where
  | ok
  | streamEnd
  | error
deriving DecidableEq

/-- `BZ2_bzDecompress` with `room` in `avail_out`: what it returns and puts out. -/
def bzDecompress (bz : Bzip2) (s : Stream) (room : Nat) : Ret × Bytes × Stream :=
  if s.left ≠ [] then
    (.ok, s.left.take (bz.piece s.left room), {s with left := s.left.drop (bz.piece s.left room)})
  else
    match s.ending with
    | .finished => if s.ended then (.error, [], s) else (.streamEnd, [], {s with ended := true})
    | .corrupt => (.error, [], s)
    | .starved => (.ok, [], s)

/-! ### The code -/

/-- A byte that is touched, or the input of a stream: in the patch, the old data, or the new
data, which bytes are put into first and added to later. -/
inductive Access where
  | patch (start : Int) (len : Nat)
  | old (i : Int)
  | fill (i : Int)
  | add (i : Int)
deriving DecidableEq

/-- `offtin`: a number and its sign. -/
def offtin (buf : Bytes) : Int :=
  let top := buf.getD 7 0
  let y : Int := fromLe (buf.take 7 ++ [top &&& 0x7F])
  if top &&& 0x80 ≠ 0 then -y else y

structure Filled where
  ok : Bool
  out : Bytes
  stream : Stream

/-- `FillBuffer`, with `room` left in the buffer; nothing where `fuel` calls are not enough. -/
def fillBuffer (bz : Bzip2) : (fuel room : Nat) → Stream → Option Filled
  | _, 0, s => some ⟨true, [], s⟩
  | 0, _ + 1, _ => none
  | fuel + 1, room + 1, s =>
    let (ret, out, s) := bzDecompress bz s (room + 1)
    if ret = .error then some ⟨false, out, s⟩
    else (fillBuffer bz fuel (room + 1 - out.length) s).map fun f => {f with out := out ++ f.out}

structure State where
  cstream : Stream
  dstream : Stream
  estream : Stream
  oldpos : Int
  newpos : Int
  newData : Int → UInt8
  log : List Access

inductive Outcome where
  /-- not done yet -/
  | running
  /-- a number overflows -/
  | undefined
  | returned (code : Int) (log : List Access) (newData : Bytes)

/-- A number that an `off_t` holds. -/
def IsOff (n : Int) : Prop := -9223372036854775808 ≤ n ∧ n < 9223372036854775808

instance (n : Int) : Decidable (IsOff n) := inferInstanceAs (Decidable (_ ∧ _))

/-- An `off_t` as the `int` argument of `FillBuffer`, and then as the unsigned `avail_out`. -/
def availOut (size : Int) : Nat := (size % 4294967296).toNat

/-- What a call of `FillBuffer` on the new data touches. -/
def fillLog (stream : Stream) (pos : Int) (room : Nat) (out : Bytes) : List Access :=
  (if 0 < room then [.patch stream.start stream.avail] else []) ++
    (List.range out.length).map fun (k : Nat) => .fill (pos + k)

def put (newData : Int → UInt8) (pos : Int) (out : Bytes) (i : Int) : UInt8 :=
  if pos ≤ i ∧ i < pos + out.length then out.getD (i - pos).toNat 0 else newData i

/-- `oldpos + i`, where it is in the old data. -/
def inOld (old : Bytes) (pos : Int) : Bool := 0 ≤ pos ∧ pos < old.length

/-- The loop that adds old data, over `i` below `n`. -/
def addOld (old : Bytes) (s : State) (n : Nat) : State :=
  { s with
    newData := fun p =>
      let from_ := s.oldpos + (p - s.newpos)
      if s.newpos ≤ p ∧ p < s.newpos + n ∧ inOld old from_ then s.newData p + old.getD from_.toNat 0 else s.newData p
    log := s.log ++ (List.range n).flatMap fun (k : Nat) =>
      if inOld old (s.oldpos + k) then [.old (s.oldpos + k), .add (s.newpos + k)] else [] }

/-- With the old data added to what was filled in, and the pointers adjusted. -/
def State.patched (s : State) (old : Bytes) (x : Int) (f : Filled) (log : List Access) : State :=
  let s := addOld old {s with dstream := f.stream, newData := put s.newData s.newpos f.out, log := log} x.toNat
  {s with newpos := s.newpos + x, oldpos := s.oldpos + x}

/-- With what was filled in, and the pointers adjusted. -/
def State.copied (s : State) (y z : Int) (f : Filled) (log : List Access) : State :=
  { s with
    estream := f.stream
    newData := put s.newData s.newpos f.out
    newpos := s.newpos + y
    oldpos := s.oldpos + z
    log := log }

section Loop
variable (bz : Bzip2) (old : Bytes) (newSize : Int)

/-- From the second check to the end of the loop's body, and on with `next`. -/
def extraPart (fuel : Nat) (y z : Int) (s : State) (next : State → Outcome) : Outcome :=
  if ¬IsOff (s.newpos + y) then .undefined
  else if newSize < s.newpos + y then .returned 1 s.log []
  else
    match fillBuffer bz fuel (availOut y) s.estream with
    | none => .running
    | some f =>
      let log := s.log ++ fillLog s.estream s.newpos (availOut y) f.out
      if !f.ok then .returned 1 log []
      else if ¬IsOff (s.oldpos + z) then .undefined
      else next (s.copied y z f log)

/-- From the first check on. -/
def diffPart (fuel : Nat) (x : Int) (s : State) (next : State → Outcome) : Outcome :=
  if ¬IsOff (s.newpos + x) then .undefined
  else if newSize < s.newpos + x then .returned 1 s.log []
  else
    match fillBuffer bz fuel (availOut x) s.dstream with
    | none => .running
    | some f =>
      let log := s.log ++ fillLog s.dstream s.newpos (availOut x) f.out
      if !f.ok then .returned 1 log []
      -- `i` is an `int`
      else if 2147483648 ≤ x ∨ ¬IsOff (s.oldpos + x) then .undefined
      else next (s.patched old x f log)

/-- `ctrl`, from the 24 bytes of the buffer. -/
def tripleOf (buf : Bytes) : Int × Int × Int :=
  (offtin (buf.take 8), offtin ((buf.drop 8).take 8), offtin ((buf.drop 16).take 8))

/-- The loop; `fuel` bounds its rounds and the calls in each of them. -/
def patchLoop : Nat → State → Outcome
  | 0, _ => .running
  | fuel + 1, s =>
    if newSize ≤ s.newpos then .returned 0 s.log ((List.range newSize.toNat).map fun (k : Nat) => s.newData k)
    else
      match fillBuffer bz fuel 24 s.cstream with
      | none => .running
      | some f =>
        let s := {s with cstream := f.stream, log := s.log ++ [.patch s.cstream.start s.cstream.avail]}
        if !f.ok then .returned 1 s.log []
        else
          let (x, y, z) := tripleOf f.out
          diffPart bz old newSize fuel x s fun s => extraPart bz newSize fuel y z s (patchLoop fuel)

end Loop

/-- What the function is given: the patch and the old data, and what is in memory around the
patch and in a new block of memory. -/
structure Input where
  patch : Bytes
  patchOffset : Int
  old : Bytes
  around : Int → UInt8
  fresh : Int → UInt8
  malloc : Nat → Bool

namespace Input
variable (inp : Input)

def byte (i : Int) : UInt8 := if 0 ≤ i then (inp.patch[i.toNat]?).getD (inp.around i) else inp.around i

def bytes (start : Int) (n : Nat) : Bytes := (List.range n).map fun (k : Nat) => inp.byte (start + k)

def ctrlLen : Int := offtin (inp.bytes (inp.patchOffset + 8) 8)

def dataLen : Int := offtin (inp.bytes (inp.patchOffset + 16) 8)

def newSize : Int := offtin (inp.bytes (inp.patchOffset + 24) 8)

/-- `BZ2_bzDecompressInit` on the bytes from `start` on; `avail_in` is unsigned. -/
def stream (bz : Bzip2) (start len : Int) : Stream :=
  let avail := (len % 4294967296).toNat
  let (out, ending) := bz.decode (inp.bytes start avail)
  ⟨start, avail, out, ending, false⟩

def cstream (bz : Bzip2) : Stream := inp.stream bz (inp.patchOffset + 32) inp.ctrlLen

def dstream (bz : Bzip2) : Stream := inp.stream bz (inp.patchOffset + 32 + inp.ctrlLen) inp.dataLen

def estream (bz : Bzip2) : Stream :=
  let start := inp.patchOffset + 32 + inp.ctrlLen + inp.dataLen
  inp.stream bz start (inp.patch.length - start)

end Input

/-- `ApplyBSDiffPatchMem` -/
def applyBSDiffPatchMem (bz : Bzip2) (inp : Input) (fuel : Nat) : Outcome :=
  if inp.bytes inp.patchOffset 8 ≠ magicBSDIFF then .returned 1 [.patch inp.patchOffset 8] []
  else if inp.ctrlLen < 0 ∨ inp.dataLen < 0 ∨ inp.newSize < 0 then .returned 1 [.patch inp.patchOffset 32] []
  else if ¬IsOff (inp.patchOffset + 32 + inp.ctrlLen + inp.dataLen) then .undefined
  else if !inp.malloc inp.newSize.toNat then .returned 1 [.patch inp.patchOffset 32] []
  else
    patchLoop bz inp.old inp.newSize fuel
      ⟨inp.cstream bz, inp.dstream bz, inp.estream bz, 0, 0, inp.fresh, [.patch inp.patchOffset 32]⟩

/-! ### What is asked of it -/

/-- Inside the patch, the old data or the new. -/
def Access.Inside (patchSize oldSize newSize : Int) : Access → Prop
  | .patch start len => 0 ≤ start ∧ start + len ≤ patchSize
  | .old i => 0 ≤ i ∧ i < oldSize
  | .fill i => 0 ≤ i ∧ i < newSize
  | .add i => 0 ≤ i ∧ i < newSize

def Access.filled : Access → Option Int
  | .fill i => some i
  | _ => none

/-- The bytes of the new data that were put there, in their order. -/
def filled (log : List Access) : List Int := log.filterMap Access.filled

/-- The positions below `n`. -/
def positions (n : Nat) : List Int := (List.range n).map fun (k : Nat) => (k : Int)

/-- What a run comes to: it ends, has touched what it may, and returns 0 only with all of the new
data. -/
def Ends (old : Bytes) (patchSize newSize : Int) (run : Nat → Outcome) : Prop :=
  ∃ enough, ∀ fuel, enough ≤ fuel → ∃ code log newData, run fuel = .returned code log newData ∧
    (∀ a ∈ log, a.Inside patchSize old.length newSize) ∧
    (code = 0 → filled log = positions newSize.toNat ∧ newData.length = newSize.toNat)

def Safe (inp : Input) (run : Nat → Outcome) : Prop := Ends inp.old inp.patch.length inp.newSize run

/-! ### The triples -/

def triplesUpTo : Nat → Bytes → List (Int × Int × Int)
  | 0, _ => []
  | n + 1, out => if out.length < 24 then [] else tripleOf out :: triplesUpTo n (out.drop 24)

/-- The triples that a control stream holds. -/
def triplesOf (out : Bytes) : List (Int × Int × Int) := triplesUpTo out.length out

def Stream.Inside (s : Stream) (patchSize : Int) : Prop := 0 ≤ s.start ∧ s.start + s.avail ≤ patchSize

/-- `n` bytes can be asked of a stream: its input is in the patch, and if it has fewer, an error
follows. -/
structure Stream.Gives (s : Stream) (patchSize : Int) (n : Nat) : Prop where
  inside : 0 < n → s.Inside patchSize
  ends : s.left.length < n → s.ending ≠ .starved

/-- A stream of which `n` bytes were taken. -/
def Stream.after (s : Stream) (n : Nat) : Stream := {s with left := s.left.drop n}

/-- A length that is not refused may be neither negative nor more than `avail_out` holds. -/
def Length (n : Int) : Prop := 0 ≤ n ∧ n < 4294967296

/-- What each triple must meet that the run comes to, in turn: one that overruns the new data
ends the run, and one that asks more of a stream than it has. -/
def Orderly (patchSize newSize : Int) (ctrlEnding : End) :
    List (Int × Int × Int) → (newpos oldpos : Int) → (dstream estream : Stream) → Prop
  | [], newpos, _, _, _ => newpos < newSize → ctrlEnding ≠ .starved
  | (x, y, z) :: rest, newpos, oldpos, dstream, estream =>
    newpos < newSize → IsOff (newpos + x) ∧ (newpos + x ≤ newSize →
      Length x ∧ dstream.Gives patchSize x.toNat ∧ (x.toNat ≤ dstream.left.length →
        (x < 2147483648 ∧ IsOff (oldpos + x)) ∧ IsOff (newpos + x + y) ∧ (newpos + x + y ≤ newSize →
          Length y ∧ estream.Gives patchSize y.toNat ∧ (y.toNat ≤ estream.left.length →
            IsOff (oldpos + x + z) ∧
              Orderly patchSize newSize ctrlEnding rest (newpos + x + y) (oldpos + x + z)
                (dstream.after x.toNat) (estream.after y.toNat)))))

/-- A patch whose header and streams are in it, and whose triples are orderly. -/
structure Sound (bz : Bzip2) (inp : Input) : Prop where
  offset : 0 ≤ inp.patchOffset ∧ inp.patchOffset + 8 ≤ inp.patch.length
  header : inp.bytes inp.patchOffset 8 = magicBSDIFF → inp.patchOffset + 32 ≤ inp.patch.length
  triples : inp.bytes inp.patchOffset 8 = magicBSDIFF → 0 ≤ inp.ctrlLen → 0 ≤ inp.dataLen → 0 ≤ inp.newSize →
    IsOff (inp.patchOffset + 32 + inp.ctrlLen + inp.dataLen) ∧ (inp.malloc inp.newSize.toNat = true →
      (0 < inp.newSize → (inp.cstream bz).Inside inp.patch.length) ∧
        Orderly inp.patch.length inp.newSize (inp.cstream bz).ending (triplesOf (inp.cstream bz).left) 0 0
          (inp.dstream bz) (inp.estream bz))

/-! ### Filling -/

section Fill
variable (bz : Bzip2)

theorem bzDecompress_left {s : Stream} (h : s.left ≠ []) {room : Nat} (hroom : 0 < room) : ∃ k, 0 < k ∧ k ≤ room ∧
    bzDecompress bz s room = (.ok, s.left.take k, s.after k) := by
  refine ⟨bz.piece s.left room, bz.piece_pos h hroom, bz.piece_le s.left room, ?_⟩
  rw [bzDecompress, if_pos h]
  rfl

/-- A stream that has enough fills the buffer. -/
theorem fillBuffer_full {s : Stream} {room fuel : Nat} (hleft : room ≤ s.left.length) (hfuel : room ≤ fuel) :
    fillBuffer bz fuel room s = some ⟨true, s.left.take room, s.after room⟩ := by
  induction fuel generalizing room s with
  | zero =>
    obtain rfl : room = 0 := by omega
    simp [fillBuffer, Stream.after]
  | succ fuel ih =>
    cases room with
    | zero => simp [fillBuffer, Stream.after]
    | succ room =>
      have hne : s.left ≠ [] := List.ne_nil_of_length_pos (by omega)
      obtain ⟨k, hk, hkroom, hcall⟩ := bzDecompress_left bz hne (Nat.succ_pos room)
      have hlen : (s.left.take k).length = k := by
        rw [List.length_take]
        omega
      have hrest : room + 1 - k ≤ (s.after k).left.length := by
        rw [Stream.after, List.length_drop]
        omega
      rw [fillBuffer, hcall]
      simp only [reduceCtorEq, if_false, hlen]
      rw [ih hrest (by omega), Option.map_some]
      have htake : s.left.take k ++ (s.left.drop k).take (room + 1 - k) = s.left.take (room + 1) := by
        rw [← List.take_add]
        congr 1
        omega
      have hdrop : (s.left.drop k).drop (room + 1 - k) = s.left.drop (room + 1) := by
        rw [List.drop_drop]
        congr 1
        omega
      simp only [Stream.after, htake, hdrop]

/-- One that has less fails, where an error follows. -/
theorem fillBuffer_short {s : Stream} {room fuel : Nat} (hleft : s.left.length < room) (hending : s.ending ≠ .starved)
    (hfuel : s.left.length + 2 ≤ fuel) : ∃ s', fillBuffer bz fuel room s = some ⟨false, s.left, s'⟩ := by
  induction fuel generalizing room s with
  | zero => omega
  | succ fuel ih =>
    obtain ⟨room, rfl⟩ : ∃ r, room = r + 1 := ⟨room - 1, by omega⟩
    by_cases hne : s.left = []
    · rw [fillBuffer, bzDecompress, if_neg (not_not.mpr hne), hne]
      cases hkind : s.ending with
      | starved => exact absurd hkind hending
      | corrupt => exact ⟨s, rfl⟩
      | finished =>
        cases hended : s.ended with
        | true => exact ⟨s, rfl⟩
        | false =>
          -- the end is reported once, and is an error after that
          obtain ⟨fuel, rfl⟩ : ∃ f, fuel = f + 1 := ⟨fuel - 1, by omega⟩
          refine ⟨{s with ended := true}, ?_⟩
          simp [fillBuffer, bzDecompress, hne, hkind]
    · obtain ⟨k, hk, hkroom, hcall⟩ := bzDecompress_left bz hne (Nat.succ_pos room)
      have hlen : (s.left.take k).length = min k s.left.length := List.length_take
      have hafter : (s.after k).left.length = s.left.length - k := List.length_drop
      have hpos := List.length_pos_of_ne_nil hne
      have hless : (s.after k).left.length < room + 1 - (s.left.take k).length := by omega
      have hstill : (s.after k).ending ≠ .starved := hending
      obtain ⟨s', hs'⟩ := ih hless hstill (by omega)
      refine ⟨s', ?_⟩
      rw [fillBuffer, hcall]
      simp only [reduceCtorEq, if_false]
      rw [hs', Option.map_some]
      simp [Stream.after]

/-- One whose input is used up hands over nothing, call after call. -/
theorem fillBuffer_starved {s : Stream} (hleft : s.left = []) (hending : s.ending = .starved) (fuel room : Nat) :
    fillBuffer bz fuel (room + 1) s = none := by
  induction fuel with
  | zero => rfl
  | succ fuel ih =>
    have hcall : bzDecompress bz s (room + 1) = (.ok, [], s) := by
      rw [bzDecompress, if_neg (not_not.mpr hleft), hending]
    rw [fillBuffer, hcall]
    simp only [List.length_nil, Nat.sub_zero]
    rw [ih]
    rfl

end Fill

/-! ### One round -/

theorem availOut_length {n : Int} (h : Length n) : availOut n = n.toNat := by
  rw [availOut, Int.emod_eq_of_lt h.1 h.2]

theorem filled_append (a b : List Access) : filled (a ++ b) = filled a ++ filled b := List.filterMap_append

theorem positions_append (n m : Nat) :
    positions n ++ (List.range m).map (fun (k : Nat) => (n : Int) + k) = positions (n + m) := by
  rw [positions, positions, List.range_add, List.map_append, List.map_map]
  rfl

section Round
variable (bz : Bzip2) (old : Bytes) {patchSize newSize : Int}

/-- What the rounds keep: all in front of `newpos` is there, put there once and in order. -/
structure Going (old : Bytes) (patchSize newSize : Int) (s : State) : Prop where
  nonneg : 0 ≤ s.newpos
  le : s.newpos ≤ newSize
  inside : ∀ a ∈ s.log, a.Inside patchSize old.length newSize
  filled : filled s.log = positions s.newpos.toNat

/-- A run of the rest that returns 1, having touched only what it may. -/
def Fails (old : Bytes) (patchSize newSize : Int) (o : Outcome) : Prop :=
  ∃ log, o = .returned 1 log [] ∧ ∀ a ∈ log, a.Inside patchSize old.length newSize

variable {old}

theorem fillLog_inside {stream : Stream} {pos : Int} {room : Nat} {out : Bytes}
    (hinside : 0 < room → stream.Inside patchSize) (hpos : 0 ≤ pos) (hend : pos + out.length ≤ newSize) :
    ∀ a ∈ fillLog stream pos room out, a.Inside patchSize old.length newSize := by
  intro a ha
  obtain ha | ha := List.mem_append.mp ha
  · by_cases hroom : 0 < room
    · rw [if_pos hroom, List.mem_singleton] at ha
      rw [ha]
      exact hinside hroom
    · rw [if_neg hroom] at ha
      cases ha
  · obtain ⟨k, hk, rfl⟩ := List.mem_map.mp ha
    have hlt := List.mem_range.mp hk
    exact ⟨by omega, by omega⟩

theorem filled_fillLog (stream : Stream) (pos : Int) (room : Nat) (out : Bytes) :
    filled (fillLog stream pos room out) = (List.range out.length).map fun (k : Nat) => pos + (k : Int) := by
  have hpatch : filled (if 0 < room then [.patch stream.start stream.avail] else []) = [] := by
    split <;> rfl
  rw [fillLog, filled_append, hpatch, List.nil_append, filled, List.filterMap_map]
  exact congrFun List.filterMap_eq_map' _

theorem addOld_log_inside {s : State} {n : Nat} (hlog : ∀ a ∈ s.log, a.Inside patchSize old.length newSize)
    (hpos : 0 ≤ s.newpos) (hend : s.newpos + n ≤ newSize) :
    ∀ a ∈ (addOld old s n).log, a.Inside patchSize old.length newSize := by
  intro a ha
  obtain ha | ha := List.mem_append.mp ha
  · exact hlog a ha
  · obtain ⟨k, hk, ha⟩ := List.mem_flatMap.mp ha
    have hlt := List.mem_range.mp hk
    by_cases hin : inOld old (s.oldpos + k) = true
    · rw [if_pos hin] at ha
      obtain rfl | ha := List.mem_cons.mp ha
      · have hbounds : 0 ≤ s.oldpos + k ∧ s.oldpos + k < old.length := by simpa [inOld] using hin
        exact hbounds
      · rw [List.mem_singleton.mp ha]
        exact ⟨by omega, by omega⟩
    · rw [if_neg hin] at ha
      cases ha

theorem filled_addOld (s : State) (n : Nat) : filled (addOld old s n).log = filled s.log := by
  have hnone : filled ((List.range n).flatMap fun (k : Nat) =>
      if inOld old (s.oldpos + k) then [.old (s.oldpos + k), .add (s.newpos + k)] else []) = [] := by
    rw [filled, List.filterMap_eq_nil_iff]
    intro a ha
    obtain ⟨k, -, ha⟩ := List.mem_flatMap.mp ha
    split at ha
    · obtain rfl | ha := List.mem_cons.mp ha
      · rfl
      · rw [List.mem_singleton.mp ha]
        rfl
    · cases ha
  rw [addOld, filled_append, hnone, List.append_nil]

/-- What the log of a full buffer adds to what is there. -/
theorem filled_full {log : List Access} (stream : Stream) {pos : Int} {n : Nat} {out : Bytes}
    (hlog : filled log = positions pos.toNat) (hpos : 0 ≤ pos) (hout : out.length = n) (room : Nat) :
    filled (log ++ fillLog stream pos room out) = positions (pos + n).toNat := by
  have hcast : ((pos.toNat : Nat) : Int) = pos := Int.toNat_of_nonneg hpos
  have hsum : (pos + n).toNat = pos.toNat + n := by omega
  rw [filled_append, filled_fillLog, hlog, hout, hsum, ← positions_append, hcast]

theorem diffPart_cases {s : State} (hs : Going old patchSize newSize s) {x : Int} (hoff : IsOff (s.newpos + x))
    (h : s.newpos + x ≤ newSize → Length x ∧ s.dstream.Gives patchSize x.toNat ∧
      (x.toNat ≤ s.dstream.left.length → x < 2147483648 ∧ IsOff (s.oldpos + x))) :
    (∃ enough, ∀ fuel, enough ≤ fuel → ∀ next, Fails old patchSize newSize (diffPart bz old newSize fuel x s next)) ∨
      ∃ s', s.newpos + x ≤ newSize ∧ x.toNat ≤ s.dstream.left.length ∧ Going old patchSize newSize s' ∧
        s'.newpos = s.newpos + x ∧ s'.oldpos = s.oldpos + x ∧ s'.cstream = s.cstream ∧
        s'.dstream = s.dstream.after x.toNat ∧ s'.estream = s.estream ∧
        ∀ fuel, x.toNat ≤ fuel → ∀ next, diffPart bz old newSize fuel x s next = next s' := by
  by_cases hover : newSize < s.newpos + x
  · left
    refine ⟨0, ?_⟩
    intro fuel _ next
    refine ⟨s.log, ?_, hs.inside⟩
    rw [diffPart, if_neg (not_not.mpr hoff), if_pos hover]
  · obtain ⟨hlength, hgives, hold⟩ := h (Int.not_lt.mp hover)
    have hroom := availOut_length hlength
    have hx := hlength.1
    by_cases hfull : x.toNat ≤ s.dstream.left.length
    · right
      have hout : (s.dstream.left.take x.toNat).length = x.toNat := by
        rw [List.length_take]
        omega
      have hlogged : ∀ a ∈ s.log ++ fillLog s.dstream s.newpos x.toNat (s.dstream.left.take x.toNat),
          a.Inside patchSize old.length newSize := by
        intro a ha
        obtain ha | ha := List.mem_append.mp ha
        · exact hs.inside a ha
        · exact fillLog_inside hgives.inside hs.nonneg (by rw [hout]; omega) a ha
      refine ⟨s.patched old x ⟨true, s.dstream.left.take x.toNat, s.dstream.after x.toNat⟩
        (s.log ++ fillLog s.dstream s.newpos x.toNat (s.dstream.left.take x.toNat)),
        Int.not_lt.mp hover, hfull, ?_, rfl, rfl, rfl, rfl, rfl, ?_⟩
      rotate_left
      · intro fuel hfuel next
        rw [diffPart, if_neg (not_not.mpr hoff), if_neg hover, hroom, fillBuffer_full bz hfull hfuel]
        simp only [Bool.not_true, Bool.false_eq_true, if_false]
        rw [if_neg]
        intro hbad
        obtain hbad | hbad := hbad
        · exact absurd hbad (not_le_of_gt (hold hfull).1)
        · exact hbad (hold hfull).2
      · constructor
        · exact Int.add_nonneg hs.nonneg hx
        · exact Int.not_lt.mp hover
        · exact addOld_log_inside hlogged hs.nonneg (by rw [Int.toNat_of_nonneg hx]; exact Int.not_lt.mp hover)
        · have hfilled := filled_full s.dstream hs.filled hs.nonneg hout x.toNat
          rw [Int.toNat_of_nonneg hx] at hfilled
          exact (filled_addOld _ _).trans hfilled
    · left
      refine ⟨s.dstream.left.length + 2, ?_⟩
      intro fuel hfuel next
      obtain ⟨s', hs'⟩ := fillBuffer_short bz (Nat.not_le.mp hfull) (hgives.ends (Nat.not_le.mp hfull)) hfuel
      refine ⟨s.log ++ fillLog s.dstream s.newpos x.toNat s.dstream.left, ?_, ?_⟩
      · rw [diffPart, if_neg (not_not.mpr hoff), if_neg hover, hroom, hs']
        rfl
      · intro a ha
        obtain ha | ha := List.mem_append.mp ha
        · exact hs.inside a ha
        · exact fillLog_inside hgives.inside hs.nonneg (by omega) a ha

theorem extraPart_cases {s : State} (hs : Going old patchSize newSize s) {y z : Int} (hoff : IsOff (s.newpos + y))
    (h : s.newpos + y ≤ newSize → Length y ∧ s.estream.Gives patchSize y.toNat ∧
      (y.toNat ≤ s.estream.left.length → IsOff (s.oldpos + z))) :
    (∃ enough, ∀ fuel, enough ≤ fuel → ∀ next, Fails old patchSize newSize (extraPart bz newSize fuel y z s next)) ∨
      ∃ s', s.newpos + y ≤ newSize ∧ y.toNat ≤ s.estream.left.length ∧ Going old patchSize newSize s' ∧
        s'.newpos = s.newpos + y ∧ s'.oldpos = s.oldpos + z ∧ s'.cstream = s.cstream ∧ s'.dstream = s.dstream ∧
        s'.estream = s.estream.after y.toNat ∧
        ∀ fuel, y.toNat ≤ fuel → ∀ next, extraPart bz newSize fuel y z s next = next s' := by
  by_cases hover : newSize < s.newpos + y
  · left
    refine ⟨0, ?_⟩
    intro fuel _ next
    refine ⟨s.log, ?_, hs.inside⟩
    rw [extraPart, if_neg (not_not.mpr hoff), if_pos hover]
  · obtain ⟨hlength, hgives, hold⟩ := h (Int.not_lt.mp hover)
    have hroom := availOut_length hlength
    have hy := hlength.1
    by_cases hfull : y.toNat ≤ s.estream.left.length
    · right
      have hout : (s.estream.left.take y.toNat).length = y.toNat := by
        rw [List.length_take]
        omega
      refine ⟨s.copied y z ⟨true, s.estream.left.take y.toNat, s.estream.after y.toNat⟩
        (s.log ++ fillLog s.estream s.newpos y.toNat (s.estream.left.take y.toNat)),
        Int.not_lt.mp hover, hfull, ?_, rfl, rfl, rfl, rfl, rfl, ?_⟩
      rotate_left
      · intro fuel hfuel next
        rw [extraPart, if_neg (not_not.mpr hoff), if_neg hover, hroom, fillBuffer_full bz hfull hfuel]
        simp only [Bool.not_true, Bool.false_eq_true, if_false]
        rw [if_neg (not_not.mpr (hold hfull))]
      · constructor
        · exact Int.add_nonneg hs.nonneg hy
        · exact Int.not_lt.mp hover
        · intro a ha
          obtain ha | ha := List.mem_append.mp ha
          · exact hs.inside a ha
          · exact fillLog_inside hgives.inside hs.nonneg (by rw [hout]; omega) a ha
        · have hfilled := filled_full s.estream hs.filled hs.nonneg hout y.toNat
          rw [Int.toNat_of_nonneg hy] at hfilled
          exact hfilled
    · left
      refine ⟨s.estream.left.length + 2, ?_⟩
      intro fuel hfuel next
      obtain ⟨s', hs'⟩ := fillBuffer_short bz (Nat.not_le.mp hfull) (hgives.ends (Nat.not_le.mp hfull)) hfuel
      refine ⟨s.log ++ fillLog s.estream s.newpos y.toNat s.estream.left, ?_, ?_⟩
      · rw [extraPart, if_neg (not_not.mpr hoff), if_neg hover, hroom, hs']
        rfl
      · intro a ha
        obtain ha | ha := List.mem_append.mp ha
        · exact hs.inside a ha
        · exact fillLog_inside hgives.inside hs.nonneg (by omega) a ha

end Round

/-! ### All rounds -/

theorem triplesUpTo_short {n : Nat} {out : Bytes} (h : out.length < 24) : triplesUpTo n out = [] := by
  cases n with
  | zero => rfl
  | succ n => rw [triplesUpTo, if_pos h]

theorem triplesUpTo_enough {n : Nat} {out : Bytes} (h : out.length ≤ n) : triplesUpTo n out = triplesOf out := by
  induction hlen : out.length using Nat.strong_induction_on generalizing n out with
  | _ len ih =>
    subst hlen
    by_cases hshort : out.length < 24
    · rw [triplesOf, triplesUpTo_short hshort, triplesUpTo_short hshort]
    · obtain ⟨n, rfl⟩ : ∃ k, n = k + 1 := ⟨n - 1, by omega⟩
      obtain ⟨m, hm⟩ : ∃ k, out.length = k + 1 := ⟨out.length - 1, by omega⟩
      have hdrop : (out.drop 24).length = out.length - 24 := List.length_drop
      rw [triplesOf, hm, triplesUpTo, triplesUpTo, if_neg hshort, if_neg hshort,
        ih _ (by omega) (by omega) rfl, ih _ (by omega) (by omega) rfl]

theorem triplesOf_long {out : Bytes} (h : 24 ≤ out.length) : triplesOf out = tripleOf out :: triplesOf (out.drop 24) := by
  obtain ⟨m, hm⟩ : ∃ k, out.length = k + 1 := ⟨out.length - 1, by omega⟩
  have hdrop : (out.drop 24).length = out.length - 24 := List.length_drop
  rw [triplesOf, hm, triplesUpTo, if_neg (by omega), triplesUpTo_enough (by omega)]

theorem tripleOf_take (out : Bytes) : tripleOf (out.take 24) = tripleOf out := by
  simp [tripleOf, List.drop_take, List.take_take]

section Rounds
variable (bz : Bzip2) {old : Bytes} {patchSize newSize : Int}

/-- A round more, and one call more for each byte that it may ask for. -/
theorem ends_of_fails {run : Nat → Outcome} (enough : Nat)
    (h : ∀ fuel, enough ≤ fuel → Fails old patchSize newSize (run (fuel + 1))) : Ends old patchSize newSize run := by
  refine ⟨enough + 1, ?_⟩
  intro fuel hfuel
  obtain ⟨fuel, rfl⟩ : ∃ k, fuel = k + 1 := ⟨fuel - 1, by omega⟩
  obtain ⟨log, hrun, hlog⟩ := h fuel (by omega)
  exact ⟨1, log, [], hrun, hlog, fun hbad => by cases hbad⟩

theorem patchLoop_done {s : State} (hs : Going old patchSize newSize s) (hdone : newSize ≤ s.newpos) :
    Ends old patchSize newSize fun fuel => patchLoop bz old newSize fuel s := by
  refine ⟨1, ?_⟩
  intro fuel hfuel
  obtain ⟨fuel, rfl⟩ : ∃ k, fuel = k + 1 := ⟨fuel - 1, by omega⟩
  refine ⟨0, s.log, (List.range newSize.toNat).map fun (k : Nat) => s.newData k, if_pos hdone, hs.inside, fun _ => ?_⟩
  refine ⟨?_, by simp⟩
  rw [hs.filled, le_antisymm hs.le hdone]

/-- A round that has its triple. -/
theorem patchLoop_round {s : State} (hdone : ¬newSize ≤ s.newpos) (hleft : 24 ≤ s.cstream.left.length) {fuel : Nat}
    (hfuel : 24 ≤ fuel) : patchLoop bz old newSize (fuel + 1) s =
      diffPart bz old newSize fuel (tripleOf s.cstream.left).1
        {s with cstream := s.cstream.after 24, log := s.log ++ [.patch s.cstream.start s.cstream.avail]}
        fun s' => extraPart bz newSize fuel (tripleOf s.cstream.left).2.1 (tripleOf s.cstream.left).2.2 s'
          (patchLoop bz old newSize fuel) := by
  conv_lhs => rw [patchLoop.eq_def]
  simp only [if_neg hdone, fillBuffer_full bz hleft hfuel, tripleOf_take, Bool.not_true, Bool.false_eq_true, if_false]

/-- One whose control stream has no triple left. -/
theorem patchLoop_short {s : State} (hdone : ¬newSize ≤ s.newpos) (hleft : s.cstream.left.length < 24)
    (hending : s.cstream.ending ≠ .starved) {fuel : Nat} (hfuel : s.cstream.left.length + 2 ≤ fuel) :
    patchLoop bz old newSize (fuel + 1) s = .returned 1 (s.log ++ [.patch s.cstream.start s.cstream.avail]) [] := by
  obtain ⟨s', hs'⟩ := fillBuffer_short bz hleft hending hfuel
  rw [patchLoop.eq_def]
  simp only [if_neg hdone, hs', Bool.not_false, if_true]

theorem patchLoop_ends {triples : List (Int × Int × Int)} {s : State} (hs : Going old patchSize newSize s)
    (htriples : triplesOf s.cstream.left = triples) (hctrl : s.newpos < newSize → s.cstream.Inside patchSize)
    (h : Orderly patchSize newSize s.cstream.ending triples s.newpos s.oldpos s.dstream s.estream) :
    Ends old patchSize newSize fun fuel => patchLoop bz old newSize fuel s := by
  induction triples generalizing s with
  | nil =>
    by_cases hdone : newSize ≤ s.newpos
    · exact patchLoop_done bz hs hdone
    · have hlt := Int.not_le.mp hdone
      have hshort : s.cstream.left.length < 24 := by
        by_contra hlong
        rw [triplesOf_long (Nat.not_lt.mp hlong)] at htriples
        cases htriples
      apply ends_of_fails (s.cstream.left.length + 2)
      intro fuel hfuel
      refine ⟨_, patchLoop_short bz hdone hshort (h hlt) hfuel, ?_⟩
      intro a ha
      obtain ha | ha := List.mem_append.mp ha
      · exact hs.inside a ha
      · rw [List.mem_singleton.mp ha]
        exact hctrl hlt
  | cons triple rest ih =>
    obtain ⟨x, y, z⟩ := triple
    by_cases hdone : newSize ≤ s.newpos
    · exact patchLoop_done bz hs hdone
    · have hlt := Int.not_le.mp hdone
      have hlong : 24 ≤ s.cstream.left.length := by
        by_contra hshort
        rw [triplesOf, triplesUpTo_short (Nat.not_le.mp hshort)] at htriples
        cases htriples
      obtain ⟨htriple, hrest⟩ := List.cons_eq_cons.mp ((triplesOf_long hlong).symm.trans htriples)
      obtain ⟨hoff, hdiff⟩ := h hlt
      -- the state with the triple read
      have hread : Going old patchSize newSize
          {s with cstream := s.cstream.after 24, log := s.log ++ [.patch s.cstream.start s.cstream.avail]} := by
        refine ⟨hs.nonneg, hs.le, ?_, ?_⟩
        · intro a ha
          obtain ha | ha := List.mem_append.mp ha
          · exact hs.inside a ha
          · rw [List.mem_singleton.mp ha]
            exact hctrl hlt
        · rw [filled_append, hs.filled]
          exact List.append_nil _
      obtain ⟨enough, hfails⟩ | ⟨s₁, hle, hleft, hs₁, hnew, hold, hc, hd, he, hrun⟩ :=
        diffPart_cases bz hread hoff fun hle => ⟨(hdiff hle).1, (hdiff hle).2.1, fun hleft => ((hdiff hle).2.2 hleft).1⟩
      · apply ends_of_fails (max enough 24)
        intro fuel hfuel
        rw [patchLoop_round bz hdone hlong (by omega), htriple]
        exact hfails fuel (by omega) _
      · obtain ⟨-, hoff₁, hextra⟩ := (hdiff hle).2.2 hleft
        obtain ⟨enough, hfails⟩ | ⟨s₂, hle₂, hleft₂, hs₂, hnew₂, hold₂, hc₂, hd₂, he₂, hrun₂⟩ :=
          extraPart_cases bz (y := y) (z := z) hs₁ (by rw [hnew]; exact hoff₁) (by
            rw [hnew, he, hold]
            exact fun hle₁ => ⟨(hextra hle₁).1, (hextra hle₁).2.1, fun hleft₁ => ((hextra hle₁).2.2 hleft₁).1⟩)
        · apply ends_of_fails (max enough (max 24 x.toNat))
          intro fuel hfuel
          rw [patchLoop_round bz hdone hlong (by omega), htriple, hrun fuel (by omega)]
          exact hfails fuel (by omega) _
        · rw [hnew] at hnew₂ hle₂
          rw [hold] at hold₂
          rw [he] at he₂ hleft₂
          have horderly := ((hextra hle₂).2.2 hleft₂).2
          have hnext : Ends old patchSize newSize fun fuel => patchLoop bz old newSize fuel s₂ := by
            apply ih hs₂
            · rw [hc₂, hc]
              exact hrest
            · intro _
              rw [hc₂, hc]
              exact hctrl hlt
            · rw [hc₂, hc, hd₂, hd, hnew₂, hold₂, he₂]
              exact horderly
          obtain ⟨enough, hends⟩ := hnext
          refine ⟨max (enough + 1) (max 25 (max (x.toNat + 1) (y.toNat + 1))), ?_⟩
          intro fuel hfuel
          obtain ⟨fuel, rfl⟩ : ∃ k, fuel = k + 1 := ⟨fuel - 1, by omega⟩
          beta_reduce
          rw [patchLoop_round bz hdone hlong (by omega), htriple, hrun fuel (by omega), hrun₂ fuel (by omega)]
          exact hends fuel (by omega)

end Rounds

/-! ### Two patches -/

/-- What the library makes of three streams of a small patch, and of an empty one. -/
def ctrlBlock : Bytes := [
  66, 90, 104, 57, 49, 65, 89, 38, 83, 89, 125, 75, 161, 77, 0, 0, 4, 64, 0, 104, 8, 32, 0, 48, 205, 52, 18, 104, 34, 77,
  169, 197, 220, 145, 78, 20, 36, 31, 82, 232, 83, 64]

def diffBlock : Bytes := [
  66, 90, 104, 57, 49, 65, 89, 38, 83, 89, 181, 54, 93, 252, 0, 0, 0, 64, 0, 32, 0, 32, 0, 33, 24, 70, 130, 238, 72, 167,
  10, 18, 22, 166, 203, 191, 128]

def extraBlock : Bytes := [
  66, 90, 104, 57, 49, 65, 89, 38, 83, 89, 45, 21, 235, 28, 0, 0, 0, 16, 0, 32, 0, 32, 0, 33, 24, 70, 130, 238, 72, 167,
  10, 18, 5, 162, 189, 99, 128]

def smallBzip2 : Bzip2 where
  decode s :=
    if s = [] then ([], .starved)
    else if s = ctrlBlock then ([1, 0, 0, 0, 0, 0, 0, 0, 1, 0, 0, 0, 0, 0, 0, 0, 0, 0, 0, 0, 0, 0, 0, 0], .finished)
    else if s = diffBlock then ([1], .finished)
    else if s = extraBlock then ([33], .finished)
    else ([], .corrupt)
  piece left room := min left.length room
  piece_pos := fun h hroom => lt_min (List.length_pos_of_ne_nil h) hroom
  piece_le := fun _ _ => min_le_right _ _

def smallPatch (ctrl diff extra : Bytes) (newSize : UInt8) : Input where
  patch := magicBSDIFF ++ [UInt8.ofNat ctrl.length, 0, 0, 0, 0, 0, 0, 0, UInt8.ofNat diff.length, 0, 0, 0, 0, 0, 0, 0,
    newSize, 0, 0, 0, 0, 0, 0, 0] ++ ctrl ++ diff ++ extra
  patchOffset := 0
  old := [65]
  around := fun _ => 0
  fresh := fun _ => 0
  malloc := fun _ => true

set_option maxRecDepth 3000 in
theorem small_sound : Sound smallBzip2 (smallPatch ctrlBlock diffBlock extraBlock 2) := by
  have hctrl : (smallPatch ctrlBlock diffBlock extraBlock 2).cstream smallBzip2 =
      ⟨32, 42, [1, 0, 0, 0, 0, 0, 0, 0, 1, 0, 0, 0, 0, 0, 0, 0, 0, 0, 0, 0, 0, 0, 0, 0], .finished, false⟩ := by decide
  have hdiff : (smallPatch ctrlBlock diffBlock extraBlock 2).dstream smallBzip2 = ⟨74, 37, [1], .finished, false⟩ := by
    decide
  have hextra : (smallPatch ctrlBlock diffBlock extraBlock 2).estream smallBzip2 = ⟨111, 37, [33], .finished, false⟩ := by
    decide
  have hsize : (smallPatch ctrlBlock diffBlock extraBlock 2).newSize = 2 := by decide
  constructor
  · constructor <;> decide
  · intro _
    decide
  · intro _ _ _ _
    refine ⟨by decide, ?_⟩
    intro _
    rw [hctrl, hdiff, hextra, hsize]
    have htriples : triplesOf [1, 0, 0, 0, 0, 0, 0, 0, 1, 0, 0, 0, 0, 0, 0, 0, 0, 0, 0, 0, 0, 0, 0, 0] = [(1, 1, 0)] := by
      decide
    rw [htriples]
    have hlen : ((smallPatch ctrlBlock diffBlock extraBlock 2).patch.length : Int) = 148 := rfl
    rw [hlen]
    simp [Orderly, Length, IsOff, Stream.Inside]
    constructor <;> constructor <;> simp [Stream.Inside]

/-! ### Fuel -/

section Fuel
variable {bz : Bzip2} {old : Bytes} {newSize : Int} {fuel fuel' : Nat}

/-- More fuel does not change what a buffer is filled with. -/
theorem fillBuffer_mono {room : Nat} {s : Stream} {f : Filled} (hle : fuel ≤ fuel') (h : fillBuffer bz fuel room s = some f) :
    fillBuffer bz fuel' room s = some f := by
  induction fuel generalizing room s f fuel' with
  | zero =>
    cases room with
    | zero => cases fuel' <;> exact h
    | succ room => cases h
  | succ fuel ih =>
    cases fuel' with
    | zero => exact absurd hle (by omega)
    | succ fuel' =>
      cases room with
      | zero => exact h
      | succ room =>
        rw [fillBuffer] at h ⊢
        generalize bzDecompress bz s (room + 1) = r at h ⊢
        obtain ⟨ret, piece, s'⟩ := r
        dsimp only at h ⊢
        by_cases herror : ret = .error
        · rw [if_pos herror] at h ⊢
          exact h
        · rw [if_neg herror] at h ⊢
          obtain ⟨f', hf', rfl⟩ := Option.map_eq_some_iff.mp h
          exact Option.map_eq_some_iff.mpr ⟨f', ih (Nat.le_of_succ_le_succ hle) hf', rfl⟩

/-- One outcome is that of a run with more fuel: what is returned stays. -/
def Outcome.Stays (a b : Outcome) : Prop := ∀ code log out, a = .returned code log out → b = .returned code log out

theorem Outcome.Stays.ite {c : Prop} [Decidable c] {a x y : Outcome} (h : x.Stays y) : (if c then a else x).Stays (if c then a else y) := by
  intro code log out heq
  by_cases hc : c
  · rw [if_pos hc] at heq ⊢
    exact heq
  · rw [if_neg hc] at heq ⊢
    exact h _ _ _ heq

theorem extraPart_mono {y z : Int} {s : State} {next next' : State → Outcome} (hle : fuel ≤ fuel') (hnext : ∀ s, (next s).Stays (next' s)) :
    (extraPart bz newSize fuel y z s next).Stays (extraPart bz newSize fuel' y z s next') := by
  apply Outcome.Stays.ite
  apply Outcome.Stays.ite
  cases hfill : fillBuffer bz fuel (availOut y) s.estream with
  | none => exact fun code log out h => by cases h
  | some f =>
    rw [fillBuffer_mono hle hfill]
    apply Outcome.Stays.ite
    apply Outcome.Stays.ite
    exact hnext _

theorem diffPart_mono {x : Int} {s : State} {next next' : State → Outcome} (hle : fuel ≤ fuel') (hnext : ∀ s, (next s).Stays (next' s)) :
    (diffPart bz old newSize fuel x s next).Stays (diffPart bz old newSize fuel' x s next') := by
  apply Outcome.Stays.ite
  apply Outcome.Stays.ite
  cases hfill : fillBuffer bz fuel (availOut x) s.dstream with
  | none => exact fun code log out h => by cases h
  | some f =>
    rw [fillBuffer_mono hle hfill]
    apply Outcome.Stays.ite
    apply Outcome.Stays.ite
    exact hnext _

theorem patchLoop_mono {s : State} (hle : fuel ≤ fuel') : (patchLoop bz old newSize fuel s).Stays (patchLoop bz old newSize fuel' s) := by
  induction fuel generalizing s fuel' with
  | zero => exact fun code log out h => by cases h
  | succ fuel ih =>
    cases fuel' with
    | zero => exact absurd hle (by omega)
    | succ fuel' =>
      have hle' := Nat.le_of_succ_le_succ hle
      rw [patchLoop, patchLoop]
      apply Outcome.Stays.ite
      cases hfill : fillBuffer bz fuel 24 s.cstream with
      | none => exact fun code log out h => by cases h
      | some f =>
        rw [fillBuffer_mono hle' hfill]
        apply Outcome.Stays.ite
        exact diffPart_mono hle' fun s => extraPart_mono hle' fun s => ih hle'

/-- More fuel does not change what is returned. -/
theorem applyBSDiffPatchMem_mono {inp : Input} (hle : fuel ≤ fuel') :
    (applyBSDiffPatchMem bz inp fuel).Stays (applyBSDiffPatchMem bz inp fuel') :=
  .ite (.ite (.ite (.ite (patchLoop_mono hle))))

end Fuel

/-! ### The whole -/

/-- On any patch that is sound, whatever the library makes of the streams, it ends, keeps to its
bytes, and makes all of the new data when it returns 0. -/
theorem applyBSDiffPatchMem_safe (bz : Bzip2) (inp : Input) (h : Sound bz inp) : Safe inp (applyBSDiffPatchMem bz inp) := by
  by_cases hmagic : inp.bytes inp.patchOffset 8 = magicBSDIFF
  · have hheader : ∀ a ∈ [Access.patch inp.patchOffset 32], a.Inside inp.patch.length inp.old.length inp.newSize := by
      intro a ha
      rw [List.mem_singleton.mp ha]
      exact ⟨h.offset.1, h.header hmagic⟩
    by_cases hneg : inp.ctrlLen < 0 ∨ inp.dataLen < 0 ∨ inp.newSize < 0
    · refine ⟨0, fun fuel _ => ⟨1, _, [], ?_, hheader, fun hbad => by cases hbad⟩⟩
      rw [applyBSDiffPatchMem, if_neg (not_not.mpr hmagic), if_pos hneg]
    · have hlens : 0 ≤ inp.ctrlLen ∧ 0 ≤ inp.dataLen ∧ 0 ≤ inp.newSize := by omega
      obtain ⟨hoff, hrun⟩ := h.triples hmagic hlens.1 hlens.2.1 hlens.2.2
      cases hmalloc : inp.malloc inp.newSize.toNat with
      | false =>
        refine ⟨0, fun fuel _ => ⟨1, _, [], ?_, hheader, fun hbad => by cases hbad⟩⟩
        rw [applyBSDiffPatchMem, if_neg (not_not.mpr hmagic), if_neg hneg, if_neg (not_not.mpr hoff), hmalloc]
        rfl
      | true =>
        obtain ⟨hctrl, horderly⟩ := hrun hmalloc
        have hgoing : Going inp.old inp.patch.length inp.newSize ⟨inp.cstream bz, inp.dstream bz, inp.estream bz, 0, 0,
            inp.fresh, [.patch inp.patchOffset 32]⟩ := ⟨le_refl 0, hlens.2.2, hheader, rfl⟩
        obtain ⟨enough, hends⟩ := patchLoop_ends bz hgoing rfl hctrl horderly
        refine ⟨enough, ?_⟩
        intro fuel hfuel
        rw [applyBSDiffPatchMem, if_neg (not_not.mpr hmagic), if_neg hneg, if_neg (not_not.mpr hoff), hmalloc]
        exact hends fuel hfuel
  · refine ⟨0, fun fuel _ => ⟨1, [.patch inp.patchOffset 8], [], if_pos hmagic, ?_, fun hbad => by cases hbad⟩⟩
    intro a ha
    rw [List.mem_singleton.mp ha]
    exact h.offset

theorem applyBSDiffPatchMem_safe_small : Safe (smallPatch ctrlBlock diffBlock extraBlock 2)
    (applyBSDiffPatchMem smallBzip2 (smallPatch ctrlBlock diffBlock extraBlock 2)) :=
  applyBSDiffPatchMem_safe smallBzip2 _ small_sound

/-- A patch whose control stream is empty, for a file of one byte: it fills the first triple for ever. -/
theorem not_safe_starved : ¬Safe (smallPatch [] [] [] 1) (applyBSDiffPatchMem smallBzip2 (smallPatch [] [] [] 1)) := by
  intro h
  obtain ⟨enough, hends⟩ := h
  obtain ⟨code, log, newData, hrun, -⟩ := hends (enough + 1) (by omega)
  have hloop : applyBSDiffPatchMem smallBzip2 (smallPatch [] [] [] 1) (enough + 1) = .running := by
    have hctrl : (smallPatch [] [] [] 1).cstream smallBzip2 = ⟨32, 0, [], .starved, false⟩ := by decide
    have hsize : (smallPatch [] [] [] 1).newSize = 1 := by decide
    rw [applyBSDiffPatchMem, if_neg (by decide), if_neg (by decide), if_neg (by decide), if_neg (by decide), hctrl, hsize,
      patchLoop, if_neg (by decide), fillBuffer_starved smallBzip2 rfl rfl enough 23]
  rw [hloop] at hrun
  cases hrun

end Twrp.Patch.BsPatch
