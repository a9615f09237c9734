import Twrp.Patch.BsPatch

/-! Applying an image patch (`ApplyImagePatch`), with all that is read, written and hashed.

The chunks are gone through one after the other, and each says by numbers of 64 bits what it takes of the
old data and where in the patch its own patch is. The records of the chunks are looked for inside the
patch, the numbers in them are not compared with anything; and the result of a normal chunk is dropped. So
what a run keeps to hangs on the chunks it comes to: `ChunkFine` says of one what the code does not check,
and where each meets it, the run reads what it may and returns 0 only with all of the output given to the
sink and to the hash (`applyImagePatch_claimed`). -/
namespace Twrp.Patch.ImageRun
open Base

/-! ### The code -/

/-- zlib: what a raw deflate stream at the front of some bytes holds, if it ends within so much room; the
stream for some data, if the parameters are valid; and whether its end is told at once when it fills the
buffer just to its end. -/
structure Zlib where
  inflate : Bytes → Nat → Option Bytes
  inflate_le : ∀ {src room out}, inflate src room = some out → out.length ≤ room
  deflate : DeflateParams → Bytes → Option Bytes
  atOnce : Bool

/-- What the function is given, and what is in memory around it: behind the patch and the old data, in new
memory, and in the buffer that is deflated into. The sizes are those of objects in memory. What the sink
answers may hang on all it was given before. -/
structure Input where
  patch : Bytes
  old : Bytes
  bonus : Option Bytes
  fits : patch.length < 4611686018427387904 ∧ old.length < 4611686018427387904
  around : Int → UInt8
  beyond : Int → UInt8
  fresh : Int → UInt8
  stale : Nat → UInt8
  malloc : Nat → Bool
  sink : List Bytes → Bytes → Int

inductive Region where
  | patch
  | old
  | bonus
deriving DecidableEq

inductive Event where
  | read (region : Region) (start : Int) (len : Nat)
  | sink (data : Bytes) (answer : Int)
  | sha (data : Bytes)
deriving DecidableEq

inductive Status where
  | running
  /-- inside of an embedded patch -/
  | patching
  /-- a negative length is counted down, or a number overflows -/
  | undefined
  | returned (code : Int)
deriving DecidableEq

structure Run where
  events : List Event
  status : Status

/-- What comes of a chunk: the run stops, or goes on at the next one. -/
inductive Step where
  | stop (status : Status) (log : List Event)
  | go (pos : Nat) (log : List Event)

def Event.given : Event → Option Bytes
  | sink data _ => some data
  | _ => none

def Event.hashed : Event → Option Bytes
  | sha data => some data
  | _ => none

/-- What the sink was given, call by call. -/
def sunk (events : List Event) : List Bytes := events.filterMap Event.given

def hashed (events : List Event) : List Bytes := events.filterMap Event.hashed

/-- A `size_t` as a `ssize_t`, or as an offset from a pointer. -/
def toSigned (n : Nat) : Int := if n < 9223372036854775808 then n else n - 18446744073709551616

namespace Input
variable (inp : Input)

/-- The memory at an offset from the old data. -/
def memory (i : Int) : UInt8 := if 0 ≤ i then (inp.old[i.toNat]?).getD (inp.beyond i) else inp.beyond i

def source (start : Int) (n : Nat) : Bytes := (List.range n).map fun (k : Nat) => inp.memory (start + k)

def embedded (source : Bytes) (offset : Int) : BsPatch.Input := ⟨inp.patch, offset, source, inp.around, inp.fresh, inp.malloc⟩

/-- No object is larger than a `ssize_t` can say. -/
def granted (n : Nat) : Bool := n < 9223372036854775808 && inp.malloc n

def bonusOf (i : Nat) : Bytes := if i = 1 then inp.bonus.getD [] else []

end Input

/-- What an embedded patch touches of the patch, and of the old data from `base` on, if it is applied to them. -/
def eventsOf (base : Option Int) : BsPatch.Access → List Event
  | .patch start len => [.read .patch start len]
  | .old i =>
    match base with
    | some base => [.read .old (base + i) 1]
    | none => []
  | .fill _ | .add _ => []

/-- The header of a normal or a deflate chunk, which starts at `pos`. -/
def srcStart (patch : Bytes) (pos : Nat) : Nat := read8 .lp64 patch pos
def srcLen (patch : Bytes) (pos : Nat) : Nat := read8 .lp64 patch (pos + 8)
def patchOffset (patch : Bytes) (pos : Nat) : Int := toSigned (read8 .lp64 patch (pos + 16))
def expandedLen (patch : Bytes) (pos : Nat) : Nat := read8 .lp64 patch (pos + 24)

def deflateParams (patch : Bytes) (pos : Nat) : DeflateParams :=
  ⟨read4 patch (pos + 40), read4 patch (pos + 44), read4 patch (pos + 48), read4 patch (pos + 52), read4 patch (pos + 56)⟩

/-- The bytes of the old data that a normal or a deflate chunk names. -/
def Input.range (inp : Input) (pos : Nat) : Bytes := (inp.old.drop (srcStart inp.patch pos)).take (srcLen inp.patch pos)

section Code
variable (bz : BsPatch.Bzip2) (z : Zlib) (inp : Input)

/-- `SHA_update`, whose length is an `int` that is counted down to 0. -/
def shaUpdate (data : Bytes) (log : List Event) (next : List Event → Step) : Step :=
  if int data.length < 0 then .stop .undefined log else next (log ++ [.sha (data.take (data.length % 4294967296))])

/-- `ApplyBSDiffPatch` once the new data are made. -/
def giveNormal (newData : Bytes) (pos : Nat) (log : List Event) : Step :=
  let answer := inp.sink (sunk log) newData
  let log := log ++ [.sink newData answer]
  -- neither result is looked at by the caller
  if answer < newData.length then .go pos log else shaUpdate newData log (.go pos)

def normalChunk (inner pos : Nat) (log : List Event) : Step :=
  if inp.patch.length < pos + 24 then .stop (.returned (-1)) log
  else
    let log := log ++ [.read .patch pos 24]
    let start := toSigned (srcStart inp.patch pos)
    let source := inp.source start (toSigned (srcLen inp.patch pos)).toNat
    match BsPatch.applyBSDiffPatchMem bz (inp.embedded source (patchOffset inp.patch pos)) inner with
    | .running => .stop .patching log
    | .undefined => .stop .undefined log
    | .returned code accesses newData =>
      let log := log ++ accesses.flatMap (eventsOf (some start))
      if code ≠ 0 then .go (pos + 24) log else giveNormal inp newData (pos + 24) log

/-- The bytes of a raw chunk are hashed before they are written. -/
def giveRaw (data : Bytes) (pos : Nat) (log : List Event) : Step :=
  shaUpdate data log fun log =>
    let answer := inp.sink (sunk log) data
    let log := log ++ [.sink data answer]
    if answer ≠ data.length then .stop (.returned (-1)) log else .go pos log

def rawChunk (pos : Nat) (log : List Event) : Step :=
  if inp.patch.length < pos + 4 then .stop (.returned (-1)) log
  else
    let log := log ++ [.read .patch pos 4]
    let data_len := read4 inp.patch pos
    if inp.patch.length < pos + 4 + data_len then .stop (.returned (-1)) log
    else if data_len < 0 then .stop .undefined log
    else
      let log := log ++ [.read .patch (pos + 4) data_len.toNat]
      giveRaw inp ((inp.patch.drop (pos + 4)).take data_len.toNat) (pos + 4 + data_len.toNat) log

/-- The loop that deflates: `left` is what is left of the stream, if there is one. `avail_out` is an
`unsigned int`. -/
def deflateLoop (pos tempSize : Nat) : (fuel : Nat) → (left : Option Bytes) → List Event → Step
  | 0, _, log => .stop .running log
  | fuel + 1, left, log =>
    let room := tempSize % 4294967296
    let out := (left.getD []).take room
    let data := out ++ (List.range (tempSize - room)).map inp.stale
    let answer := inp.sink (sunk log) data
    let log := log ++ [.sink data answer]
    let ended := left.any fun rest => rest.length < room || (rest.length == room && z.atOnce && decide (0 < room))
    if answer ≠ data.length then .stop (.returned (-1)) log
    else shaUpdate data log fun log => if ended then .go pos log else deflateLoop pos tempSize fuel (left.map (·.drop room)) log

/-- A deflate chunk once its source is inflated into a buffer, and what follows it. -/
def deflateTarget (fuel inner pos : Nat) (buffer : Bytes) (log : List Event) : Step :=
  match BsPatch.applyBSDiffPatchMem bz (inp.embedded buffer (patchOffset inp.patch pos)) inner with
  | .running => .stop .patching log
  | .undefined => .stop .undefined log
  | .returned code accesses target =>
    let log := log ++ accesses.flatMap (eventsOf none)
    if code ≠ 0 then .stop (.returned (-1)) log
    else
      let tempSize := if expandedLen inp.patch pos < 32768 then 32768 else expandedLen inp.patch pos
      let stream := z.deflate (deflateParams inp.patch pos) (target.take (target.length % 4294967296))
      -- without memory for the buffer, nothing is ever put out
      let stream := if expandedLen inp.patch pos < 32768 ∧ inp.granted 32768 = false then none else stream
      deflateLoop z inp (pos + 60) tempSize fuel stream log

/-- `avail_in` and `avail_out` are unsigned ints. -/
def deflateChunk (fuel inner i pos : Nat) (log : List Event) : Step :=
  if inp.patch.length < pos + 60 then .stop (.returned (-1)) log
  else
    let log := log ++ [.read .patch pos 60]
    let expanded_len := expandedLen inp.patch pos
    if inp.granted expanded_len = false then .stop (.returned (-1)) log
    else
      let start := toSigned (srcStart inp.patch pos)
      let availIn := srcLen inp.patch pos % 4294967296
      let room := expanded_len % 4294967296
      let log := log ++ [.read .old start availIn]
      match z.inflate (inp.source start availIn) room with
      | none => .stop (.returned (-1)) log
      | some expanded =>
        let bonus := inp.bonusOf i
        if room - expanded.length ≠ bonus.length then .stop (.returned (-1)) log
        else
          let log := log ++ [.read .bonus 0 bonus.length]
          deflateTarget bz z inp fuel inner pos (expanded ++ (List.range (expanded_len - room)).map inp.stale ++ bonus) log

def chunkStep (fuel inner i pos : Nat) (log : List Event) : Step :=
  if inp.patch.length < pos + 4 then .stop (.returned (-1)) log
  else
    let type := read4 inp.patch pos
    let log := log ++ [.read .patch pos 4]
    if type = CHUNK_NORMAL then normalChunk bz inp inner (pos + 4) log
    else if type = CHUNK_RAW then rawChunk inp (pos + 4) log
    else if type = CHUNK_DEFLATE then deflateChunk bz z inp fuel inner i (pos + 4) log
    else .stop (.returned (-1)) log

/-- `n` more chunks, of which the next has the index `i`. -/
def chunkLoop (fuel inner : Nat) : (n i pos : Nat) → List Event → Run
  | 0, _, _, log => ⟨log, .returned 0⟩
  | n + 1, i, pos, log =>
    match chunkStep bz z inp fuel inner i pos log with
    | .stop status log => ⟨log, status⟩
    | .go pos log => chunkLoop fuel inner n (i + 1) pos log

def numChunks : Nat := (read4 inp.patch 8).toNat

/-- `ApplyImagePatch`; `fuel` bounds the turns of the loop that deflates, and `inner` what the embedded
patches do. -/
def applyImagePatch (fuel inner : Nat) : Run :=
  if inp.patch.length < 12 then ⟨[], .returned (-1)⟩
  else if inp.patch.take 8 ≠ magicIMGDIFF then ⟨[.read .patch 0 8], .returned (-1)⟩
  else chunkLoop bz z inp fuel inner (numChunks inp) 0 12 [.read .patch 0 12]

end Code

/-! ### What is asked of it -/

def Input.size (inp : Input) : Region → Nat
  | .patch => inp.patch.length
  | .old => inp.old.length
  | .bonus => (inp.bonus.getD []).length

/-- What is read lies in the patch, the old data or the bonus data. -/
def Event.Inside (inp : Input) : Event → Prop
  | read region start len => len = 0 ∨ (0 ≤ start ∧ start + len ≤ inp.size region)
  | _ => True

/-- What is given to the sink is taken. -/
def Event.Taken : Event → Prop
  | sink data answer => answer = data.length
  | _ => True

/-- The sink took all of some output, and that was hashed. -/
structure Given (events : List Event) (out : Bytes) : Prop where
  sunk : (sunk events).flatten = out
  hashed : (hashed events).flatten = out
  taken : ∀ e ∈ events, e.Taken

section Spec
variable (bz : BsPatch.Bzip2) (z : Zlib) (inp : Input)

/-- The embedded patch at an offset makes some data of others. -/
def Yields (source : Bytes) (offset : Int) (out : Bytes) : Prop :=
  ∃ inner accesses, BsPatch.applyBSDiffPatchMem bz (inp.embedded source offset) inner = .returned 0 accesses out

/-- What a chunk of the patch comes to, and where the next one starts. -/
inductive ChunkOutput (i pos : Nat) : Bytes → Nat → Prop where
  | normal {out : Bytes} (htype : read4 inp.patch pos = CHUNK_NORMAL) (hheader : pos + 28 ≤ inp.patch.length)
      (hrange : srcStart inp.patch (pos + 4) + srcLen inp.patch (pos + 4) ≤ inp.old.length)
      (hpatch : Yields bz inp (inp.range (pos + 4)) (patchOffset inp.patch (pos + 4)) out) :
      ChunkOutput i pos out (pos + 28)
  | raw {len : Nat} (htype : read4 inp.patch pos = CHUNK_RAW) (hlen : read4 inp.patch (pos + 4) = len) (hdata : pos + 8 + len ≤ inp.patch.length) :
      ChunkOutput i pos ((inp.patch.drop (pos + 8)).take len) (pos + 8 + len)
  | deflate {expanded target out : Bytes} (htype : read4 inp.patch pos = CHUNK_DEFLATE) (hheader : pos + 64 ≤ inp.patch.length)
      (hrange : srcStart inp.patch (pos + 4) + srcLen inp.patch (pos + 4) ≤ inp.old.length)
      (hinflate : z.inflate (inp.range (pos + 4)) (expandedLen inp.patch (pos + 4)) = some expanded)
      (hbonus : expanded.length + (inp.bonusOf i).length = expandedLen inp.patch (pos + 4))
      (hpatch : Yields bz inp (expanded ++ inp.bonusOf i) (patchOffset inp.patch (pos + 4)) target)
      (hdeflate : z.deflate (deflateParams inp.patch (pos + 4)) target = some out) : ChunkOutput i pos out (pos + 64)

/-- The outputs of `n` chunks. -/
inductive Outputs : (n i pos : Nat) → List Bytes → Prop where
  | done {i pos : Nat} : Outputs 0 i pos []
  | chunk {n i pos pos' : Nat} {out : Bytes} {outs : List Bytes} (h : ChunkOutput bz z inp i pos out pos') (hrest : Outputs n (i + 1) pos' outs) :
      Outputs (n + 1) i pos (out :: outs)

/-- Whatever is read is inside, and 0 is only returned with the outputs of all chunks given to the sink and
the hash. A run comes out of each embedded patch, so that nothing of what these read is missing. -/
def AsClaimed : Prop :=
  ∃ enough, ∀ inner, enough ≤ inner → ∀ fuel, (applyImagePatch bz z inp fuel inner).status ≠ .patching ∧
    (applyImagePatch bz z inp fuel inner).status ≠ .undefined ∧ (∀ e ∈ (applyImagePatch bz z inp fuel inner).events, e.Inside inp) ∧
    ((applyImagePatch bz z inp fuel inner).status = .returned 0 →
      ∃ outs, Outputs bz z inp (numChunks inp) 0 12 outs ∧ Given (applyImagePatch bz z inp fuel inner).events outs.flatten)

/-! ### What a chunk has to meet -/

/-- A normal chunk, whose header starts at `pos`: its source is in the old data, its patch keeps to its
bytes and is not refused, and the sink takes all it makes, in less than 2^31 bytes. -/
structure NormalFine (pos : Nat) (log : List Event) : Prop where
  range : srcStart inp.patch pos + srcLen inp.patch pos ≤ inp.old.length
  safe : BsPatch.Safe (inp.embedded (inp.range pos) (patchOffset inp.patch pos))
    (BsPatch.applyBSDiffPatchMem bz (inp.embedded (inp.range pos) (patchOffset inp.patch pos)))
  applies : ∀ inner code accesses out,
    BsPatch.applyBSDiffPatchMem bz (inp.embedded (inp.range pos) (patchOffset inp.patch pos)) inner = .returned code accesses out →
      code = 0 ∧ out.length < 2147483648 ∧ inp.sink (sunk log) out = out.length

/-- A deflate chunk, whose header starts at `pos`: its source is in the old data, its lengths fit the
integers of zlib and of the hash, and its patch keeps to its bytes. -/
structure DeflateFine (i pos : Nat) : Prop where
  range : srcStart inp.patch pos + srcLen inp.patch pos ≤ inp.old.length
  lengths : srcLen inp.patch pos < 4294967296 ∧ expandedLen inp.patch pos < 2147483648
  safe : ∀ expanded, z.inflate (inp.range pos) (expandedLen inp.patch pos) = some expanded →
    expanded.length + (inp.bonusOf i).length = expandedLen inp.patch pos →
      BsPatch.Safe (inp.embedded (expanded ++ inp.bonusOf i) (patchOffset inp.patch pos))
        (BsPatch.applyBSDiffPatchMem bz (inp.embedded (expanded ++ inp.bonusOf i) (patchOffset inp.patch pos))) ∧
      ∀ target, Yields bz inp (expanded ++ inp.bonusOf i) (patchOffset inp.patch pos) target → target.length < 4294967296

/-- What the code does not check of a chunk. -/
structure ChunkFine (i pos : Nat) (log : List Event) : Prop where
  normal : read4 inp.patch pos = CHUNK_NORMAL → pos + 28 ≤ inp.patch.length → NormalFine bz inp (pos + 4) log
  raw : read4 inp.patch pos = CHUNK_RAW → pos + 8 ≤ inp.patch.length → 0 ≤ read4 inp.patch (pos + 4)
  deflate : read4 inp.patch pos = CHUNK_DEFLATE → pos + 64 ≤ inp.patch.length → inp.granted (expandedLen inp.patch (pos + 4)) = true →
    DeflateFine bz z inp i (pos + 4)

/-- Each chunk is fine that a run comes to. -/
def Fine : (n i pos : Nat) → List Event → Prop
  | 0, _, _, _ => True
  | n + 1, i, pos, log =>
    ChunkFine bz z inp i pos log ∧ ∀ fuel inner pos' log', chunkStep bz z inp fuel inner i pos log = .go pos' log' → Fine n (i + 1) pos' log'

/-- A patch without the header of an image patch is refused, and any other has fine chunks. -/
def FineImage : Prop :=
  12 ≤ inp.patch.length → inp.patch.take 8 = magicIMGDIFF → Fine bz z inp (numChunks inp) 0 12 [.read .patch 0 12]

end Spec

/-! ### Events -/

section Events
variable {inp : Input} {a b : List Event} {x y : Bytes}

theorem sunk_append (a b : List Event) : sunk (a ++ b) = sunk a ++ sunk b := List.filterMap_append

theorem hashed_append (a b : List Event) : hashed (a ++ b) = hashed a ++ hashed b := List.filterMap_append

theorem Given.append (ha : Given a x) (hb : Given b y) : Given (a ++ b) (x ++ y) := by
  refine ⟨?_, ?_, ?_⟩
  · rw [sunk_append, List.flatten_append, ha.sunk, hb.sunk]
  · rw [hashed_append, List.flatten_append, ha.hashed, hb.hashed]
  · intro e he
    exact (List.mem_append.mp he).elim (ha.taken e) (hb.taken e)

/-- Events that only read. -/
def Reading (inp : Input) (events : List Event) : Prop := ∀ e ∈ events, ∃ region start len, e = .read region start len ∧ e.Inside inp

theorem Reading.nil : Reading inp [] := fun _ he => by cases he

theorem Reading.one {region : Region} {start : Int} {len : Nat} (h : len = 0 ∨ (0 ≤ start ∧ start + len ≤ inp.size region)) :
    Reading inp [.read region start len] := by
  intro e he
  rw [List.mem_singleton.mp he]
  exact ⟨_, _, _, rfl, h⟩

theorem Reading.append (ha : Reading inp a) (hb : Reading inp b) : Reading inp (a ++ b) :=
  fun e he => (List.mem_append.mp he).elim (ha e) (hb e)

theorem Reading.inside (h : Reading inp a) : ∀ e ∈ a, e.Inside inp := by
  intro e he
  obtain ⟨_, _, _, rfl, hin⟩ := h e he
  exact hin

theorem inside_pair {e e' : Event} (h : e.Inside inp) (h' : e'.Inside inp) : ∀ e'' ∈ [e, e'], e''.Inside inp :=
  List.forall_mem_cons.mpr ⟨h, List.forall_mem_singleton.mpr h'⟩

theorem Reading.given (h : Reading inp a) : Given a [] := by
  have hnone : sunk a = [] ∧ hashed a = [] := by
    constructor <;> apply List.filterMap_eq_nil_iff.mpr <;> intro e he <;> obtain ⟨_, _, _, rfl, -⟩ := h e he <;> rfl
  refine ⟨by rw [hnone.1]; rfl, by rw [hnone.2]; rfl, ?_⟩
  intro e he
  obtain ⟨_, _, _, rfl, -⟩ := h e he
  trivial

theorem Reading.sunk_append (h : Reading inp b) (a : List Event) : sunk (a ++ b) = sunk a := by
  have hnone : sunk b = [] := by
    apply List.filterMap_eq_nil_iff.mpr
    intro e he
    obtain ⟨_, _, _, rfl, -⟩ := h e he
    rfl
  rw [ImageRun.sunk_append, hnone, List.append_nil]

/-- Data that are taken and hashed, in either order. -/
theorem given_sink (data : Bytes) : Given [.sink data data.length, .sha data] data :=
  ⟨List.append_nil _, List.append_nil _, fun e he => by
    rcases List.mem_pair.mp he with rfl | rfl
    · rfl
    · trivial⟩

theorem given_sha (data : Bytes) : Given [.sha data, .sink data data.length] data :=
  ⟨List.append_nil _, List.append_nil _, fun e he => by
    rcases List.mem_pair.mp he with rfl | rfl
    · trivial
    · rfl⟩

/-- What an embedded patch reads is inside, if it keeps to its bytes. -/
theorem reading_eventsOf {base : Option Int} {accesses : List BsPatch.Access} {n : Nat} {newSize : Int}
    (h : ∀ access ∈ accesses, access.Inside inp.patch.length n newSize) (hbase : ∀ start, base = some start → 0 ≤ start ∧ start + n ≤ inp.old.length) :
    Reading inp (accesses.flatMap (eventsOf base)) := by
  intro e he
  obtain ⟨access, haccess, he⟩ := List.mem_flatMap.mp he
  have hin := h access haccess
  cases access with
  | fill | add => cases he
  | patch start len =>
    rw [List.mem_singleton.mp he]
    exact ⟨_, _, _, rfl, .inr hin⟩
  | old i =>
    cases base with
    | none => cases he
    | some start =>
      obtain ⟨hlow, hhigh⟩ := hbase start rfl
      obtain ⟨hi, hn⟩ := hin
      rw [List.mem_singleton.mp he]
      refine ⟨_, _, _, rfl, .inr ⟨by omega, ?_⟩⟩
      show start + i + (1 : Nat) ≤ (inp.old.length : Int)
      omega

end Events

/-! ### The range of a chunk -/

section Range
variable {inp : Input}

theorem toSigned_small {n : Nat} (h : n < 9223372036854775808) : toSigned n = n := if_pos h

/-- Where the range lies in the old data, it is what is read. -/
theorem source_eq {pos : Nat} (h : srcStart inp.patch pos + srcLen inp.patch pos ≤ inp.old.length) :
    inp.source (toSigned (srcStart inp.patch pos)) (srcLen inp.patch pos) = inp.range pos := by
  have hfits := inp.fits.2
  rw [toSigned_small (by omega)]
  generalize hs : srcStart inp.patch pos = s at h
  generalize hl : srcLen inp.patch pos = l at h
  rw [Input.source, Input.range, hs, hl]
  apply List.ext_getElem
  · rw [List.length_map, List.length_range, List.length_take, List.length_drop]
    omega
  · intro k hk _
    rw [List.length_map, List.length_range] at hk
    rw [List.getElem_map, List.getElem_range, List.getElem_take, List.getElem_drop, Input.memory, if_pos (by omega)]
    have hindex : ((s : Int) + (k : Int)).toNat = s + k := by omega
    rw [hindex, List.getElem?_eq_getElem (by omega)]
    rfl

end Range

/-! ### One chunk -/

/-- A chunk that stops the run has read inside and been refused; one after which the run goes on has given
its output. -/
def Step.Good (bz : BsPatch.Bzip2) (z : Zlib) (inp : Input) (i pos : Nat) (log : List Event) : Step → Prop
  | .stop status log' => ∃ more, log' = log ++ more ∧ (∀ e ∈ more, e.Inside inp) ∧ (status = .running ∨ status = .returned (-1))
  | .go pos' log' => ∃ more out, log' = log ++ more ∧ (∀ e ∈ more, e.Inside inp) ∧ ChunkOutput bz z inp i pos out pos' ∧ Given more out

section Chunk
variable {bz : BsPatch.Bzip2} {z : Zlib} {inp : Input} {i pos : Nat} {log : List Event}

theorem Step.Good.refused {more : List Event} (h : Reading inp more) : (Step.stop (.returned (-1)) (log ++ more)).Good bz z inp i pos log :=
  ⟨more, rfl, h.inside, .inr rfl⟩

theorem shaUpdate_small {data : Bytes} (h : data.length < 2147483648) (log : List Event) (next : List Event → Step) :
    shaUpdate data log next = next (log ++ [.sha data]) := by
  rw [shaUpdate, int_small h, if_neg (by omega), Nat.mod_eq_of_lt (by omega), List.take_length]

/-- The record of a chunk, and what is behind it, are read where they are looked for. -/
theorem reading_record {n : Nat} (h : ¬inp.patch.length < pos + n) : Reading inp [.read .patch pos n] :=
  .one (.inr ⟨Int.natCast_nonneg _, by
    show (pos : Int) + n ≤ (inp.patch.length : Int)
    omega⟩)

theorem normalChunk_good (htype : read4 inp.patch pos = CHUNK_NORMAL) (hrecord : ¬inp.patch.length < pos + 4)
    (h : pos + 28 ≤ inp.patch.length → NormalFine bz inp (pos + 4) log) :
    ∃ enough step, (∀ inner, enough ≤ inner → normalChunk bz inp inner (pos + 4) (log ++ [.read .patch pos 4]) = step) ∧
      step.Good bz z inp i pos log := by
  by_cases hheader : inp.patch.length < pos + 4 + 24
  · exact ⟨0, _, fun inner _ => if_pos hheader, .refused (reading_record hrecord)⟩
  · have hin : pos + 28 ≤ inp.patch.length := by omega
    obtain ⟨hrange, ⟨enough, hends⟩, happlies⟩ := h hin
    have hfits := inp.fits.2
    obtain ⟨code, accesses, newData, hrun, hinside, -⟩ := hends enough le_rfl
    obtain ⟨rfl, hlength, hsink⟩ := happlies _ _ _ _ hrun
    have hlen : (toSigned (srcLen inp.patch (pos + 4))).toNat = srcLen inp.patch (pos + 4) := by
      rw [toSigned_small (by omega), Int.toNat_natCast]
    have hreads : Reading inp ([.read .patch pos 4] ++ [.read .patch ((pos + 4 : Nat) : Int) 24] ++
        accesses.flatMap (eventsOf (some (toSigned (srcStart inp.patch (pos + 4)))))) := by
      refine ((reading_record hrecord).append (reading_record hheader)).append (reading_eventsOf hinside fun start hstart => ?_)
      rw [← Option.some.inj hstart, toSigned_small (by omega)]
      have hle : (inp.range (pos + 4)).length ≤ srcLen inp.patch (pos + 4) := List.length_take_le _ _
      exact ⟨Int.natCast_nonneg _, by
        show (srcStart inp.patch (pos + 4) : Int) + (inp.range (pos + 4)).length ≤ (inp.old.length : Int)
        omega⟩
    refine ⟨enough, .go (pos + 4 + 24) (log ++ ([.read .patch pos 4] ++ [.read .patch ((pos + 4 : Nat) : Int) 24] ++
      accesses.flatMap (eventsOf (some (toSigned (srcStart inp.patch (pos + 4))))) ++ [.sink newData newData.length, .sha newData])), ?_, ?_⟩
    · intro inner hinner
      have hrun' := BsPatch.applyBSDiffPatchMem_mono hinner _ _ _ hrun
      rw [normalChunk, if_neg hheader]
      dsimp only
      rw [hlen, source_eq hrange, hrun']
      dsimp only
      rw [if_neg (not_not.mpr rfl), giveNormal]
      rw [List.append_assoc, List.append_assoc, ← List.append_assoc [_], hreads.sunk_append, hsink, if_neg (lt_irrefl _), shaUpdate_small hlength]
      simp only [List.append_assoc, List.cons_append, List.nil_append]
    · exact ⟨_, newData, rfl, fun e he => (List.mem_append.mp he).elim (hreads.inside e) (fun he => by
        rcases List.mem_pair.mp he with rfl | rfl <;> trivial),
        .normal htype hin hrange ⟨_, _, hrun⟩, hreads.given.append (given_sink newData)⟩

theorem giveRaw_good {more : List Event} {data : Bytes} {pos' : Nat} (hmore : Reading inp more) (hlength : data.length < 2147483648)
    (hout : ChunkOutput bz z inp i pos data pos') : (giveRaw inp data pos' (log ++ more)).Good bz z inp i pos log := by
  rw [giveRaw, shaUpdate_small hlength]
  dsimp only
  rw [List.append_assoc log, List.append_assoc log]
  split
  · refine ⟨_, rfl, List.forall_mem_append.mpr ⟨List.forall_mem_append.mpr ⟨hmore.inside, ?_⟩, ?_⟩, .inr rfl⟩
    · exact List.forall_mem_singleton.mpr trivial
    · exact List.forall_mem_singleton.mpr trivial
  · rename_i hanswer
    rw [not_not.mp hanswer, List.append_assoc more]
    exact ⟨_, data, rfl, List.forall_mem_append.mpr ⟨hmore.inside, inside_pair trivial trivial⟩, hout, hmore.given.append (given_sha data)⟩

theorem rawChunk_good (htype : read4 inp.patch pos = CHUNK_RAW) (hrecord : ¬inp.patch.length < pos + 4)
    (h : pos + 8 ≤ inp.patch.length → 0 ≤ read4 inp.patch (pos + 4)) : (rawChunk inp (pos + 4) (log ++ [.read .patch pos 4])).Good bz z inp i pos log := by
  rw [rawChunk]
  split
  · exact .refused (reading_record hrecord)
  · rename_i hheader
    have hreads : Reading inp ([.read .patch pos 4] ++ [.read .patch ((pos + 4 : Nat) : Int) 4]) :=
      (reading_record hrecord).append (reading_record hheader)
    obtain ⟨len, hlen⟩ := Int.eq_ofNat_of_zero_le (h (by omega))
    dsimp only
    rw [hlen, Int.toNat_natCast, List.append_assoc log]
    split
    · exact .refused hreads
    · rename_i hover
      have hdata : pos + 8 + len ≤ inp.patch.length := by omega
      have hsmall := read4_lt inp.patch (pos + 4)
      have htake : ((inp.patch.drop (pos + 4 + 4)).take len).length ≤ len := List.length_take_le _ _
      rw [if_neg (by omega), List.append_assoc log]
      refine giveRaw_good (hreads.append (.one (.inr ⟨by omega, ?_⟩))) (by omega) (.raw htype hlen hdata)
      show ((pos + 4 : Nat) : Int) + 4 + len ≤ (inp.patch.length : Int)
      omega

/-! ### The loop that deflates -/

theorem deflateLoop_mono {tempSize fuel fuel' pos' : Nat} {left : Option Bytes} {log' : List Event} (hle : fuel ≤ fuel')
    (h : deflateLoop z inp pos tempSize fuel left log = .go pos' log') : deflateLoop z inp pos tempSize fuel' left log = .go pos' log' := by
  induction fuel generalizing fuel' left log with
  | zero => cases h
  | succ fuel ih =>
    cases fuel' with
    | zero => exact absurd hle (by omega)
    | succ fuel' =>
      rw [deflateLoop] at h ⊢
      split at h
      · cases h
      · rename_i hanswer
        rw [if_neg hanswer]
        rw [shaUpdate] at h ⊢
        split at h
        · cases h
        · rename_i hint
          rw [if_neg hint]
          split at h
          · rename_i hended
            rw [if_pos hended]
            exact h
          · rename_i hended
            rw [if_neg hended]
            exact ih (Nat.le_of_succ_le_succ hle) h

/-- The loop stops, or it goes on behind the chunk with all of a stream given. -/
theorem deflateLoop_good {tempSize : Nat} (hsize : tempSize < 2147483648) (fuel : Nat) (left : Option Bytes) (log : List Event) :
    (∃ status more, deflateLoop z inp pos tempSize fuel left log = .stop status (log ++ more) ∧ (∀ e ∈ more, e.Inside inp) ∧
      (status = .running ∨ status = .returned (-1))) ∨
    ∃ out more, left = some out ∧ deflateLoop z inp pos tempSize fuel left log = .go pos (log ++ more) ∧ (∀ e ∈ more, e.Inside inp) ∧ Given more out := by
  induction fuel generalizing left log with
  | zero => exact .inl ⟨_, [], by rw [List.append_nil]; rfl, fun e he => (List.not_mem_nil he).elim, .inl rfl⟩
  | succ fuel ih =>
    have hroom : tempSize % 4294967296 = tempSize := Nat.mod_eq_of_lt (by omega)
    rw [deflateLoop, hroom, Nat.sub_self]
    have hdata : (left.getD []).take tempSize ++ (List.range 0).map inp.stale = (left.getD []).take tempSize := List.append_nil _
    have hlength : ((left.getD []).take tempSize).length ≤ tempSize := List.length_take_le _ _
    rw [hdata, shaUpdate_small (by omega)]
    split
    · exact .inl ⟨_, _, rfl, List.forall_mem_singleton.mpr trivial, .inr rfl⟩
    · rename_i hanswer
      rw [not_not.mp hanswer, List.append_assoc]
      have hinside : ∀ e ∈ [Event.sink ((left.getD []).take tempSize) ((left.getD []).take tempSize).length] ++ [.sha ((left.getD []).take tempSize)],
          e.Inside inp := inside_pair trivial trivial
      split
      · rename_i hended
        cases left with
        | none => cases hended
        | some rest =>
          have hwhole : rest.take tempSize = rest := by
            apply List.take_of_length_le
            simp only [Option.any_some, Bool.or_eq_true, Bool.and_eq_true, decide_eq_true_eq, beq_iff_eq] at hended
            omega
          right
          refine ⟨rest, _, rfl, rfl, hinside, ?_⟩
          show Given [.sink (rest.take tempSize) _, .sha (rest.take tempSize)] rest
          rw [Option.getD_some, hwhole]
          exact given_sink rest
      · rcases ih (left.map (·.drop tempSize)) (log ++ ([.sink ((left.getD []).take tempSize) ((left.getD []).take tempSize).length] ++
          [.sha ((left.getD []).take tempSize)])) with ⟨status, more, heq, hmore, hstatus⟩ | ⟨out, more, hleft, heq, hmore, hgiven⟩
        · left
          rw [List.append_assoc log] at heq
          exact ⟨status, _, heq, List.forall_mem_append.mpr ⟨hinside, hmore⟩, hstatus⟩
        · right
          obtain ⟨rest, rfl, rfl⟩ := Option.map_eq_some_iff.mp hleft
          rw [List.append_assoc log] at heq
          refine ⟨rest, _, rfl, heq, List.forall_mem_append.mpr ⟨hinside, hmore⟩, ?_⟩
          have hboth := (given_sink (rest.take tempSize)).append hgiven
          rw [List.take_append_drop] at hboth
          exact hboth

/-! ### Chunks with enough fuel -/

/-- With enough fuel for the embedded patches, what comes of a chunk hangs on the fuel of the loop that
deflates only, and once the run goes on it goes on there. -/
structure Settles (bz : BsPatch.Bzip2) (z : Zlib) (inp : Input) (i pos : Nat) (log : List Event) (run : Nat → Nat → Step) (enough : Nat)
    (steps : Nat → Step) : Prop where
  same : ∀ inner, enough ≤ inner → ∀ fuel, run fuel inner = steps fuel
  good : ∀ fuel, (steps fuel).Good bz z inp i pos log
  stays : ∀ {fuel fuel' pos' log'}, fuel ≤ fuel' → steps fuel = .go pos' log' → steps fuel' = .go pos' log'

theorem settles_const {run : Nat → Nat → Step} {enough : Nat} (step : Step) (hrun : ∀ inner, enough ≤ inner → ∀ fuel, run fuel inner = step)
    (hgood : step.Good bz z inp i pos log) : Settles bz z inp i pos log run enough fun _ => step :=
  ⟨hrun, fun _ => hgood, fun _ h => h⟩

/-- The target is made, and what deflates it comes to its end. -/
theorem deflateTarget_good (htype : read4 inp.patch pos = CHUNK_DEFLATE) (hheader : pos + 64 ≤ inp.patch.length) (h : DeflateFine bz z inp i (pos + 4))
    {expanded : Bytes} (hinflate : z.inflate (inp.range (pos + 4)) (expandedLen inp.patch (pos + 4)) = some expanded)
    (hbonus : expanded.length + (inp.bonusOf i).length = expandedLen inp.patch (pos + 4)) {reads : List Event} (hreads : Reading inp reads) :
    ∃ enough steps, Settles bz z inp i pos log
      (fun fuel inner => deflateTarget bz z inp fuel inner (pos + 4) (expanded ++ inp.bonusOf i) (log ++ reads)) enough steps := by
  obtain ⟨⟨enough, hends⟩, htarget⟩ := h.safe expanded hinflate hbonus
  obtain ⟨code, accesses, target, hrun, hinside, -⟩ := hends enough le_rfl
  have hmore : Reading inp (reads ++ accesses.flatMap (eventsOf none)) :=
    hreads.append (reading_eventsOf hinside fun start hstart => by cases hstart)
  have hrun' : ∀ inner, enough ≤ inner → BsPatch.applyBSDiffPatchMem bz (inp.embedded (expanded ++ inp.bonusOf i) (patchOffset inp.patch (pos + 4))) inner =
      .returned code accesses target := fun inner hinner => BsPatch.applyBSDiffPatchMem_mono hinner _ _ _ hrun
  by_cases hcode : code = 0
  · subst hcode
    have hlength := htarget target ⟨_, _, hrun⟩
    generalize hsize : (if expandedLen inp.patch (pos + 4) < 32768 then 32768 else expandedLen inp.patch (pos + 4)) = tempSize
    have htemp : tempSize < 2147483648 := by
      have hexpanded := h.lengths.2
      rw [← hsize]
      split <;> omega
    generalize hstream : (if expandedLen inp.patch (pos + 4) < 32768 ∧ inp.granted 32768 = false then none
      else z.deflate (deflateParams inp.patch (pos + 4)) target) = stream
    refine ⟨enough, fun fuel => deflateLoop z inp (pos + 4 + 60) tempSize fuel stream (log ++ (reads ++ accesses.flatMap (eventsOf none))), ?_, ?_, ?_⟩
    · intro inner hinner fuel
      rw [deflateTarget, hrun' inner hinner]
      dsimp only
      rw [if_neg (not_not.mpr rfl), Nat.mod_eq_of_lt hlength, List.take_length, hsize, hstream, List.append_assoc]
    · intro fuel
      rcases @deflateLoop_good z inp (pos + 4 + 60) tempSize htemp fuel stream (log ++ (reads ++ accesses.flatMap (eventsOf none))) with
        ⟨status, more, heq, hin, hstatus⟩ | ⟨out, more, hout, heq, hin, hgiven⟩
      · rw [heq, List.append_assoc log]
        exact ⟨_, rfl, List.forall_mem_append.mpr ⟨hmore.inside, hin⟩, hstatus⟩
      · have hdeflate : z.deflate (deflateParams inp.patch (pos + 4)) target = some out := by
          rw [hout] at hstream
          split at hstream
          · cases hstream
          · exact hstream
        rw [heq, List.append_assoc log]
        exact ⟨_, out, rfl, List.forall_mem_append.mpr ⟨hmore.inside, hin⟩,
          .deflate htype hheader h.range hinflate hbonus ⟨_, _, hrun⟩ hdeflate, hmore.given.append hgiven⟩
    · intro fuel fuel' pos' log' hle
      exact deflateLoop_mono hle
  · refine ⟨enough, _, settles_const (.stop (.returned (-1)) (log ++ (reads ++ accesses.flatMap (eventsOf none)))) ?_ (.refused hmore)⟩
    intro inner hinner fuel
    rw [deflateTarget, hrun' inner hinner]
    dsimp only
    rw [if_pos hcode, List.append_assoc]

theorem deflateChunk_good (htype : read4 inp.patch pos = CHUNK_DEFLATE) (hrecord : ¬inp.patch.length < pos + 4)
    (h : pos + 64 ≤ inp.patch.length → inp.granted (expandedLen inp.patch (pos + 4)) = true → DeflateFine bz z inp i (pos + 4)) :
    ∃ enough steps, Settles bz z inp i pos log (fun fuel inner => deflateChunk bz z inp fuel inner i (pos + 4) (log ++ [.read .patch pos 4])) enough
      steps := by
  by_cases hheader : inp.patch.length < pos + 4 + 60
  · exact ⟨0, _, settles_const _ (fun inner _ fuel => if_pos hheader) (.refused (reading_record hrecord))⟩
  · have hreads : Reading inp ([.read .patch pos 4] ++ [.read .patch ((pos + 4 : Nat) : Int) 60]) :=
      (reading_record hrecord).append (reading_record hheader)
    by_cases hgranted : inp.granted (expandedLen inp.patch (pos + 4)) = false
    · refine ⟨0, _, settles_const _ (fun inner _ fuel => ?_) (.refused hreads)⟩
      rw [deflateChunk, if_neg hheader, if_pos hgranted, List.append_assoc]
    · have hfine := h (by omega) (Bool.eq_true_of_not_eq_false hgranted)
      have hfits := inp.fits.2
      have hrange := hfine.range
      have havail : srcLen inp.patch (pos + 4) % 4294967296 = srcLen inp.patch (pos + 4) := Nat.mod_eq_of_lt hfine.lengths.1
      have hexpanded := hfine.lengths.2
      have hroom : expandedLen inp.patch (pos + 4) % 4294967296 = expandedLen inp.patch (pos + 4) := Nat.mod_eq_of_lt (by omega)
      have hold : Reading inp ([.read .patch pos 4] ++ [.read .patch ((pos + 4 : Nat) : Int) 60] ++
          [.read .old (toSigned (srcStart inp.patch (pos + 4))) (srcLen inp.patch (pos + 4))]) := by
        refine hreads.append (.one (.inr ?_))
        rw [toSigned_small (by omega)]
        refine ⟨Int.natCast_nonneg _, ?_⟩
        show (srcStart inp.patch (pos + 4) : Int) + srcLen inp.patch (pos + 4) ≤ (inp.old.length : Int)
        omega
      have hrun : ∀ fuel inner, deflateChunk bz z inp fuel inner i (pos + 4) (log ++ [.read .patch pos 4]) =
          match z.inflate (inp.range (pos + 4)) (expandedLen inp.patch (pos + 4)) with
          | none => .stop (.returned (-1)) (log ++ ([.read .patch pos 4] ++ [.read .patch ((pos + 4 : Nat) : Int) 60] ++
              [.read .old (toSigned (srcStart inp.patch (pos + 4))) (srcLen inp.patch (pos + 4))]))
          | some expanded =>
            if expandedLen inp.patch (pos + 4) - expanded.length ≠ (inp.bonusOf i).length then
              .stop (.returned (-1)) (log ++ ([.read .patch pos 4] ++ [.read .patch ((pos + 4 : Nat) : Int) 60] ++
                [.read .old (toSigned (srcStart inp.patch (pos + 4))) (srcLen inp.patch (pos + 4))]))
            else
              deflateTarget bz z inp fuel inner (pos + 4) (expanded ++ inp.bonusOf i)
                (log ++ ([.read .patch pos 4] ++ [.read .patch ((pos + 4 : Nat) : Int) 60] ++
                  [.read .old (toSigned (srcStart inp.patch (pos + 4))) (srcLen inp.patch (pos + 4))] ++ [.read .bonus 0 (inp.bonusOf i).length])) := by
        intro fuel inner
        rw [deflateChunk, if_neg hheader]
        dsimp only
        rw [if_neg hgranted, havail, hroom, source_eq hrange, Nat.sub_self]
        simp only [List.append_assoc, List.range_zero, List.map_nil, List.nil_append]
      cases hinflate : z.inflate (inp.range (pos + 4)) (expandedLen inp.patch (pos + 4)) with
      | none =>
        refine ⟨0, _, settles_const _ (fun inner _ fuel => ?_) (.refused hold)⟩
        rw [hrun, hinflate]
      | some expanded =>
        have hle := z.inflate_le hinflate
        by_cases hbonus : expandedLen inp.patch (pos + 4) - expanded.length ≠ (inp.bonusOf i).length
        · refine ⟨0, _, settles_const _ (fun inner _ fuel => ?_) (.refused hold)⟩
          rw [hrun, hinflate]
          exact if_pos hbonus
        · have hsum : expanded.length + (inp.bonusOf i).length = expandedLen inp.patch (pos + 4) := by omega
          have hbonusRead : Reading inp [.read .bonus 0 (inp.bonusOf i).length] := by
            refine .one ?_
            rw [Input.bonusOf]
            split
            · exact .inr ⟨le_rfl, by rw [Int.zero_add]; exact le_rfl⟩
            · exact .inl rfl
          obtain ⟨enough, steps, hsettles⟩ := deflateTarget_good htype (by omega) hfine hinflate hsum (hold.append hbonusRead)
          refine ⟨enough, steps, ⟨fun inner hinner fuel => ?_, hsettles.good, hsettles.stays⟩⟩
          rw [← hsettles.same inner hinner fuel, hrun, hinflate]
          exact if_neg hbonus

/-- A fine chunk settles. -/
theorem chunkStep_good (h : ChunkFine bz z inp i pos log) :
    ∃ enough steps, Settles bz z inp i pos log (fun fuel inner => chunkStep bz z inp fuel inner i pos log) enough steps := by
  by_cases hrecord : inp.patch.length < pos + 4
  · refine ⟨0, _, settles_const (.stop (.returned (-1)) (log ++ [])) (fun inner _ fuel => ?_) (.refused .nil)⟩
    rw [List.append_nil]
    exact if_pos hrecord
  · have hstep : ∀ fuel inner, chunkStep bz z inp fuel inner i pos log =
        if read4 inp.patch pos = CHUNK_NORMAL then normalChunk bz inp inner (pos + 4) (log ++ [.read .patch pos 4])
        else if read4 inp.patch pos = CHUNK_RAW then rawChunk inp (pos + 4) (log ++ [.read .patch pos 4])
        else if read4 inp.patch pos = CHUNK_DEFLATE then deflateChunk bz z inp fuel inner i (pos + 4) (log ++ [.read .patch pos 4])
        else .stop (.returned (-1)) (log ++ [.read .patch pos 4]) := fun fuel inner => if_neg hrecord
    simp only [hstep]
    by_cases hnormal : read4 inp.patch pos = CHUNK_NORMAL
    · simp only [if_pos hnormal]
      obtain ⟨enough, step, hsame, hgood⟩ := normalChunk_good hnormal hrecord (h.normal hnormal) (z := z) (i := i)
      exact ⟨enough, _, settles_const _ (fun inner hinner _ => hsame inner hinner) hgood⟩
    · simp only [if_neg hnormal]
      by_cases hraw : read4 inp.patch pos = CHUNK_RAW
      · simp only [if_pos hraw]
        exact ⟨0, _, settles_const _ (fun inner _ _ => rfl) (rawChunk_good hraw hrecord (h.raw hraw))⟩
      · simp only [if_neg hraw]
        by_cases hdeflate : read4 inp.patch pos = CHUNK_DEFLATE
        · simp only [if_pos hdeflate]
          exact deflateChunk_good hdeflate hrecord (h.deflate hdeflate)
        · simp only [if_neg hdeflate]
          exact ⟨0, _, settles_const _ (fun inner _ _ => rfl) (.refused (reading_record hrecord))⟩

end Chunk

/-! ### The whole patch -/

/-- A run from a chunk on: it has read inside, and has returned 0 only with all outputs given. -/
structure Run.Good (bz : BsPatch.Bzip2) (z : Zlib) (inp : Input) (n i pos : Nat) (log : List Event) (r : Run) : Prop where
  goes : r.status ≠ .patching ∧ r.status ≠ .undefined
  events : ∃ more, r.events = log ++ more ∧ (∀ e ∈ more, e.Inside inp) ∧
    (r.status = .returned 0 → ∃ outs, Outputs bz z inp n i pos outs ∧ Given more outs.flatten)

section Whole
variable {bz : BsPatch.Bzip2} {z : Zlib} {inp : Input} {i pos : Nat} {log : List Event}

theorem Run.Good.stopped {n : Nat} {status : Status} {log' : List Event} (h : (Step.stop status log').Good bz z inp i pos log) :
    Run.Good bz z inp n i pos log ⟨log', status⟩ := by
  obtain ⟨more, rfl, hin, rfl | rfl⟩ := h
  · exact ⟨⟨nofun, nofun⟩, more, rfl, hin, nofun⟩
  · exact ⟨⟨nofun, nofun⟩, more, rfl, hin, fun hstatus => absurd (Status.returned.inj hstatus) (by decide)⟩

theorem Run.Good.next {n pos' : Nat} {log' : List Event} {r : Run} (h : (Step.go pos' log').Good bz z inp i pos log)
    (hrest : Run.Good bz z inp n (i + 1) pos' log' r) : Run.Good bz z inp (n + 1) i pos log r := by
  obtain ⟨more, out, rfl, hin, hout, hgiven⟩ := h
  obtain ⟨hgoes, more', hevents, hin', hreturned⟩ := hrest
  refine ⟨hgoes, more ++ more', by rw [hevents, List.append_assoc], List.forall_mem_append.mpr ⟨hin, hin'⟩, fun hstatus => ?_⟩
  obtain ⟨outs, houts, hgiven'⟩ := hreturned hstatus
  exact ⟨out :: outs, .chunk hout houts, hgiven.append hgiven'⟩

theorem chunkLoop_good {n : Nat} (h : Fine bz z inp n i pos log) :
    ∃ enough, ∀ inner, enough ≤ inner → ∀ fuel, Run.Good bz z inp n i pos log (chunkLoop bz z inp fuel inner n i pos log) := by
  induction n generalizing i pos log with
  | zero =>
    refine ⟨0, fun inner _ fuel => ⟨⟨nofun, nofun⟩, [], (List.append_nil _).symm, fun e he => (List.not_mem_nil he).elim, ?_⟩⟩
    exact fun _ => ⟨[], .done, rfl, rfl, fun e he => (List.not_mem_nil he).elim⟩
  | succ n ih =>
    obtain ⟨hchunk, hrest⟩ := h
    obtain ⟨enough, steps, hsettles⟩ := chunkStep_good hchunk
    have hrun : ∀ inner, enough ≤ inner → ∀ fuel, chunkLoop bz z inp fuel inner (n + 1) i pos log =
        match steps fuel with
        | .stop status log => ⟨log, status⟩
        | .go pos log => chunkLoop bz z inp fuel inner n (i + 1) pos log := by
      intro inner hinner fuel
      rw [chunkLoop, hsettles.same inner hinner fuel]
    by_cases hgo : ∃ fuel pos' log', steps fuel = .go pos' log'
    · -- wherever the run goes on, it goes on at the same chunk with the same events
      obtain ⟨fuel₀, pos', log', hfirst⟩ := hgo
      obtain ⟨enough', hgood⟩ := ih (hrest fuel₀ enough pos' log' ((hsettles.same enough le_rfl fuel₀).trans hfirst))
      refine ⟨max enough enough', fun inner hinner fuel => ?_⟩
      have hgoodStep := hsettles.good fuel
      rw [hrun inner (le_of_max_le_left hinner)]
      cases hstep : steps fuel with
      | stop status log =>
        rw [hstep] at hgoodStep
        exact .stopped hgoodStep
      | go pos'' log'' =>
        have hsame : Step.go pos'' log'' = Step.go pos' log' := by
          rcases le_total fuel fuel₀ with hle | hle
          · exact (hsettles.stays hle hstep).symm.trans hfirst
          · exact hstep.symm.trans (hsettles.stays hle hfirst)
        rw [hstep, hsame] at hgoodStep
        obtain ⟨rfl, rfl⟩ := Step.go.inj hsame
        exact .next hgoodStep (hgood inner (le_of_max_le_right hinner) fuel)
    · refine ⟨enough, fun inner hinner fuel => ?_⟩
      have hgoodStep := hsettles.good fuel
      rw [hrun inner hinner]
      cases hstep : steps fuel with
      | stop status log =>
        rw [hstep] at hgoodStep
        exact .stopped hgoodStep
      | go pos'' log'' => exact absurd ⟨_, _, _, hstep⟩ hgo

end Whole

/-- An image patch each of whose chunks is fine that a run comes to keeps to its bytes, and 0 is returned only with
all of its output given. -/
theorem applyImagePatch_claimed (bz : BsPatch.Bzip2) (z : Zlib) (inp : Input) (h : FineImage bz z inp) : AsClaimed bz z inp := by
  by_cases hshort : inp.patch.length < 12
  · refine ⟨0, fun inner _ fuel => ?_⟩
    rw [applyImagePatch, if_pos hshort]
    exact ⟨nofun, nofun, fun e he => (List.not_mem_nil he).elim, fun hbad => absurd (Status.returned.inj hbad) (by decide)⟩
  · by_cases hmagic : inp.patch.take 8 = magicIMGDIFF
    · obtain ⟨enough, hgood⟩ := chunkLoop_good (h (by omega) hmagic)
      refine ⟨enough, fun inner hinner fuel => ?_⟩
      have hheader : Reading inp [.read .patch 0 12] := .one (.inr ⟨le_rfl, by
        show (0 : Int) + (12 : Nat) ≤ (inp.patch.length : Int)
        omega⟩)
      obtain ⟨⟨hpatching, hundefined⟩, more, hevents, hin, hreturned⟩ := hgood inner hinner fuel
      rw [applyImagePatch, if_neg hshort, if_neg (not_not.mpr hmagic), hevents]
      refine ⟨hpatching, hundefined, List.forall_mem_append.mpr ⟨hheader.inside, hin⟩, fun hstatus => ?_⟩
      obtain ⟨outs, houts, hgiven⟩ := hreturned hstatus
      exact ⟨outs, houts, hheader.given.append hgiven⟩
    · refine ⟨0, fun inner _ fuel => ?_⟩
      rw [applyImagePatch, if_neg hshort, if_pos hmagic]
      have hmagicRead : Reading inp [.read .patch 0 8] := .one (.inr ⟨le_rfl, by
        show (0 : Int) + (8 : Nat) ≤ (inp.patch.length : Int)
        omega⟩)
      exact ⟨nofun, nofun, hmagicRead.inside, fun hbad => absurd (Status.returned.inj hbad) (by decide)⟩

theorem idle_inflate_le {_ : Bytes} {room : Nat} {out : Bytes} (h : none = some out) : out.length ≤ room :=
  absurd h (Option.some_ne_none out).symm

/-- A zlib for which there are no streams. -/
def idleZlib : Zlib where
  inflate := fun _ _ => none
  inflate_le := @idle_inflate_le
  deflate := fun _ _ => none
  atOnce := false

/-- A patch alone, with a sink that takes all it is given. -/
def onPatch (patch : Bytes) (h : patch.length < 4611686018427387904) : Input where
  patch := patch
  old := []
  bonus := none
  fits := ⟨h, by decide⟩
  around := fun _ => 0
  beyond := fun _ => 0
  fresh := fun _ => 0
  stale := fun _ => 0
  malloc := fun _ => true
  sink := fun _ data => data.length

/-- One raw chunk of two bytes. -/
def rawPatch : Input := onPatch (magicIMGDIFF ++ [1, 0, 0, 0, 3, 0, 0, 0, 2, 0, 0, 0, 104, 105]) (by decide)

theorem rawPatch_claimed : AsClaimed BsPatch.smallBzip2 idleZlib rawPatch := by
  apply applyImagePatch_claimed
  intro _ _
  have htype : read4 rawPatch.patch 12 = CHUNK_RAW := by decide
  have hcount : numChunks rawPatch = 1 := by decide
  rw [hcount]
  exact ⟨⟨fun h => absurd (htype.symm.trans h) (by decide), fun _ _ => by decide, fun h => absurd (htype.symm.trans h) (by decide)⟩,
    fun _ _ _ _ _ => trivial⟩

/-- One normal chunk, whose own patch starts with the header of the image patch. -/
def refusedPatch : Input := onPatch (magicIMGDIFF ++ [1, 0, 0, 0] ++ List.replicate 28 0) (by decide)

/-- An embedded patch that is refused is passed over, and 0 is returned. -/
theorem refusedPatch_not_claimed : ¬AsClaimed BsPatch.smallBzip2 idleZlib refusedPatch := by
  rintro ⟨enough, h⟩
  obtain ⟨-, -, -, hreturned⟩ := h enough le_rfl 0
  have htype : read4 refusedPatch.patch 12 = CHUNK_NORMAL := by decide
  have hrefused : ∀ source inner, BsPatch.applyBSDiffPatchMem BsPatch.smallBzip2 (refusedPatch.embedded source (patchOffset refusedPatch.patch 16)) inner =
      .returned 1 [.patch 0 8] [] := by
    intro source inner
    have hoffset : patchOffset refusedPatch.patch 16 = 0 := by decide
    have hmagic : (refusedPatch.embedded [] 0).bytes 0 8 ≠ magicBSDIFF := by decide
    rw [hoffset]
    exact if_pos hmagic
  have hstatus : (applyImagePatch BsPatch.smallBzip2 idleZlib refusedPatch 0 enough).status = .returned 0 := by
    have hcount : numChunks refusedPatch = 1 := by decide
    have hstep : ∀ log, chunkStep BsPatch.smallBzip2 idleZlib refusedPatch 0 enough 0 12 log = .go 40 (log ++ [.read .patch 12 4] ++
        [.read .patch 16 24] ++ [.read .patch 0 8]) := by
      intro log
      rw [chunkStep, if_neg (by decide)]
      dsimp only
      rw [if_pos htype, normalChunk, if_neg (by decide)]
      dsimp only
      rw [hrefused]
      rfl
    rw [applyImagePatch, if_neg (by decide), if_neg (by decide), hcount, chunkLoop, hstep]
    rfl
  obtain ⟨outs, houts, -⟩ := hreturned hstatus
  rw [show numChunks refusedPatch = 1 by decide] at houts
  cases houts with
  | chunk hout _ =>
    cases hout with
    | normal _ _ _ hpatch =>
      obtain ⟨inner, accesses, hrun⟩ := hpatch
      rw [hrefused] at hrun
      exact absurd (BsPatch.Outcome.returned.inj hrun).1 (by decide)
    | raw h | deflate h => exact absurd (htype.symm.trans h) (by decide)

end Twrp.Patch.ImageRun
