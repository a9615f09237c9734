import Twrp.Base.Abi
import Twrp.Base.Prog

/-! The buffer of uncompressed archives.

libtar hands over an archive block by block. For an uncompressed archive the blocks go
through `write_libtar_buffer`, which collects them in one buffer of the process; for the
others they go straight into a pipe. The buffer is allocated, told about the end of an
archive and freed by functions that are called for all kinds of archives.

Here the archives of a process follow one another (`Process`), each with the blocks libtar
makes of it, and every call may fail. A use of memory that C does not define ends the run
with a `Fault`. What a buffer that nothing points to any more holds is left out. -/
namespace Twrp.Tar.Buffer
open Base Prog

/-! ### Calls -/

inductive Child where
  | pigz
  | openaes
deriving DecidableEq

inductive Call where
  | malloc (size : Nat)
  /-- opening the file, or the pipe with the children that read from it -/
  | create
  | write (bytes : List UInt8)
  /-- `tar_close` -/
  | close
  | wait (child : Child)

/-- Answers. Nothing is said about what allocated memory holds; a `write` gives a count. -/
def Answer : Call → Type
  | .malloc size => Option { mem : List UInt8 // mem.length = size }
  | .write _ => Option Nat
  | _ => Bool

inductive Fault where
  | copyUnallocated
  | copyFreed
  | copyBeyond
  | freeTwice
  /-- a use of the `TAR` handle that a failed `tar_open` has freed -/
  | staleHandle
deriving DecidableEq

abbrev Archiving (α : Type) := ExceptT Fault (Prog Answer) α

def call (q : Call) : Archiving (Answer q) := ExceptT.lift (Prog.ask q)

def malloc (size : Nat) : Archiving (Option { mem : List UInt8 // mem.length = size }) := call (.malloc size)
def create : Archiving Bool := call .create
def writeBytes (bytes : List UInt8) : Archiving (Option Nat) := call (.write bytes)
def tarClose : Archiving Bool := call .close
def waitForChild (child : Child) : Archiving Bool := call (.wait child)

/-! ### tarWrite.c -/

inductive Pointer where
  | null
  | live (mem : List UInt8)
  | freed

/-- `memcpy` to `loc` bytes after the pointer. -/
def Pointer.copy (loc : Nat) (bytes : List UInt8) : Pointer → Except Fault Pointer
  | .null => .error .copyUnallocated
  | .freed => .error .copyFreed
  | .live mem =>
    if loc + bytes.length ≤ mem.length then .ok (.live (mem.take loc ++ bytes ++ mem.drop (loc + bytes.length)))
    else .error .copyBeyond

/-- The first `n` bytes, as `write` reads them. -/
def Pointer.read (n : Nat) : Pointer → Except Fault (List UInt8)
  | .null => .error .copyUnallocated
  | .freed => .error .copyFreed
  | .live mem => .ok (mem.take n)

/-- `free`, which does nothing with a null pointer. -/
def Pointer.free : Pointer → Except Fault Pointer
  | .null => .ok .null
  | .live _ => .ok .freed
  | .freed => .error .freeTwice

structure Globals where
  flush : Bool := false
  eotCount : Int := -1
  writeBuffer : Pointer := .null
  bufferSize : Nat := 4096
  bufferLoc : Nat := 0
  bufferStatus : Nat := 0

def reinitLibtarBuffer (g : Globals) : Globals :=
  { g with flush := false, eotCount := -1, bufferLoc := 0, bufferStatus := 1 }

/-- `sizeof(char *)` -/
def pointerSize : Abi → Nat
  | .ilp32 => 4
  | .lp64 => 8

def initLibtarBuffer (abi : Abi) (newBuffSize : Nat) (g : Globals) : Archiving Globals := do
  let g := reinitLibtarBuffer (if newBuffSize ≠ 0 then { g with bufferSize := newBuffSize } else g)
  match ← malloc (pointerSize abi * g.bufferSize) with
  | none => return { g with writeBuffer := .null }
  | some mem => return { g with writeBuffer := .live mem.val }

def freeLibtarBuffer (g : Globals) : Except Fault Globals :=
  if 0 < g.bufferStatus then g.writeBuffer.free.map fun p => { g with writeBuffer := p, bufferStatus := 0 }
  else .ok { g with bufferStatus := 0 }

/-- An end block counted. -/
def countEot (n : Int) : Int := if 0 ≤ n ∧ n < 2 then n + 1 else n

/-- The copy into the buffer, where `flush == 0`. -/
def Globals.fill (g : Globals) (buffer : List UInt8) : Except Fault Globals :=
  (g.writeBuffer.copy g.bufferLoc buffer).map fun p =>
    { g with
      writeBuffer := p
      bufferLoc := g.bufferLoc + buffer.length
      eotCount := countEot g.eotCount
      flush := g.bufferSize ≤ g.bufferLoc + buffer.length || 2 ≤ countEot g.eotCount }

def writeLibtarBuffer (g : Globals) (buffer : List UInt8) : Archiving (Int × Globals) := do
  let g ← (if g.flush then pure g else liftM (g.fill buffer))
  if g.flush then
    let g := { g with flush := false }
    if g.bufferLoc = 0 then return (0, g)
    let bytes ← liftM (g.writeBuffer.read g.bufferLoc)
    if (← writeBytes bytes) = some g.bufferLoc then return (buffer.length, { g with bufferLoc := 0 })
    return (-1, { g with bufferLoc := 0 })
  return (buffer.length, g)

def flushLibtarBuffer (g : Globals) : Globals := { g with eotCount := 0, bufferStatus := 2 }

/-! ### One archive -/

/-- `T_BLOCKSIZE` -/
def blockSize : Nat := 512

/-- A block that libtar appends. -/
structure Block where
  bytes : List UInt8
  length_bytes : bytes.length = blockSize
  /-- one of `th_write`, to which a short count is an error; for the contents of a file
  only -1 is one -/
  isHeader : Bool

def Block.zero : Block := ⟨List.replicate blockSize 0, List.length_replicate, true⟩

inductive Kind where
  | uncompressed
  | compressed
  | encrypted
  | compressedEncrypted
deriving DecidableEq

/-- The children that `closeTar` waits for. -/
def Kind.children : Kind → List Child
  | .uncompressed => []
  | .compressed => [.pigz]
  | .encrypted => [.openaes]
  | .compressedEncrypted => [.pigz, .openaes]

def tarBlockWrite (kind : Kind) (g : Globals) (b : Block) : Archiving (Int × Globals) := do
  if kind = .uncompressed then return ← writeLibtarBuffer g b.bytes
  match ← writeBytes b.bytes with
  | none => return (-1, g)
  | some n => return ((n : Int), g)

def Block.taken (b : Block) (ret : Int) : Bool := if b.isHeader then ret = blockSize else ret ≠ -1

/-- The blocks of a walk, or of `tar_append_eof`, until one is not taken. -/
def appendBlocks (kind : Kind) : List Block → Globals → Archiving (Bool × Globals)
  | [], g => return (true, g)
  | b :: rest, g => do
    let r ← tarBlockWrite kind g b
    if b.taken r.1 then appendBlocks kind rest r.2 else return (false, r.2)

def tarAppendEof (kind : Kind) (g : Globals) : Archiving (Bool × Globals) :=
  appendBlocks kind [Block.zero, Block.zero] g

def createTar (abi : Abi) (kind : Kind) (g : Globals) : Archiving (Bool × Globals) := do
  let g ← (if kind = .uncompressed then initLibtarBuffer abi 0 g else pure g)
  return (← create, g)

def waitForChildren : List Child → Archiving Bool
  | [] => return true
  | child :: rest => do
    if ← waitForChild child then waitForChildren rest else return false

def closeTar (kind : Kind) (g : Globals) : Archiving (Bool × Globals) := do
  let r ← tarAppendEof kind (flushLibtarBuffer g)
  if !r.1 then
    let _ ← tarClose
    return (false, r.2)
  if !(← tarClose) then return (false, r.2)
  if !(← waitForChildren kind.children) then return (false, r.2)
  return (true, ← liftM (freeLibtarBuffer r.2))

/-- Who begins an archive. -/
inductive Caller where
  | create
  /-- `tarList`, or `Generate_Multiple_Archives` at a switch -/
  | list
  /-- `Split_Archive`, which does not look at the result of `createTar` -/
  | split
deriving DecidableEq

structure Archive where
  kind : Kind
  caller : Caller
  /-- the blocks that the walk appends, if all are taken -/
  blocks : List Block
  /-- the walk then comes to `closeTar` -/
  finished : Bool

/-- The archive once it is created. -/
def Archive.walk (a : Archive) (g : Globals) : Archiving (Bool × Globals) := do
  let r ← appendBlocks a.kind a.blocks g
  if !(r.1 && a.finished) then return (false, r.2)
  let r ← closeTar a.kind r.2
  if r.1 && a.caller = .create then return (true, ← liftM (freeLibtarBuffer r.2))
  return r

def Archive.write (abi : Abi) (a : Archive) (g : Globals) : Archiving (Bool × Globals) := do
  let g ← (if a.caller = .create then initLibtarBuffer abi 0 g else pure g)
  let r ← createTar abi a.kind g
  if !r.1 then
    if a.caller = .split then throw .staleHandle else return (false, r.2)
  else a.walk r.2

/-! ### The archives of a process -/

/-- An archive with what happened to it. -/
structure Turn where
  archive : Archive
  before : Globals
  log : List (Sigma Answer)
  result : Except Fault (Bool × Globals)

/-- Archives one after the other, each from the globals that the one before left, up to a fault. -/
inductive Process (abi : Abi) : Globals → List Turn → Prop where
  | nil (g : Globals) : Process abi g []
  | fault {g : Globals} {a : Archive} {log : List (Sigma Answer)} {f : Fault} :
      Runs (a.write abi g).run log (.error f) → Process abi g [⟨a, g, log, .error f⟩]
  | cons {g g' : Globals} {a : Archive} {log : List (Sigma Answer)} {closed : Bool} {ts : List Turn} :
      Runs (a.write abi g).run log (.ok (closed, g')) → Process abi g' ts →
        Process abi g (⟨a, g, log, .ok (closed, g')⟩ :: ts)

/-! ### Runs that may end in a fault -/

section Ends
variable {α β : Type} {R : List (Sigma Answer) → Except Fault α → Prop} {S : List (Sigma Answer) → Except Fault β → Prop}

/-- Every run ends with a log and a result, or a fault, that satisfy `R`. -/
def Ends (x : Archiving α) (R : List (Sigma Answer) → Except Fault α → Prop) : Prop := Post x.run R

theorem ends_pure {a : α} (h : R [] (.ok a)) : Ends (pure a) R := post_pure h

theorem ends_throw {f : Fault} (h : R [] (.error f)) : Ends (throw f) R := post_pure h

/-- A fault in the first part is the end of the run. -/
theorem ends_bind {x : Archiving α} {f : α → Archiving β} (hx : Ends x R)
    (hfault : ∀ l e, R l (.error e) → S l (.error e))
    (hok : ∀ l a, R l (.ok a) → Ends (f a) fun l' b => S (l ++ l') b) : Ends (x >>= f) S := by
  refine post_bind (f := ExceptT.bindCont f) hx fun l r hr => ?_
  cases r with
  | error e =>
    refine post_pure ?_
    rw [List.append_nil]
    exact hfault l e hr
  | ok a => exact hok l a hr

theorem ends_call {q : Call} {f : Answer q → Archiving β} (h : ∀ r, Ends (f r) fun l b => S (⟨q, r⟩ :: l) b) :
    Ends (call q >>= f) S := by
  have hcall : Ends (call q) fun l r => ∃ a, r = .ok a ∧ l = [⟨q, a⟩] :=
    post_call (logs_ask q) fun a => post_pure ⟨a, rfl, rfl⟩
  refine ends_bind hcall ?_ ?_
  · intro l e he
    obtain ⟨a, ha, _⟩ := he
    cases ha
  · intro l a ha
    obtain ⟨a', ha', rfl⟩ := ha
    cases ha'
    exact h a

theorem ends_ite {c : Prop} [Decidable c] {x y : Archiving α} (hx : c → Ends x R) (hy : ¬c → Ends y R) :
    Ends (if c then x else y) R := by
  by_cases h : c
  · rw [if_pos h]
    exact hx h
  · rw [if_neg h]
    exact hy h

theorem Ends.mono {x : Archiving α} {R' : List (Sigma Answer) → Except Fault α → Prop} (h : Ends x R)
    (hR : ∀ l a, R l a → R' l a) : Ends x R' := Post.mono h hR

end Ends

/-! ### What a run puts into the archive -/

/-- The bytes that a run puts into its archive. -/
def written (log : List (Sigma Answer)) : List UInt8 :=
  log.flatMap fun
    | ⟨.write bytes, some n⟩ => bytes.take n
    | _ => []

/-- A call that did what it was asked for. -/
def succeeds : Sigma Answer → Prop
  | ⟨.malloc _, mem⟩ => mem ≠ none
  | ⟨.create, ok⟩ => ok = true
  | ⟨.write bytes, n⟩ => n = some bytes.length
  | ⟨.close, ok⟩ => ok = true
  | ⟨.wait _, ok⟩ => ok = true

def Succeeded (log : List (Sigma Answer)) : Prop := ∀ e ∈ log, succeeds e

def MallocFailed (log : List (Sigma Answer)) : Prop := ∃ size, (⟨.malloc size, none⟩ : Sigma Answer) ∈ log

@[simp] theorem written_nil : written [] = [] := rfl

@[simp] theorem written_malloc (size : Nat) (mem : Answer (.malloc size)) (l : List (Sigma Answer)) :
    written (⟨.malloc size, mem⟩ :: l) = written l := rfl

@[simp] theorem written_create (ok : Bool) (l : List (Sigma Answer)) : written (⟨.create, ok⟩ :: l) = written l := rfl

@[simp] theorem written_close (ok : Bool) (l : List (Sigma Answer)) : written (⟨.close, ok⟩ :: l) = written l := rfl

theorem written_append (l l' : List (Sigma Answer)) : written (l ++ l') = written l ++ written l' := by
  simp [written]

theorem Succeeded.left {l l' : List (Sigma Answer)} (h : Succeeded (l ++ l')) : Succeeded l :=
  fun e he => h e (List.mem_append_left _ he)

theorem Succeeded.right {l l' : List (Sigma Answer)} (h : Succeeded (l ++ l')) : Succeeded l' :=
  fun e he => h e (List.mem_append_right _ he)

theorem MallocFailed.not_succeeded {l : List (Sigma Answer)} (h : MallocFailed l) : ¬Succeeded l := by
  obtain ⟨size, hsize⟩ := h
  intro hall
  exact hall _ hsize rfl

/-! ### The buffer while an archive is written -/

/-- The buffer holds the bytes `pending`, for which there is room. -/
structure Holds (abi : Abi) (g : Globals) (pending : List UInt8) : Prop where
  size : g.bufferSize = 4096
  loc : g.bufferLoc = pending.length
  aligned : blockSize ∣ pending.length
  room : pending.length ≤ 4096
  allocated : 0 < g.bufferStatus
  mem : ∃ mem, g.writeBuffer = .live mem ∧ mem.length = pointerSize abi * 4096 ∧ mem.take pending.length = pending

/-- Between two blocks: less than a full buffer is held back, and nothing after both end blocks. -/
structure Resting (abi : Abi) (g : Globals) (pending : List UInt8) : Prop extends Holds abi g pending where
  flush : g.flush = false
  partly : pending.length < 4096
  ended : 2 ≤ g.eotCount → pending = []

theorem pointerSize_pos (abi : Abi) : 0 < pointerSize abi := by cases abi <;> decide

section Writing
variable {abi : Abi} {g : Globals} {pending bytes : List UInt8}

/-- The copy stays inside the buffer. -/
theorem Resting.fill (h : Resting abi g pending) (hb : bytes.length = blockSize) :
    ∃ g', g.fill bytes = .ok g' ∧ Holds abi g' (pending ++ bytes) ∧ g'.eotCount = countEot g.eotCount ∧
      g'.flush = (4096 ≤ (pending ++ bytes).length || 2 ≤ countEot g.eotCount) := by
  obtain ⟨mem, hlive, hlen, htake⟩ := h.mem
  have hpartly := h.partly
  have haligned := h.aligned
  have hroom : pending.length + bytes.length ≤ 4096 := by
    rw [hb]
    unfold blockSize at haligned ⊢
    omega
  have hcapacity : 4096 ≤ mem.length := by
    rw [hlen]
    exact Nat.le_mul_of_pos_left _ (pointerSize_pos abi)
  have hcopy : g.writeBuffer.copy g.bufferLoc bytes =
      .ok (.live (pending ++ bytes ++ mem.drop (pending.length + bytes.length))) := by
    simp only [hlive, Pointer.copy, h.loc, htake]
    rw [if_pos (by omega)]
  refine ⟨_, by rw [Globals.fill, hcopy]; rfl, ?_, rfl, ?_⟩
  · exact {
      size := h.size
      loc := by simp [h.loc]
      aligned := by
        rw [List.length_append, hb]
        exact Nat.dvd_add haligned (Nat.dvd_refl _)
      room := by
        rw [List.length_append]
        exact hroom
      allocated := h.allocated
      mem := by
        refine ⟨_, rfl, ?_, ?_⟩
        · simp only [List.length_append, List.length_drop, ← hlen]
          omega
        · exact List.take_left }
  · simp only [h.size, h.loc, List.length_append]

/-- An emptied buffer. -/
theorem Holds.emptied (h : Holds abi g pending) :
    Resting abi { g with flush := false, bufferLoc := 0 } [] := by
  obtain ⟨mem, hlive, hlen, _⟩ := h.mem
  exact {
    size := h.size
    loc := rfl
    aligned := Nat.dvd_zero _
    room := Nat.zero_le _
    allocated := h.allocated
    mem := ⟨mem, hlive, hlen, rfl⟩
    flush := rfl
    partly := by simp
    ended := fun _ => rfl }

/-- The result of a block: taken, with what is now in the file and in the buffer, or refused. -/
inductive Put (abi : Abi) (due : List UInt8) (eot : Int) (log : List (Sigma Answer)) : Except Fault (Int × Globals) → Prop where
  | taken {g : Globals} {pending : List UInt8} (hrest : Resting abi g pending) (heot : g.eotCount = eot)
      (hdue : written log ++ pending = due) : Put abi due eot log (.ok (blockSize, g))
  | refused {g : Globals} (hsize : g.bufferSize = 4096) (hdue : written log <+: due) (hfailed : ¬Succeeded log) :
      Put abi due eot log (.ok (-1, g))

theorem ends_writeLibtarBuffer (h : Resting abi g pending) (hb : bytes.length = blockSize) :
    Ends (writeLibtarBuffer g bytes) (Put abi (pending ++ bytes) (countEot g.eotCount)) := by
  obtain ⟨g', hfill, hholds, heot, hflush⟩ := h.fill hb
  have hread : g'.writeBuffer.read g'.bufferLoc = .ok (pending ++ bytes) := by
    obtain ⟨mem, hlive, -, htake⟩ := hholds.mem
    rw [hlive, Pointer.read, hholds.loc, htake]
  have hne : g'.bufferLoc ≠ 0 := by
    rw [hholds.loc, List.length_append, hb]
    simp [blockSize]
  unfold writeLibtarBuffer
  rw [h.flush, hfill]
  show Ends (if g'.flush = true then _ else _) _
  refine ends_ite (fun hfull => ?_) (fun hpart => ?_)
  · dsimp only
    rw [if_neg hne, hread]
    refine ends_call fun res : Option Nat => ?_
    rw [hholds.loc]
    refine ends_ite (fun hres => ?_) (fun hres => ?_)
    · subst hres
      refine ends_pure ?_
      rw [hb]
      refine .taken hholds.emptied heot ?_
      simp [written]
    · refine ends_pure (.refused hholds.size ?_ ?_)
      · cases res with
        | none => exact List.nil_prefix
        | some n => simpa [written] using List.take_prefix n (pending ++ bytes)
      · intro hall
        exact hres (hall _ List.mem_cons_self)
  · rw [hflush] at hpart
    simp only [Bool.or_eq_true, decide_eq_true_eq, not_or, Int.not_le, Nat.not_le] at hpart
    refine ends_pure ?_
    rw [hb]
    have hrest : Resting abi g' (pending ++ bytes) := by
      refine ⟨hholds, ?_, hpart.1, fun h2 => ?_⟩
      · rw [hflush, Bool.or_eq_false_iff, decide_eq_false_iff_not, decide_eq_false_iff_not]
        omega
      · omega
    exact .taken hrest heot rfl

end Writing

/-! ### The blocks of an uncompressed archive -/

/-- What a walk with the blocks of `due` ends in: all of them in the file and the buffer, or a block refused. -/
inductive Appended (abi : Abi) (due : List UInt8) (eot : Int) (log : List (Sigma Answer)) : Except Fault (Bool × Globals) → Prop where
  | all {g : Globals} {pending : List UInt8} (hrest : Resting abi g pending) (heot : g.eotCount = eot)
      (hdue : written log ++ pending = due) : Appended abi due eot log (.ok (true, g))
  | refused {g : Globals} (hsize : g.bufferSize = 4096) (hdue : written log <+: due) (hfailed : ¬Succeeded log) :
      Appended abi due eot log (.ok (false, g))

theorem Block.taken_all (b : Block) : b.taken blockSize = true := by
  unfold taken
  split <;> decide

theorem Block.taken_none (b : Block) : b.taken (-1) = false := by
  unfold taken
  split <;> decide

theorem ends_tarBlockWrite {abi : Abi} {g : Globals} {pending : List UInt8} (h : Resting abi g pending) (b : Block) :
    Ends (tarBlockWrite .uncompressed g b) (Put abi (pending ++ b.bytes) (countEot g.eotCount)) := by
  unfold tarBlockWrite
  rw [if_pos rfl]
  exact ends_writeLibtarBuffer h b.length_bytes

/-- The bytes of some blocks. -/
def bytesOf (blocks : List Block) : List UInt8 := blocks.flatMap Block.bytes

theorem ends_appendBlocks {abi : Abi} (blocks : List Block) {g : Globals} {pending : List UInt8} (h : Resting abi g pending) :
    Ends (appendBlocks .uncompressed blocks g)
      (Appended abi (pending ++ bytesOf blocks) (countEot^[blocks.length] g.eotCount)) := by
  induction blocks generalizing g pending with
  | nil =>
    refine ends_pure (.all h rfl ?_)
    simp [bytesOf]
  | cons b rest ih =>
    refine ends_bind (ends_tarBlockWrite h b) ?_ ?_
    · intro l e he
      cases he
    · intro l r hr
      have hdue : pending ++ bytesOf (b :: rest) = (pending ++ b.bytes) ++ bytesOf rest := by simp [bytesOf]
      cases hr with
      | @taken g' pending' hrest heot hput =>
        dsimp only
        rw [Block.taken_all]
        refine (ih hrest).mono fun l' r' hr' => ?_
        cases hr' with
        | all hrest' heot' hput' =>
          refine .all hrest' ?_ ?_
          · rw [heot', heot]
            rfl
          · rw [written_append, List.append_assoc, hput', ← List.append_assoc, hput, hdue]
        | refused hsize hput' hfailed =>
          refine .refused hsize ?_ fun hall => hfailed hall.right
          rw [written_append, hdue, ← hput, List.append_assoc]
          exact (List.prefix_append_right_inj _).mpr hput'
      | refused hsize hput hfailed =>
        dsimp only
        rw [Block.taken_none]
        refine ends_pure (.refused hsize ?_ fun hall => hfailed hall.left)
        rw [List.append_nil, hdue]
        exact hput.trans (List.prefix_append _ _)

/-- The two blocks at the end of an archive. -/
def endBlocks : List UInt8 := bytesOf [Block.zero, Block.zero]

/-- What becomes of an archive whose bytes are `due`. -/
inductive Closing (due : List UInt8) (finished : Prop) (log : List (Sigma Answer)) : Except Fault (Bool × Globals) → Prop where
  | closed {g : Globals} (hdue : written log = due) (hfreed : g.writeBuffer = .freed) (hstatus : g.bufferStatus = 0)
      (hsize : g.bufferSize = 4096) : Closing due finished log (.ok (true, g))
  | givenUp {g : Globals} (hdue : written log <+: due) (hwhy : ¬(Succeeded log ∧ finished)) (hsize : g.bufferSize = 4096) :
      Closing due finished log (.ok (false, g))

/-- The same, seen from an earlier call. -/
theorem Closing.after {due : List UInt8} {finished : Prop} {log : List (Sigma Answer)} {r : Except Fault (Bool × Globals)}
    (h : Closing due finished log r) (l : List (Sigma Answer)) : Closing (written l ++ due) finished (l ++ log) r := by
  cases h with
  | closed hdue hfreed hstatus hsize => exact .closed (by rw [written_append, hdue]) hfreed hstatus hsize
  | givenUp hdue hwhy hsize =>
    refine .givenUp ?_ (fun hall => hwhy ⟨hall.1.right, hall.2⟩) hsize
    rw [written_append]
    exact (List.prefix_append_right_inj _).mpr hdue

theorem freeLibtarBuffer_again {g : Globals} (h : g.bufferStatus = 0) : freeLibtarBuffer g = .ok g := by
  unfold freeLibtarBuffer
  rw [if_neg (by omega), ← h]

/-- The second `free_libtar_buffer` of `create` does nothing. -/
theorem Closing.freeAgain {due : List UInt8} {finished : Prop} {log : List (Sigma Answer)} {r : Bool × Globals}
    (h : Closing due finished log (.ok r)) (again : Bool) :
    Ends (if (r.1 && again) = true then do return (true, ← liftM (freeLibtarBuffer r.2)) else return r)
      fun l r => Closing due finished (log ++ l) r := by
  have hsame : Closing due finished (log ++ []) (.ok r) := by rwa [List.append_nil]
  refine ends_ite (fun hagain => ?_) (fun _ => ends_pure hsame)
  obtain ⟨closed, g⟩ := r
  have hstatus : g.bufferStatus = 0 := by
    cases h with
    | closed _ _ hstatus _ => exact hstatus
    | givenUp _ _ _ => cases hagain
  rw [freeLibtarBuffer_again hstatus]
  have hclosed : closed = true := (Bool.and_eq_true_iff.mp hagain).1
  rw [hclosed] at hsame
  exact ends_pure hsame

theorem Resting.flushed {abi : Abi} {g : Globals} {pending : List UInt8} (h : Resting abi g pending) :
    Resting abi (flushLibtarBuffer g) pending :=
  { h with
    allocated := Nat.two_pos
    ended := fun h2 => absurd h2 (show ¬(2 : Int) ≤ 0 by decide) }

/-- Freeing an allocated buffer. -/
theorem Holds.free {abi : Abi} {g : Globals} {pending : List UInt8} (h : Holds abi g pending) :
    freeLibtarBuffer g = .ok { g with writeBuffer := .freed, bufferStatus := 0 } := by
  obtain ⟨mem, hlive, -, -⟩ := h.mem
  unfold freeLibtarBuffer
  rw [if_pos h.allocated, hlive]
  rfl

theorem ends_closeTar {abi : Abi} {g : Globals} {pending : List UInt8} (h : Resting abi g pending) :
    Ends (closeTar .uncompressed g) (Closing (pending ++ endBlocks) True) := by
  refine ends_bind (ends_appendBlocks [Block.zero, Block.zero] h.flushed) ?_ ?_
  · intro l e he
    cases he
  · intro l r hr
    cases hr with
    | @all g' pending' hrest heot hdue =>
      have hclosed : written l = pending ++ endBlocks := by
        have hend : pending' = [] := hrest.ended (heot ▸ show (2 : Int) ≤ countEot^[2] 0 by decide)
        rwa [hend, List.append_nil] at hdue
      refine ends_call fun ok : Bool => ?_
      cases ok with
      | false =>
        refine ends_pure (.givenUp ?_ (fun hall => ?_) hrest.size)
        · simp [written_append, hclosed]
        · exact absurd (hall.1 ⟨.close, false⟩ (by simp)) Bool.false_ne_true
      | true =>
        show Ends (liftM (freeLibtarBuffer g') >>= fun g => pure (true, g)) _
        rw [hrest.free]
        refine ends_pure (.closed ?_ rfl rfl hrest.size)
        simp [written_append, hclosed]
    | refused hsize hdue hfailed =>
      refine ends_call fun ok : Bool => ?_
      refine ends_pure (.givenUp ?_ (fun hall => hfailed hall.1.left) hsize)
      rw [written_append, written_close, written_nil, List.append_nil]
      exact hdue

/-! ### A whole uncompressed archive -/

/-- A buffer that `malloc` did not give. -/
structure Unallocated (g : Globals) : Prop where
  null : g.writeBuffer = .null
  flush : g.flush = false

theorem Unallocated.tarBlockWrite {g : Globals} (h : Unallocated g) (b : Block) :
    tarBlockWrite .uncompressed g b = throw .copyUnallocated := by
  have hfill : g.fill b.bytes = .error .copyUnallocated := by
    rw [Globals.fill, h.null]
    rfl
  unfold Buffer.tarBlockWrite writeLibtarBuffer
  rw [if_pos rfl, h.flush, hfill]
  rfl

theorem Unallocated.appendBlocks {g : Globals} (h : Unallocated g) (b : Block) (rest : List Block) :
    appendBlocks .uncompressed (b :: rest) g = throw .copyUnallocated := by
  rw [Buffer.appendBlocks, h.tarBlockWrite]
  rfl

theorem Unallocated.closeTar {g : Globals} (h : Unallocated g) : closeTar .uncompressed g = throw .copyUnallocated := by
  have hflushed : Unallocated (flushLibtarBuffer g) := ⟨h.null, h.flush⟩
  rw [Buffer.closeTar, tarAppendEof, hflushed.appendBlocks]
  rfl

/-- What `init_libtar_buffer` leaves. -/
def Initialized (abi : Abi) (l : List (Sigma Answer)) (r : Except Fault Globals) : Prop :=
  ∃ g, r = .ok g ∧ g.bufferSize = 4096 ∧ written l = [] ∧
    (Resting abi g [] ∨ Unallocated g ∧ MallocFailed l)

theorem ends_initLibtarBuffer (abi : Abi) {g : Globals} (hsize : g.bufferSize = 4096) :
    Ends (initLibtarBuffer abi 0 g) (Initialized abi) := by
  refine ends_call fun mem : Option { mem : List UInt8 // mem.length = _ } => ?_
  cases mem with
  | none => exact ends_pure ⟨_, rfl, hsize, rfl, .inr ⟨⟨rfl, rfl⟩, _, List.mem_cons_self⟩⟩
  | some mem =>
    have hlen : mem.val.length = pointerSize abi * 4096 := by
      rw [mem.property]
      exact congrArg (pointerSize abi * ·) hsize
    refine ends_pure ⟨_, rfl, hsize, rfl, .inl ?_⟩
    exact {
      size := hsize
      loc := rfl
      aligned := Nat.dvd_zero _
      room := Nat.zero_le _
      allocated := Nat.one_pos
      mem := ⟨mem.val, rfl, hlen, rfl⟩
      flush := rfl
      partly := by simp
      ended := fun _ => rfl }

/-- The bytes an archive is to have. -/
def Archive.output (a : Archive) : List UInt8 := bytesOf a.blocks ++ endBlocks

section Uncompressed
variable {abi : Abi} {a : Archive} (hkind : a.kind = .uncompressed)
include hkind

/-- The walk with a buffer. -/
theorem ends_walk_resting {g : Globals} (h : Resting abi g []) :
    Ends (a.walk g) (Closing a.output (a.finished = true)) := by
  unfold Archive.walk
  rw [hkind]
  refine ends_bind (ends_appendBlocks a.blocks h) ?_ ?_
  · intro l e he
    cases he
  · intro l r hr
    cases hr with
    | refused hsize hdue hfailed =>
      refine ends_pure (.givenUp ?_ (fun hall => hfailed hall.1.left) hsize)
      rw [List.append_nil]
      exact hdue.trans (List.prefix_append _ _)
    | @all g' pending hrest _ hdue =>
      have hout : (written l ++ pending) ++ endBlocks = a.output := by rw [hdue]; rfl
      cases hfinished : a.finished with
      | false =>
        refine ends_pure (.givenUp ?_ (fun hall => Bool.false_ne_true hall.2) hrest.size)
        rw [List.append_nil, ← hout, List.append_assoc]
        exact List.prefix_append _ _
      | true =>
        refine ends_bind (ends_closeTar hrest) ?_ ?_
        · intro l' e he
          cases he
        · intro l' r' hr'
          have hclosing : Closing a.output True (l ++ l') (.ok r') := by
            rw [← hout, List.append_assoc]
            exact hr'.after l
          refine (hclosing.freeAgain _).mono fun l'' r'' hr'' => ?_
          rw [← List.append_assoc]
          simpa using hr''

end Uncompressed

/-- What becomes of an uncompressed archive, with a buffer or without one. -/
inductive Outcome (a : Archive) (log : List (Sigma Answer)) : Except Fault (Bool × Globals) → Prop where
  | ended {r : Except Fault (Bool × Globals)} (h : Closing a.output (a.finished = true) log r) : Outcome a log r
  | unallocated (hdue : written log = []) (hwhy : MallocFailed log) : Outcome a log (.error .copyUnallocated)
  | stale (hdue : written log = []) (hwhy : ¬Succeeded log) : Outcome a log (.error .staleHandle)

/-- The same, seen from an earlier call that puts nothing into the file. -/
theorem Outcome.after {a : Archive} {log : List (Sigma Answer)} {r : Except Fault (Bool × Globals)} (h : Outcome a log r)
    {l : List (Sigma Answer)} (hl : written l = []) : Outcome a (l ++ log) r := by
  cases h with
  | ended h =>
    have hafter := h.after l
    rw [hl, List.nil_append] at hafter
    exact .ended hafter
  | unallocated hdue hwhy =>
    obtain ⟨size, hsize⟩ := hwhy
    exact .unallocated (by rw [written_append, hl, hdue, List.nil_append]) ⟨size, List.mem_append_right _ hsize⟩
  | stale hdue hwhy => exact .stale (by rw [written_append, hl, hdue, List.nil_append]) fun hall => hwhy hall.right

/-- The walk without one: the first block faults, at the latest that of `tar_append_eof`. -/
theorem ends_walk_unallocated {a : Archive} (hkind : a.kind = .uncompressed) {g : Globals} (h : Unallocated g)
    (hsize : g.bufferSize = 4096) {l : List (Sigma Answer)} (hl : written l = []) (hfailed : MallocFailed l) :
    Ends (a.walk g) fun l' r => Outcome a (l ++ l') r := by
  have hfault : Outcome a (l ++ []) (.error .copyUnallocated) := by
    rw [List.append_nil]
    exact .unallocated hl hfailed
  unfold Archive.walk
  rw [hkind]
  cases hblocks : a.blocks with
  | cons b rest =>
    rw [h.appendBlocks]
    exact ends_throw hfault
  | nil =>
    cases hfinished : a.finished with
    | false =>
      refine ends_pure (.ended (.givenUp ?_ (fun hall => ?_) hsize))
      · rw [List.append_nil, hl]
        exact List.nil_prefix
      · exact hfailed.not_succeeded hall.1.left
    | true =>
      show Ends (closeTar .uncompressed g >>= _) _
      rw [h.closeTar]
      exact ends_throw hfault

/-- `createTar` of an uncompressed archive. -/
theorem ends_createTar (abi : Abi) {g : Globals} (hsize : g.bufferSize = 4096) :
    Ends (createTar abi .uncompressed g) fun l r => ∃ ok g', r = .ok (ok, g') ∧ g'.bufferSize = 4096 ∧ written l = [] ∧
      (ok = false → ¬Succeeded l) ∧ (Resting abi g' [] ∨ Unallocated g' ∧ MallocFailed l) := by
  refine ends_bind (ends_initLibtarBuffer abi hsize) ?_ ?_
  · intro l e he
    obtain ⟨g', hg', -⟩ := he
    cases hg'
  · intro l g' hg'
    obtain ⟨g', heq, hsize', hl, hbuffer⟩ := hg'
    cases heq
    refine ends_call fun ok : Bool => ends_pure ⟨ok, g', rfl, hsize', ?_, fun hok => ?_, hbuffer.imp_right fun h => ⟨h.1, ?_⟩⟩
    · rw [written_append, hl]
      rfl
    · intro hall
      exact absurd (hall ⟨.create, ok⟩ (by simp)) (by rw [hok]; exact Bool.false_ne_true)
    · obtain ⟨size, hmem⟩ := h.2
      exact ⟨size, List.mem_append_left _ hmem⟩

theorem ends_write {abi : Abi} {a : Archive} (hkind : a.kind = .uncompressed) {g : Globals} (hsize : g.bufferSize = 4096) :
    Ends (a.write abi g) (Outcome a) := by
  have hfirst : Ends (if a.caller = .create then initLibtarBuffer abi 0 g else pure g) fun l r =>
      ∃ g, r = .ok g ∧ g.bufferSize = 4096 ∧ written l = [] := by
    refine ends_ite (fun _ => (ends_initLibtarBuffer abi hsize).mono fun l r hr => ?_) fun _ => ends_pure ⟨g, rfl, hsize, rfl⟩
    obtain ⟨g', hg', hsize', hl, -⟩ := hr
    exact ⟨g', hg', hsize', hl⟩
  refine ends_bind hfirst ?_ ?_
  · intro l e he
    obtain ⟨g', hg', -⟩ := he
    cases hg'
  intro l g' hg'
  obtain ⟨g', hg', hsize', hl⟩ := hg'
  cases hg'
  -- all that follows is seen from the calls `l` before
  refine Ends.mono ?_ fun l' r hr => Outcome.after hr hl
  rw [hkind]
  refine ends_bind (ends_createTar abi hsize') ?_ ?_
  · intro l' e he
    obtain ⟨ok, g', hg', -⟩ := he
    cases hg'
  intro l' r hr
  obtain ⟨ok, g'', heq, hsize'', hl', hok, hbuffer⟩ := hr
  cases heq
  cases ok with
  | false =>
    simp only [Bool.not_false, if_true]
    refine ends_ite (fun _ => ends_throw ?_) fun _ => ends_pure (Outcome.ended (.givenUp ?_ ?_ hsize''))
    · rw [List.append_nil]
      exact .stale hl' (hok rfl)
    · rw [List.append_nil, hl']
      exact List.nil_prefix
    · intro hall
      exact hok rfl hall.1.left
  | true =>
    simp only [Bool.not_true, Bool.false_eq_true, if_false]
    rcases hbuffer with hrest | ⟨hnull, hfailed⟩
    · exact (ends_walk_resting hkind hrest).mono fun l'' r'' hr'' => Outcome.after (.ended hr'') hl'
    · exact ends_walk_unallocated hkind hnull hsize'' hl' hfailed

/-! ### A whole compressed or encrypted archive -/

/-- The buffer stays as it is; with `false` a call has failed. -/
def Untouched (g : Globals) (l : List (Sigma Answer)) (r : Except Fault (Bool × Globals)) : Prop :=
  ∃ ok, r = .ok (ok, g) ∧ (ok = false → ¬Succeeded l)

/-- The buffer is freed in passing. -/
inductive Passing (g : Globals) (finished : Prop) (l : List (Sigma Answer)) : Except Fault (Bool × Globals) → Prop where
  | closed {g' : Globals} (hlive : g.writeBuffer ≠ .freed) (hstatus : g'.bufferStatus = 0)
      (hsize : g'.bufferSize = g.bufferSize) : Passing g finished l (.ok (true, g'))
  | givenUp {g' : Globals} (hwhy : ¬(Succeeded l ∧ finished)) (hsize : g'.bufferSize = g.bufferSize) :
      Passing g finished l (.ok (false, g'))
  | freed (hfreed : g.writeBuffer = .freed) : Passing g finished l (.error .freeTwice)

/-- The same, seen from an earlier call. -/
theorem Passing.after {g : Globals} {finished : Prop} {log : List (Sigma Answer)} {r : Except Fault (Bool × Globals)}
    (h : Passing g finished log r) (l : List (Sigma Answer)) : Passing g finished (l ++ log) r := by
  cases h with
  | closed hlive hstatus hsize => exact .closed hlive hstatus hsize
  | givenUp hwhy hsize => exact .givenUp (fun hall => hwhy ⟨hall.1.right, hall.2⟩) hsize
  | freed hfreed => exact .freed hfreed

theorem freeLibtarBuffer_flushed (g : Globals) : freeLibtarBuffer (flushLibtarBuffer g) =
    g.writeBuffer.free.map fun p => { flushLibtarBuffer g with writeBuffer := p, bufferStatus := 0 } := rfl

theorem ends_waitForChildren (children : List Child) :
    Ends (waitForChildren children) fun l r => ∃ ok, r = .ok ok ∧ (ok = false → ¬Succeeded l) := by
  induction children with
  | nil => exact ends_pure ⟨true, rfl, fun h => Bool.noConfusion h⟩
  | cons child rest ih =>
    refine ends_call fun ok : Bool => ?_
    cases ok with
    | false => exact ends_pure ⟨false, rfl, fun _ hall => Bool.false_ne_true (hall ⟨.wait child, false⟩ List.mem_cons_self)⟩
    | true =>
      refine Ends.mono ih fun l r hr => ?_
      obtain ⟨ok, heq, hok⟩ := hr
      exact ⟨ok, heq, fun h hall => hok h (hall.right (l := [_]))⟩

section Piped
variable {kind : Kind} (hkind : kind ≠ .uncompressed)
include hkind

theorem ends_tarBlockWrite_piped (b : Block) (g : Globals) :
    Ends (tarBlockWrite kind g b) fun l r => ∃ ret, r = .ok (ret, g) ∧ (b.taken ret = false → ¬Succeeded l) := by
  unfold tarBlockWrite
  rw [if_neg hkind]
  refine ends_call fun n : Option Nat => ?_
  cases n with
  | none => exact ends_pure ⟨-1, rfl, fun _ hall => nomatch hall ⟨.write b.bytes, none⟩ List.mem_cons_self⟩
  | some n =>
    refine ends_pure ⟨n, rfl, fun hno hall => ?_⟩
    have hn : some n = some b.bytes.length := hall ⟨.write b.bytes, some n⟩ List.mem_cons_self
    rw [Option.some.inj hn, b.length_bytes, b.taken_all] at hno
    cases hno

theorem ends_appendBlocks_piped (blocks : List Block) (g : Globals) :
    Ends (appendBlocks kind blocks g) (Untouched g) := by
  induction blocks with
  | nil => exact ends_pure ⟨true, rfl, fun h => Bool.noConfusion h⟩
  | cons b rest ih =>
    refine ends_bind (ends_tarBlockWrite_piped hkind b g) ?_ ?_
    · intro l e he
      obtain ⟨ret, hret, -⟩ := he
      cases hret
    · intro l r hr
      obtain ⟨ret, heq, hret⟩ := hr
      cases heq
      refine ends_ite (fun _ => ?_) fun hno => ends_pure ⟨false, rfl, fun _ hall => ?_⟩
      · refine ih.mono fun l' r' hr' => ?_
        obtain ⟨ok, heq, hok⟩ := hr'
        exact ⟨ok, heq, fun h hall => hok h hall.right⟩
      · exact hret (Bool.eq_false_iff.mpr hno) hall.left

theorem ends_closeTar_piped (g : Globals) : Ends (closeTar kind g) (Passing g True) := by
  refine ends_bind (ends_appendBlocks_piped hkind _ (flushLibtarBuffer g)) ?_ ?_
  · intro l e he
    obtain ⟨ok, hok, -⟩ := he
    cases hok
  intro l r hr
  obtain ⟨ok, heq, hok⟩ := hr
  cases heq
  cases ok with
  | false => exact ends_call fun _ => ends_pure (Passing.givenUp (fun hall => hok rfl hall.1.left) rfl)
  | true =>
    refine ends_call fun closed : Bool => ?_
    cases closed with
    | false =>
      refine ends_pure (Passing.givenUp (fun hall => ?_) rfl)
      exact Bool.false_ne_true (hall.1.right ⟨.close, false⟩ List.mem_cons_self)
    | true =>
      refine Ends.mono (R := Passing g True) ?_ fun l' r' hr' => (hr'.after [_]).after l
      refine ends_bind (ends_waitForChildren kind.children) ?_ ?_
      · intro l' e he
        obtain ⟨ok, hok, -⟩ := he
        cases hok
      intro l' waited hwaited
      obtain ⟨ok, heq, hok⟩ := hwaited
      cases heq
      cases waited with
      | false => exact ends_pure (Passing.givenUp (fun hall => hok rfl hall.1.left) rfl)
      | true =>
        show Ends (liftM (freeLibtarBuffer (flushLibtarBuffer g)) >>= fun g => pure (true, g)) _
        rw [freeLibtarBuffer_flushed]
        cases hbuffer : g.writeBuffer with
        | freed => exact ends_throw (.freed hbuffer)
        | null => exact ends_pure (.closed (by simp [hbuffer]) rfl rfl)
        | live mem => exact ends_pure (.closed (by simp [hbuffer]) rfl rfl)

end Piped

theorem ends_walk_piped {a : Archive} (hkind : a.kind ≠ .uncompressed) (g : Globals) :
    Ends (a.walk g) (Passing g (a.finished = true)) := by
  refine ends_bind (ends_appendBlocks_piped hkind a.blocks g) ?_ ?_
  · intro l e he
    obtain ⟨ok, hok, -⟩ := he
    cases hok
  intro l r hr
  obtain ⟨ok, heq, hok⟩ := hr
  cases heq
  refine ends_ite (fun hno => ends_pure (Passing.givenUp (fun hall => ?_) rfl)) fun hyes => ?_
  · cases ok with
    | false => exact hok rfl hall.1.left
    | true => simp [hall.2] at hno
  have hfinished : a.finished = true := by
    cases h : a.finished with
    | true => rfl
    | false => simp [h] at hyes
  refine ends_bind (ends_closeTar_piped hkind g) ?_ ?_
  · intro l' e he
    cases he with
    | freed hfreed => exact .freed hfreed
  intro l' r hr
  cases hr with
  | givenUp hwhy hsize =>
    exact ends_pure (Passing.givenUp (fun hall => hwhy ⟨hall.1.right.left, trivial⟩) hsize)
  | @closed g' hlive hstatus hsize =>
    refine ends_ite (fun _ => ?_) fun _ => ends_pure (Passing.closed hlive hstatus hsize)
    rw [freeLibtarBuffer_again hstatus]
    exact ends_pure (Passing.closed hlive hstatus hsize)

/-- The buffer that `closeTar` is going to free has been freed before: `create` alone comes
with a buffer of its own. -/
def Dangling (a : Archive) (g : Globals) : Prop := a.caller ≠ .create ∧ g.writeBuffer = .freed

/-- What becomes of a compressed or encrypted archive. -/
inductive Transit (a : Archive) (g : Globals) (l : List (Sigma Answer)) : Except Fault (Bool × Globals) → Prop where
  | closed {g' : Globals} (hlive : ¬Dangling a g) (hsize : g'.bufferSize = g.bufferSize) : Transit a g l (.ok (true, g'))
  | givenUp {g' : Globals} (hwhy : ¬(Succeeded l ∧ a.finished = true)) (hsize : g'.bufferSize = g.bufferSize) :
      Transit a g l (.ok (false, g'))
  | stale (hwhy : ¬Succeeded l) : Transit a g l (.error .staleHandle)
  | freed (hfreed : Dangling a g) : Transit a g l (.error .freeTwice)

theorem ends_write_piped (abi : Abi) {a : Archive} (hkind : a.kind ≠ .uncompressed) (g : Globals) :
    Ends (a.write abi g) (Transit a g) := by
  have hfirst : Ends (if a.caller = .create then initLibtarBuffer abi 0 g else pure g) fun _ r =>
      ∃ g', r = .ok g' ∧ g'.bufferSize = g.bufferSize ∧ (g'.writeBuffer = .freed ↔ Dangling a g) := by
    refine ends_ite (fun hcaller => ?_) fun hcaller => ends_pure ⟨g, rfl, rfl, fun hfreed => ⟨hcaller, hfreed⟩, And.right⟩
    have hnot : ¬Dangling a g := fun hdangling => hdangling.1 hcaller
    refine ends_call fun mem : Option { mem : List UInt8 // mem.length = _ } => ?_
    cases mem with
    | none => exact ends_pure ⟨_, rfl, rfl, fun hfreed => Pointer.noConfusion hfreed, fun hdangling => absurd hdangling hnot⟩
    | some mem => exact ends_pure ⟨_, rfl, rfl, fun hfreed => Pointer.noConfusion hfreed, fun hdangling => absurd hdangling hnot⟩
  refine ends_bind hfirst ?_ ?_
  · intro l e he
    obtain ⟨g', hg', -⟩ := he
    cases hg'
  intro l g' hg'
  obtain ⟨g', heq, hsize, hfreed⟩ := hg'
  cases heq
  have hcreate : Ends (createTar abi a.kind g') (Untouched g') := by
    unfold createTar
    rw [if_neg hkind]
    exact ends_call fun ok : Bool => ends_pure ⟨ok, rfl, fun h hall =>
      absurd (hall ⟨.create, ok⟩ List.mem_cons_self) (by rw [h]; exact Bool.false_ne_true)⟩
  refine ends_bind hcreate ?_ ?_
  · intro l e he
    obtain ⟨ok, hok, -⟩ := he
    cases hok
  intro l' r hr
  obtain ⟨ok, heq, hok⟩ := hr
  cases heq
  cases ok with
  | false =>
    simp only [Bool.not_false, if_true]
    refine ends_ite (fun _ => ends_throw (.stale fun hall => ?_)) fun _ => ends_pure (Transit.givenUp (fun hall => ?_) hsize)
    · exact hok rfl hall.right.left
    · exact hok rfl hall.1.right.left
  | true =>
    simp only [Bool.not_true, Bool.false_eq_true, if_false]
    refine (ends_walk_piped hkind g').mono fun l'' r hr => ?_
    cases hr with
    | closed hlive _ hsize' => exact .closed (fun hdangling => hlive (hfreed.mpr hdangling)) (hsize'.trans hsize)
    | givenUp hwhy hsize' => exact .givenUp (fun hall => hwhy ⟨hall.1.right.right, hall.2⟩) (hsize'.trans hsize)
    | freed hfreed' => exact .freed (hfreed.mp hfreed')

/-! ### Every archive of a process -/

/-- The size of the buffer never changes, so every turn starts from one of 4096 bytes. -/
theorem Process.turn {abi : Abi} {g : Globals} {ts : List Turn} (h : Process abi g ts) (hsize : g.bufferSize = 4096) :
    ∀ t ∈ ts, Runs (t.archive.write abi t.before).run t.log t.result ∧ t.before.bufferSize = 4096 := by
  induction h with
  | nil g => simp
  | fault hrun => simpa using ⟨hrun, hsize⟩
  | @cons g g' a log closed ts hrun hrest ih =>
    have hsize' : g'.bufferSize = 4096 := by
      by_cases hkind : a.kind = .uncompressed
      · cases ends_write hkind hsize _ _ hrun with
        | ended hclosing =>
          cases hclosing with
          | closed _ _ _ hsize' => exact hsize'
          | givenUp _ _ hsize' => exact hsize'
      · cases ends_write_piped abi hkind g _ _ hrun with
        | closed _ hsize' => exact hsize'.trans hsize
        | givenUp _ hsize' => exact hsize'.trans hsize
    exact List.forall_mem_cons.mpr ⟨⟨hrun, hsize⟩, ih hsize'⟩

/-- `closeTar` succeeded. -/
def Turn.Closed (t : Turn) : Prop := ∃ g, t.result = .ok (true, g)

/-- The file of an uncompressed archive gets its blocks in order and the two end blocks, up
to where it is given up; and it is given up only where a call fails or the walk does. -/
theorem buffered_eq_plain {abi : Abi} {ts : List Turn} (h : Process abi {} ts) {t : Turn} (ht : t ∈ ts)
    (hkind : t.archive.kind = .uncompressed) :
    written t.log <+: bytesOf t.archive.blocks ++ endBlocks ∧
      (t.Closed → written t.log = bytesOf t.archive.blocks ++ endBlocks) ∧
      (Succeeded t.log → t.archive.finished = true → t.Closed) := by
  obtain ⟨hrun, hsize⟩ := h.turn rfl t ht
  have houtcome := ends_write hkind hsize _ _ hrun
  unfold Turn.Closed
  cases t with
  | mk a before log result =>
    cases houtcome with
    | ended hclosing =>
      cases hclosing with
      | closed hdue _ _ _ => exact ⟨hdue ▸ List.prefix_rfl, fun _ => hdue, fun _ _ => ⟨_, rfl⟩⟩
      | givenUp hdue hwhy _ =>
        refine ⟨hdue, fun hclosed => ?_, fun hall hfinished => absurd ⟨hall, hfinished⟩ hwhy⟩
        obtain ⟨g, hg⟩ := hclosed
        cases hg
    | unallocated hdue hwhy =>
      refine ⟨hdue ▸ List.nil_prefix, fun hclosed => ?_, fun hall _ => absurd hall hwhy.not_succeeded⟩
      obtain ⟨g, hg⟩ := hclosed
      cases hg
    | stale hdue hwhy =>
      refine ⟨hdue ▸ List.nil_prefix, fun hclosed => ?_, fun hall _ => absurd hall hwhy⟩
      obtain ⟨g, hg⟩ := hclosed
      cases hg

theorem length_zeros (size : Nat) : (List.replicate size (0 : UInt8)).length = size := List.length_replicate

/-- Every call succeeds, and memory is zeroed. -/
def succeed : (q : Call) → Answer q
  | .malloc size => some ⟨List.replicate size 0, length_zeros size⟩
  | .create => true
  | .write bytes => some bytes.length
  | .close => true
  | .wait _ => true

theorem succeeds_succeed (q : Call) : succeeds ⟨q, succeed q⟩ := by
  cases q with
  | malloc size => exact Option.some_ne_none _
  | create => rfl
  | write bytes => rfl
  | close => rfl
  | wait child => rfl

/-- The turn of an archive with which nothing goes wrong. -/
def Archive.turn (abi : Abi) (a : Archive) (g : Globals) : Turn where
  archive := a
  before := g
  log := ((a.write abi g).run.calls succeed).map fun q => ⟨q, succeed q⟩
  result := (a.write abi g).run.eval succeed

theorem Archive.turn_run (abi : Abi) (a : Archive) (g : Globals) :
    Runs (a.write abi g).run (a.turn abi g).log (a.turn abi g).result := runs_eval succeed _

theorem Archive.turn_succeeded (abi : Abi) (a : Archive) (g : Globals) : Succeeded (a.turn abi g).log := by
  intro e he
  obtain ⟨q, _, rfl⟩ := List.mem_map.mp he
  exact succeeds_succeed q

/-- A turn of that kind. -/
theorem Process.single (abi : Abi) (a : Archive) (g : Globals) : Process abi g [a.turn abi g] := by
  have hrun := a.turn_run abi g
  unfold Archive.turn at hrun ⊢
  dsimp only at hrun ⊢
  generalize hlog : ((a.write abi g).run.calls succeed).map (fun q => (⟨q, succeed q⟩ : Sigma Answer)) = log at hrun ⊢
  generalize hresult : (a.write abi g).run.eval succeed = result at hrun ⊢
  match result, hrun with
  | .error f, hrun => exact .fault hrun
  | .ok (closed, g'), hrun => exact .cons hrun (.nil g')

/-- One block of sevens. -/
def sevens : Archive := ⟨.uncompressed, .list, [⟨List.replicate blockSize 7, List.length_replicate, false⟩], true⟩

theorem buffered_eq_plain_sevens :
    written (sevens.turn .ilp32 {}).log <+: bytesOf sevens.blocks ++ endBlocks ∧
      ((sevens.turn .ilp32 {}).Closed → written (sevens.turn .ilp32 {}).log = bytesOf sevens.blocks ++ endBlocks) ∧
      (Succeeded (sevens.turn .ilp32 {}).log → sevens.finished = true → (sevens.turn .ilp32 {}).Closed) :=
  buffered_eq_plain (Process.single .ilp32 sevens {}) List.mem_cons_self rfl

/-! ### The life of the buffer -/

/-- The buffer is neither used without being allocated, nor beyond its end, nor freed twice. -/
def Turn.Safe (t : Turn) : Prop := ∀ f, t.result = .error f → f = .staleHandle

/-- Memory was given, and a compressed or encrypted archive was not begun after the buffer
had been freed. -/
structure Turn.Fits (t : Turn) : Prop where
  given : ¬MallocFailed t.log
  live : t.archive.kind ≠ .uncompressed → ¬Dangling t.archive t.before

theorem buffer_life_cycle {abi : Abi} {ts : List Turn} (h : Process abi {} ts) (hfits : ∀ t ∈ ts, t.Fits) :
    ∀ t ∈ ts, t.Safe := by
  intro t ht f hf
  obtain ⟨hrun, hsize⟩ := h.turn rfl t ht
  have hfit := hfits t ht
  rw [hf] at hrun
  by_cases hkind : t.archive.kind = .uncompressed
  · cases ends_write hkind hsize _ _ hrun with
    | ended hclosing => cases hclosing
    | unallocated _ hwhy => exact absurd hwhy hfit.given
    | stale _ _ => rfl
  · cases ends_write_piped abi hkind t.before _ _ hrun with
    | stale _ => rfl
    | freed hdangling => exact absurd hdangling (hfit.live hkind)

/-- Where nothing else goes wrong the second condition is needed: the buffer is freed twice. -/
theorem freed_twice {abi : Abi} {ts : List Turn} (h : Process abi {} ts) {t : Turn} (ht : t ∈ ts)
    (hkind : t.archive.kind ≠ .uncompressed) (hdangling : Dangling t.archive t.before) (hall : Succeeded t.log)
    (hfinished : t.archive.finished = true) : t.result = .error .freeTwice := by
  obtain ⟨hrun, -⟩ := h.turn rfl t ht
  have htransit := ends_write_piped abi hkind t.before _ _ hrun
  generalize t.result = result at htransit
  cases htransit with
  | closed hlive _ => exact absurd hdangling hlive
  | givenUp hwhy _ => exact absurd ⟨hall, hfinished⟩ hwhy
  | stale hwhy => exact absurd hall hwhy
  | freed _ => rfl

theorem buffer_life_cycle_sevens : (sevens.turn .ilp32 {}).Safe := by
  refine buffer_life_cycle (Process.single .ilp32 sevens {}) (fun t ht => ?_) _ List.mem_cons_self
  obtain rfl := List.mem_singleton.mp ht
  exact ⟨fun hfailed => hfailed.not_succeeded (sevens.turn_succeeded .ilp32 {}), fun hkind => absurd rfl hkind⟩

/-- An encrypted list after an unencrypted one, as `createTarFork` writes them. -/
theorem not_buffer_life_cycle : ¬∀ abi ts, Process abi {} ts → ∀ t ∈ ts, t.Safe := by
  intro hclaim
  let list : Archive := ⟨.encrypted, .list, [], true⟩
  have hkind : sevens.kind = .uncompressed := rfl
  have hsize : ({} : Globals).bufferSize = 4096 := rfl
  have hfirst := ends_write hkind hsize _ _ (sevens.turn_run .ilp32 {})
  have hall := sevens.turn_succeeded .ilp32 {}
  have hrun := sevens.turn_run .ilp32 {}
  generalize (sevens.turn .ilp32 {}).log = log at hfirst hall hrun
  generalize (sevens.turn .ilp32 {}).result = result at hfirst hrun
  cases hfirst with
  | ended hclosing =>
    cases hclosing with
    | givenUp _ hwhy _ => exact hwhy ⟨hall, rfl⟩
    | @closed g _ hfreed _ _ =>
      have hprocess : Process .ilp32 {} [⟨sevens, {}, log, .ok (true, g)⟩, list.turn .ilp32 g] :=
        .cons hrun (Process.single .ilp32 list g)
      have htwice := freed_twice hprocess (t := list.turn .ilp32 g) (by simp)
        (show Kind.encrypted ≠ .uncompressed by decide) ⟨show Caller.list ≠ .create by decide, hfreed⟩
        (list.turn_succeeded .ilp32 g) rfl
      exact absurd (hclaim _ _ hprocess _ (by simp) .freeTwice htwice) (by decide)
  | unallocated _ hwhy => exact hwhy.not_succeeded hall
  | stale _ hwhy => exact hwhy hall

end Twrp.Tar.Buffer
