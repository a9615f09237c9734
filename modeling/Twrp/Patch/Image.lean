import Twrp.Base.Abi
import Twrp.Base.CString
import Twrp.Base.Prog

/-! Applying a patch.

A patch is a single bsdiff patch or an image patch, a list of chunks that each give a part of
the output: a normal chunk patches a range of the source, a raw chunk carries its bytes, a
deflate chunk inflates a range of the source, patches that and deflates the result. What an
image patch wants written is a function of the patch and the source alone (`imageActions`);
`perform` pushes it into a sink and keeps the bytes that go into the hash. -/
namespace Twrp.Patch
open Base

abbrev Bytes := List UInt8

/-! ### What is not the patcher's own -/

/-- The arguments of `deflateInit2`. -/
structure DeflateParams where
  level : Int
  method : Int
  windowBits : Int
  memLevel : Int
  strategy : Int
deriving DecidableEq

/-- `ApplyBSDiffPatchMem`, zlib and `malloc`. `inflate src room` is what a raw deflate stream
at the start of `src` holds, if it ends within `room` bytes; `deflate` is the stream for the
data, if the parameters are valid. -/
structure Codec where
  bspatch : Bytes → Bytes → Nat → Option Bytes
  inflate : Bytes → Nat → Option Bytes
  inflate_le : ∀ {src room out}, inflate src room = some out → out.length ≤ room
  deflate : DeflateParams → Bytes → Option Bytes
  malloc : Nat → Bool

/-! ### Reading the header -/

/-- An `int` from four bytes. -/
def read4 (l : Bytes) (pos : Nat) : Int :=
  let n := fromLe ((l.drop pos).take 4)
  if n < 2 ^ 31 then n else n - 2 ^ 32

theorem read4_lt (l : Bytes) (pos : Nat) : read4 l pos < 2147483648 := by
  have hword := Nat.lt_of_lt_of_le (fromLe_lt _) (Nat.pow_le_pow_right (show 0 < 256 by decide) (List.length_take_le 4 (l.drop pos)))
  rw [read4]
  split <;> omega

/-- Eight bytes as a `size_t`. -/
def read8 (abi : Abi) (l : Bytes) (pos : Nat) : Nat := fromLe ((l.drop pos).take 8) % abi.word

def CHUNK_NORMAL : Int := 0
def CHUNK_DEFLATE : Int := 2
def CHUNK_RAW : Int := 3

def magicBSDIFF : Bytes := [0x42, 0x53, 0x44, 0x49, 0x46, 0x46, 0x34, 0x30]
def magicIMGDIFF : Bytes := [0x49, 0x4d, 0x47, 0x44, 0x49, 0x46, 0x46, 0x32]

/-! ### Image patches -/

/-- One thing an image patch does next. -/
inductive Action where
  /-- The output of a normal chunk; nothing where its bsdiff patch does not apply. -/
  | patched (data : Option Bytes)
  | raw (data : Bytes)
  /-- One buffer of the output of a deflate chunk. -/
  | deflated (data : Bytes)
  /-- The patch is given up. -/
  | fail
  /-- There is no return: memory outside the arrays is read, or the loop does not end. -/
  | stuck
deriving DecidableEq

/-- The buffers a stream is deflated into. -/
def buffers (room : Nat) : Nat → Bytes → List Bytes
  | 0, _ => []
  | fuel + 1, rest => rest.take room :: if rest.length ≤ room then [] else buffers room fuel (rest.drop room)

/-- A deflate chunk, whose header starts at `pos`. -/
def deflateActions (abi : Abi) (c : Codec) (old patch : Bytes) (bonus : Bytes) (pos : Nat) : List Action :=
  let src_start := read8 abi patch pos
  let src_len := read8 abi patch (pos + 8)
  let patch_offset := read8 abi patch (pos + 16)
  let expanded_len := read8 abi patch (pos + 24)
  let params : DeflateParams :=
    ⟨read4 patch (pos + 40), read4 patch (pos + 44), read4 patch (pos + 48), read4 patch (pos + 52), read4 patch (pos + 56)⟩
  if c.malloc expanded_len = false then [.fail]
  else if old.length < src_start + src_len then [.stuck]
  else
    match c.inflate ((old.drop src_start).take src_len) expanded_len with
    | none => [.fail]
    | some expanded =>
      if expanded_len - expanded.length ≠ bonus.length then [.fail]
      else
        match c.bspatch (expanded ++ bonus) patch patch_offset with
        | none => [.fail]
        | some target =>
          let temp_size := if expanded_len < 32768 then 32768 else expanded_len
          match c.deflate params target with
          | none => [.stuck]
          | some out => (buffers temp_size (out.length + 1) out).map .deflated

/-- `n` more chunks, of which the next has the index `i` and starts at `pos`. -/
def chunkActions (abi : Abi) (c : Codec) (old patch : Bytes) (bonus : Option Bytes) : Nat → Nat → Nat → List Action
  | 0, _, _ => []
  | n + 1, i, pos =>
    if patch.length < pos + 4 then [.fail]
    else
      let type := read4 patch pos
      let pos := pos + 4
      if type = CHUNK_NORMAL then
        if patch.length < pos + 24 then [.fail]
        else
          let src_start := read8 abi patch pos
          let src_len := read8 abi patch (pos + 8)
          let patch_offset := read8 abi patch (pos + 16)
          if old.length < src_start + src_len then [.stuck]
          else
            .patched (c.bspatch ((old.drop src_start).take src_len) patch patch_offset) ::
              chunkActions abi c old patch bonus n (i + 1) (pos + 24)
      else if type = CHUNK_RAW then
        if patch.length < pos + 4 then [.fail]
        else
          let data_len := read4 patch pos
          if data_len < 0 then [.stuck]
          else if patch.length < pos + 4 + data_len.toNat then [.fail]
          else
            .raw ((patch.drop (pos + 4)).take data_len.toNat) ::
              chunkActions abi c old patch bonus n (i + 1) (pos + 4 + data_len.toNat)
      else if type = CHUNK_DEFLATE then
        if patch.length < pos + 60 then [.fail]
        else
          deflateActions abi c old patch (if i = 1 then bonus.getD [] else []) pos ++
            chunkActions abi c old patch bonus n (i + 1) (pos + 60)
      else [.fail]

/-- What `ApplyImagePatch` does, one action after the other. -/
def imageActions (abi : Abi) (c : Codec) (old patch : Bytes) (bonus : Option Bytes) : List Action :=
  if patch.length < 12 then [.fail]
  else if patch.take 8 ≠ magicIMGDIFF then [.fail]
  else chunkActions abi c old patch bonus (read4 patch 8).toNat 0 12

section Perform
variable {Q : Type} {A : Q → Type} {σ : Type} (hang : ∀ {α}, Prog A α) (sink : σ → Bytes → Prog A (Int × σ))

/-- `ApplyImagePatch`: the result, the sink, and the bytes that were hashed. The result of a
normal chunk is not looked at; the bytes of a raw chunk are hashed before they are written. -/
def perform : List Action → σ → Bytes → Prog A (Int × σ × Bytes)
  | [], token, ctx => pure (0, token, ctx)
  | .patched none :: rest, token, ctx => perform rest token ctx
  | .patched (some data) :: rest, token, ctx => do
    let (wrote, token) ← sink token data
    if wrote < data.length then perform rest token ctx else perform rest token (ctx ++ data)
  | .raw data :: rest, token, ctx => do
    let (wrote, token) ← sink token data
    if wrote ≠ data.length then pure (-1, token, ctx ++ data) else perform rest token (ctx ++ data)
  | .deflated data :: rest, token, ctx => do
    let (wrote, token) ← sink token data
    if wrote ≠ data.length then pure (-1, token, ctx) else perform rest token (ctx ++ data)
  | .fail :: _, token, ctx => pure (-1, token, ctx)
  | .stuck :: _, _, _ => hang

/-- `ApplyBSDiffPatch` on the whole source. -/
def applyBSDiffPatch (c : Codec) (old patch : Bytes) (token : σ) : Prog A (Int × σ × Bytes) :=
  match c.bspatch old patch 0 with
  | none => pure (-1, token, [])
  | some data => do
    let (wrote, token) ← sink token data
    if wrote < data.length then pure (1, token, []) else pure (0, token, data)

end Perform

end Twrp.Patch
