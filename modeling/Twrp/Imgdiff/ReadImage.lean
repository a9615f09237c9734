import Twrp.Base.CString
import Twrp.Base.Memory
import Twrp.Imgdiff.Merge

/-! Splitting an image into chunks (`ReadImage`).

The file is searched for gzip members. A member is inflated to find out where it ends, and gives a normal
chunk for its header, a deflate chunk and a normal chunk for its footer; what lies between members is one
normal chunk. The search looks for four bytes in the file with four zeros behind it. -/
namespace Twrp.Imgdiff
open Base

abbrev Bytes := List UInt8

/-- The contents of a file; its size is an `off_t`. -/
structure Image (abi : Abi) where
  bytes : Bytes
  size : bytes.length < abi.longEnd

/-- The inflater of zlib for raw streams, given all its input at once. `raw` is what the stream at the
front of some bytes holds, and how long it is; `call` is what one call puts out, and whether it says that
the stream has ended, when `made` bytes were put out before and there is room for so many more. It puts
out as much as it can, and says so when the stream has ended, if it has room left; if it has just none
left, it may also say so when it is called again. -/
structure Inflater where
  raw : Bytes → Option (Bytes × Nat)
  call : (input : Bytes) → (made room : Nat) → Nat × Bool
  front : ∀ {c d n}, raw c = some (d, n) → n ≤ c.length ∧ ∀ more, raw (c.take n ++ more) = some (d, n)
  never : ∀ {c}, raw c = none → ∀ made room, (call c made room).2 = false
  room : ∀ c made room, (call c made room).1 ≤ room
  puts : ∀ {c d n made room}, raw c = some (d, n) → made ≤ d.length → (call c made room).1 = min room (d.length - made)
  ends : ∀ {c d n made room}, raw c = some (d, n) → made ≤ d.length → (call c made room).2 = true → d.length ≤ made + room
  ended : ∀ {c d n made room}, raw c = some (d, n) → made ≤ d.length → d.length - made < room → (call c made room).2 = true

inductive Fault where
  | hang
  /-- a size wraps around to 0, and `realloc` frees the buffer that is to be written to -/
  | freed
  | outside
deriving DecidableEq

def GZIP_HEADER_LEN : Nat := 10
def GZIP_FOOTER_LEN : Nat := 8

/-- 1f 8b 08 00 at an offset: deflate compression, no header flags. -/
def marker (bytes : Bytes) (pos : Nat) : Bool := (bytes.drop pos).take 4 = [0x1f, 0x8b, 0x08, 0x00]

section Code
variable (z : Inflater) (abi : Abi)

/-- The loop that inflates a member: the length of the data. `avail_out` is an `unsigned int`. -/
def inflateLoop (input : Bytes) : (fuel : Nat) → (allocated made len : Nat) → Except Fault Nat
  | 0, _, _, _ => .error .hang
  | fuel + 1, allocated, made, len =>
    let availOut := (allocated - len) % 4294967296
    let r := z.call input made availOut
    let len := allocated - (availOut - r.1)
    let grows := availOut - r.1 = 0
    if grows ∧ abi.word ≤ allocated * 2 then .error .freed
    else if r.2 then .ok len
    else inflateLoop input fuel (if grows then allocated * 2 else allocated) (made + r.1) len

variable {abi} (img : Image abi)

/-- The file with four zeros behind it. -/
def padded : Bytes := img.bytes ++ [0, 0, 0, 0]

/-- What the inflater is given of a member: `avail_in` is an `unsigned int`. -/
def memberInput (start : Nat) : Bytes := (img.bytes.drop start).take ((img.bytes.length - start) % 4294967296)

/-- How much of its input the inflater has taken when the stream has ended. -/
def Inflater.consumed (input : Bytes) : Nat :=
  match z.raw input with
  | some (_, n) => n
  | none => 0

/-- The chunks of a member, and where it ends. There are none if the size in its footer, which `Read4` gives
as an `int`, is not that of the data. -/
def closeMember (pos len deflateLen : Nat) : Except Fault (Option (List ImageChunk × Nat)) :=
  let start := pos + GZIP_HEADER_LEN
  let footer := start + deflateLen
  if img.bytes.length + 4 < footer + GZIP_FOOTER_LEN then .error .outside
  else if abi.ofLong (int (fromLe (((padded img).drop (footer + GZIP_FOOTER_LEN - 4)).take 4))) ≠ len then .ok none
  else .ok (some (
    [⟨.CHUNK_NORMAL, pos, GZIP_HEADER_LEN, .image pos, 0⟩,
      ⟨.CHUNK_DEFLATE, start, len, .buffer, deflateLen⟩,
      ⟨.CHUNK_NORMAL, footer, GZIP_FOOTER_LEN, .image footer, 0⟩], footer + GZIP_FOOTER_LEN))

/-- A member at `pos`. -/
def readMember (inner pos : Nat) : Except Fault (Option (List ImageChunk × Nat)) :=
  let start := pos + GZIP_HEADER_LEN
  if img.bytes.length < start then .error .outside
  else do
    let len ← inflateLoop z abi (memberInput img start) inner 32768 0 0
    closeMember img pos len (img.bytes.length - ((memberInput img start).length - z.consumed (memberInput img start)) - start)

/-- Scan forward until a gzip header is found. -/
def scan (pos : Nat) : (left len : Nat) → Nat
  | 0, len => len
  | left + 1, len => if marker (padded img) (pos + len) then len else scan pos left (len + 1)

def readLoop (inner : Nat) : (fuel pos : Nat) → List ImageChunk → Except Fault (Option (List ImageChunk))
  | 0, _, _ => .error .hang
  | fuel + 1, pos, chunks =>
    if pos < img.bytes.length then
      if 4 ≤ img.bytes.length - pos ∧ marker (padded img) pos then do
        match ← readMember z img inner pos with
        | none => .ok none
        | some (member, pos) => readLoop inner fuel pos (chunks ++ member)
      else
        let len := scan img pos (img.bytes.length - pos) 0
        readLoop inner fuel (pos + len) (chunks ++ [⟨.CHUNK_NORMAL, pos, len, .image pos, 0⟩])
    else .ok (some chunks)

/-- `ReadImage`, once the file is read: the chunks, or none if it gives up. -/
def readImage (fuel inner : Nat) : Except Fault (Option (List ImageChunk)) := readLoop z img inner fuel 0 []

end Code

/-! ### What an image is made of -/

/-- A gzip member with its deflate data of `n` bytes for `d`, or what lies between members. -/
inductive Piece where
  | member (p n : Nat) (d : Bytes)
  | gap (p q : Nat)

/-- The ranges of its chunks. -/
def Piece.ranges : Piece → List (ChunkType × Nat × Nat)
  | member p n _ => [(.CHUNK_NORMAL, p, 10), (.CHUNK_DEFLATE, p + 10, n), (.CHUNK_NORMAL, p + 10 + n, 8)]
  | gap p q => [(.CHUNK_NORMAL, p, q - p)]

def ImageChunk.range (c : ImageChunk) : ChunkType × Nat × Nat := (c.type, c.start, c.span)

section Layout
variable (z : Inflater) (bytes : Bytes)

/-- A valid gzip member without header flags, of `n` bytes of deflate data for `d`, that ends inside the file. -/
structure MemberAt (p n : Nat) (d : Bytes) : Prop where
  stream : z.raw (bytes.drop (p + 10)) = some (d, n)
  inside : p + 10 + n + 8 ≤ bytes.length
  size : fromLe ((bytes.drop (p + 10 + n + 4)).take 4) = d.length % 4294967296

/-- Every complete occurrence of the marker starts a valid member. -/
def Valid : Prop := ∀ p, marker bytes p = true → ∃ n d, MemberAt z bytes p n d

/-- The pieces of the file from an offset on. -/
inductive Layout : Nat → List Piece → Prop where
  | done : Layout bytes.length []
  | member {p n : Nat} {d : Bytes} {rest : List Piece} (hmarker : marker bytes p = true) (hmember : MemberAt z bytes p n d)
      (hrest : Layout (p + 10 + n + 8) rest) : Layout p (.member p n d :: rest)
  | gap {p q : Nat} {rest : List Piece} (hpq : p < q) (hq : q ≤ bytes.length) (hnone : ∀ r, p ≤ r → r < q → marker bytes r = false)
      (hnext : q = bytes.length ∨ marker bytes q = true) (hrest : Layout q rest) : Layout p (.gap p q :: rest)

/-- The file ends with a marker but for its last byte. -/
def Stub : Prop := 3 ≤ bytes.length ∧ bytes.drop (bytes.length - 3) = [0x1f, 0x8b, 0x08]

/-- A piece that the code gets along with: a member has less than 2^31 bytes of data, and less than 2^32
bytes of the file behind its header; and the bytes behind the last member do not end like a marker. -/
def Piece.Fine : Piece → Prop
  | member p _ d => d.length < 2147483648 ∧ bytes.length - (p + 10) < 4294967296
  | gap p q => ¬(q = bytes.length ∧ p + 3 ≤ bytes.length ∧ Stub bytes)

end Layout

/-- The image is split into its members and what lies between them, and merging keeps the partition. -/
def SplitsRightly (z : Inflater) {abi : Abi} (img : Image abi) : Prop :=
  Valid z img.bytes → ∃ pieces, Layout z img.bytes 0 pieces ∧ ∃ fuel inner chunks, readImage z img fuel inner = .ok (some chunks) ∧
    chunks.map ImageChunk.range = pieces.flatMap Piece.ranges ∧ Tiles 0 img.bytes.length chunks ∧
    Merged chunks (mergeAdjacentNormalChunks chunks) ∧ Tiles 0 img.bytes.length (mergeAdjacentNormalChunks chunks)

/-! ### The search -/

section Search
variable {abi : Abi} {img : Image abi} {p : Nat}

theorem marker_inside {bytes : Bytes} (h : marker bytes p = true) : p + 4 ≤ bytes.length := by
  have hlength := congrArg List.length (of_decide_eq_true h)
  rw [List.length_take, List.length_drop] at hlength
  have hfour : ([0x1f, 0x8b, 0x08, 0x00] : Bytes).length = 4 := rfl
  omega

/-- With the zeros behind the file, a marker that lacks its last byte counts as one. -/
theorem marker_padded (hp : p < img.bytes.length) :
    marker (padded img) p = true ↔ marker img.bytes p = true ∨ (p + 3 = img.bytes.length ∧ img.bytes.drop p = [0x1f, 0x8b, 0x08]) := by
  have hlength : (img.bytes.drop p).length = img.bytes.length - p := List.length_drop
  have hstub : p + 3 = img.bytes.length ∧ img.bytes.drop p = [0x1f, 0x8b, 0x08] ↔ img.bytes.drop p = [0x1f, 0x8b, 0x08] := by
    refine and_iff_right_of_imp fun h => ?_
    rw [h] at hlength
    have hthree : ([0x1f, 0x8b, 0x08] : Bytes).length = 3 := rfl
    omega
  rw [hstub, marker, marker, padded, List.drop_append_of_le_length hp.le, decide_eq_true_eq, decide_eq_true_eq]
  match hrest : img.bytes.drop p, hlength with
  | [], h => exact absurd (h.symm ▸ rfl : img.bytes.length - p = 0) (by omega)
  | [a], _ => simp
  | [a, b], _ => simp
  | [a, b, c], _ => simp
  | a :: b :: c :: d :: rest, _ => simp

theorem marker_of_padded (h : marker img.bytes p = true) : marker (padded img) p = true := by
  have := marker_inside h
  exact (marker_padded (by omega)).mpr (.inl h)

theorem scan_spec (left len : Nat) :
    len ≤ scan img p left len ∧ scan img p left len ≤ len + left ∧ (∀ j, len ≤ j → j < scan img p left len → marker (padded img) (p + j) = false) ∧
      (scan img p left len < len + left → marker (padded img) (p + scan img p left len) = true) := by
  induction left generalizing len with
  | zero => exact ⟨le_rfl, le_rfl, fun j hge hlt => absurd hlt (Nat.not_lt.mpr hge), fun h => absurd h (Nat.lt_irrefl _)⟩
  | succ left ih =>
    rw [scan]
    split_ifs with hmarker
    · exact ⟨le_rfl, by omega, fun j hge hlt => absurd hlt (Nat.not_lt.mpr hge), fun _ => hmarker⟩
    · obtain ⟨hge, hle, hnone, hfound⟩ := ih (len + 1)
      refine ⟨by omega, by omega, fun j hj hlt => ?_, fun hlt => hfound (by omega)⟩
      rcases Nat.lt_or_eq_of_le hj with hj | rfl
      · exact hnone j hj hlt
      · rwa [Bool.not_eq_true] at hmarker

/-- The search goes over the whole gap, if it does not stop at what is only like a marker. -/
theorem scan_gap {q : Nat} (hpq : p < q) (hq : q ≤ img.bytes.length) (hnone : ∀ r, p ≤ r → r < q → marker img.bytes r = false)
    (hnext : q = img.bytes.length ∨ marker img.bytes q = true) (hfine : (Piece.gap p q).Fine img.bytes) :
    scan img p (img.bytes.length - p) 0 = q - p := by
  obtain ⟨-, hle, hbefore, hfound⟩ := @scan_spec abi img p (img.bytes.length - p) 0
  rw [Nat.zero_add] at hle hfound
  generalize scan img p (img.bytes.length - p) 0 = r at hle hbefore hfound
  rcases Nat.lt_trichotomy r (q - p) with hlt | heq | hgt
  · exfalso
    have hmarker := hfound (by omega)
    rw [marker_padded (by omega), hnone _ (by omega) (by omega)] at hmarker
    obtain hfalse | ⟨hthree, hstub⟩ := hmarker
    · cases hfalse
    · refine hfine ⟨?_, by omega, by omega, ?_⟩
      · rcases hnext with hend | hmarker
        · exact hend
        · have := marker_inside hmarker
          omega
      · rw [← hthree, Nat.add_sub_cancel]
        exact hstub
  · exact heq
  · exfalso
    have hmarker : marker img.bytes q = true := hnext.resolve_left (by omega)
    have hfalse := hbefore (q - p) (Nat.zero_le _) hgt
    rw [Nat.add_sub_of_le hpq.le, marker_of_padded hmarker] at hfalse
    cases hfalse

end Search

/-! ### The loop of the inflater -/

section Inflate
variable {z : Inflater} {abi : Abi} {input d : Bytes} {n : Nat}

/-- Data of less than 2^31 bytes are inflated, in a buffer that is doubled until they fit. -/
theorem inflateLoop_ok (hraw : z.raw input = some (d, n)) (hd : d.length < 2147483648) {k j made inner : Nat} (hj : j + k = 31) (hmade : made ≤ d.length)
    (hroom : made < 2 ^ j) (hinner : k < inner) : inflateLoop z abi input inner (2 ^ j) made made = .ok d.length := by
  induction inner generalizing k j made with
  | zero => omega
  | succ inner ih =>
    have hpow : 2 ^ j ≤ 2 ^ 31 := Nat.pow_le_pow_right (by decide) (by omega)
    have havail : (2 ^ j - made) % 4294967296 = 2 ^ j - made := Nat.mod_eq_of_lt (by omega)
    have hputs : (z.call input made (2 ^ j - made)).1 = _ := z.puts hraw hmade
    rw [inflateLoop, havail, hputs]
    rcases Nat.lt_or_ge (d.length - made) (2 ^ j - made) with hfits | hfull
    · have hended : (z.call input made (2 ^ j - made)).2 = true := z.ended hraw hmade hfits
      rw [Nat.min_eq_right hfits.le, if_neg (by omega), hended, if_pos rfl]
      congr 1
      omega
    · -- the buffer is full, and is doubled
      obtain ⟨k, rfl⟩ : ∃ k', k = k' + 1 := by
        refine Nat.exists_eq_succ_of_ne_zero ?_
        rintro rfl
        obtain rfl : j = 31 := hj
        omega
      have hdouble : 2 ^ (j + 1) = 2 ^ j * 2 := Nat.pow_succ 2 j
      have hpow' : 2 ^ (j + 1) ≤ 2 ^ 31 := Nat.pow_le_pow_right (by decide) (by omega)
      have hword : 2 ^ 31 < abi.word := by
        cases abi <;> decide
      have hmade' : made + (2 ^ j - made) = 2 ^ j := by omega
      rw [Nat.min_eq_left hfull, Nat.sub_self, Nat.sub_zero, if_neg (by omega), if_pos rfl, hmade', ← hdouble]
      split_ifs with hend
      · have hle := z.ends hraw hmade hend
        congr 1
        omega
      · exact ih (k := k) (j := j + 1) (by omega) (by omega) (by omega) (by omega)

/-- Where the loop ends, the stream has ended, and the length that it gives is not less than that of the
data and is one that a buffer can have. -/
theorem inflateLoop_sound (hraw : z.raw input = some (d, n)) {inner allocated made len r : Nat} (hpow : ∃ j, allocated = 2 ^ j)
    (hallocated : allocated ≤ abi.longEnd) (hlen : len ≤ allocated) (hmade : made ≤ len) (hle : made ≤ d.length)
    (h : inflateLoop z abi input inner allocated made len = .ok r) : d.length ≤ r ∧ r < abi.longEnd := by
  induction inner generalizing allocated made len with
  | zero => cases h
  | succ inner ih =>
    rw [inflateLoop] at h
    have hmod := Nat.mod_le (allocated - len) 4294967296
    generalize (allocated - len) % 4294967296 = availOut at h hmod
    have hputs : (z.call input made availOut).1 = _ := z.puts hraw hle
    have hends : (z.call input made availOut).2 = true → _ := z.ends hraw hle
    generalize z.call input made availOut = call at h hputs hends
    have hword := abi.word_eq
    split_ifs at h with hfreed hend hgrows
    · obtain rfl := Except.ok.inj h
      have := hends hend
      rw [not_and_or, Nat.not_le] at hfreed
      omega
    · obtain ⟨j, rfl⟩ := hpow
      have hroom : 2 ^ j * 2 ≤ abi.longEnd := by
        have hlt : 2 ^ (j + 1) < abi.word := by
          rw [Nat.pow_succ]
          by_contra hnot
          exact hfreed ⟨hgrows, by omega⟩
        rw [← Nat.pow_succ]
        cases abi with
        | ilp32 => exact Nat.pow_le_pow_right (by decide) (Nat.le_of_lt_succ ((Nat.pow_lt_pow_iff_right (by decide)).mp hlt))
        | lp64 => exact Nat.pow_le_pow_right (by decide) (Nat.le_of_lt_succ ((Nat.pow_lt_pow_iff_right (by decide)).mp hlt))
      exact ih ⟨j + 1, (Nat.pow_succ 2 j).symm⟩ hroom (by omega) (by omega) (by omega) h
    · exact ih hpow hallocated (by omega) (by omega) (by omega) h

/-- Without a whole stream in its input, the loop does not end. -/
theorem inflateLoop_never (hraw : z.raw input = none) {inner allocated made len r : Nat} : inflateLoop z abi input inner allocated made len ≠ .ok r := by
  induction inner generalizing allocated made len with
  | zero => exact fun h => by cases h
  | succ inner ih =>
    intro h
    rw [inflateLoop] at h
    split_ifs at h with hfreed hend hgrows
    · rw [z.never hraw] at hend
      cases hend
    · exact ih h
    · exact ih h

end Inflate

/-! ### The loop of the reader -/

section Reader
variable {z : Inflater} {abi : Abi} {img : Image abi}

/-- The footer of a member. -/
theorem footer_eq {p n : Nat} {d : Bytes} (h : MemberAt z img.bytes p n d) :
    fromLe (((padded img).drop (p + 10 + n + 8 - 4)).take 4) = d.length % 4294967296 := by
  have hinside := h.inside
  have hpos : p + 10 + n + 8 - 4 = p + 10 + n + 4 := by omega
  have hlength : (img.bytes.drop (p + 10 + n + 4)).length = img.bytes.length - (p + 10 + n + 4) := List.length_drop
  rw [hpos, padded, List.drop_append_of_le_length (by omega), List.take_append_of_le_length (by omega)]
  exact h.size

/-- The chunks of a member whose deflate data are taken to be of `n` bytes. -/
def memberChunks (p n len : Nat) : List ImageChunk :=
  [⟨.CHUNK_NORMAL, p, 10, .image p, 0⟩, ⟨.CHUNK_DEFLATE, p + 10, len, .buffer, n⟩, ⟨.CHUNK_NORMAL, p + 10 + n, 8, .image (p + 10 + n), 0⟩]

theorem closeMember_eq {p n : Nat} {d : Bytes} (h : MemberAt z img.bytes p n d) (len : Nat) :
    closeMember img p len n = if abi.ofLong (int (d.length % 4294967296)) ≠ len then .ok none else .ok (some (memberChunks p n len, p + 10 + n + 8)) := by
  have hinside := h.inside
  have hfooter : fromLe (((padded img).drop (p + GZIP_HEADER_LEN + n + GZIP_FOOTER_LEN - 4)).take 4) = d.length % 4294967296 := footer_eq h
  have hin : ¬img.bytes.length + 4 < p + GZIP_HEADER_LEN + n + GZIP_FOOTER_LEN := by
    unfold GZIP_HEADER_LEN GZIP_FOOTER_LEN
    omega
  unfold closeMember
  dsimp only
  rw [if_neg hin, hfooter]
  rfl

/-- A member whose data the code can count is taken as it is. -/
theorem readMember_ok {p n inner : Nat} {d : Bytes} (hinner : 16 < inner) (h : MemberAt z img.bytes p n d) (hfine : (Piece.member p n d).Fine img.bytes) :
    readMember z img inner p = .ok (some (memberChunks p n d.length, p + 10 + n + 8)) := by
  obtain ⟨hsmall, hnear⟩ := hfine
  have hinside := h.inside
  have hinput : memberInput img (p + GZIP_HEADER_LEN) = img.bytes.drop (p + 10) := by
    show (img.bytes.drop (p + 10)).take ((img.bytes.length - (p + 10)) % 4294967296) = img.bytes.drop (p + 10)
    rw [Nat.mod_eq_of_lt hnear]
    exact List.take_of_length_le (by rw [List.length_drop])
  have hconsumed : z.consumed (img.bytes.drop (p + 10)) = n := by
    rw [Inflater.consumed, h.stream]
  have hend : img.bytes.length - ((img.bytes.drop (p + 10)).length - n) - (p + GZIP_HEADER_LEN) = n := by
    rw [List.length_drop]
    show img.bytes.length - (img.bytes.length - (p + 10) - n) - (p + 10) = n
    omega
  have hloop : inflateLoop z abi (img.bytes.drop (p + 10)) inner 32768 0 0 = .ok d.length :=
    @inflateLoop_ok z abi _ d n h.stream hsmall 16 15 0 inner rfl (Nat.zero_le _) (by decide) hinner
  have hsize : abi.ofLong (int (d.length % 4294967296)) = d.length := by
    rw [Nat.mod_eq_of_lt (by omega), int_small hsmall]
    have hword : d.length < abi.word := by
      cases abi <;> simp only [Abi.word] <;> omega
    rw [Abi.ofLong, ← Int.natCast_emod, Int.toNat_natCast, Nat.mod_eq_of_lt hword]
  have hin : ¬img.bytes.length < p + GZIP_HEADER_LEN := by
    unfold GZIP_HEADER_LEN
    omega
  unfold readMember
  dsimp only
  rw [if_neg hin, hinput, hloop, hconsumed, hend]
  show closeMember img p d.length n = _
  rw [closeMember_eq h, hsize, if_neg (not_not.mpr rfl)]

theorem closeMember_some {p len k pos : Nat} {chunks : List ImageChunk} (h : closeMember img p len k = .ok (some (chunks, pos))) :
    chunks = memberChunks p k len ∧ pos = p + 10 + k + 8 := by
  unfold closeMember at h
  dsimp only at h
  split_ifs at h
  · cases h
  · obtain ⟨rfl, rfl⟩ := Prod.mk.inj (Option.some.inj (Except.ok.inj h))
    exact ⟨rfl, rfl⟩

theorem readMember_some {inner p pos : Nat} {chunks : List ImageChunk} (h : readMember z img inner p = .ok (some (chunks, pos))) :
    ∃ k len, chunks = memberChunks p k len := by
  unfold readMember at h
  dsimp only at h
  split_ifs at h
  cases hloop : inflateLoop z abi (memberInput img (p + GZIP_HEADER_LEN)) inner 32768 0 0 with
  | error fault =>
    rw [hloop] at h
    cases h
  | ok len =>
    rw [hloop] at h
    exact ⟨_, len, (closeMember_some h).1⟩

/-- A member that is taken as it is can be counted. -/
theorem readMember_sound {p n inner pos : Nat} {d : Bytes} {chunks : List ImageChunk} (h : MemberAt z img.bytes p n d)
    (hread : readMember z img inner p = .ok (some (chunks, pos))) (hranges : chunks.map ImageChunk.range = (Piece.member p n d).ranges) :
    (Piece.member p n d).Fine img.bytes ∧ pos = p + 10 + n + 8 := by
  have hinside := h.inside
  have hin : ¬img.bytes.length < p + GZIP_HEADER_LEN := by
    unfold GZIP_HEADER_LEN
    omega
  unfold readMember at hread
  dsimp only at hread
  rw [if_neg hin] at hread
  have hinput : memberInput img (p + GZIP_HEADER_LEN) = (img.bytes.drop (p + 10)).take ((img.bytes.length - (p + 10)) % 4294967296) := rfl
  generalize memberInput img (p + GZIP_HEADER_LEN) = input at hread hinput
  cases hraw : z.raw input with
  | none =>
    cases hloop : inflateLoop z abi input inner 32768 0 0 with
    | error fault =>
      rw [hloop] at hread
      cases hread
    | ok len => exact absurd hloop (inflateLoop_never hraw)
  | some r =>
    obtain ⟨d', n'⟩ := r
    obtain ⟨hle, hfront⟩ := z.front hraw
    have hwhole := hfront (input.drop n' ++ (img.bytes.drop (p + 10)).drop ((img.bytes.length - (p + 10)) % 4294967296))
    rw [← List.append_assoc, List.take_append_drop, hinput, List.take_append_drop, h.stream] at hwhole
    obtain ⟨rfl, rfl⟩ := Prod.mk.inj (Option.some.inj hwhole)
    have hconsumed : z.consumed input = n := by
      rw [Inflater.consumed, hraw]
    have hlength : input.length = (img.bytes.length - (p + 10)) % 4294967296 := by
      rw [hinput, List.length_take, List.length_drop]
      exact Nat.min_eq_left (Nat.mod_le _ _)
    cases hloop : inflateLoop z abi input inner 32768 0 0 with
    | error fault =>
      rw [hloop] at hread
      cases hread
    | ok len =>
      obtain ⟨hlow, hhigh⟩ := inflateLoop_sound hraw ⟨15, by decide⟩ (by cases abi <;> decide) (Nat.zero_le _) le_rfl (Nat.zero_le _) hloop
      rw [hloop, hconsumed] at hread
      have hclose : closeMember img p len (img.bytes.length - (input.length - n) - (p + 10)) = .ok (some (chunks, pos)) := hread
      generalize hdeflate : img.bytes.length - (input.length - n) - (p + 10) = deflateLen at hclose
      obtain ⟨rfl, rfl⟩ := closeMember_some hclose
      obtain rfl : deflateLen = n := by
        have hsecond := congrArg (fun l => l[1]?) hranges
        exact (Prod.mk.inj (Prod.mk.inj (Option.some.inj hsecond)).2).2
      rw [closeMember_eq h] at hclose
      have hnear : img.bytes.length - (p + 10) < 4294967296 := by
        have hmod := Nat.mod_lt (img.bytes.length - (p + 10)) (by decide : 0 < 4294967296)
        omega
      have hsize : abi.ofLong (int (d.length % 4294967296)) = len := by
        by_contra hne
        rw [if_pos hne] at hclose
        cases hclose
      refine ⟨⟨?_, hnear⟩, rfl⟩
      -- a size of 2^31 or more is negative as an `int`
      cases abi with
      | ilp32 =>
        have hlong : Abi.longEnd .ilp32 = 2147483648 := rfl
        omega
      | lp64 =>
        have hlong : Abi.longEnd .lp64 = 9223372036854775808 := rfl
        by_contra hlarge
        have hmod := Nat.mod_lt d.length (by decide : 0 < 4294967296)
        rcases Nat.lt_or_ge (d.length % 4294967296) 2147483648 with hpos | hneg
        · rw [int_small hpos] at hsize
          unfold Abi.ofLong Abi.word at hsize
          dsimp only at hsize
          omega
        · unfold int Abi.ofLong Abi.word at hsize
          rw [Nat.mod_mod, if_neg (by omega)] at hsize
          dsimp only at hsize
          omega

theorem readLoop_member {inner fuel p : Nat} {chunks : List ImageChunk} (h : marker img.bytes p = true) :
    readLoop z img inner (fuel + 1) p chunks = readMember z img inner p >>= fun
      | none => .ok none
      | some (member, pos) => readLoop z img inner fuel pos (chunks ++ member) := by
  have hinside := marker_inside h
  rw [readLoop, if_pos (by omega), if_pos ⟨by omega, marker_of_padded h⟩]

theorem readLoop_gap {inner fuel p : Nat} {chunks : List ImageChunk} (hp : p < img.bytes.length) (h : marker img.bytes p = false) :
    readLoop z img inner (fuel + 1) p chunks =
      readLoop z img inner fuel (p + scan img p (img.bytes.length - p) 0)
        (chunks ++ [⟨.CHUNK_NORMAL, p, scan img p (img.bytes.length - p) 0, .image p, 0⟩]) := by
  rw [readLoop, if_pos hp, if_neg]
  rintro ⟨hfour, hmarker⟩
  rw [marker_padded hp, h] at hmarker
  obtain hfalse | ⟨hthree, -⟩ := hmarker
  · cases hfalse
  · omega

theorem readLoop_end {inner fuel : Nat} {chunks : List ImageChunk} :
    readLoop z img inner (fuel + 1) img.bytes.length chunks = .ok (some chunks) := by
  rw [readLoop, if_neg (Nat.lt_irrefl _)]

theorem layout_le {p : Nat} {pieces : List Piece} (h : Layout z img.bytes p pieces) : p ≤ img.bytes.length := by
  cases h with
  | done => exact le_rfl
  | member hmarker => exact (Nat.le_add_right _ _).trans (marker_inside hmarker)
  | gap hpq hq => omega

/-- Where all pieces are fine, the chunks are theirs. -/
theorem readLoop_ok {inner p : Nat} {pieces : List Piece} (hinner : 16 < inner) (h : Layout z img.bytes p pieces)
    (hfine : ∀ piece ∈ pieces, piece.Fine img.bytes) (chunks : List ImageChunk) :
    ∃ tail, readLoop z img inner (pieces.length + 1) p chunks = .ok (some (chunks ++ tail)) ∧
      tail.map ImageChunk.range = pieces.flatMap Piece.ranges ∧ Tiles p img.bytes.length tail := by
  induction h generalizing chunks with
  | done =>
    refine ⟨[], ?_, rfl, rfl⟩
    rw [List.append_nil]
    exact readLoop_end
  | @member p n d rest hmarker hmember hrest ih =>
    obtain ⟨hthis, hfine⟩ := List.forall_mem_cons.mp hfine
    obtain ⟨tail, hrun, hranges, htiles⟩ := ih hfine (chunks ++ memberChunks p n d.length)
    refine ⟨memberChunks p n d.length ++ tail, ?_, ?_, ?_⟩
    · rw [List.length_cons, readLoop_member hmarker, readMember_ok hinner hmember hthis, ← List.append_assoc]
      exact hrun
    · rw [List.map_append, hranges]
      rfl
    · have hfront : Tiles p (p + 10 + n + 8) (memberChunks p n d.length) := ⟨rfl, rfl, rfl, rfl⟩
      exact hfront.append htiles
  | @gap p q rest hpq hq hnone hnext hrest ih =>
    obtain ⟨hthis, hfine⟩ := List.forall_mem_cons.mp hfine
    obtain ⟨tail, hrun, hranges, htiles⟩ := ih hfine (chunks ++ [⟨.CHUNK_NORMAL, p, q - p, .image p, 0⟩])
    refine ⟨⟨.CHUNK_NORMAL, p, q - p, .image p, 0⟩ :: tail, ?_, ?_, rfl, ?_⟩
    · rw [List.length_cons, readLoop_gap (by omega) (hnone p le_rfl hpq), scan_gap hpq hq hnone hnext hthis, Nat.add_sub_of_le hpq.le, hrun,
        List.append_assoc]
      rfl
    · rw [List.map_cons, hranges]
      rfl
    · show Tiles (p + (q - p)) _ tail
      rwa [Nat.add_sub_of_le hpq.le]

/-- The loop only adds chunks. -/
theorem readLoop_extends {inner fuel p : Nat} {chunks result : List ImageChunk} (h : readLoop z img inner fuel p chunks = .ok (some result)) :
    ∃ tail, result = chunks ++ tail := by
  induction fuel generalizing p chunks with
  | zero => cases h
  | succ fuel ih =>
    rw [readLoop] at h
    split_ifs at h with hp hmarker
    · cases hmember : readMember z img inner p with
      | error fault =>
        rw [hmember] at h
        cases h
      | ok r =>
        rw [hmember] at h
        cases r with
        | none => cases h
        | some r =>
          obtain ⟨tail, rfl⟩ := ih h
          exact ⟨r.1 ++ tail, List.append_assoc _ _ _⟩
    · obtain ⟨tail, rfl⟩ := ih h
      exact ⟨_ :: tail, by rw [List.append_assoc]; rfl⟩
    · obtain rfl := Option.some.inj (Except.ok.inj h)
      exact ⟨[], (List.append_nil _).symm⟩

/-- At a marker that lacks its last byte the loop adds empty chunks for ever. -/
theorem readLoop_stuck (hstub : Stub img.bytes) {inner fuel : Nat} {chunks : List ImageChunk} {r : Option (List ImageChunk)} :
    readLoop z img inner fuel (img.bytes.length - 3) chunks ≠ .ok r := by
  obtain ⟨hthree, hbytes⟩ := hstub
  induction fuel generalizing chunks with
  | zero => exact fun h => by cases h
  | succ fuel ih =>
    intro h
    have hp : img.bytes.length - 3 < img.bytes.length := by omega
    have hmarker : marker (padded img) (img.bytes.length - 3) = true := (marker_padded hp).mpr (.inr ⟨by omega, hbytes⟩)
    have hleft : img.bytes.length - (img.bytes.length - 3) = 2 + 1 := by omega
    have hscan : scan img (img.bytes.length - 3) (img.bytes.length - (img.bytes.length - 3)) 0 = 0 := by
      rw [hleft, scan, Nat.add_zero, if_pos hmarker]
    rw [readLoop, if_pos hp, if_neg (by omega), hscan] at h
    exact ih h

/-- A gap with such an end leads there. -/
theorem scan_stub {p : Nat} (hp : p + 3 ≤ img.bytes.length) (hstub : Stub img.bytes)
    (hnone : ∀ r, p ≤ r → r < img.bytes.length → marker img.bytes r = false) : p + scan img p (img.bytes.length - p) 0 = img.bytes.length - 3 := by
  obtain ⟨hthree, hbytes⟩ := hstub
  obtain ⟨-, hle, hbefore, hfound⟩ := @scan_spec abi img p (img.bytes.length - p) 0
  rw [Nat.zero_add] at hle hfound
  generalize scan img p (img.bytes.length - p) 0 = r at hle hbefore hfound
  have hend : marker (padded img) (img.bytes.length - 3) = true := (marker_padded (by omega)).mpr (.inr ⟨by omega, hbytes⟩)
  have hnot : ¬img.bytes.length - 3 - p < r := by
    intro hlt
    have hfalse := hbefore _ (Nat.zero_le _) hlt
    rw [Nat.add_sub_of_le (by omega), hend] at hfalse
    cases hfalse
  have hmarker := hfound (by omega)
  rw [marker_padded (by omega), hnone _ (by omega) (by omega)] at hmarker
  obtain hfalse | ⟨hthree', -⟩ := hmarker
  · cases hfalse
  · omega

/-- If the chunks are those of the pieces, all pieces are fine. -/
theorem readLoop_sound {inner fuel p : Nat} {pieces : List Piece} (h : Layout z img.bytes p pieces) {chunks tail : List ImageChunk}
    (hrun : readLoop z img inner fuel p chunks = .ok (some (chunks ++ tail))) (hranges : tail.map ImageChunk.range = pieces.flatMap Piece.ranges) :
    ∀ piece ∈ pieces, piece.Fine img.bytes := by
  induction h generalizing fuel chunks tail with
  | done => exact fun _ h => by cases h
  | @member p n d rest hmarker hmember hrest ih =>
    cases fuel with
    | zero => cases hrun
    | succ fuel =>
      rw [readLoop_member hmarker] at hrun
      cases hread : readMember z img inner p with
      | error fault =>
        rw [hread] at hrun
        cases hrun
      | ok r =>
        rw [hread] at hrun
        cases r with
        | none => cases hrun
        | some r =>
          obtain ⟨member, pos⟩ := r
          have hrun' : readLoop z img inner fuel pos (chunks ++ member) = .ok (some (chunks ++ tail)) := hrun
          obtain ⟨tail', heq⟩ := readLoop_extends hrun'
          rw [List.append_assoc] at heq
          obtain rfl := List.append_cancel_left heq
          have hthree : (member.map ImageChunk.range).length = ((Piece.member p n d).ranges).length := by
            obtain ⟨k, len, rfl⟩ := readMember_some hread
            rfl
          rw [List.map_append, List.flatMap_cons] at hranges
          obtain ⟨hfirst, hlater⟩ := List.append_inj hranges hthree
          obtain ⟨hfine, rfl⟩ := readMember_sound hmember hread hfirst
          rw [← List.append_assoc] at hrun'
          exact List.forall_mem_cons.mpr ⟨hfine, ih hrun' hlater⟩
  | @gap p q rest hpq hq hnone hnext hrest ih =>
    cases fuel with
    | zero => cases hrun
    | succ fuel =>
      rw [readLoop_gap (by omega) (hnone p le_rfl hpq)] at hrun
      have hfine : (Piece.gap p q).Fine img.bytes := by
        rintro ⟨rfl, hthree, hstub⟩
        rw [scan_stub hthree hstub hnone] at hrun
        exact readLoop_stuck hstub hrun
      rw [scan_gap hpq hq hnone hnext hfine, Nat.add_sub_of_le hpq.le] at hrun
      obtain ⟨tail', heq⟩ := readLoop_extends hrun
      rw [List.append_assoc] at heq
      obtain rfl := List.append_cancel_left heq
      rw [← List.append_assoc] at hrun
      exact List.forall_mem_cons.mpr ⟨hfine, ih hrun (List.cons.inj hranges).2⟩

end Reader

section Splitting
variable {z : Inflater} {bytes : Bytes}

/-- What a file with valid members is made of. -/
theorem layout_exists (hvalid : Valid z bytes) {p : Nat} (hp : p ≤ bytes.length) : ∃ pieces, Layout z bytes p pieces := by
  induction hleft : bytes.length - p using Nat.strong_induction_on generalizing p with
  | _ left ih =>
    rcases Nat.lt_or_eq_of_le hp with hlt | rfl
    · cases hmarker : marker bytes p with
      | true =>
        obtain ⟨n, d, hmember⟩ := hvalid p hmarker
        have hinside := hmember.inside
        obtain ⟨rest, hrest⟩ := ih (bytes.length - (p + 10 + n + 8)) (by omega) hinside rfl
        exact ⟨_, .member hmarker hmember hrest⟩
      | false =>
        -- the gap ends at the first marker, or at the end of the file
        have hex : ∃ q, p < q ∧ (q = bytes.length ∨ marker bytes q = true) := ⟨bytes.length, hlt, .inl rfl⟩
        obtain ⟨hpq, hnext⟩ := Nat.find_spec hex
        have hq : Nat.find hex ≤ bytes.length := Nat.find_min' hex ⟨hlt, .inl rfl⟩
        have hnone : ∀ r, p ≤ r → r < Nat.find hex → marker bytes r = false := by
          intro r hr hlt'
          rcases Nat.lt_or_eq_of_le hr with hr | rfl
          · have hnot := Nat.find_min hex hlt'
            rw [not_and, not_or, Bool.not_eq_true] at hnot
            exact (hnot hr).2
          · exact hmarker
        obtain ⟨rest, hrest⟩ := ih (bytes.length - Nat.find hex) (by omega) hq rfl
        exact ⟨_, .gap hpq hq hnone hnext hrest⟩
    · exact ⟨[], .done⟩

/-- There is one way to divide it. -/
theorem layout_unique {p : Nat} {pieces pieces' : List Piece} (h : Layout z bytes p pieces) (h' : Layout z bytes p pieces') : pieces = pieces' := by
  induction h generalizing pieces' with
  | done =>
    cases h' with
    | done => rfl
    | member hmarker =>
      have := marker_inside hmarker
      omega
    | gap hpq hq => omega
  | @member p n d rest hmarker hmember hrest ih =>
    cases h' with
    | done =>
      have := marker_inside hmarker
      omega
    | member hmarker' hmember' hrest' =>
      obtain ⟨rfl, rfl⟩ := Prod.mk.inj (Option.some.inj (hmember.stream.symm.trans hmember'.stream))
      rw [ih hrest']
    | gap hpq _ hnone =>
      have hfalse := hnone p le_rfl hpq
      rw [hmarker] at hfalse
      cases hfalse
  | @gap p q rest hpq hq hnone hnext hrest ih =>
    cases h' with
    | done => omega
    | member hmarker =>
      have hfalse := hnone p le_rfl hpq
      rw [hmarker] at hfalse
      cases hfalse
    | @gap _ q' rest' hpq' hq' hnone' hnext' hrest' =>
      have hsame : q = q' := by
        rcases Nat.lt_trichotomy q q' with hlt | heq | hgt
        · have hmarker := hnext.resolve_left (by omega)
          rw [hnone' q hpq.le hlt] at hmarker
          cases hmarker
        · exact heq
        · have hmarker := hnext'.resolve_left (by omega)
          rw [hnone q' hpq'.le hgt] at hmarker
          cases hmarker
      subst hsame
      rw [ih hrest']

end Splitting

/-- An image is split rightly just where its pieces are fine. -/
theorem splitsRightly_iff (z : Inflater) {abi : Abi} (img : Image abi) :
    SplitsRightly z img ↔ (Valid z img.bytes → ∀ pieces, Layout z img.bytes 0 pieces → ∀ piece ∈ pieces, piece.Fine img.bytes) := by
  constructor
  · intro h hvalid pieces hlayout
    obtain ⟨pieces', hlayout', fuel, inner, chunks, hrun, hranges, -⟩ := h hvalid
    obtain rfl := layout_unique hlayout hlayout'
    exact readLoop_sound hlayout hrun hranges
  · intro h hvalid
    obtain ⟨pieces, hlayout⟩ := layout_exists hvalid (Nat.zero_le _)
    obtain ⟨chunks, hrun, hranges, htiles⟩ := readLoop_ok (Nat.lt_succ_self 16) hlayout (h hvalid pieces hlayout) []
    have hmerged := merged_mergeAdjacent chunks
    exact ⟨pieces, hlayout, _, _, chunks, hrun, hranges, htiles, hmerged, hmerged.tiles htiles⟩

/-- A file of a marker but for its last byte. -/
def stubImage : Image .lp64 := ⟨[0x1f, 0x8b, 0x08], by decide⟩

/-- An inflater for which there are no streams. -/
def idle : Inflater where
  raw := fun _ => none
  call := fun _ _ _ => (0, false)
  front := fun h => by cases h
  never := fun _ _ _ => rfl
  room := fun _ _ _ => Nat.zero_le _
  puts := fun h => by cases h
  ends := fun h => by cases h
  ended := fun h => by cases h

/-- The file has no marker, and is never read to its end. -/
theorem stub_not_split : ¬SplitsRightly idle stubImage := by
  intro h
  have hvalid : Valid idle stubImage.bytes := by
    intro p hmarker
    have hfour := marker_inside hmarker
    have hthree : stubImage.bytes.length = 3 := rfl
    omega
  obtain ⟨_, _, fuel, inner, chunks, hrun, _⟩ := h hvalid
  exact @readLoop_stuck idle .lp64 stubImage ⟨by decide, rfl⟩ _ _ _ _ hrun

end Twrp.Imgdiff
