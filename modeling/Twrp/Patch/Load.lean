import Twrp.Base.Abi
import Twrp.Base.Line
import Twrp.Base.Number
import Twrp.Patch.Reading

/-! Loading a partition by its name.

The name of a partition lists pairs of a size and a SHA-1, because an interrupted installation leaves
either the source or the target there. `LoadPartitionContents` reads the sizes off the name, sorts an array
of indices by size and reads the partition once, hashing as it goes: a copy of the running hash is finished
at every size and compared. -/
namespace Twrp.Patch.Load
open Base

/-! ### The library -/

/-- `SHA_init`, `SHA_update` and `SHA_final`. -/
structure Hash where
  Ctx : Type
  init : Ctx
  update : Ctx → Bytes → Ctx
  final : Ctx → Digest
  sha1 : Bytes → Digest
  final_update : ∀ chunks : List Bytes, final (chunks.foldl update init) = sha1 chunks.flatten

/-- `qsort` of the indices of `sizes` by size; equal sizes may come in any order. -/
structure Qsort where
  run : List Nat → List Nat
  perm : ∀ sizes, (run sizes).Perm (List.range sizes.length)
  sorted : ∀ sizes, (run sizes).Pairwise fun i j => sizes.getD i 0 ≤ sizes.getD j 0

/-! ### The name -/

variable (abi : Abi)

def lit (s : String) : Bytes := (CString.ofString s).bytes

/-- `size[i] = strtol(size_str, NULL, 10)`, with `size[i]` a `size_t`. -/
def sizeOf (str : Bytes) : Nat :=
  let text := str.dropWhile fun b => b == 32 || (9 ≤ b && b ≤ 13)
  let value : Int := match text with
    | 45 :: rest => -(CString.digits rest 0 : Int)
    | 43 :: rest => CString.digits rest 0
    | rest => CString.digits rest 0
  (max (-(abi.longEnd : Int)) (min (abi.longEnd - 1 : Int) value) % abi.word).toNat

/-- How the name is read. -/
inductive Parsed where
  | pairs (sizes : List Nat) (sums : List CString)
  /-- a size of 0 -/
  | bad
  /-- a token that is not there is used -/
  | crash

def Parsed.cons (size : Nat) (sum : CString) : Parsed → Parsed
  | pairs sizes sums => pairs (size :: sizes) (sum :: sums)
  | bad => bad
  | crash => crash

/-- The loop over the pairs, with `rest` left for `strtok`. -/
def parsePairs : Nat → Bytes → Parsed
  | 0, _ => .pairs [] []
  | n + 1, rest =>
    match strtok [58] rest with
    | none => .crash
    | some (sizeStr, rest) =>
      if sizeOf abi sizeStr = 0 then .bad
      else
        match strtok [58] rest with
        | none => .crash
        | some (sum, rest) => (parsePairs n rest).cons (sizeOf abi sizeStr) (CString.ofBytes sum)

def typeOf (magic : Bytes) : Option PartitionType :=
  if magic = lit "MTD" then some .MTD
  else if magic = lit "EMMC" then some .EMMC
  else none

/-- A name as a path. -/
def pathOf (name : Bytes) : Path := name.map fun b => Char.ofNat b.toNat

/-! ### Reading -/

/-- The state of the loop over the sorted indices. -/
structure Loading (h : Hash) where
  /-- the bytes stored from `file->data` on -/
  data : Bytes
  /-- the offset of `p` in `file->data` -/
  p : Nat
  /-- `file->size`, which is also how far the partition has been read -/
  size : Nat
  ctx : h.Ctx

inductive Ending where
  | failed
  | matched
  | ranOff
deriving DecidableEq

section Read
variable (h : Hash) (part : Partition) (sizes : List Nat) (sums : List CString)

def loadLoop : List Nat → Loading h → Io (Loading h × Ending)
  | [], s => pure (s, .ranOff)
  | i :: rest, s => do
    let next := (sizes.getD i 0 + abi.word - s.size) % abi.word
    match ← readNext part s.size next with
    | none => pure (s, .failed)
    | some bytes =>
      let s := { s with
        data := s.data.take s.p ++ bytes
        size := s.size + bytes.length
        ctx := if 0 < next then h.update s.ctx bytes else s.ctx }
      match parseSha1 (sums.getD i (CString.ofString "")) with
      | none => pure (s, .failed)
      | some sha1 =>
        if h.final s.ctx = sha1 then pure (s, .matched)
        else loadLoop rest { s with p := s.p + bytes.length }

/-- From `fopen` or `mtd_read_partition` on. -/
def loadPart (order : List Nat) (file : FileContents) : Io (Int × FileContents) := do
  if !(← Sys.openPart part.type part.device) then pure (-1, file)
  else
    let (s, ending) ← loadLoop abi h part sizes sums order ⟨[], 0, 0, h.init⟩
    if ending = .matched then
      pure (0, { file with sha1 := h.final s.ctx, data := some s.data, size := s.size, st := ⟨0o644, 0, 0⟩ })
    else pure (-1, { file with data := none, size := s.size })

end Read

/-- `LoadPartitionContents`; `none` where it uses what is not there. -/
def loadPartitionContents (h : Hash) (q : Qsort) (filename : CString) (file : FileContents) :
    Io (Option (Int × FileContents)) :=
  match strtok [58] filename.bytes with
  | none => pure none
  | some (magic, rest) =>
    match typeOf magic with
    | none => pure (some (-1, file))
    | some type =>
      match strtok [58] rest with
      | none => pure none
      | some (device, rest) =>
        match parsePairs abi ((filename.bytes.count 58 - 1) / 2) rest with
        | .crash => pure none
        | .bad => pure (some (-1, file))
        | .pairs sizes sums =>
          if sizes = [] then pure none
          else do
            let r ← loadPart abi h ⟨type, pathOf device, sizes.zip sums⟩ sizes sums (q.run sizes) file
            pure (some r)

/-! ### Well-formed names -/

structure Pair where
  size : Nat
  sum : CString
  digest : Digest
  size_pos : 0 < size
  parsed : parseSha1 sum = some digest

structure Spec where
  type : PartitionType
  device : Bytes
  pairs : List Pair
  device_ne : device ≠ []
  device_word : ∀ b ∈ device, b ≠ 58 ∧ b ≠ 0
  pairs_ne : pairs ≠ []

def magic : PartitionType → Bytes
  | .MTD => lit "MTD"
  | .EMMC => lit "EMMC"

def tail (pairs : List Pair) : Bytes := pairs.flatMap fun p => 58 :: (decimalBytes p.size ++ 58 :: p.sum.bytes)

def Spec.bytes (s : Spec) : Bytes := magic s.type ++ 58 :: (s.device ++ tail s.pairs)

/-! ### Reading the name -/

theorem not_mem_of_parseHex {n : Nat} {l : Bytes} {digest : Digest} (h : parseHex n l = some digest) :
    ∀ b ∈ l, b ≠ 58 ∧ b ≠ 0 := by
  induction n generalizing l digest with
  | zero =>
    cases l with
    | nil => simp
    | cons b l => cases h
  | succ n ih =>
    match l with
    | [] => cases h
    | [_] => cases h
    | high :: low :: rest =>
      rw [parseHex] at h
      obtain ⟨hi, hhigh, h⟩ := Option.bind_eq_some_iff.mp h
      obtain ⟨lo, hlow, h⟩ := Option.bind_eq_some_iff.mp h
      obtain ⟨digest', hrest, _⟩ := Option.bind_eq_some_iff.mp h
      have hdigit : ∀ {b v : UInt8}, hexDigit b = some v → b ≠ 58 ∧ b ≠ 0 := by
        intro _ v hb
        constructor
        · rintro rfl
          cases hb
        · rintro rfl
          cases hb
      exact List.forall_mem_cons.mpr ⟨hdigit hhigh, List.forall_mem_cons.mpr ⟨hdigit hlow, ih hrest⟩⟩

theorem Pair.sum_word (p : Pair) : p.sum.bytes ≠ [] ∧ 58 ∉ p.sum.bytes := by
  refine ⟨fun h => ?_, fun h => (not_mem_of_parseHex p.parsed 58 h).1 rfl⟩
  have hparsed := p.parsed
  rw [parseSha1, h] at hparsed
  cases hparsed

theorem ofBytes_sum (sum : CString) : CString.ofBytes sum.bytes = sum :=
  CString.ext (List.takeWhile_eq_self_iff.mpr fun _ hb => bne_iff_ne.mpr fun h => sum.noNul (h ▸ hb))

theorem colon_not_digit : ¬ IsDigit 58 := by decide
theorem nul_not_digit : ¬ IsDigit 0 := by decide

theorem mem_tail {pairs : List Pair} {b : UInt8} (h : b ∈ tail pairs) : b ≠ 0 := by
  obtain ⟨p, _, hb⟩ := List.mem_flatMap.mp h
  rcases List.mem_cons.mp hb with rfl | hb
  · decide
  · rcases List.mem_append.mp hb with hb | hb
    · rintro rfl
      exact not_mem_decimalBytes nul_not_digit hb
    · rcases List.mem_cons.mp hb with rfl | hb
      · decide
      · rintro rfl
        exact p.sum.noNul hb

def Spec.text (s : Spec) : CString where
  bytes := s.bytes
  noNul := by
    have hmagic : 0 ∉ magic s.type := by cases s.type <;> decide
    intro h
    rcases List.mem_append.mp h with h | h
    · exact hmagic h
    · rcases List.mem_cons.mp h with h | h
      · cases h
      · rcases List.mem_append.mp h with h | h
        · exact (s.device_word 0 h).2 rfl
        · exact mem_tail h rfl

/-- A size that does not fit a `long` is read as the largest one. -/
def clamp (n : Nat) : Nat := min (abi.longEnd - 1) n

theorem sizeOf_decimalBytes (n : Nat) : sizeOf abi (decimalBytes n) = clamp abi n := by
  obtain ⟨b, rest, heq, hdigit⟩ := exists_cons_decimalBytes n
  obtain ⟨hspace, hminus, hplus⟩ := hdigit.not_sign
  have hread := @digits_decimalBytes n [] (by simp)
  rw [List.append_nil, heq] at hread
  have hword := abi.longEnd_lt
  have hlong : 0 < abi.longEnd := by cases abi <;> decide
  unfold sizeOf clamp
  rw [heq, List.dropWhile_cons_of_neg (by simp [hspace])]
  dsimp only
  split
  · rename_i hcons
    exact absurd (List.cons.inj hcons).1 hminus
  · rename_i hcons
    exact absurd (List.cons.inj hcons).1 hplus
  · rw [hread, Int.emod_eq_of_lt (by omega) (by omega)]
    omega

theorem clamp_pos {n : Nat} (h : 0 < n) : clamp abi n ≠ 0 := by
  have hlong : 2 ≤ abi.longEnd := by cases abi <;> decide
  unfold clamp
  omega

theorem clamp_of_lt {n : Nat} (h : n < abi.longEnd) : clamp abi n = n := by
  unfold clamp
  omega

theorem parsePairs_skip (n : Nat) (rest : Bytes) : parsePairs abi n (58 :: rest) = parsePairs abi n rest := by
  cases n with
  | zero => rfl
  | succ n => rw [parsePairs, parsePairs, strtok_skip (List.mem_singleton_self 58)]

theorem word_free {word : Bytes} (h : 58 ∉ word) : ∀ b ∈ word, b ∉ ([58] : List UInt8) := by
  intro b hb hmem
  exact h (List.mem_singleton.mp hmem ▸ hb)

/-- The last word of a pair is cut off at the colon of the next one, or at the end. -/
theorem strtok_sum (p : Pair) (pairs : List Pair) : ∃ rest,
    strtok [58] (p.sum.bytes ++ tail pairs) = some (p.sum.bytes, rest) ∧
      parsePairs abi pairs.length rest = parsePairs abi pairs.length (tail pairs) := by
  obtain ⟨hne, hfree⟩ := p.sum_word
  cases pairs with
  | nil =>
    refine ⟨[], ?_, rfl⟩
    rw [tail, List.flatMap_nil, List.append_nil]
    exact strtok_last hne (word_free hfree)
  | cons next pairs =>
    refine ⟨decimalBytes next.size ++ 58 :: next.sum.bytes ++ tail pairs, ?_, ?_⟩
    · rw [tail, List.flatMap_cons, List.cons_append]
      exact strtok_token hne (word_free hfree) (List.mem_singleton_self 58) _
    · have htail : tail (next :: pairs) = 58 :: (decimalBytes next.size ++ 58 :: next.sum.bytes ++ tail pairs) := rfl
      rw [htail, parsePairs_skip]

theorem parsePairs_tail (pairs : List Pair) :
    parsePairs abi pairs.length (tail pairs) = .pairs (pairs.map fun p => clamp abi p.size) (pairs.map Pair.sum) := by
  induction pairs with
  | nil => rfl
  | cons p pairs ih =>
    obtain ⟨rest, hsum, hrest⟩ := strtok_sum abi p pairs
    have hsize : strtok [58] (decimalBytes p.size ++ 58 :: (p.sum.bytes ++ tail pairs)) =
        some (decimalBytes p.size, p.sum.bytes ++ tail pairs) :=
      strtok_token (decimalBytes_ne_nil _) (word_free (not_mem_decimalBytes colon_not_digit)) (List.mem_singleton_self 58) _
    have htail : tail (p :: pairs) = 58 :: (decimalBytes p.size ++ 58 :: (p.sum.bytes ++ tail pairs)) := by
      simp [tail]
    rw [htail, parsePairs_skip, List.length_cons, parsePairs, hsize]
    simp only [sizeOf_decimalBytes]
    rw [if_neg (clamp_pos abi p.size_pos), hsum]
    simp only [hrest, ih, ofBytes_sum]
    rfl

theorem count_tail (pairs : List Pair) : (tail pairs).count 58 = 2 * pairs.length := by
  induction pairs with
  | nil => rfl
  | cons p pairs ih =>
    have hsize : (decimalBytes p.size).count 58 = 0 := List.count_eq_zero.mpr (not_mem_decimalBytes colon_not_digit)
    have hsum : p.sum.bytes.count 58 = 0 := List.count_eq_zero.mpr p.sum_word.2
    rw [tail, List.flatMap_cons, ← tail, List.count_append, ih, List.count_cons_self, List.count_append, hsize,
      List.count_cons_self, hsum, List.length_cons]
    omega

theorem count_bytes (s : Spec) : s.bytes.count 58 = 2 * s.pairs.length + 1 := by
  have hmagic : (magic s.type).count 58 = 0 := by cases s.type <;> decide
  have hdevice : s.device.count 58 = 0 := List.count_eq_zero.mpr fun h => (s.device_word 58 h).1 rfl
  rw [Spec.bytes, List.count_append, hmagic, List.count_cons_self, List.count_append, hdevice, count_tail]
  omega

def Spec.sizes (s : Spec) : List Nat := s.pairs.map fun p => clamp abi p.size
def Spec.sums (s : Spec) : List CString := s.pairs.map Pair.sum
def Spec.part (s : Spec) : Partition := ⟨s.type, pathOf s.device, (s.sizes abi).zip s.sums⟩

/-- A well-formed name is read as it is meant. -/
theorem loadPartitionContents_text (h : Hash) (q : Qsort) (s : Spec) (file : FileContents) :
    loadPartitionContents abi h q s.text file =
      (do
        let r ← loadPart abi h (s.part abi) (s.sizes abi) s.sums (q.run (s.sizes abi)) file
        pure (some r) : Io (Option (Int × FileContents))) := by
  have hmagic : magic s.type ≠ [] ∧ 58 ∉ magic s.type := by cases s.type <;> decide
  have hfirst : strtok [58] s.text.bytes = some (magic s.type, s.device ++ tail s.pairs) :=
    strtok_token hmagic.1 (word_free hmagic.2) (List.mem_singleton_self 58) _
  have htype : typeOf (magic s.type) = some s.type := by cases s.type <;> decide
  have hfree : 58 ∉ s.device := fun h => (s.device_word 58 h).1 rfl
  have hcount : (s.text.bytes.count 58 - 1) / 2 = s.pairs.length := by
    show (s.bytes.count 58 - 1) / 2 = _
    rw [count_bytes]
    omega
  obtain ⟨rest, hdevice, hparse⟩ : ∃ rest, strtok [58] (s.device ++ tail s.pairs) = some (s.device, rest) ∧
      parsePairs abi s.pairs.length rest = .pairs (s.sizes abi) s.sums := by
    cases hpairs : s.pairs with
    | nil => exact absurd hpairs s.pairs_ne
    | cons p pairs =>
      have htail : tail (p :: pairs) = 58 :: (decimalBytes p.size ++ 58 :: p.sum.bytes ++ tail pairs) := rfl
      have hall := parsePairs_tail abi (p :: pairs)
      rw [htail, parsePairs_skip] at hall
      refine ⟨decimalBytes p.size ++ 58 :: p.sum.bytes ++ tail pairs, ?_, ?_⟩
      · rw [htail]
        exact strtok_token s.device_ne (word_free hfree) (List.mem_singleton_self 58) _
      · rw [hall, Spec.sizes, Spec.sums, hpairs]
  have hne : s.sizes abi ≠ [] := by
    rw [Spec.sizes]
    exact fun h => s.pairs_ne (List.map_eq_nil_iff.mp h)
  unfold loadPartitionContents
  rw [hfirst]
  simp only [htype, hdevice, hcount, hparse]
  rw [if_neg hne]
  rfl

/-! ### Reading the partition -/

section Loop
variable (h : Hash) (part : Partition) (sizes : List Nat) (sums : List CString) {d : Disk}

/-- What has been read and hashed is the first `n` bytes of the partition. -/
structure Reads (content : Bytes) (n : Nat) (s : Loading h) : Prop where
  size : s.size = n
  p : s.p = n
  data : s.data = content.take n
  ctx : ∃ chunks : List Bytes, s.ctx = chunks.foldl h.update h.init ∧ chunks.flatten = content.take n

theorem Reads.final {h : Hash} {content : Bytes} {n : Nat} {s : Loading h} (hs : Reads h content n s) :
    h.final s.ctx = h.sha1 (content.take n) := by
  obtain ⟨chunks, hctx, hflat⟩ := hs.ctx
  rw [hctx, h.final_update, hflat]

/-- The pair at index `i` fits the content. -/
def Matches (content : Bytes) (i : Nat) : Prop :=
  parseSha1 (sums.getD i (CString.ofString "")) = some (h.sha1 (content.take (sizes.getD i 0)))

/-- How the loop ends: at the first index that fits, or after all of them. -/
def Ends (content : Bytes) (order : List Nat) (r : Loading h × Ending) : Prop :=
  (r.2 = .matched ∧ ∃ i ∈ order, Matches h sizes sums content i ∧
    (∀ j ∈ order, Matches h sizes sums content j → sizes.getD i 0 ≤ sizes.getD j 0) ∧
      r.1.size = sizes.getD i 0 ∧ r.1.data = content.take (sizes.getD i 0) ∧
        h.final r.1.ctx = h.sha1 (content.take (sizes.getD i 0))) ∨
  (r.2 = .ranOff ∧ ∀ i ∈ order, ¬Matches h sizes sums content i)

/-- One step of the loop reads on to the next size. -/
theorem Reads.next {h : Hash} {content : Bytes} {n m : Nat} {s : Loading h} (hs : Reads h content n s) (hle : n ≤ m) (hm : m ≤ content.length) :
    Reads h content m { s with
      data := s.data.take s.p ++ (content.drop n).take (m - n)
      size := s.size + ((content.drop n).take (m - n)).length
      ctx := if 0 < m - n then h.update s.ctx ((content.drop n).take (m - n)) else s.ctx
      p := s.p + ((content.drop n).take (m - n)).length } := by
  have hlen : ((content.drop n).take (m - n)).length = m - n := by
    rw [List.length_take, List.length_drop]
    omega
  have htake : content.take n ++ (content.drop n).take (m - n) = content.take m := by
    rw [← List.take_add, Nat.add_sub_cancel' hle]
  obtain ⟨chunks, hctx, hflat⟩ := hs.ctx
  refine ⟨?_, ?_, ?_, ?_⟩
  · dsimp only
    rw [hs.size, hlen]
    omega
  · dsimp only
    rw [hs.p, hlen]
    omega
  · dsimp only
    rw [hs.data, hs.p, List.take_take, Nat.min_self, htake]
  · dsimp only
    by_cases hlt : 0 < m - n
    · refine ⟨chunks ++ [(content.drop n).take (m - n)], ?_, ?_⟩
      · rw [if_pos hlt, List.foldl_append, hctx]
        rfl
      · rw [List.flatten_append, hflat, List.flatten_singleton, htake]
    · obtain rfl : m = n := by omega
      exact ⟨chunks, by rw [if_neg hlt, hctx], hflat⟩

theorem loadLoop_safe (order : List Nat) (s : Loading h) (n : Nat) (hs : Reads h (d.parts part.type part.device) n s)
    (hsorted : order.Pairwise fun i j => sizes.getD i 0 ≤ sizes.getD j 0)
    (hge : ∀ i ∈ order, n ≤ sizes.getD i 0)
    (hle : ∀ i ∈ order, sizes.getD i 0 ≤ (d.parts part.type part.device).length)
    (hword : ∀ i ∈ order, sizes.getD i 0 < abi.word)
    (hparse : ∀ i ∈ order, parseSha1 (sums.getD i (CString.ofString "")) ≠ none) :
    (loadLoop abi h part sizes sums order s).Safe (Disk.readStep True) (· = d)
      (fun r d' => d' = d ∧ Ends h sizes sums (d.parts part.type part.device) order r) d := by
  induction order generalizing s n with
  | nil => exact Prog.safe_pure rfl ⟨rfl, .inr ⟨rfl, by simp⟩⟩
  | cons i rest ih =>
    obtain ⟨hfirst, hrest⟩ := List.pairwise_cons.mp hsorted
    have hn := hge i List.mem_cons_self
    have hi := hle i List.mem_cons_self
    have hw := hword i List.mem_cons_self
    have hnext : (sizes.getD i 0 + abi.word - s.size) % abi.word = sizes.getD i 0 - n := by
      have hsum : sizes.getD i 0 + abi.word - s.size = sizes.getD i 0 - n + abi.word := by
        rw [hs.size]
        omega
      rw [hsum, Nat.add_mod_right, Nat.mod_eq_of_lt (by omega)]
    have hstep := hs.next hn hi
    have hlen : (((d.parts part.type part.device).drop n).take (sizes.getD i 0 - n)).length = sizes.getD i 0 - n := by
      rw [List.length_take, List.length_drop]
      omega
    rw [loadLoop]
    refine Prog.safe_bind (readNext_safe True part _ _) ?_
    rintro r d' ⟨hd', hread⟩
    subst d'
    rw [hnext, hs.size, hlen, if_neg (Nat.lt_irrefl _)] at hread
    obtain rfl := hread.resolve_right fun hfailed => hfailed.1 trivial
    dsimp only
    rw [hnext]
    cases hsum : parseSha1 (sums.getD i (CString.ofString "")) with
    | none => exact absurd hsum (hparse i List.mem_cons_self)
    | some sha1 =>
      have hmatches : Matches h sizes sums (d.parts part.type part.device) i ↔
          sha1 = h.sha1 ((d.parts part.type part.device).take (sizes.getD i 0)) := by
        rw [Matches, hsum, Option.some.injEq]
      have hfinal := hstep.final
      dsimp only at hfinal ⊢
      rw [hfinal]
      refine Prog.safe_ite (fun heq => ?_) fun hne => ?_
      · refine Prog.safe_pure rfl ⟨rfl, .inl ⟨rfl, i, List.mem_cons_self, hmatches.mpr heq.symm, ?_, hstep.size, hstep.data, hfinal⟩⟩
        intro j hj _
        rcases List.mem_cons.mp hj with rfl | hj
        · exact Nat.le_refl _
        · exact hfirst j hj
      · have hmiss : ¬Matches h sizes sums (d.parts part.type part.device) i := fun h => hne (hmatches.mp h).symm
        refine Prog.Safe.mono (ih _ _ hstep hrest (fun j hj => hfirst j hj) (fun j hj => hle j (List.mem_cons_of_mem _ hj))
          (fun j hj => hword j (List.mem_cons_of_mem _ hj)) fun j hj => hparse j (List.mem_cons_of_mem _ hj)) (fun _ h => h) ?_
        rintro r d' _ ⟨hd', hends⟩
        refine ⟨hd', hends.imp (fun hmatched => ?_) fun hran => ⟨hran.1, List.forall_mem_cons.mpr ⟨hmiss, hran.2⟩⟩⟩
        obtain ⟨hending, j, hj, hfits, hleast, hall⟩ := hmatched
        refine ⟨hending, j, List.mem_cons_of_mem _ hj, hfits, fun k hk hfitsk => ?_, hall⟩
        rcases List.mem_cons.mp hk with rfl | hk
        · exact absurd hfitsk hmiss
        · exact hleast k hk hfitsk

end Loop

/-! ### Loading -/

section Whole
variable (h : Hash)

/-- The pair's hash is that of the first bytes of the content, as many as `size` says. -/
def Fits (content : Bytes) (size : Pair → Nat) (p : Pair) : Prop := p.digest = h.sha1 (content.take (size p))

/-- A load finds the shortest content that a pair fits, if there is one. -/
structure Loaded (content : Bytes) (size : Pair → Nat) (pairs : List Pair) (ret : Int) (file : FileContents) : Prop where
  found : ret = 0 ↔ ∃ p ∈ pairs, Fits h content size p
  least : ret = 0 → ∃ p ∈ pairs, Fits h content size p ∧ (∀ o ∈ pairs, Fits h content size o → size p ≤ size o) ∧
    file.size = size p ∧ file.data = some (content.take (size p)) ∧ file.sha1 = h.sha1 (content.take (size p))

variable (q : Qsort) (s : Spec) {d : Disk}

theorem mem_run_iff {i : Nat} : i ∈ q.run (s.sizes abi) ↔ i < s.pairs.length := by
  rw [(q.perm _).mem_iff, List.mem_range, Spec.sizes, List.length_map]

theorem getD_sizes {i : Nat} (hi : i < s.pairs.length) : (s.sizes abi).getD i 0 = clamp abi s.pairs[i].size := by
  rw [Spec.sizes, List.getD_eq_getElem _ _ (by rwa [List.length_map]), List.getElem_map]

theorem getD_sums {i : Nat} (hi : i < s.pairs.length) : s.sums.getD i (CString.ofString "") = s.pairs[i].sum := by
  rw [Spec.sums, List.getD_eq_getElem _ _ (by rwa [List.length_map]), List.getElem_map]

theorem matches_iff (content : Bytes) {i : Nat} (hi : i < s.pairs.length) :
    Matches h (s.sizes abi) s.sums content i ↔ Fits h content (fun p => clamp abi p.size) s.pairs[i] := by
  rw [Matches, getD_sums s hi, s.pairs[i].parsed, getD_sizes abi s hi, Option.some.injEq]
  rfl

theorem loaded_of_ends {content : Bytes} {r : Loading h × Ending} {file : FileContents}
    (hends : Ends h (s.sizes abi) s.sums content (q.run (s.sizes abi)) r) :
    (r.2 = .matched → Loaded h content (fun p => clamp abi p.size) s.pairs 0
      { file with sha1 := h.final r.1.ctx, data := some r.1.data, size := r.1.size, st := ⟨0o644, 0, 0⟩ }) ∧
    (r.2 ≠ .matched → ∀ out, Loaded h content (fun p => clamp abi p.size) s.pairs (-1) out) := by
  rcases hends with ⟨hending, i, hi, hmatch, hleast, hsize, hdata, hsha⟩ | ⟨hending, hnone⟩
  · have hi' := (mem_run_iff abi q s).mp hi
    have hfits := (matches_iff abi h s content hi').mp hmatch
    rw [getD_sizes abi s hi'] at hsize hdata hsha
    refine ⟨fun _ => ⟨⟨fun _ => ⟨_, List.getElem_mem hi', hfits⟩, fun _ => rfl⟩, fun _ => ?_⟩, fun hne => absurd hending hne⟩
    refine ⟨_, List.getElem_mem hi', hfits, fun o ho hfitso => ?_, congrArg Int.ofNat hsize, congrArg some hdata, hsha⟩
    obtain ⟨j, hj, rfl⟩ := List.getElem_of_mem ho
    have hle := hleast j ((mem_run_iff abi q s).mpr hj) ((matches_iff abi h s content hj).mpr hfitso)
    rwa [getD_sizes abi s hi', getD_sizes abi s hj] at hle
  · refine ⟨fun hmatched => ?_, fun _ out => ⟨⟨fun h => absurd h (by decide), ?_⟩, fun h => absurd h (by decide)⟩⟩
    · rw [hending] at hmatched
      cases hmatched
    · rintro ⟨p, hp, hfits⟩
      obtain ⟨i, hi, rfl⟩ := List.getElem_of_mem hp
      exact absurd ((matches_iff abi h s content hi).mpr hfits) (hnone i ((mem_run_iff abi q s).mpr hi))

theorem load_clamped (file : FileContents)
    (hcontent : ∀ p ∈ s.pairs, clamp abi p.size ≤ (d.parts s.type (pathOf s.device)).length) :
    (loadPartitionContents abi h q s.text file).Safe (Disk.readStep True) (· = d)
      (fun r d' => d' = d ∧ ∃ ret out, r = some (ret, out) ∧
        Loaded h (d.parts s.type (pathOf s.device)) (fun p => clamp abi p.size) s.pairs ret out) d := by
  have hsizes : ∀ i ∈ q.run (s.sizes abi), ∃ hi : i < s.pairs.length, (s.sizes abi).getD i 0 = clamp abi s.pairs[i].size :=
    fun i hi => ⟨(mem_run_iff abi q s).mp hi, getD_sizes abi s _⟩
  have hword : ∀ n, clamp abi n < abi.word := by
    intro n
    have := abi.longEnd_lt
    unfold clamp
    omega
  have hloop : (loadLoop abi h (s.part abi) (s.sizes abi) s.sums (q.run (s.sizes abi)) ⟨[], 0, 0, h.init⟩).Safe
      (Disk.readStep True) (· = d) (fun r d' => d' = d ∧ Ends h (s.sizes abi) s.sums (d.parts s.type (pathOf s.device)) (q.run (s.sizes abi)) r) d := by
    refine loadLoop_safe abi h (s.part abi) (s.sizes abi) s.sums _ _ 0 ⟨rfl, rfl, rfl, [], rfl, rfl⟩ (q.sorted _)
      (fun _ _ => Nat.zero_le _) (fun i hi => ?_) (fun i hi => ?_) fun i hi => ?_
    · obtain ⟨hlt, heq⟩ := hsizes i hi
      rw [heq]
      exact hcontent _ (List.getElem_mem hlt)
    · obtain ⟨hlt, heq⟩ := hsizes i hi
      rw [heq]
      exact hword _
    · rw [getD_sums s ((mem_run_iff abi q s).mp hi), Pair.parsed]
      exact Option.some_ne_none _
  rw [loadPartitionContents_text]
  refine Prog.safe_bind (R := fun r d' => d' = d ∧ Loaded h (d.parts s.type (pathOf s.device)) (fun p => clamp abi p.size) s.pairs r.1 r.2) ?_ ?_
  · refine Prog.safe_look rfl (fun r d' hstep => hstep.1) fun opened hstep => ?_
    obtain rfl : opened = true := hstep.2 trivial
    refine Prog.safe_bind hloop ?_
    rintro r d' ⟨hd', hends⟩
    subst d'
    obtain ⟨hmatched, hmissed⟩ := @loaded_of_ends abi h q s _ _ file hends
    exact Prog.safe_ite (fun heq => Prog.safe_pure rfl ⟨rfl, hmatched heq⟩) fun hne => Prog.safe_pure rfl ⟨rfl, hmissed hne _⟩
  · rintro r d' ⟨hd', hloaded⟩
    exact Prog.safe_pure hd' ⟨hd', r.1, r.2, rfl, hloaded⟩

/-- Where the sizes fit a `long` and the partition is long enough, a load finds the shortest content that a
pair of the name fits, and succeeds exactly when there is one. -/
theorem loadPartitionContents_safe (file : FileContents) (hlong : ∀ p ∈ s.pairs, p.size < abi.longEnd)
    (hcontent : ∀ p ∈ s.pairs, p.size ≤ (d.parts s.type (pathOf s.device)).length) :
    (loadPartitionContents abi h q s.text file).Safe (Disk.readStep True) (· = d)
      (fun r d' => d' = d ∧ ∃ ret out, r = some (ret, out) ∧
        Loaded h (d.parts s.type (pathOf s.device)) Pair.size s.pairs ret out) d := by
  have hsize : ∀ p ∈ s.pairs, clamp abi p.size = p.size := fun p hp => clamp_of_lt abi (hlong p hp)
  have hfits : ∀ p ∈ s.pairs, Fits h (d.parts s.type (pathOf s.device)) (fun p => clamp abi p.size) p ↔
      Fits h (d.parts s.type (pathOf s.device)) Pair.size p := by
    intro p hp
    rw [Fits, Fits, hsize p hp]
  refine Prog.Safe.mono (load_clamped abi h q s file fun p hp => ?_) (fun _ h => h) ?_
  · rw [hsize p hp]
    exact hcontent p hp
  · rintro r d' _ ⟨hd', ret, out, rfl, hfound, hleast⟩
    refine ⟨hd', ret, out, rfl, ?_, fun h0 => ?_⟩
    · rw [hfound]
      exact exists_congr fun p => and_congr_right fun hp => hfits p hp
    · obtain ⟨p, hp, hfit, hmin, hout⟩ := hleast h0
      rw [hsize p hp] at hout
      refine ⟨p, hp, (hfits p hp).mp hfit, fun o ho hfito => ?_, hout⟩
      have := hmin o ho ((hfits o ho).mpr hfito)
      rwa [hsize p hp, hsize o ho] at this

end Whole

/-! ### Two names -/

/-- A hash that keeps what it is given. -/
def hashOf (f : Bytes → Digest) : Hash where
  Ctx := Bytes
  init := []
  update := (· ++ ·)
  final := f
  sha1 := f
  final_update := by
    intro chunks
    have hfold : ∀ soFar : Bytes, chunks.foldl (· ++ ·) soFar = soFar ++ chunks.flatten := by
      induction chunks with
      | nil => simp
      | cons chunk chunks ih =>
        intro soFar
        rw [List.foldl_cons, ih, List.flatten_cons, List.append_assoc]
    rw [hfold, List.nil_append]

def mergesort : Qsort where
  run sizes := (List.range sizes.length).mergeSort fun i j => sizes.getD i 0 ≤ sizes.getD j 0
  perm _ := List.mergeSort_perm _ _
  sorted sizes := by
    have hsorted := @List.pairwise_mergeSort Nat (fun i j => sizes.getD i 0 ≤ sizes.getD j 0)
      (fun i j k hij hjk => by simp only [decide_eq_true_eq] at *; omega)
      (fun i j => by simp only [Bool.or_eq_true, decide_eq_true_eq]; omega) (List.range sizes.length)
    exact hsorted.imp fun h => of_decide_eq_true h

/-- Twenty times the length of what is hashed. -/
def byLength : Hash := hashOf fun data => List.replicate 20 (UInt8.ofNat data.length)

def twice : Pair := ⟨2, "0202020202020202020202020202020202020202", List.replicate 20 2, by decide, by decide⟩

def once : Pair := ⟨1, "0101010101010101010101010101010101010101", List.replicate 20 1, by decide, by decide⟩

/-- `EMMC:/p:2:0202…:1:0101…` -/
def short : Spec := ⟨.EMMC, [47, 112], [twice, once], by decide, by simp, List.cons_ne_nil _ _⟩

def unloaded : FileContents := ⟨[], none, 0, ⟨0, 0, 0⟩⟩

def diskOf (content : Bytes) : Disk := ⟨fun _ => none, fun _ _ => content⟩

theorem loadPartitionContents_safe_short :
    (loadPartitionContents .ilp32 byLength mergesort short.text unloaded).Safe (Disk.readStep True) (· = diskOf [7, 7, 7])
      (fun r d' => d' = diskOf [7, 7, 7] ∧ ∃ ret out, r = some (ret, out) ∧
        Loaded byLength [7, 7, 7] Pair.size short.pairs ret out) (diskOf [7, 7, 7]) :=
  @loadPartitionContents_safe .ilp32 byLength mergesort short (diskOf [7, 7, 7]) unloaded (by decide) (by decide)

/-- Every call of a load is answered. -/
theorem answered_readPart (part : Partition) (pos len : Nat) :
    (readNext part pos len).All fun q => ∀ d : Disk, ∃ r d', d.readStep True q r d' := by
  refine Prog.all_ite (fun _ => Prog.all_ask fun d => ?_) fun _ => Prog.all_pure _
  by_cases hlen : (((d.parts part.type part.device).drop pos).take len).length < len
  · exact ⟨none, d, ⟨rfl, fun bytes h => by cases h⟩, fun _ _ => hlen⟩
  · refine ⟨some (((d.parts part.type part.device).drop pos).take len), d, ⟨rfl, fun bytes h => ?_⟩, fun _ h => by cases h⟩
    obtain rfl := Option.some.inj h
    refine ⟨rfl, Nat.le_antisymm ?_ (Nat.not_lt.mp hlen)⟩
    rw [List.length_take]
    exact Nat.min_le_left _ _

theorem answered_loadPart (abi : Abi) (h : Hash) (part : Partition) (sizes : List Nat) (sums : List CString) (order : List Nat)
    (file : FileContents) :
    (loadPart abi h part sizes sums order file).All fun q => ∀ d : Disk, ∃ r d', d.readStep True q r d' := by
  have hloop : ∀ order s, (loadLoop abi h part sizes sums order s).All fun q => ∀ d : Disk, ∃ r d', d.readStep True q r d' := by
    intro order
    induction order with
    | nil => exact fun s => Prog.all_pure _
    | cons i rest ih =>
      intro s
      refine Prog.all_bind (answered_readPart part _ _) fun r => ?_
      cases r with
      | none => exact Prog.all_pure _
      | some bytes =>
        dsimp only
        cases parseSha1 (sums.getD i (CString.ofString "")) with
        | none => exact Prog.all_pure _
        | some sha1 => exact Prog.all_ite (fun _ => Prog.all_pure _) fun _ => ih _
  refine Prog.all_bind (Prog.all_ask fun d => ⟨true, d, rfl, fun _ => rfl⟩) fun opened => ?_
  refine Prog.all_ite (fun _ => Prog.all_pure _) fun _ => Prog.all_bind (hloop order _) fun r => ?_
  exact Prog.all_ite (fun _ => Prog.all_pure _) fun _ => Prog.all_pure _

/-- 2 GiB, one byte more than a `long` counts on a 32-bit device. -/
def block : Bytes := List.replicate 2147483648 0

theorem length_block : block.length = 2147483648 := List.length_replicate

def telling : Hash := hashOf fun data => List.replicate 20 (if data.length = 2147483648 then 0 else 1)

def whole : Pair := ⟨2147483648, "0000000000000000000000000000000000000000", List.replicate 20 0, by decide, by decide⟩

/-- `EMMC:/p:2147483648:0000…` -/
def long : Spec := ⟨.EMMC, [47, 112], [whole], by decide, by simp, List.cons_ne_nil _ _⟩

/-- The hash of the whole partition is in the name, but only 2147483647 bytes of it are read. -/
theorem not_loadPartitionContents_safe :
    ¬(loadPartitionContents .ilp32 telling mergesort long.text unloaded).Safe (Disk.readStep True) (· = diskOf block)
      (fun r d' => d' = diskOf block ∧ ∃ ret out, r = some (ret, out) ∧
        Loaded telling block Pair.size long.pairs ret out) (diskOf block) := by
  have hclamp : clamp .ilp32 whole.size = 2147483647 := by decide
  have hcore := @load_clamped .ilp32 telling mergesort long (diskOf block) unloaded fun p hp => by
    rw [List.mem_singleton.mp hp, hclamp]
    show _ ≤ block.length
    rw [length_block]
    decide
  intro hsafe
  have hall : (loadPartitionContents .ilp32 telling mergesort long.text unloaded).All
      fun q => ∀ d : Disk, ∃ r d', d.readStep True q r d' := by
    rw [loadPartitionContents_text]
    exact Prog.all_bind (answered_loadPart _ _ _ _ _ _ _) fun r => Prog.all_pure _
  obtain ⟨t, r, hexec⟩ := Prog.exists_exec hall (diskOf block)
  obtain ⟨_, ret, out, rfl, hclaim⟩ := (hsafe.exec hexec).2 r rfl
  obtain ⟨_, ret', out', heq, hreal⟩ := (hcore.exec hexec).2 _ rfl
  cases heq
  have hzero : ret = 0 := by
    refine hclaim.found.mpr ⟨whole, List.mem_singleton_self _, ?_⟩
    show List.replicate 20 0 = List.replicate 20 (if (block.take 2147483648).length = 2147483648 then 0 else 1)
    rw [if_pos (by rw [List.length_take, length_block, Nat.min_self])]
  obtain ⟨p, hp, hfits⟩ := hreal.found.mp hzero
  rw [List.mem_singleton.mp hp, Fits, hclamp] at hfits
  change List.replicate 20 0 = List.replicate 20 (if (block.take 2147483647).length = 2147483648 then 0 else 1) at hfits
  rw [if_neg (by rw [List.length_take, length_block]; decide)] at hfits
  exact absurd hfits (by decide)

end Twrp.Patch.Load
