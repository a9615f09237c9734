import Twrp.Zip.Archive
import Twrp.Base.Abi

/-! The whole-file signature of an update.

The file ends in six bytes: where the signature starts, two bytes of `ff`, and the size of the
archive comment. `verify_file` finds the end-of-central-directory record by the comment size,
refuses a file that has the marker of such a record once more after it, and hashes everything
before the comment length. The signature is taken from before the footer, wherever the
comment starts. -/
namespace Twrp.Zip
open Base

/-! ### The machine -/

/-- `fseek(f, -back, SEEK_END)`: the position, or `none` where it is negative or no `long`. -/
def seekEnd (abi : Abi) (size back : Nat) : Option Nat :=
  if size < back then none
  else if abi.longEnd ≤ size - back then none
  else some (size - back)

def FOOTER_SIZE : Nat := 6
def RSANUMBYTES : Nat := 256
def EOCD_HEADER_SIZE : Nat := 22
def BUFFER_SIZE : Nat := 4096
def SHA_DIGEST_SIZE : Int := 20
def SHA256_DIGEST_SIZE : Int := 32

structure Certificate (Key : Type) where
  hash_len : Int
  public_key : Key

inductive Hash where
  | sha1 (data : List UInt8)
  | sha256 (data : List UInt8)
deriving DecidableEq

/-- A call of `RSA_verify`: the signature is `len` bytes from `signature` on, counted from the
start of the buffer `eocd`. -/
structure RsaCall (Key : Type) where
  key : Key
  eocd : List UInt8
  signature : Int
  len : Nat
  hash : Hash
  hash_len : Int

/-- What the machine decides: which steps fail, and which calls of `RSA_verify` accept. -/
structure Host (Key : Type) where
  keys : Option (List (Certificate Key))
  opens : Bool
  readsFooter : Bool
  eocdAllocated : Bool
  readsEocd : Bool
  bufferAllocated : Bool
  readsData : Nat → Bool
  accepts : RsaCall Key → Bool

inductive Verdict where
  | success
  | failure
  | corrupt
deriving DecidableEq

/-! ### The file -/

/-- The two bytes of a number in the file. -/
def word16 (low high : UInt8) : Nat := low.toNat + high.toNat * 256

def footer (bytes : List UInt8) : List UInt8 := bytes.drop (bytes.length - FOOTER_SIZE)

/-- A byte of an array, which is long enough for it. -/
def byte (l : List UInt8) (i : Nat) : UInt8 := l.getD i 0

def commentSize (bytes : List UInt8) : Nat := word16 (byte (footer bytes) 4) (byte (footer bytes) 5)
def signatureStart (bytes : List UInt8) : Nat := word16 (byte (footer bytes) 0) (byte (footer bytes) 1)

/-- The marker `50 4b 05 06` at one place of the buffer. -/
def markerAt (eocd : List UInt8) (i : Nat) : Bool :=
  byte eocd i = 0x50 && byte eocd (i + 1) = 0x4b && byte eocd (i + 2) = 0x05 && byte eocd (i + 3) = 0x06

/-- The loop that reads what the signature covers into the hashes. -/
def hashLoop (reads : Nat → Bool) (bytes : List UInt8) (signedLen soFar : Nat) (hashed : List UInt8) : Option (List UInt8) :=
  if soFar < signedLen then
    let size := if signedLen - soFar < BUFFER_SIZE then signedLen - soFar else BUFFER_SIZE
    let chunk := (bytes.drop soFar).take size
    if reads soFar = false ∨ chunk.length ≠ size then none
    else hashLoop reads bytes signedLen (soFar + size) (hashed ++ chunk)
  else some hashed
termination_by signedLen - soFar
decreasing_by
  unfold BUFFER_SIZE
  split <;> omega

/-- What is known when the keys are tried. -/
structure Checked where
  start : Nat
  eocd : List UInt8
  hashed : List UInt8
deriving DecidableEq

variable {Key : Type}

/-- `verify_file` up to the keys; `none` where it gives up. -/
def checkFile (abi : Abi) (host : Host Key) (bytes : List UInt8) : Option Checked :=
  match seekEnd abi bytes.length FOOTER_SIZE with
  | none => none
  | some _ =>
    if host.readsFooter = false then none
    else if byte (footer bytes) 2 ≠ 0xff ∨ byte (footer bytes) 3 ≠ 0xff then none
    else if abi.sub (signatureStart bytes) FOOTER_SIZE < RSANUMBYTES then none
    else
      let eocdSize := commentSize bytes + EOCD_HEADER_SIZE
      match seekEnd abi bytes.length eocdSize with
      | none => none
      | some start =>
        let signedLen := (start + EOCD_HEADER_SIZE - 2) % abi.word
        if host.eocdAllocated = false then none
        else if host.readsEocd = false then none
        else
          let eocd := bytes.drop start
          if markerAt eocd 0 = false then none
          else if (List.range' 4 (abi.sub eocdSize 3 - 4)).any (markerAt eocd) then none
          else if host.bufferAllocated = false then none
          else
            match hashLoop host.readsData bytes signedLen 0 [] with
            | none => none
            | some hashed => some ⟨start, eocd, hashed⟩

/-- The bytes a key's hash is of; keys of any other digest size are passed over. -/
def hashFor (keys : List (Certificate Key)) (hashed : List UInt8) (hash_len : Int) : Option Hash :=
  let needed (size : Int) : Bool := keys.any (·.hash_len = size)
  if hash_len = SHA_DIGEST_SIZE then some (.sha1 (if needed SHA_DIGEST_SIZE then hashed else []))
  else if hash_len = SHA256_DIGEST_SIZE then some (.sha256 (if needed SHA256_DIGEST_SIZE then hashed else []))
  else none

/-- The call for one key. -/
def rsaCall (c : Checked) (key : Certificate Key) (hash : Hash) : RsaCall Key where
  key := key.public_key
  eocd := c.eocd
  signature := (c.eocd.length : Int) - 6 - RSANUMBYTES
  len := RSANUMBYTES
  hash := hash
  hash_len := key.hash_len

/-- The loop over the keys: the verdict and the calls it made. -/
def tryKeys (accepts : RsaCall Key → Bool) (keys : List (Certificate Key)) (c : Checked) :
    List (Certificate Key) → Verdict × List (RsaCall Key)
  | [] => (.failure, [])
  | key :: rest =>
    match hashFor keys c.hashed key.hash_len with
    | none => tryKeys accepts keys c rest
    | some hash =>
      let call := rsaCall c key hash
      if accepts call then (.success, [call])
      else
        let later := tryKeys accepts keys c rest
        (later.1, call :: later.2)

/-- `verify_file`, with the calls of `RSA_verify` it makes. -/
def verifyFile (abi : Abi) (host : Host Key) (bytes : List UInt8) : Verdict × List (RsaCall Key) :=
  match host.keys with
  | none => (.corrupt, [])
  | some keys =>
    if host.opens = false then (.failure, [])
    else
      match checkFile abi host bytes with
      | none => (.failure, [])
      | some c => tryKeys host.accepts keys c keys

/-! ### What is known when the keys are tried -/

theorem seekEnd_spec {abi : Abi} {size back position : Nat} (h : seekEnd abi size back = some position) :
    position + back = size ∧ position < abi.longEnd := by
  unfold seekEnd at h
  split_ifs at h
  cases h
  omega

theorem word16_lt (low high : UInt8) : word16 low high < 65536 := by
  have hlow := low.toNat_lt
  have hhigh := high.toNat_lt
  unfold word16
  omega

/-- The loop hashes the bytes up to `signedLen`, in order. -/
theorem hashLoop_spec {reads : Nat → Bool} {bytes : List UInt8} {signedLen soFar : Nat} {hashed out : List UInt8}
    (hle : soFar ≤ signedLen) (h : hashLoop reads bytes signedLen soFar hashed = some out) :
    out = hashed ++ (bytes.drop soFar).take (signedLen - soFar) := by
  induction hn : signedLen - soFar using Nat.strong_induction_on generalizing soFar hashed with
  | h n ih =>
    subst hn
    rw [hashLoop] at h
    by_cases hlt : soFar < signedLen
    · rw [if_pos hlt] at h
      dsimp only at h
      set size := if signedLen - soFar < BUFFER_SIZE then signedLen - soFar else BUFFER_SIZE with hsize
      have hbound : 0 < size ∧ size ≤ signedLen - soFar := by
        rw [hsize]
        unfold BUFFER_SIZE
        split <;> omega
      split_ifs at h
      have hrest := ih (signedLen - (soFar + size)) (by omega) (by omega) h rfl
      have hsplit : signedLen - soFar = size + (signedLen - (soFar + size)) := by omega
      rw [hrest, hsplit, List.take_add, List.drop_drop, List.append_assoc]
    · rw [if_neg hlt] at h
      cases h
      have hzero : signedLen - soFar = 0 := by omega
      rw [hzero, List.take_zero, List.append_nil]

/-- With every read done, the loop comes to its end. -/
theorem hashLoop_ends {reads : Nat → Bool} (hreads : ∀ n, reads n = true) {bytes : List UInt8} {signedLen : Nat}
    (hlen : signedLen ≤ bytes.length) (soFar : Nat) (hashed : List UInt8) :
    ∃ out, hashLoop reads bytes signedLen soFar hashed = some out := by
  induction hn : signedLen - soFar using Nat.strong_induction_on generalizing soFar hashed with
  | h n ih =>
    subst hn
    rw [hashLoop]
    by_cases hlt : soFar < signedLen
    · rw [if_pos hlt]
      dsimp only
      set size := if signedLen - soFar < BUFFER_SIZE then signedLen - soFar else BUFFER_SIZE with hsize
      have hbound : 0 < size ∧ size ≤ signedLen - soFar := by
        rw [hsize]
        unfold BUFFER_SIZE
        split <;> omega
      have hgood : ¬(reads soFar = false ∨ ((bytes.drop soFar).take size).length ≠ size) := by
        rw [hreads, List.length_take, List.length_drop]
        simp only [Bool.true_eq_false, false_or, not_not]
        omega
      rw [if_neg hgood]
      exact ih _ (by omega) _ _ rfl
    · rw [if_neg hlt]
      exact ⟨hashed, rfl⟩

theorem hashLoop_eq {reads : Nat → Bool} (hreads : ∀ n, reads n = true) {bytes : List UInt8} {signedLen : Nat}
    (hlen : signedLen ≤ bytes.length) : hashLoop reads bytes signedLen 0 [] = some (bytes.take signedLen) := by
  obtain ⟨out, hout⟩ := hashLoop_ends hreads hlen 0 []
  rw [hout, hashLoop_spec (Nat.zero_le _) hout]
  rfl

/-- The record stands where the comment size says, its marker is the last one of the file,
and the hash is of what lies before the comment length. -/
structure Checked.Sound (c : Checked) (bytes : List UInt8) : Prop where
  size : c.start + (commentSize bytes + EOCD_HEADER_SIZE) = bytes.length
  eocd : c.eocd = bytes.drop c.start
  marker : markerAt c.eocd 0 = true
  last : ∀ i, 4 ≤ i → i + 3 < commentSize bytes + EOCD_HEADER_SIZE → markerAt c.eocd i = false
  hashed : c.hashed = bytes.take (c.start + 20)

theorem checkFile_sound {abi : Abi} {host : Host Key} {bytes : List UInt8} {c : Checked}
    (h : checkFile abi host bytes = some c) : c.Sound bytes := by
  unfold checkFile at h
  cases hfooter : seekEnd abi bytes.length FOOTER_SIZE with
  | none =>
    rw [hfooter] at h
    cases h
  | some position =>
    rw [hfooter] at h
    simp only [Option.ite_none_left_eq_some] at h
    obtain ⟨_, _, _, h⟩ := h
    cases hseek : seekEnd abi bytes.length (commentSize bytes + EOCD_HEADER_SIZE) with
    | none =>
      rw [hseek] at h
      cases h
    | some start =>
      rw [hseek] at h
      simp only [Option.ite_none_left_eq_some] at h
      obtain ⟨_, _, hmarker, hlater, _, h⟩ := h
      obtain ⟨hsize, hlong⟩ := seekEnd_spec hseek
      have hword := abi.longEnd_lt
      have hcomment : commentSize bytes < 65536 := word16_lt _ _
      have hsigned : (start + EOCD_HEADER_SIZE - 2) % abi.word = start + 20 := by
        unfold EOCD_HEADER_SIZE
        rw [Nat.mod_eq_of_lt (by omega)]
        omega
      rw [hsigned] at h
      cases hloop : hashLoop host.readsData bytes (start + 20) 0 [] with
      | none =>
        rw [hloop] at h
        cases h
      | some hashed =>
        rw [hloop] at h
        cases h
        refine ⟨hsize, rfl, by simpa using hmarker, fun i hi hlt => ?_, ?_⟩
        · have hsub : abi.sub (commentSize bytes + EOCD_HEADER_SIZE) 3 = commentSize bytes + EOCD_HEADER_SIZE - 3 :=
            abi.sub_of_le (by unfold EOCD_HEADER_SIZE; omega) (by unfold EOCD_HEADER_SIZE; omega)
          rw [hsub, List.any_eq_true] at hlater
          rw [← Bool.not_eq_true]
          intro hat
          exact hlater ⟨i, List.mem_range'_1.mpr ⟨hi, by omega⟩, hat⟩
        · rw [hashLoop_spec (Nat.zero_le _) hloop]
          rfl

/-- A machine on which nothing fails, with one key and no signature that it accepts. -/
def plainHost : Host Unit where
  keys := some [⟨SHA_DIGEST_SIZE, ()⟩]
  opens := true
  readsFooter := true
  eocdAllocated := true
  readsEocd := true
  bufferAllocated := true
  readsData _ := true
  accepts _ := false

/-- What the checks before the hash ask of a file. -/
def Footed (abi : Abi) (bytes : List UInt8) (start : Nat) : Prop :=
  (seekEnd abi bytes.length FOOTER_SIZE).isSome ∧ byte (footer bytes) 2 = 0xff ∧ byte (footer bytes) 3 = 0xff ∧
    RSANUMBYTES ≤ abi.sub (signatureStart bytes) FOOTER_SIZE ∧
    seekEnd abi bytes.length (commentSize bytes + EOCD_HEADER_SIZE) = some start ∧
    markerAt (bytes.drop start) 0 = true ∧
    (List.range' 4 (abi.sub (commentSize bytes + EOCD_HEADER_SIZE) 3 - 4)).any (markerAt (bytes.drop start)) = false

instance (abi : Abi) (bytes : List UInt8) (start : Nat) : Decidable (Footed abi bytes start) :=
  inferInstanceAs (Decidable (_ ∧ _))

/-- Nothing else is asked: such a file gets to the keys. -/
theorem checkFile_plain {abi : Abi} {bytes : List UInt8} {start : Nat} (h : Footed abi bytes start) :
    checkFile abi plainHost bytes = some ⟨start, bytes.drop start, bytes.take (start + 20)⟩ := by
  obtain ⟨hfooter, hff2, hff3, hsignature, hseek, hmarker, hlater⟩ := h
  obtain ⟨position, hposition⟩ := Option.isSome_iff_exists.mp hfooter
  obtain ⟨hsize, hlong⟩ := seekEnd_spec hseek
  have hword := abi.longEnd_lt
  have hsigned : (start + EOCD_HEADER_SIZE - 2) % abi.word = start + 20 := by
    unfold EOCD_HEADER_SIZE
    rw [Nat.mod_eq_of_lt (by omega)]
    omega
  have hloop : hashLoop plainHost.readsData bytes (start + 20) 0 [] = some (bytes.take (start + 20)) :=
    hashLoop_eq (fun _ => rfl) (by unfold EOCD_HEADER_SIZE at hsize; omega)
  unfold checkFile
  rw [hposition]
  dsimp only
  rw [if_neg (by decide), if_neg (by simp [hff2, hff3]), if_neg (by omega), hseek]
  dsimp only
  rw [if_neg (by decide), if_neg (by decide), if_neg (by simp [hmarker]), if_neg (by simp [hlater]), if_neg (by decide),
    hsigned, hloop]

/-! ### Two readers, one record -/

theorem fromLe_eq_ENDSIG (a b c d : UInt8) :
    fromLe [a, b, c, d] = ENDSIG ↔ a = 0x50 ∧ b = 0x4b ∧ c = 0x05 ∧ d = 0x06 := by
  have ha := a.toNat_lt
  have hb := b.toNat_lt
  have hc := c.toNat_lt
  have hd := d.toNat_lt
  simp only [fromLe, ENDSIG, ← UInt8.toNat_inj]
  simp only [UInt8.reduceToNat]
  omega

theorem take_four {l : List UInt8} {p : Nat} (h : p + 4 ≤ l.length) :
    (l.drop p).take 4 = [byte l p, byte l (p + 1), byte l (p + 2), byte l (p + 3)] := by
  have hbyte : ∀ i (hi : p + i < l.length), byte l (p + i) = l.get ⟨p + i, hi⟩ := by
    intro i hi
    unfold byte
    rw [List.getD_eq_getElem?_getD, List.getElem?_eq_getElem hi]
    rfl
  have hdrop : ∀ i (hi : p + i < l.length), l.drop (p + i) = byte l (p + i) :: l.drop (p + i + 1) := by
    intro i hi
    rw [hbyte i hi]
    exact List.drop_eq_getElem_cons hi
  have h0 := hdrop 0 (by omega)
  rw [Nat.add_zero] at h0
  rw [h0, hdrop 1 (by omega), hdrop 2 (by omega), hdrop 3 (by omega)]
  rfl

/-- Where four bytes are left, both readers test for the same marker. -/
theorem isEnd_iff {map : List UInt8} {p : Nat} (h : p + 4 ≤ map.length) : isEnd map p = true ↔ markerAt map p = true := by
  have hfirst : map[p]? = some (byte map p) := by
    unfold byte
    rw [List.getD_eq_getElem?_getD, List.getElem?_eq_getElem (show p < map.length by omega)]
    rfl
  unfold isEnd markerAt get4LE
  rw [hfirst, take_four h]
  simp only [Bool.and_eq_true, decide_eq_true_eq, Option.some.injEq, fromLe_eq_ENDSIG]
  tauto

theorem markerAt_drop (map : List UInt8) (start i : Nat) : markerAt (map.drop start) i = markerAt map (start + i) := by
  have hbyte : ∀ j, byte (map.drop start) j = byte map (start + j) := by
    intro j
    unfold byte
    rw [List.getD_eq_getElem?_getD, List.getD_eq_getElem?_getD, List.getElem?_drop]
  unfold markerAt
  simp only [hbyte, Nat.add_assoc]

/-- A marker cannot start inside another one. -/
theorem not_marker_inside {map : List UInt8} {p : Nat} (h : markerAt map p = true) {i : Nat} (hi : 0 < i) (hlt : i < 4) :
    markerAt map (p + i) = false := by
  simp only [markerAt, Bool.and_eq_true, decide_eq_true_eq] at h
  obtain ⟨⟨⟨h0, h1⟩, h2⟩, h3⟩ := h
  have hne : byte map (p + i) ≠ 0x50 := by
    obtain rfl | rfl | rfl : i = 1 ∨ i = 2 ∨ i = 3 := by omega
    · rw [h1]
      decide
    · rw [h2]
      decide
    · rw [h3]
      decide
  unfold markerAt
  rw [decide_eq_false hne]
  rfl

theorem Checked.Sound.findEnd {c : Checked} {bytes : List UInt8} (h : c.Sound bytes) :
    findEnd bytes (bytes.length - ENDHDR) = some c.start := by
  have hsize := h.size
  unfold EOCD_HEADER_SIZE at hsize
  have hstart : markerAt bytes c.start = true := by
    have hmarker := h.marker
    rwa [h.eocd, markerAt_drop, Nat.add_zero] at hmarker
  refine findEnd_of_last ((isEnd_iff (by omega)).mpr hstart) (by unfold ENDHDR; omega) fun p hp htop => ?_
  unfold ENDHDR at htop
  obtain ⟨i, rfl⟩ := Nat.exists_eq_add_of_lt hp
  rw [← Bool.not_eq_true, isEnd_iff (by omega), Bool.not_eq_true, Nat.add_assoc]
  -- the loop of the verifier starts behind the marker it has found
  by_cases hinside : i + 1 < 4
  · exact not_marker_inside hstart (by omega) hinside
  · have hlast := h.last (i + 1) (by omega) (by unfold EOCD_HEADER_SIZE; omega)
    rwa [h.eocd, markerAt_drop] at hlast

/-- **Both readers see one archive.** When `verify_file` gets to the keys, the backward scan of
the zip reader ends at the record it has checked, and the entry count and the offset of the
central directory are read from the bytes that were hashed. -/
theorem end_record_signed {abi : Abi} {host : Host Key} {bytes : List UInt8} {c : Checked}
    (h : checkFile abi host bytes = some c) :
    findEnd bytes (bytes.length - ENDHDR) = some c.start ∧ c.hashed <+: bytes ∧
      ∀ e, openEnd bytes = some e → e.ptr = c.start ∧
        e.ptr + ENDSUB + 2 ≤ c.hashed.length ∧ e.numEntries = get2LE c.hashed (e.ptr + ENDSUB) ∧
        e.ptr + ENDOFF + 4 ≤ c.hashed.length ∧ e.cdOffset = get4LE c.hashed (e.ptr + ENDOFF) := by
  have hsound := checkFile_sound h
  have hfind := hsound.findEnd
  have hsize := hsound.size
  unfold EOCD_HEADER_SIZE at hsize
  refine ⟨hfind, ?_, fun e he => ?_⟩
  · rw [hsound.hashed]
    exact List.take_prefix _ _
  · unfold openEnd at he
    split_ifs at he
    obtain ⟨hptr, hentries, hoffset⟩ := readEnd_fields hfind he
    have hlen : c.hashed.length = c.start + 20 := by
      rw [hsound.hashed, List.length_take]
      omega
    have hsub : get2LE c.hashed (c.start + ENDSUB) = get2LE bytes (c.start + ENDSUB) := by
      rw [hsound.hashed, get2LE_take bytes (by unfold ENDSUB; omega)]
    have hoff : get4LE c.hashed (c.start + ENDOFF) = get4LE bytes (c.start + ENDOFF) := by
      rw [hsound.hashed, get4LE_take bytes (by unfold ENDOFF; omega)]
    rw [hptr, hlen, hsub, hoff]
    exact ⟨rfl, by unfold ENDSUB; omega, hentries, by unfold ENDOFF; omega, hoffset⟩

/-- A file with one local header, an end record for one entry, and a comment that holds a
signature and the footer. -/
def signedZip : List UInt8 :=
  [0x50, 0x4b, 3, 4] ++ [0x50, 0x4b, 5, 6, 0, 0, 0, 0, 1, 0, 1, 0, 0, 0, 0, 0, 0, 0, 0, 0, 6, 1] ++
    List.replicate 256 0 ++ [6, 1, 0xff, 0xff, 6, 1]

theorem checkFile_signedZip :
    checkFile .ilp32 plainHost signedZip = some ⟨4, signedZip.drop 4, signedZip.take 24⟩ :=
  checkFile_plain (by decide +kernel)

theorem end_record_signedZip :
    findEnd signedZip (signedZip.length - ENDHDR) = some 4 ∧ openEnd signedZip = some ⟨4, 1, 0⟩ ∧
      get2LE (signedZip.take 24) 12 = 1 := by
  obtain ⟨hfind, _, hfields⟩ := end_record_signed checkFile_signedZip
  have hopen : openEnd signedZip = some ⟨4, 1, 0⟩ := by decide +kernel
  obtain ⟨_, _, hentries, _⟩ := hfields _ hopen
  exact ⟨hfind, hopen, hentries.symm⟩

/-! ### Where the signature is taken from -/

def Hash.data : Hash → List UInt8
  | sha1 data => data
  | sha256 data => data

theorem hashFor_data {keys : List (Certificate Key)} {key : Certificate Key} (hkey : key ∈ keys) {hashed : List UInt8}
    {hash : Hash} (h : hashFor keys hashed key.hash_len = some hash) : hash.data = hashed := by
  have hneeded : keys.any (fun k => k.hash_len = key.hash_len) = true := by
    rw [List.any_eq_true]
    exact ⟨key, hkey, decide_eq_true rfl⟩
  unfold hashFor at h
  dsimp only at h
  split_ifs at h with h1 h1' h2 h2'
  · cases h
    rfl
  · rw [← h1] at h1'
    exact absurd hneeded h1'
  · cases h
    rfl
  · rw [← h2] at h2'
    exact absurd hneeded h2'

/-- Every call is the call for one of the keys, with the hash of what was read. -/
theorem mem_tryKeys {accepts : RsaCall Key → Bool} {keys rest : List (Certificate Key)} {c : Checked}
    (hrest : ∀ k ∈ rest, k ∈ keys) {call : RsaCall Key} (h : call ∈ (tryKeys accepts keys c rest).2) :
    ∃ key hash, call = rsaCall c key hash ∧ hash.data = c.hashed := by
  induction rest with
  | nil => cases h
  | cons key rest ih =>
    have hlater := ih fun k hk => hrest k (List.mem_cons_of_mem key hk)
    rw [tryKeys] at h
    cases hhash : hashFor keys c.hashed key.hash_len with
    | none =>
      rw [hhash] at h
      exact hlater h
    | some hash =>
      have hcall : call = rsaCall c key hash → ∃ key hash, call = rsaCall c key hash ∧ hash.data = c.hashed :=
        fun heq => ⟨key, hash, heq, hashFor_data (hrest key List.mem_cons_self) hhash⟩
      rw [hhash] at h
      dsimp only at h
      split_ifs at h
      · exact hcall (List.mem_singleton.mp h)
      · rcases List.mem_cons.mp h with heq | hin
        · exact hcall heq
        · exact hlater hin

theorem mem_verifyFile {abi : Abi} {host : Host Key} {bytes : List UInt8} {call : RsaCall Key}
    (h : call ∈ (verifyFile abi host bytes).2) :
    ∃ c key hash, checkFile abi host bytes = some c ∧ call = rsaCall c key hash ∧ hash.data = c.hashed := by
  unfold verifyFile at h
  cases hkeys : host.keys with
  | none =>
    rw [hkeys] at h
    cases h
  | some keys =>
    rw [hkeys] at h
    dsimp only at h
    split_ifs at h
    · cases h
    · cases hcheck : checkFile abi host bytes with
      | none =>
        rw [hcheck] at h
        cases h
      | some c =>
        rw [hcheck] at h
        obtain ⟨key, hash, hcall⟩ := mem_tryKeys (fun _ hk => hk) h
        exact ⟨c, key, hash, rfl, hcall⟩

/-- The signature of a call lies in the buffer, in the archive comment, which is what follows
the header in the buffer, and in the file behind all that was hashed. -/
structure RsaCall.Inside (call : RsaCall Key) (bytes : List UInt8) : Prop where
  buffer : 0 ≤ call.signature ∧ call.signature + call.len ≤ call.eocd.length
  comment : (EOCD_HEADER_SIZE : Int) ≤ call.signature
  hashed : (call.hash.data.length : Int) ≤ bytes.length - call.eocd.length + call.signature

/-- **The signature bytes.** The buffer of every call is the end of the file, and the signature
lies inside the comment exactly when the comment holds a signature and the footer. -/
theorem signature_inside_iff {abi : Abi} {host : Host Key} {bytes : List UInt8} {call : RsaCall Key}
    (h : call ∈ (verifyFile abi host bytes).2) :
    call.eocd <:+ bytes ∧ (call.Inside bytes ↔ FOOTER_SIZE + RSANUMBYTES ≤ commentSize bytes) := by
  obtain ⟨c, key, hash, hcheck, rfl, hdata⟩ := mem_verifyFile h
  have hsound := checkFile_sound hcheck
  have hsize := hsound.size
  unfold EOCD_HEADER_SIZE at hsize
  have heocd : c.eocd.length = commentSize bytes + 22 := by
    rw [hsound.eocd, List.length_drop]
    omega
  have hhashed : c.hashed.length = c.start + 20 := by
    rw [hsound.hashed, List.length_take]
    omega
  have hsignature : (rsaCall c key hash).signature = (c.eocd.length : Int) - 6 - 256 := rfl
  constructor
  · show c.eocd <:+ bytes
    rw [hsound.eocd]
    exact List.drop_suffix _ _
  · unfold FOOTER_SIZE RSANUMBYTES
    constructor
    · intro hinside
      have hcomment := hinside.comment
      rw [hsignature, heocd] at hcomment
      unfold EOCD_HEADER_SIZE at hcomment
      omega
    · intro hlong
      refine ⟨⟨?_, ?_⟩, ?_, ?_⟩
      · rw [hsignature, heocd]
        omega
      · show (rsaCall c key hash).signature + (256 : Nat) ≤ (c.eocd.length : Int)
        rw [hsignature]
        omega
      · rw [hsignature, heocd]
        unfold EOCD_HEADER_SIZE
        omega
      · show (hash.data.length : Int) ≤ bytes.length - (c.eocd.length : Int) + (rsaCall c key hash).signature
        rw [hsignature, hdata, hhashed]
        omega

theorem verifyFile_plain {abi : Abi} {bytes : List UInt8} {start : Nat} (h : Footed abi bytes start) :
    (verifyFile abi plainHost bytes).2 =
      [rsaCall ⟨start, bytes.drop start, bytes.take (start + 20)⟩ ⟨SHA_DIGEST_SIZE, ()⟩ (.sha1 (bytes.take (start + 20)))] := by
  have hkeys : plainHost.keys = some [⟨SHA_DIGEST_SIZE, ()⟩] := rfl
  unfold verifyFile
  rw [hkeys]
  dsimp only
  rw [if_neg (by decide), checkFile_plain h]
  rfl

theorem signature_inside_signedZip : ∃ call ∈ (verifyFile .ilp32 plainHost signedZip).2, call.Inside signedZip := by
  obtain ⟨call, hmem⟩ : ∃ call, call ∈ (verifyFile .ilp32 plainHost signedZip).2 := by
    rw [verifyFile_plain (show Footed .ilp32 signedZip 4 by decide +kernel)]
    exact ⟨_, List.mem_singleton_self _⟩
  exact ⟨call, hmem, (signature_inside_iff hmem).2.mpr (by decide +kernel)⟩

/-- A file whose footer says that the signature starts 65535 bytes before the end, in a
comment that is the footer alone. -/
def bareZip : List UInt8 :=
  [0x50, 0x4b, 5, 6] ++ List.replicate 16 0 ++ [6, 0] ++ [0xff, 0xff, 0xff, 0xff, 6, 0]

/-- The signature is then taken from before the buffer. -/
theorem signature_before_buffer :
    ∃ call ∈ (verifyFile .ilp32 plainHost bareZip).2, call.signature = -234 ∧ ¬call.Inside bareZip := by
  rw [verifyFile_plain (show Footed .ilp32 bareZip 0 by decide)]
  refine ⟨_, List.mem_singleton_self _, rfl, fun hinside => ?_⟩
  exact absurd hinside.buffer.1 (by decide)

end Twrp.Zip
