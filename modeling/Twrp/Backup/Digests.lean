import Twrp.Base.Path
import Mathlib

/-! The MD5 files of a backup.

`Make_MD5` writes a file with the digest of each archive of a partition, and `Check_MD5` reads
them before a restore. An archive is one file, or parts that are numbered by three digits; both
functions count the parts up from `000` as long as there is one. What fails on the way (a file
that cannot be opened, a read that stops early, a write that comes out short) is given for each
archive (`Pattern`). -/
namespace Twrp.Backup.Digests
open Base

inductive Archive where
  | whole
  | part (n : Nat)
deriving DecidableEq

/-- The archives of a partition: one file, or numbered parts. -/
structure Folder where
  whole : Option (List UInt8)
  part : Nat → Option (List UInt8)
  /-- The writers go up to 999. -/
  limit : ∀ n, 1000 ≤ n → part n = none
  exclusive : whole.isSome → ∀ n, part n = none

namespace Folder

def content (f : Folder) : Archive → Option (List UInt8)
  | .whole => f.whole
  | .part n => f.part n

end Folder

/-- The name of an archive, after the name of the backup. -/
def fileName (name : List UInt8) : Archive → List UInt8
  | .whole => name
  | .part n => name ++ (padded 3 n).map fun c => UInt8.ofNat c.toNat

/-! ### The digest -/

/-- `%x` of a number below sixteen -/
def hexDigit (n : Nat) : UInt8 := UInt8.ofNat (if n < 10 then 48 + n else 87 + n)

/-- `%02x` -/
def hexByte (b : UInt8) : List UInt8 := [hexDigit (b.toNat / 16), hexDigit (b.toNat % 16)]

def hexText (digest : Vector UInt8 16) : List UInt8 := digest.toList.flatMap hexByte

def isSpace (b : UInt8) : Bool := b == 32 || (9 ≤ b && b ≤ 13)

/-- The next word of a stream (`>>` into a string). -/
def firstWord (text : List UInt8) : Option (List UInt8) :=
  match text.dropWhile isSpace with
  | [] => none
  | b :: rest => some ((b :: rest).takeWhile (!isSpace ·))

section Digest
variable (md5 : List UInt8 → Vector UInt8 16)

/-- What `write_md5digest` puts into the file. -/
def digestText (name : List UInt8) (a : Archive) (digest : Vector UInt8 16) : List UInt8 :=
  hexText digest ++ [32, 32] ++ fileName name a ++ [10]

/-! ### Making the files -/

/-- How the steps on an archive come out. -/
structure Pattern (f : Folder) where
  opens : Archive → Bool
  /-- what is read before the end or an error -/
  reads : Archive → List UInt8
  /-- how much of the text is written, and nothing where the file cannot be opened -/
  writes : Archive → Option Nat
  reads_prefix : ∀ a content, f.content a = some content → reads a <+: content

variable {f : Folder} (p : Pattern f)

/-- `computeMD5`, of which an early end of the reads is not told from the end of the file. -/
def computeMD5 (a : Archive) : Option (Vector UInt8 16) := if p.opens a then some (md5 (p.reads a)) else none

/-- The MD5 files by archive. -/
abbrev Files := Archive → Option (List UInt8)

/-- `write_md5digest`, which returns 0 whatever `write_file` returns. -/
def writeMd5Digest (name : List UInt8) (a : Archive) (digest : Vector UInt8 16) (files : Files) : Files :=
  match p.writes a with
  | none => files
  | some k => Function.update files a (some ((digestText name a digest).take k))

/-- The loop of `Make_MD5` over the parts from `index` on. It is left with `return -1`, which is
`true`, where a digest cannot be computed. -/
def makeParts (name : List UInt8) : Nat → Nat → Files → Files
  | 0, _, files => files
  | fuel + 1, index, files =>
    if (f.part index).isSome then
      match computeMD5 md5 p (.part index) with
      | none => files
      | some digest => makeParts name fuel (index + 1) (writeMd5Digest p name (.part index) digest files)
    else files

/-- `Make_MD5` in a folder without MD5 files: what it returns, and the files there are. -/
def makeMD5 (name : List UInt8) : Bool × Files :=
  if f.whole.isSome then
    match computeMD5 md5 p .whole with
    | some digest => (true, writeMd5Digest p name .whole digest fun _ => none)
    | none => (true, fun _ => none)
  else if (f.part 0).isSome then (true, makeParts md5 p name 1000 0 fun _ => none)
  else (false, fun _ => none)

/-! ### Checking them -/

/-- `verify_md5digest` on a file that can be read: what it returns and the line that is kept,
and nothing where `tokens.at(0)` throws. -/
def verifyMd5Digest (files : Files) (a : Archive) (content line : List UInt8) : Option (Int × List UInt8) :=
  match files a with
  | none => some (-1, line)
  | some text =>
    let line := (firstWord text).getD line
    match firstWord line with
    | none => none
    | some word => some (if word = hexText (md5 content) then 0 else -2, line)

/-- The loop of `Check_MD5`. -/
def checkParts (f : Folder) (files : Files) : Nat → Nat → List UInt8 → Option Bool
  | 0, _, _ => some true
  | fuel + 1, index, line =>
    match f.part index with
    | none => some true
    | some content =>
      match verifyMd5Digest md5 files (.part index) content line with
      | none => none
      | some (ret, line) => if ret = 0 then checkParts f files fuel (index + 1) line else some false

/-- `Check_MD5` -/
def checkMD5 (f : Folder) (files : Files) : Option Bool :=
  match f.whole with
  | none => if (files (.part 0)).isSome then checkParts md5 f files 1000 0 [] else some false
  | some content =>
    if (files .whole).isSome then (verifyMd5Digest md5 files .whole content []).map (·.1 = 0) else some false

/-! ### What is asked of them -/

/-- Everything works on an archive. -/
def Pattern.Flawless (name : List UInt8) (a : Archive) (content : List UInt8) : Prop :=
  p.opens a = true ∧ p.reads a = content ∧ ∃ k, p.writes a = some k ∧ (digestText name a (md5 content)).length ≤ k

/-- A reported success means that every archive has its digest, which `Check_MD5` accepts, and
what fails is reported. -/
def Covers (name : List UInt8) : Prop :=
  ((makeMD5 md5 p name).1 = true →
    (∀ a content, f.content a = some content → (makeMD5 md5 p name).2 a = some (digestText name a (md5 content))) ∧
      checkMD5 md5 f (makeMD5 md5 p name).2 = some true) ∧
  ((∃ a content, f.content a = some content ∧ ¬p.Flawless md5 name a content) → (makeMD5 md5 p name).1 = false)

/-- The parts are numbered without a gap. -/
def Folder.Contiguous (f : Folder) : Prop := ∀ n, (f.part (n + 1)).isSome → (f.part n).isSome

end Digest

/-! ### The text of a digest -/

theorem isSpace_hexByte (b : UInt8) : ∀ c ∈ hexByte b, isSpace c = false := by
  have hdigit : ∀ n < 16, isSpace (hexDigit n) = false := by decide
  have hb := b.toNat_lt
  intro c hc
  simp only [hexByte, List.mem_cons, List.not_mem_nil, or_false] at hc
  rcases hc with rfl | rfl
  · exact hdigit _ (by omega)
  · exact hdigit _ (Nat.mod_lt _ (by decide))

theorem isSpace_hexText (d : Vector UInt8 16) : ∀ c ∈ hexText d, isSpace c = false := by
  intro c hc
  obtain ⟨b, -, hc⟩ := List.mem_flatMap.mp hc
  exact isSpace_hexByte b c hc

theorem hexText_ne_nil (d : Vector UInt8 16) : hexText d ≠ [] := by
  have hlen : (hexText d).length = 32 := by
    rw [hexText, List.length_flatMap]
    have hmap : d.toList.map (fun b => (hexByte b).length) = d.toList.map fun _ => 2 := rfl
    rw [hmap]
    simp
  intro h
  rw [h] at hlen
  cases hlen

/-- A word that stands at the front, before a space or the end. -/
theorem firstWord_append {word rest : List UInt8} (hne : word ≠ []) (hword : ∀ c ∈ word, isSpace c = false)
    (hrest : ∀ c ∈ rest.head?, isSpace c = true) : firstWord (word ++ rest) = some word := by
  cases word with
  | nil => exact absurd rfl hne
  | cons b word =>
    have hb : isSpace b = false := hword b List.mem_cons_self
    have hdrop : ((b :: word) ++ rest).dropWhile isSpace = b :: (word ++ rest) := by
      simp [hb]
    have htake : (b :: (word ++ rest)).takeWhile (!isSpace ·) = b :: word := by
      have hall : ∀ c ∈ b :: word, (!isSpace c) = true := by
        intro c hc
        simp [hword c hc]
      rw [← List.cons_append, List.takeWhile_append_of_pos hall]
      cases rest with
      | nil => simp
      | cons c rest => simp [hrest c rfl]
    rw [firstWord, hdrop]
    exact congrArg some htake

theorem firstWord_hexText (d : Vector UInt8 16) : firstWord (hexText d) = some (hexText d) := by
  have h : firstWord (hexText d ++ []) = some (hexText d) :=
    firstWord_append (hexText_ne_nil d) (isSpace_hexText d) (by simp)
  rwa [List.append_nil] at h

theorem firstWord_digestText (name : List UInt8) (a : Archive) (d : Vector UInt8 16) :
    firstWord (digestText name a d) = some (hexText d) := by
  rw [digestText, List.append_assoc, List.append_assoc]
  apply firstWord_append (hexText_ne_nil d) (isSpace_hexText d)
  intro c hc
  obtain rfl : 32 = c := Option.some.inj hc
  rfl

section Digest
variable {md5 : List UInt8 → Vector UInt8 16} {f : Folder} {p : Pattern f} {name : List UInt8}

/-- A file with the digest of what is read is accepted. -/
theorem verify_digestText {files : Files} {a : Archive} {content : List UInt8}
    (h : files a = some (digestText name a (md5 content))) (line : List UInt8) :
    verifyMd5Digest md5 files a content line = some (0, hexText (md5 content)) := by
  simp only [verifyMd5Digest, h, firstWord_digestText, Option.getD_some, firstWord_hexText, if_true]

theorem checkParts_true {files : Files}
    (h : ∀ n content, f.part n = some content → files (.part n) = some (digestText name (.part n) (md5 content)))
    (fuel index : Nat) (line : List UInt8) : checkParts md5 f files fuel index line = some true := by
  induction fuel generalizing index line with
  | zero => rfl
  | succ fuel ih =>
    rw [checkParts]
    cases hpart : f.part index with
    | none => rfl
    | some content =>
      simp only [verify_digestText (h index content hpart), if_true]
      exact ih (index + 1) _

/-! ### The loop over the parts -/

theorem write_flawless {a : Archive} {content : List UInt8} (h : p.Flawless md5 name a content) (files : Files) :
    computeMD5 md5 p a = some (md5 content) ∧
      writeMd5Digest p name a (md5 content) files =
        Function.update files a (some (digestText name a (md5 content))) := by
  obtain ⟨hopens, hreads, k, hwrites, hk⟩ := h
  constructor
  · rw [computeMD5, if_pos hopens, hreads]
  · rw [writeMd5Digest, hwrites]
    simp only [List.take_of_length_le hk]

theorem write_other {a b : Archive} (h : b ≠ a) (digest : Vector UInt8 16) (files : Files) :
    writeMd5Digest p name a digest files b = files b := by
  unfold writeMd5Digest
  cases p.writes a with
  | none => rfl
  | some k => exact Function.update_of_ne h _ _

/-- Without a gap and without a failure every part gets its digest; the others are left as they
are. -/
theorem makeParts_flawless (hcontiguous : f.Contiguous)
    (hflawless : ∀ n content, f.part n = some content → p.Flawless md5 name (.part n) content) (fuel index : Nat)
    (files : Files) :
    (∀ n content, index ≤ n → n < index + fuel → f.part n = some content →
      makeParts md5 p name fuel index files (.part n) = some (digestText name (.part n) (md5 content))) ∧
    ∀ n < index, makeParts md5 p name fuel index files (.part n) = files (.part n) := by
  induction fuel generalizing index files with
  | zero => exact ⟨fun n content hle hlt => absurd hlt (by omega), fun n _ => rfl⟩
  | succ fuel ih =>
    rw [makeParts]
    cases hpart : f.part index with
    | none =>
      -- nothing is there from the first gap on
      have hnone : ∀ k, f.part (index + k) = none := by
        intro k
        induction k with
        | zero => exact hpart
        | succ k ihk =>
          cases hsome : f.part (index + (k + 1)) with
          | none => rfl
          | some content =>
            have hprev := hcontiguous (index + k) (by rw [Nat.add_assoc, hsome]; rfl)
            rw [ihk] at hprev
            cases hprev
      refine ⟨fun n content hle _ hn => ?_, fun n _ => rfl⟩
      have hgap := hnone (n - index)
      rw [Nat.add_sub_cancel' hle, hn] at hgap
      cases hgap
    | some content =>
      obtain ⟨hcompute, hwrite⟩ := write_flawless (hflawless index content hpart) files
      simp only [Option.isSome_some, if_true, hcompute, hwrite]
      obtain ⟨hlater, hearlier⟩ := ih (index + 1) (Function.update files (.part index)
        (some (digestText name (.part index) (md5 content))))
      refine ⟨fun n content' hle hlt hn => ?_, fun n hn => ?_⟩
      · rcases Nat.eq_or_lt_of_le hle with rfl | hlt'
        · rw [hearlier index (by omega), Function.update_self]
          rw [hpart] at hn
          rw [Option.some.inj hn]
        · exact hlater n content' hlt' (by omega) hn
      · rw [hearlier n (by omega), Function.update_of_ne]
        simp only [ne_eq, Archive.part.injEq]
        omega

/-- A part after a gap is not reached. -/
theorem makeParts_gap {n k : Nat} (hk : f.part k = none) (hlt : k < n) (fuel index : Nat) (hle : index ≤ k) (files : Files) :
    makeParts md5 p name fuel index files (.part n) = files (.part n) := by
  induction fuel generalizing index files with
  | zero => rfl
  | succ fuel ih =>
    rw [makeParts]
    split
    · rename_i hsome
      have hne : index ≠ k := by
        intro heq
        rw [heq, hk] at hsome
        cases hsome
      cases computeMD5 md5 p (.part index) with
      | none => rfl
      | some digest =>
        simp only
        have hother : Archive.part n ≠ .part index := by
          simp only [ne_eq, Archive.part.injEq]
          omega
        rw [ih (index + 1) (by omega), write_other hother]
    · rfl

/-! ### Exactly when the digests cover the archives -/

theorem covers_of_flawless (hcontiguous : f.Contiguous)
    (hflawless : ∀ a content, f.content a = some content → p.Flawless md5 name a content) : Covers md5 p name := by
  refine ⟨fun hok => ?_, fun ⟨a, content, ha, hnot⟩ => absurd (hflawless a content ha) hnot⟩
  cases hwhole : f.whole with
  | some whole =>
    obtain ⟨hcompute, hwrite⟩ := write_flawless (hflawless .whole whole hwhole) fun _ => none
    have hmake : makeMD5 md5 p name =
        (true, Function.update (fun _ => none) .whole (some (digestText name .whole (md5 whole)))) := by
      simp only [makeMD5, hwhole, Option.isSome_some, if_true, hcompute, hwrite]
    have hfile : (makeMD5 md5 p name).2 .whole = some (digestText name .whole (md5 whole)) := by
      rw [hmake]
      simp
    constructor
    · intro a content ha
      cases a with
      | whole =>
        rw [show content = whole from Option.some.inj (ha.symm.trans hwhole)]
        exact hfile
      | part n =>
        have hnone := f.exclusive (by rw [hwhole]; rfl) n
        exact absurd (hnone.symm.trans ha) (by simp)
    · simp only [checkMD5, hwhole, hfile, Option.isSome_some, if_true, verify_digestText hfile]
      rfl
  | none =>
    have hpart : (f.part 0).isSome = true := by
      by_contra hnot
      simp [makeMD5, hwhole, hnot] at hok
    have hmake : makeMD5 md5 p name = (true, makeParts md5 p name 1000 0 fun _ => none) := by
      simp only [makeMD5, hwhole, hpart, Option.isSome_none, Bool.false_eq_true, if_false, if_true]
    have hfiles : ∀ n content, f.part n = some content →
        (makeMD5 md5 p name).2 (.part n) = some (digestText name (.part n) (md5 content)) := by
      intro n content hn
      have hlt : n < 1000 := by
        by_contra hge
        rw [f.limit n (by omega)] at hn
        cases hn
      rw [hmake]
      exact (makeParts_flawless hcontiguous (fun n => hflawless (.part n)) 1000 0 _).1 n content (by omega) (by omega) hn
    constructor
    · intro a content ha
      cases a with
      | whole => exact absurd (hwhole.symm.trans ha) (by simp)
      | part n => exact hfiles n content ha
    · obtain ⟨content, hcontent⟩ := Option.isSome_iff_exists.mp hpart
      have hsome : ((makeMD5 md5 p name).2 (.part 0)).isSome = true := by
        rw [hfiles 0 content hcontent]
        rfl
      simp only [checkMD5, hwhole, hsome, if_true]
      exact checkParts_true hfiles 1000 0 []

theorem makeMD5_eq_false_iff : (makeMD5 md5 p name).1 = false ↔ f.whole = none ∧ f.part 0 = none := by
  unfold makeMD5
  cases hwhole : f.whole with
  | some whole => cases computeMD5 md5 p .whole <;> simp
  | none => cases hpart : f.part 0 <;> simp

end Digest

/-- **The digests cover the archives** exactly where `Make_MD5` finds nothing to do, or the
parts have no gap and everything works on every archive. -/
theorem covers_iff (md5 : List UInt8 → Vector UInt8 16) {f : Folder} (p : Pattern f) (name : List UInt8) :
    Covers md5 p name ↔ f.whole = none ∧ f.part 0 = none ∨
      f.Contiguous ∧ ∀ a content, f.content a = some content → p.Flawless md5 name a content := by
  constructor
  · intro ⟨hdone, hfailed⟩
    by_cases hok : (makeMD5 md5 p name).1 = false
    · exact .inl (makeMD5_eq_false_iff.mp hok)
    · right
      obtain ⟨hfiles, -⟩ := hdone (by simpa using hok)
      constructor
      · intro n hn
        by_contra hgap
        rw [Bool.not_eq_true, Option.isSome_eq_false_iff, Option.isNone_iff_eq_none] at hgap
        obtain ⟨content, hcontent⟩ := Option.isSome_iff_exists.mp hn
        have hfile := hfiles (.part (n + 1)) content hcontent
        have hwhole : f.whole = none := by
          cases hw : f.whole with
          | none => rfl
          | some whole => exact absurd ((f.exclusive (by rw [hw]; rfl) (n + 1)).symm.trans hcontent) (by simp)
        have hpart : (f.part 0).isSome = true := by
          by_contra hnot
          exact hok (makeMD5_eq_false_iff.mpr ⟨hwhole, by simpa using hnot⟩)
        simp only [makeMD5, hwhole, hpart, Option.isSome_none, Bool.false_eq_true, if_false, if_true] at hfile
        rw [makeParts_gap hgap (Nat.lt_succ_self n) 1000 0 (Nat.zero_le n)] at hfile
        cases hfile
      · intro a content ha
        by_contra hnot
        exact hok (hfailed ⟨a, content, ha, hnot⟩)
  · rintro (hnothing | ⟨hcontiguous, hflawless⟩)
    · have hfalse := (@makeMD5_eq_false_iff md5 f p name).mpr hnothing
      refine ⟨fun hok => ?_, fun _ => hfalse⟩
      rw [hfalse] at hok
      cases hok
    · exact covers_of_flawless hcontiguous hflawless

/-- The digest of a file with one NUL, and of nothing else. -/
def nulDigest : List UInt8 → Vector UInt8 16 := fun _ =>
  #v[0x93, 0xb8, 0x85, 0xad, 0xfe, 0x0d, 0xa0, 0x89, 0xcd, 0xf6, 0x34, 0x90, 0x4f, 0xd5, 0x9f, 0x71]

def oneFile : Folder := ⟨some [0], fun _ => none, fun _ _ => rfl, fun _ _ => rfl⟩

/-- The archive cannot be opened. -/
def closed : Pattern oneFile := ⟨fun _ => false, fun _ => [], fun _ => none, fun _ _ _ => List.nil_prefix⟩

/-- A digest that could not be computed is reported as made. -/
theorem not_covers_closed : ¬Covers nulDigest closed [120] := by
  intro h
  have hfailed : (makeMD5 nulDigest closed [120]).1 = false := by
    apply h.2
    exact ⟨.whole, [0], rfl, fun hflawless => Bool.false_ne_true hflawless.1⟩
  exact absurd hfailed (by decide)

end Twrp.Backup.Digests
