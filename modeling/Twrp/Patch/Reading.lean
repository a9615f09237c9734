import Twrp.Patch.Crash

/-! What reads find.

Where a file that is there can be read, and a partition as far as it goes, what is loaded is a
function of the disk. Where reads fail, a load gives that or nothing. -/
namespace Twrp.Patch
open Base

/-! ### What a load finds -/

/-- The possible contents of a partition in turn, as `loadPairs` tries them. -/
def findPairs (t : Tools) (content : Bytes) : List (Nat × CString) → Bytes → Option Bytes
  | [], _ => none
  | (size, sha1sum) :: rest, soFar =>
    let bytes := (content.drop soFar.length).take (size - soFar.length)
    if bytes.length < size - soFar.length then none
    else
      match parseSha1 sha1sum with
      | none => none
      | some sha1 => if t.sha1 (soFar ++ bytes) = sha1 then some (soFar ++ bytes) else findPairs t content rest (soFar ++ bytes)

/-- The data that a name gives when no read fails. -/
def Disk.load (t : Tools) (d : Disk) : Name → Option Bytes
  | .file path => (d.files path).bind t.mask
  | .part p =>
    if p.pairs.any (·.1 = 0) then none
    else findPairs t (d.parts p.type p.device) (p.pairs.insertionSort fun a b => a.1 ≤ b.1) []

/-- Calls that fail only where there is nothing to read. -/
def Readable (d : Disk) : (q : Call) → Answer q → Prop
  | .stat path, r => r = none → d.files path = none
  | .readFile path, r => r = none → d.files path = none
  | .openPart _ _, r => r = true
  | .readPart type device pos len, r => r = none → (((d.parts type device).drop pos).take len).length < len
  | _, _ => True

/-- A machine on which reads do not fail, if they are said not to. -/
def Disk.readStep (reads : Prop) (d : Disk) (q : Call) (r : Answer q) (d' : Disk) : Prop :=
  d.step q r d' ∧ (reads → Readable d q r)

/-- What a load gives: what is on the disk, or nothing where a read can fail. -/
def Finds (reads : Prop) (t : Tools) (d : Disk) (name : Name) (loaded : Option Bytes) : Prop :=
  loaded = d.load t name ∨ ¬reads ∧ loaded = none

theorem Finds.eq {t : Tools} {d : Disk} {name : Name} {loaded : Option Bytes} (h : Finds True t d name loaded) :
    loaded = d.load t name := h.resolve_right fun hfailed => hfailed.1 trivial

theorem Finds.some {reads : Prop} {t : Tools} {d : Disk} {name : Name} {data : Bytes} (h : Finds reads t d name (.some data)) :
    d.load t name = .some data := by
  rcases h with h | ⟨_, h⟩
  · exact h.symm
  · cases h

section Load
variable (reads : Prop) (t : Tools) {d : Disk}

/-- A read that gives nothing either failed or found too little. -/
theorem failed_or {missing : Prop} (h : reads → missing) : missing ∨ ¬reads := by
  by_cases hreads : reads
  · exact .inl (h hreads)
  · exact .inr hreads

theorem readNext_safe (p : Partition) (pos len : Nat) :
    (readNext p pos len).Safe (Disk.readStep reads) (· = d) (fun r d' => d' = d ∧
      ((r = if (((d.parts p.type p.device).drop pos).take len).length < len then none
        else some (((d.parts p.type p.device).drop pos).take len)) ∨ ¬reads ∧ r = none)) d := by
  refine Prog.safe_ite (fun _ => ?_) fun hlen => Prog.safe_pure rfl ⟨rfl, .inl ?_⟩
  · rw [← Prog.bind_done (Sys.readPart _ _ _ _)]
    refine Prog.safe_look rfl (fun r d' hstep => hstep.1.1) fun r hstep => Prog.safe_pure rfl ⟨rfl, ?_⟩
    cases r with
    | none =>
      rcases failed_or reads fun h => hstep.2 h rfl with hshort | hreads
      · exact .inl (if_pos hshort).symm
      · exact .inr ⟨hreads, rfl⟩
    | some bytes =>
      obtain ⟨rfl, hlen⟩ := hstep.1.2 bytes rfl
      exact .inl (if_neg (by omega)).symm
  · obtain rfl : len = 0 := by omega
    rfl

theorem loadPairs_safe (p : Partition) (pairs : List (Nat × CString)) (soFar : Bytes) (file : FileContents) :
    (loadPairs t p pairs soFar file).Safe (Disk.readStep reads) (· = d) (fun r d' => d' = d ∧
      (r.2.data = findPairs t (d.parts p.type p.device) pairs soFar ∨ ¬reads ∧ r.2.data = none)) d := by
  induction pairs generalizing soFar file with
  | nil => exact Prog.safe_pure rfl ⟨rfl, .inl rfl⟩
  | cons pair rest ih =>
    obtain ⟨size, sha1sum⟩ := pair
    rw [loadPairs, findPairs]
    refine Prog.safe_bind (readNext_safe reads p _ _) ?_
    rintro r d' ⟨hd', hread⟩
    subst d'
    rcases hread with hread | ⟨hreads, rfl⟩
    · dsimp only
      split_ifs at hread ⊢ with hshort
      · subst hread
        exact Prog.safe_pure rfl ⟨rfl, .inl rfl⟩
      · subst hread
        dsimp only
        cases parseSha1 sha1sum with
        | none => exact Prog.safe_pure rfl ⟨rfl, .inl rfl⟩
        | some sha1 =>
          dsimp only
          refine Prog.safe_ite (fun hsha => ?_) fun hsha => ?_
          · rw [if_pos hsha]
            exact Prog.safe_pure rfl ⟨rfl, .inl rfl⟩
          · rw [if_neg hsha]
            exact ih _ _
    · exact Prog.safe_pure rfl ⟨rfl, .inr ⟨hreads, rfl⟩⟩

/-- Loading gives what the disk has. -/
theorem loadFileContents_safe (name : Name) (file : FileContents) :
    (loadFileContents t name file).Safe (Disk.readStep reads) (· = d) (fun r d' => d' = d ∧ Finds reads t d name r.2.data) d := by
  cases name with
  | part p =>
    unfold loadFileContents loadPartitionContents Finds Disk.load
    dsimp only
    split_ifs with hzero
    · exact Prog.safe_pure rfl ⟨rfl, .inl rfl⟩
    · refine Prog.safe_look rfl (fun r d' hstep => hstep.1) fun opened hstep => ?_
      cases opened with
      | false =>
        refine Prog.safe_pure rfl ⟨rfl, .inr ⟨fun hreads => ?_, rfl⟩⟩
        exact absurd (hstep.2 hreads) Bool.false_ne_true
      | true => exact loadPairs_safe reads t p _ _ _
  | file path =>
    have hmissing : (reads → d.files path = none) → Finds reads t d (.file path) none := by
      intro h
      refine (failed_or reads h).imp (fun hnone => ?_) fun hreads => ⟨hreads, rfl⟩
      show none = (d.files path).bind t.mask
      rw [hnone]
      rfl
    refine Prog.safe_look rfl (fun r d' hstep => hstep.1.1) fun r hstat => ?_
    cases r with
    | none => exact Prog.safe_pure rfl ⟨rfl, hmissing fun hreads => hstat.2 hreads rfl⟩
    | some found =>
      refine Prog.safe_look rfl (fun r d' hstep => hstep.1.1) fun r hread => ?_
      cases r with
      | none => exact Prog.safe_pure rfl ⟨rfl, hmissing fun hreads => hread.2 hreads rfl⟩
      | some bytes =>
        have hload : t.mask bytes = d.load t (.file path) := by
          show _ = (d.files path).bind t.mask
          rw [hread.1.2 bytes rfl]
          rfl
        dsimp only
        cases hmask : t.mask bytes with
        | none => exact Prog.safe_pure rfl ⟨rfl, .inl (hmask.symm.trans hload)⟩
        | some masked => exact Prog.safe_pure rfl ⟨rfl, .inl (hmask.symm.trans hload)⟩

end Load

end Twrp.Patch
