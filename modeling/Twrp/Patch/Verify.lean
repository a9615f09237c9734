import Twrp.Patch.Disk

/-! What is read back after an EMMC device was written.

`writeEmmc` writes and reads back up to ten times. The calls of a run are noted attempt by
attempt (`attemptsOf`): where the first write was made, and what was read from the start of the
device on. Nothing is assumed about the answers, so writes may be short, calls interrupted and
blocks come back different from what was written. -/
namespace Twrp.Patch
open Base

/-! ### Attempts -/

/-- What an attempt to write and verify did. -/
structure Attempt where
  /-- the offset of its first write -/
  start : Option Nat
  /-- what was read, from offset 0 on without a gap -/
  readBack : Bytes

/-- Goes through the calls of a run; the latest attempt comes first. -/
def Attempt.note : List Attempt → Sigma Answer → List Attempt
  | attempts, ⟨.patience, _⟩ => ⟨none, []⟩ :: attempts
  | a :: attempts, ⟨.writeDevice _ pos _, _⟩ => {a with start := some (a.start.getD pos)} :: attempts
  | a :: attempts, ⟨.readDevice _ pos _, .got bytes⟩ =>
    {a with readBack := if pos = a.readBack.length then a.readBack ++ bytes else a.readBack} :: attempts
  | attempts, _ => attempts

def attemptsOf (log : List (Sigma Answer)) : List Attempt := log.foldl Attempt.note []

/-- No byte before `pos` came back different, and none was left out. -/
def Agrees (data readBack : Bytes) (pos : Nat) : Prop := ∀ i < pos, readBack[i]? = data[i]?

/-- Every attempt starts where the one before it had found no difference yet. -/
def Resumes (data : Bytes) (attempts : List Attempt) : Prop :=
  attempts.IsChain fun next a => ∀ pos ∈ next.start, Agrees data a.readBack pos

theorem agrees_of_take {data readBack : Bytes} {pos : Nat} (h : readBack.take pos = data.take pos) : Agrees data readBack pos := by
  intro i hi
  rw [← List.getElem?_take_of_lt hi, h, List.getElem?_take_of_lt hi]

/-! ### One attempt -/

section Attempt
variable (device : Path) (data : Bytes) (attempts : List Attempt)

theorem writeFrom_noted (fuel start : Nat) (first : Option Nat) (readBack : Bytes) :
    (writeFrom device data fuel start).Post fun log _ =>
      log.foldl Attempt.note (⟨first, readBack⟩ :: attempts) =
        ⟨if start < data.length then some (first.getD start) else first, readBack⟩ :: attempts := by
  induction fuel generalizing start first with
  | zero =>
    intro log r hrun
    cases hrun with
    | call e _ => exact e.elim
  | succ fuel ih =>
    apply Prog.post_ite
    · intro hlt
      refine Prog.post_call (Prog.logs_ask _) fun r => ?_
      have hnext : ∀ pos, (if pos < data.length then some ((some (first.getD start)).getD pos) else some (first.getD start)) =
          if start < data.length then some (first.getD start) else first := by
        intro pos
        rw [if_pos hlt, Option.getD_some, ite_self]
      cases r with
      | error => exact Prog.post_pure (by rw [if_pos hlt]; rfl)
      | interrupted => exact (ih start (some (first.getD start))).mono fun log r h => h.trans (by rw [hnext])
      | got written => exact (ih (start + written) (some (first.getD start))).mono fun log r h => h.trans (by rw [hnext])
    · intro hdone
      exact Prog.post_pure (by rw [if_neg hdone]; rfl)

/-- The buffer is what was read. -/
theorem readBuffer_noted (pos toRead fuel : Nat) (soFar : Bytes) (first : Option Nat) (readBack : Bytes)
    (hpos : readBack.length = pos + soFar.length) :
    (readBuffer device pos toRead fuel soFar).Post fun log r => ∃ more,
      log.foldl Attempt.note (⟨first, readBack⟩ :: attempts) = ⟨first, readBack ++ more⟩ :: attempts ∧
        ∀ buffer ∈ r, buffer = soFar ++ more := by
  induction fuel generalizing soFar readBack with
  | zero =>
    intro log r hrun
    cases hrun with
    | call e _ => exact e.elim
  | succ fuel ih =>
    apply Prog.post_ite
    · intro _
      refine Prog.post_call (Prog.logs_ask _) fun r => ?_
      cases r with
      | error =>
        refine Prog.post_pure ⟨[], ?_, fun buffer h => by cases h⟩
        rw [List.append_nil]
        rfl
      | interrupted => exact ih soFar readBack hpos
      | got bytes =>
        have hlen : (readBack ++ bytes).length = pos + (soFar ++ bytes).length := by
          rw [List.length_append, List.length_append, hpos, Nat.add_assoc]
        refine (ih (soFar ++ bytes) (readBack ++ bytes) hlen).mono fun log r h => ?_
        obtain ⟨more, hnoted, hbuffer⟩ := h
        refine ⟨bytes ++ more, ?_, fun buffer h => ?_⟩
        · rw [List.foldl_cons, Attempt.note, if_pos hpos.symm, hnoted, List.append_assoc]
        · rw [hbuffer buffer h, List.append_assoc]
    · intro _
      refine Prog.post_pure ⟨[], ?_, fun buffer h => ?_⟩
      · rw [List.append_nil]
        rfl
      · rw [List.append_nil]
        exact (Option.some.inj h).symm

/-- The verification stops at the end only where all that was read is the data; else it stops no later than
at the first difference. -/
theorem verifyFrom_noted (patience fuel p : Nat) (first : Option Nat) :
    (verifyFrom device data patience fuel p).Post fun log r => ∃ readBack,
      log.foldl Attempt.note (⟨first, data.take p⟩ :: attempts) = ⟨first, readBack⟩ :: attempts ∧
        ∀ stop ∈ r, Agrees data readBack stop ∧ (stop = data.length → readBack = data) := by
  induction fuel generalizing p with
  | zero =>
    intro log r hrun
    cases hrun with
    | call e _ => exact e.elim
  | succ fuel ih =>
    apply Prog.post_ite
    · intro hlt
      have hpos : (data.take p).length = p + ([] : Bytes).length := by
        rw [List.length_take]
        simp only [List.length_nil]
        omega
      refine Prog.post_bind (readBuffer_noted device attempts p _ patience [] first (data.take p) hpos) fun log r h => ?_
      obtain ⟨more, hnoted, hbuffer⟩ := h
      cases r with
      | none =>
        refine Prog.post_pure ⟨data.take p ++ more, ?_, fun stop h => by cases h⟩
        rw [List.append_nil, hnoted]
      | some buffer =>
        have hmore : more = buffer := (hbuffer buffer rfl).symm
        subst hmore
        apply Prog.post_ite
        · intro hsame
          refine (ih (p + 4096)).mono fun log' r h => ?_
          obtain ⟨readBack, hrest, hstop⟩ := h
          refine ⟨readBack, ?_, hstop⟩
          rw [List.foldl_append, hnoted, ← hrest, List.take_add, ← hsame]
        · intro hdiffers
          refine Prog.post_pure ⟨data.take p ++ more, ?_, fun stop h => ?_⟩
          · rw [List.append_nil, hnoted]
          · obtain rfl := Option.some.inj h
            refine ⟨agrees_of_take ?_, fun hend => absurd hlt (by omega)⟩
            rw [List.take_append_of_le_length (by rw [List.length_take]; omega), List.take_take, Nat.min_self]
    · intro hdone
      refine Prog.post_pure ⟨data.take p, rfl, fun stop h => ?_⟩
      obtain rfl := Option.some.inj h
      rw [List.take_of_length_le (Nat.not_lt.mp hdone)]
      exact ⟨fun _ _ => rfl, fun _ => rfl⟩

end Attempt

/-! ### All attempts -/

section Attempts
variable (device : Path) (data : Bytes)

theorem attempts_noted (n start : Nat) (before : List Attempt) (hbefore : Resumes data before)
    (hstart : ∀ a ∈ before.head?, Agrees data a.readBack start) :
    (attempts device data n start).Post fun log r =>
      Resumes data (log.foldl Attempt.note before) ∧
        (r = some true → ∃ a ∈ (log.foldl Attempt.note before).head?, a.readBack = data) := by
  induction n generalizing start before with
  | zero => exact Prog.post_pure ⟨hbefore, fun h => by cases h⟩
  | succ n ih =>
    refine Prog.post_call (Prog.logs_ask _) fun patience => ?_
    have hbegun : ∀ first readBack, (first = none ∨ first = some start) → Resumes data (⟨first, readBack⟩ :: before) := by
      intro first readBack hfirst
      refine List.isChain_cons.mpr ⟨fun a ha pos hpos => ?_, hbefore⟩
      rcases hfirst with rfl | rfl
      · cases hpos
      · rw [← Option.some.inj hpos]
        exact hstart a ha
    have hfirst : (if start < data.length then some ((none : Option Nat).getD start) else none) = none ∨
        (if start < data.length then some ((none : Option Nat).getD start) else none) = some start := by
      by_cases hlt : start < data.length
      · right
        rw [if_pos hlt, Option.getD_none]
      · left
        rw [if_neg hlt]
    refine Prog.post_bind (writeFrom_noted device data before patience start none []) fun log r hwritten => ?_
    cases r with
    | none =>
      refine Prog.post_pure ⟨?_, fun h => by cases h⟩
      rw [List.append_nil, List.foldl_cons, Attempt.note, hwritten]
      exact hbegun _ _ hfirst
    | some _ =>
      refine Prog.post_bind (verifyFrom_noted device data before patience (data.length + 1) 0
        (if start < data.length then some ((none : Option Nat).getD start) else none)) fun log' r hverified => ?_
      obtain ⟨readBack, hnoted, hstop⟩ := hverified
      rw [List.take_zero] at hnoted
      have hall : (⟨.patience, patience⟩ :: (log ++ log')).foldl Attempt.note before =
          ⟨if start < data.length then some ((none : Option Nat).getD start) else none, readBack⟩ :: before := by
        rw [List.foldl_cons, Attempt.note, List.foldl_append, hwritten, hnoted]
      cases r with
      | none =>
        refine Prog.post_pure ⟨?_, fun h => by cases h⟩
        rw [List.append_nil, hall]
        exact hbegun _ _ hfirst
      | some stop =>
        obtain ⟨hagrees, hend⟩ := hstop stop rfl
        apply Prog.post_ite
        · intro hstopped
          refine Prog.post_pure ⟨?_, fun _ => ?_⟩
          · rw [List.append_nil, hall]
            exact hbegun _ _ hfirst
          · rw [List.append_nil, hall]
            exact ⟨_, rfl, hend hstopped⟩
        · intro _
          refine (ih stop _ (hbegun _ readBack hfirst) fun a ha => ?_).mono fun log'' r h => ?_
          · rw [← Option.some.inj ha]
            exact hagrees
          · rw [← List.append_assoc, ← List.cons_append, List.foldl_append, hall]
            exact h

/-- Whatever the device answers, every retry resumes no later than at the first byte that came back different,
and where the write is reported as done the last attempt has read all of the data back. -/
theorem writeToPartition_verified (pairs : List (Nat × CString)) :
    (writeToPartition ⟨.EMMC, device, pairs⟩ data).Post fun log ret =>
      Resumes data (attemptsOf log) ∧ (ret = 0 → ∃ a ∈ (attemptsOf log).head?, a.readBack = data) := by
  have hfailed : ∀ {log : List (Sigma Answer)}, Resumes data (attemptsOf log) →
      Resumes data (attemptsOf log) ∧ ((-1 : Int) = 0 → ∃ a ∈ (attemptsOf log).head?, a.readBack = data) :=
    fun h => ⟨h, fun h => absurd h (by decide)⟩
  refine Prog.post_call (Prog.logs_ask _) fun opened => ?_
  cases opened with
  | false => exact Prog.post_pure (hfailed List.isChain_nil)
  | true =>
    refine Prog.post_bind (attempts_noted device data 10 0 [] List.isChain_nil fun a h => by cases h) fun log r h => ?_
    obtain ⟨hresumes, hread⟩ := h
    have hopened : ∀ l, attemptsOf (⟨.openDevice device, true⟩ :: (log ++ l)) = l.foldl Attempt.note (log.foldl Attempt.note []) := by
      intro l
      rw [attemptsOf, List.foldl_cons, List.foldl_append]
      rfl
    cases r with
    | none =>
      refine Prog.post_pure (hfailed ?_)
      rw [hopened]
      exact hresumes
    | some success =>
      cases success with
      | false =>
        refine Prog.post_pure (hfailed ?_)
        rw [hopened]
        exact hresumes
      | true =>
        refine Prog.post_call (Prog.logs_ask _) fun closed => ?_
        have hclosed : ∀ as : List Attempt, Attempt.note as ⟨.closeDevice device, closed⟩ = as := by
          intro as
          cases as <;> rfl
        cases closed with
        | false =>
          refine Prog.post_pure (hfailed ?_)
          rw [hopened, List.foldl_cons, hclosed]
          exact hresumes
        | true =>
          refine Prog.post_pure ?_
          rw [hopened, List.foldl_cons, hclosed]
          exact ⟨hresumes, fun _ => hread rfl⟩

end Attempts

end Twrp.Patch
