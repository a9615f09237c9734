import Twrp.Boot.Args

/-! The partition sizes asked of the cLK bootloader (`clkpartmgr`).

The arguments are the sizes partitions should at least have, as `name:blocks`, and what recovery should do
after the reboot. The partitions that are too small are listed in the bootloader block, below the command.
The text is put together in arrays of `main` that nothing sets before it is added to: what it becomes
depends on what they held, and so `main` takes them as an argument. -/
namespace Twrp.Boot.Clkpartmgr
open Base

/-- What `main` asks of the flash. -/
structure Device where
  /-- There is a partition called `lk`. -/
  lk : Bool
  /-- `partition_size`, in blocks; zero where there is no such partition. -/
  blocks : List UInt8 → Nat
  /-- The write size of `misc` and its first pages, where they can be read. -/
  misc : Option (Nat × List UInt8)
  /-- `misc` can be written. -/
  writable : Bool

/-- Why a run breaks off: an array is written past its end, a token is missing, an array is read that has
no end. -/
inductive Stop where
  | overflow | missing | endless
deriving DecidableEq

/-- The variables of `main`. `buff`, `mtd_name` and `cmd_arg` are left out: they are written before each
use, so that only their sizes matter. -/
structure Vars where
  bootRecovery : Field 1024
  tmp : Field 896
  parts : Field 64
  argError : Bool
  writeMsg : Nat
  restore : Bool
  update : Bool

/-- `strcpy` into an array that is not read again. -/
def room (n : Nat) (s : List UInt8) : Except Stop Unit := if s.length < n then .ok () else .error .overflow

def write {α : Type} : Option α → Except Stop α
  | some a => .ok a
  | none => .error .overflow

/-- `strtok`, where the token is used whether there is one or not. -/
def token (delim : UInt8) (text : List UInt8) : Except Stop (List UInt8 × List UInt8) :=
  match strtok [delim] text with
  | some r => .ok r
  | none => .error .missing

/-- `strtoul` in base ten, with 32 bits. -/
def strtoul (text : List UInt8) : Nat :=
  match text.dropWhile fun b => b == 32 || (9 ≤ b && b ≤ 13) with
  | 45 :: rest =>
    let n := CString.digits rest 0
    if 4294967295 < n then 4294967295 else (4294967296 - n) % 4294967296
  | 43 :: rest => min 4294967295 (CString.digits rest 0)
  | rest => min 4294967295 (CString.digits rest 0)

def restoreName : CString := "--restore"
def updateName : CString := "--update_package"
def partitionsName : CString := "--partitions"

/-- The partition is there and smaller than asked. -/
def Small (dev : Device) (name size : List UInt8) : Prop := 0 < dev.blocks name ∧ dev.blocks name < strtoul size

instance (dev : Device) (name size : List UInt8) : Decidable (Small dev name size) := inferInstanceAs (Decidable (_ ∧ _))

/-- The size of a partition is checked. -/
def checkSize (dev : Device) (v : Vars) (arg : CString) (name size : List UInt8) : Except Stop Vars :=
  if Small dev name size then do
    let tmp ← write (v.tmp.strcat arg)
    let tmp ← write (tmp.strcat newline)
    pure { v with writeMsg := v.writeMsg + 1, tmp }
  else pure v

/-- An argument with a colon. -/
def sizeArg (dev : Device) (v : Vars) (arg : CString) : Except Stop Vars := do
  room 130 arg.bytes
  let (name, rest) ← token 58 arg.bytes
  room 32 name
  let (size, _) ← token 58 rest
  checkSize dev v arg name size

/-- What a message asks, by its name; `rest` is what follows the name and its `=`. -/
def takeMsg (v : Vars) (arg : CString) (cmdArg rest : List UInt8) : Except Stop Vars :=
  if cmdArg = restoreName.bytes then
    if v.restore = false ∧ v.update = false then do
      let bootRecovery ← write (v.bootRecovery.strcpy arg)
      pure { v with restore := true, bootRecovery }
    else pure v
  else if cmdArg = updateName.bytes then
    if v.update = false ∧ v.restore = false then do
      let bootRecovery ← write (v.bootRecovery.strcpy arg)
      pure { v with update := true, bootRecovery }
    else pure v
  else if cmdArg = partitionsName.bytes then
    if v.update = false then do
      let parts := v.parts.setHead 124
      let (text, _) ← token 61 rest
      let parts ← write (parts.strcat (CString.ofBytes text))
      pure { v with parts }
    else pure { v with argError := true }
  else pure v

/-- An argument with an equals sign and no colon. -/
def msgArg (v : Vars) (arg : CString) : Except Stop Vars := do
  room 130 arg.bytes
  let (cmdArg, rest) ← token 61 arg.bytes
  room 64 cmdArg
  takeMsg v arg cmdArg rest

/-- One turn of the loop. -/
def step (dev : Device) (v : Vars) (arg : CString) : Except Stop Vars :=
  if 58 ∈ arg.bytes then sizeArg dev v arg
  else if 61 ∈ arg.bytes then msgArg v arg
  else pure v

def loop (dev : Device) : Vars → List CString → Except Stop Vars
  | v, [] => pure v
  | v, arg :: args => do
    let v ← step dev v arg
    loop dev v args

/-- An array as the string it holds. -/
def text {n : Nat} (f : Field n) : Except Stop CString := if f.Ends then .ok ⟨f.text, f.nul_not_mem_text⟩ else .error .endless

/-- The text of the message. -/
def message (v : Vars) : Except Stop Message := do
  let parts ← if v.restore then text v.parts else pure (CString.ofBytes [])
  let bootRecovery ← write (v.bootRecovery.strcat parts)
  let bootRecovery ← write (bootRecovery.strcat newline)
  let tmp ← text v.tmp
  let bootRecovery ← write (bootRecovery.strcat tmp)
  let recovery ← write ((Field.zero 1024).strcpy (← text bootRecovery))
  pure { command := Field.zero 32, status := Field.zero 32, recovery }

/-- `set_bootloader_msg`: the pages of `misc` as they are written, with the message in the second. -/
def setBootloaderMsg (dev : Device) (boot : Message) : Option (List UInt8) :=
  match dev.misc with
  | none => none
  | some (writeSize, data) =>
    let bytes := boot.command.bytes ++ boot.status.bytes ++ boot.recovery.bytes
    if dev.writable then some (data.take writeSize ++ bytes ++ data.drop (writeSize + bytes.length)) else none

/-- How `main` ends. -/
inductive Outcome where
  | noLk
  | usage
  | enough
  | failed
  /-- The message, and the pages that hold it. -/
  | written (boot : Message) (pages : List UInt8)
  | stopped (why : Stop)

/-- `main`, with what the arrays held before. -/
def main (dev : Device) (bootRecovery : Field 1024) (tmp : Field 896) (parts : Field 64) (args : List CString) : Outcome :=
  if dev.lk = false then .noLk
  else if args = [] then .usage
  else
    let v : Vars := ⟨bootRecovery, tmp, parts, false, 0, false, false⟩
    match loop dev v args with
    | .error why => .stopped why
    | .ok v =>
      if v.argError then .usage
      else if v.writeMsg = 0 then .enough
      else
        match message v with
        | .error why => .stopped why
        | .ok boot =>
          match setBootloaderMsg dev boot with
          | none => .failed
          | some pages => .written boot pages

/-! ### The message as it is meant -/

/-- An argument that starts with a name and an equals sign. -/
def named (name arg : CString) : Bool := name.bytes ++ [61] <+: arg.bytes

/-- The first argument that is a command. -/
def firstCommand (args : List CString) : Option CString := args.find? fun arg => named restoreName arg || named updateName arg

/-- The text behind `--partitions=`, where it is given. -/
def partitionTexts (args : List CString) : List (List UInt8) :=
  (args.filter (named partitionsName ·)).map fun arg => arg.bytes.drop (partitionsName.bytes.length + 1)

/-- An argument asks for more than the partition has. -/
def Enlarges (dev : Device) (arg : CString) : Bool :=
  match strtok [58] arg.bytes with
  | none => false
  | some (name, rest) =>
    match strtok [58] rest with
    | none => false
    | some (size, _) => 58 ∈ arg.bytes ∧ Small dev name size

/-- The sizes to change, one per line. -/
def sizeLines (dev : Device) (args : List CString) : List UInt8 := (args.filter (Enlarges dev ·)).flatMap fun arg => arg.bytes ++ [10]

/-- The text that should be left for the bootloader. -/
def expected (dev : Device) (args : List CString) : List UInt8 :=
  let command := (firstCommand args).elim [] CString.bytes
  let partitions :=
    if (firstCommand args).any (named restoreName ·) ∧ partitionTexts args ≠ [] then 124 :: (partitionTexts args).flatten else []
  command ++ partitions ++ 10 :: sizeLines dev args

/-- Whatever the arrays held, none is written past its end, and a message that is written is the one that
is meant. -/
def Sound (dev : Device) (args : List CString) : Prop :=
  ∀ bootRecovery tmp parts,
    main dev bootRecovery tmp parts args ≠ .stopped .overflow ∧
    ∀ boot pages, main dev bootRecovery tmp parts args = .written boot pages → boot.recovery.text = expected dev args

/-! ### Arguments that leave the arrays alone -/

/-- What the loop makes of an argument. -/
inductive Arg where
  | size (name : List UInt8) (size : Option (List UInt8))
  | msg (cmdArg rest : List UInt8)
  /-- A colon or an equals sign, and no token. -/
  | bare
  | other

def parse (arg : CString) : Arg :=
  if 58 ∈ arg.bytes then
    match strtok [58] arg.bytes with
    | none => .bare
    | some (name, rest) => .size name ((strtok [58] rest).map Prod.fst)
  else if 61 ∈ arg.bytes then
    match strtok [61] arg.bytes with
    | none => .bare
    | some (cmdArg, rest) => .msg cmdArg rest
  else .other

/-- Every argument the loop comes to fits into the arrays it is copied to, and none is added to one: no
partition is smaller than asked, and partitions are not named unless for an update, which is an error. The
loop comes to the first argument that lacks a token, and to no later one. -/
def Harmless (dev : Device) : (restore update : Bool) → List CString → Prop
  | _, _, [] => True
  | restore, update, arg :: args =>
    match parse arg with
    | .other => Harmless dev restore update args
    | .bare => arg.length < 130
    | .size name none => arg.length < 130 ∧ name.length < 32
    | .size name (some size) => arg.length < 130 ∧ name.length < 32 ∧ ¬ Small dev name size ∧ Harmless dev restore update args
    | .msg cmdArg rest =>
      arg.length < 130 ∧ cmdArg.length < 64 ∧
      if cmdArg = restoreName.bytes then Harmless dev (restore || !update) update args
      else if cmdArg = updateName.bytes then Harmless dev restore (update || !restore) args
      else if cmdArg = partitionsName.bytes ∧ update = false then strtok [61] rest = none
      else Harmless dev restore update args

theorem room_pos {n : Nat} {s : List UInt8} (h : s.length < n) : room n s = .ok () := if_pos h

theorem room_neg {n : Nat} {s : List UInt8} (h : ¬ s.length < n) : room n s = .error .overflow := if_neg h

/-- A turn of the loop, by what the argument is. -/
theorem step_eq (dev : Device) (v : Vars) (arg : CString) :
    step dev v arg =
      (match parse arg with
      | .other => .ok v
      | .bare => do
        room 130 arg.bytes
        .error .missing
      | .size name none => do
        room 130 arg.bytes
        room 32 name
        .error .missing
      | .size name (some size) => do
        room 130 arg.bytes
        room 32 name
        checkSize dev v arg name size
      | .msg cmdArg rest => do
        room 130 arg.bytes
        room 64 cmdArg
        takeMsg v arg cmdArg rest) := by
  unfold step parse
  by_cases hcolon : 58 ∈ arg.bytes
  · simp only [if_pos hcolon, sizeArg, token]
    cases strtok [58] arg.bytes with
    | none => rfl
    | some r =>
      cases htok : strtok [58] r.2 <;> simp [bind, Except.bind, htok]
  · simp only [if_neg hcolon]
    by_cases hequals : 61 ∈ arg.bytes
    · simp only [if_pos hequals, msgArg, token]
      cases strtok [61] arg.bytes <;> rfl
    · simp only [if_neg hequals]
      rfl

/-- An array without an end. -/
def Full {n : Nat} (f : Field n) : Prop := f.text.length = n

theorem strcat_full {n : Nat} {f : Field n} (h : Full f) (s : CString) : f.strcat s = none := by
  unfold Field.strcat
  rw [dif_neg]
  rw [List.length_append, h]
  omega

theorem full_setHead {f : Field 64} (h : Full f) : Full (f.setHead 124) := by
  obtain ⟨bytes, hlength⟩ := f
  have hall : ∀ b ∈ bytes, (b != 0) = true := by
    have heq : bytes.takeWhile (· != 0) = bytes := (List.takeWhile_sublist _).eq_of_length (h.trans hlength.symm)
    exact List.takeWhile_eq_self_iff.mp heq
  have hset : ∀ b ∈ bytes.set 0 124, (b != 0) = true := by
    intro b hb
    rcases List.mem_or_eq_of_mem_set hb with hb | rfl
    · exact hall b hb
    · rfl
  show ((bytes.set 0 124).takeWhile (· != 0)).length = 64
  rw [List.takeWhile_eq_self_iff.mpr hset, List.length_set, hlength]

/-- The loop goes on with the arrays it adds to as they were. -/
structure Untouched (dev : Device) (v : Vars) (arg : CString) (v' : Vars) : Prop where
  tmp : v'.tmp = v.tmp
  parts : v'.parts = v.parts
  writeMsg : v'.writeMsg = v.writeMsg
  harmless (args : List CString) : Harmless dev v.restore v.update (arg :: args) ↔ Harmless dev v'.restore v'.update args

/-- A message that fits: it names the partitions of a backup, or leaves the arrays alone. -/
theorem takeMsg_cases (dev : Device) (v : Vars) {arg : CString} {cmdArg rest : List UInt8} (hparse : parse arg = .msg cmdArg rest)
    (harg : arg.length < 130) (hcmd : cmdArg.length < 64) :
    (takeMsg v arg cmdArg rest = .error .missing ∧ ∀ args, Harmless dev v.restore v.update (arg :: args)) ∨
    (∃ v', takeMsg v arg cmdArg rest = .ok v' ∧ Untouched dev v arg v') ∨
    ((∀ args, ¬ Harmless dev v.restore v.update (arg :: args)) ∧
      (Full v.parts → takeMsg v arg cmdArg rest = .error .overflow)) := by
  have hcopy : ∃ f, v.bootRecovery.strcpy arg = some f :=
    Option.isSome_iff_exists.mp (Field.strcpy_isSome.mpr (Nat.lt_trans harg (by decide)))
  obtain ⟨f, hf⟩ := hcopy
  have hharmless (args : List CString) :
      Harmless dev v.restore v.update (arg :: args) ↔
        if cmdArg = restoreName.bytes then Harmless dev (v.restore || !v.update) v.update args
        else if cmdArg = updateName.bytes then Harmless dev v.restore (v.update || !v.restore) args
        else if cmdArg = partitionsName.bytes ∧ v.update = false then strtok [61] rest = none
        else Harmless dev v.restore v.update args := by
    rw [Harmless, hparse]
    simp only [harg, hcmd, true_and]
  unfold takeMsg
  by_cases hrestore : cmdArg = restoreName.bytes
  · simp only [if_pos hrestore] at hharmless ⊢
    right; left
    split
    · rename_i hfirst
      refine ⟨{ v with restore := true, bootRecovery := f }, by rw [hf]; rfl, rfl, rfl, rfl, ?_⟩
      intro args
      rw [hharmless, hfirst.1, hfirst.2]
      rfl
    · rename_i hlater
      refine ⟨v, rfl, rfl, rfl, rfl, ?_⟩
      intro args
      rw [hharmless]
      cases hr : v.restore <;> cases hu : v.update <;> simp_all
  simp only [if_neg hrestore] at hharmless ⊢
  by_cases hupdate : cmdArg = updateName.bytes
  · simp only [if_pos hupdate] at hharmless ⊢
    right; left
    split
    · rename_i hfirst
      refine ⟨{ v with update := true, bootRecovery := f }, by rw [hf]; rfl, rfl, rfl, rfl, ?_⟩
      intro args
      rw [hharmless, hfirst.1, hfirst.2]
      rfl
    · refine ⟨v, rfl, rfl, rfl, rfl, ?_⟩
      intro args
      rw [hharmless]
      cases hr : v.restore <;> cases hu : v.update <;> simp_all
  simp only [if_neg hupdate] at hharmless ⊢
  by_cases hpartitions : cmdArg = partitionsName.bytes
  · simp only [if_pos hpartitions] at hharmless ⊢
    cases hu : v.update with
    | true =>
      right; left
      refine ⟨{ v with argError := true, update := true }, rfl, rfl, rfl, rfl, ?_⟩
      intro args
      rw [← hu, hharmless, if_neg (by simp [hu]), hu]
    | false =>
      simp only [hu, hpartitions, and_self, if_true] at hharmless ⊢
      unfold token
      cases htok : strtok [61] rest with
      | none =>
        left
        exact ⟨rfl, fun args => (hharmless args).mpr htok⟩
      | some r =>
        right; right
        refine ⟨fun args h => ?_, fun hfull => ?_⟩
        · cases htok.symm.trans ((hharmless args).mp h)
        · show (do
            let parts ← write ((v.parts.setHead 124).strcat (CString.ofBytes r.1))
            pure { v with parts, update := false }) = Except.error Stop.overflow
          rw [strcat_full (full_setHead hfull)]
          rfl
  · rw [if_neg hpartitions]
    right; left
    refine ⟨v, rfl, rfl, rfl, rfl, ?_⟩
    intro args
    rw [hharmless, if_neg fun h => hpartitions h.1]

/-- What a turn of the loop can do: break off where a token is missing, go on with the arrays untouched, or
add to an array, which is past the end where there is none. -/
theorem step_cases (dev : Device) (v : Vars) (arg : CString) :
    (step dev v arg = .error .missing ∧ ∀ args, Harmless dev v.restore v.update (arg :: args)) ∨
    (∃ v', step dev v arg = .ok v' ∧ Untouched dev v arg v') ∨
    ((∀ args, ¬ Harmless dev v.restore v.update (arg :: args)) ∧
      (Full v.tmp → Full v.parts → step dev v arg = .error .overflow)) := by
  rw [step_eq]
  cases hparse : parse arg with
  | other =>
    right; left
    refine ⟨v, rfl, rfl, rfl, rfl, ?_⟩
    intro args
    rw [Harmless, hparse]
  | bare =>
    have hharmless (args : List CString) : Harmless dev v.restore v.update (arg :: args) ↔ arg.length < 130 := by
      rw [Harmless, hparse]
    by_cases harg : arg.length < 130
    · left
      exact ⟨by rw [room_pos harg]; rfl, fun args => (hharmless args).mpr harg⟩
    · right; right
      exact ⟨fun args h => harg ((hharmless args).mp h), fun _ _ => by rw [room_neg harg]; rfl⟩
  | size name size =>
    by_cases hroom : arg.length < 130 ∧ name.length < 32
    · obtain ⟨harg, hname⟩ := hroom
      cases size with
      | none =>
        simp only [room_pos harg, room_pos hname]
        left
        refine ⟨rfl, fun args => ?_⟩
        rw [Harmless, hparse]
        exact ⟨harg, hname⟩
      | some size =>
        simp only [room_pos harg, room_pos hname]
        have hharmless (args : List CString) :
            Harmless dev v.restore v.update (arg :: args) ↔ ¬ Small dev name size ∧ Harmless dev v.restore v.update args := by
          rw [Harmless, hparse]
          simp only [harg, hname, true_and]
        by_cases hsmall : Small dev name size
        · right; right
          refine ⟨fun args h => ((hharmless args).mp h).1 hsmall, fun hfull _ => ?_⟩
          show checkSize dev v arg name size = _
          rw [checkSize, if_pos hsmall, strcat_full hfull]
          rfl
        · right; left
          refine ⟨v, ?_, rfl, rfl, rfl, fun args => ?_⟩
          · show checkSize dev v arg name size = _
            rw [checkSize, if_neg hsmall]
            rfl
          · rw [hharmless]
            exact and_iff_right hsmall
    · right; right
      refine ⟨fun args h => hroom ?_, fun _ _ => ?_⟩
      · rw [Harmless, hparse] at h
        cases size with
        | none => exact h
        | some size => exact ⟨h.1, h.2.1⟩
      · by_cases harg : arg.length < 130
        · have hname : ¬ name.length < 32 := fun h => hroom ⟨harg, h⟩
          cases size <;> simp only [room_pos harg, room_neg hname] <;> rfl
        · cases size <;> simp only [room_neg harg] <;> rfl
  | msg cmdArg rest =>
    by_cases hroom : arg.length < 130 ∧ cmdArg.length < 64
    · obtain ⟨harg, hcmd⟩ := hroom
      simp only [room_pos harg, room_pos hcmd]
      rcases takeMsg_cases dev v hparse harg hcmd with h | h | h
      · exact .inl h
      · exact .inr (.inl h)
      · exact .inr (.inr ⟨h.1, fun _ hfull => h.2 hfull⟩)
    · right; right
      refine ⟨fun args h => hroom ?_, fun _ _ => ?_⟩
      · rw [Harmless, hparse] at h
        exact ⟨h.1, h.2.1⟩
      · by_cases harg : arg.length < 130
        · have hcmd : ¬ cmdArg.length < 64 := fun h => hroom ⟨harg, h⟩
          simp only [room_pos harg, room_neg hcmd]
          rfl
        · simp only [room_neg harg]
          rfl

/-- Harmless arguments leave the loop without an array written past its end, and nothing to write. -/
theorem loop_of_harmless {dev : Device} {args : List CString} {v : Vars} (h : Harmless dev v.restore v.update args) :
    loop dev v args ≠ .error .overflow ∧ ∀ v', loop dev v args = .ok v' → v'.writeMsg = v.writeMsg := by
  induction args generalizing v with
  | nil =>
    constructor
    · intro h
      cases h
    · intro v' hv'
      obtain rfl := Except.ok.inj hv'
      rfl
  | cons arg args ih =>
    rw [loop]
    rcases step_cases dev v arg with ⟨hstep, _⟩ | ⟨v₁, hstep, hsame⟩ | ⟨hnot, _⟩
    · rw [hstep]
      constructor
      · intro h
        cases h
      · intro v' hv'
        cases hv'
    · rw [hstep]
      obtain ⟨hno, hmsg⟩ := ih ((hsame.harmless args).mp h)
      refine ⟨hno, fun v' hv' => ?_⟩
      rw [hmsg v' hv', hsame.writeMsg]
    · exact absurd h (hnot args)

/-- Arguments that are not harmless write past the end of an array, where the arrays hold no end. -/
theorem loop_of_not_harmless {dev : Device} {args : List CString} {v : Vars} (h : ¬ Harmless dev v.restore v.update args)
    (htmp : Full v.tmp) (hparts : Full v.parts) : loop dev v args = .error .overflow := by
  induction args generalizing v with
  | nil => exact absurd trivial h
  | cons arg args ih =>
    rw [loop]
    rcases step_cases dev v arg with ⟨_, hall⟩ | ⟨v₁, hstep, hsame⟩ | ⟨_, hover⟩
    · exact absurd (hall args) h
    · rw [hstep]
      apply ih
      · rwa [← hsame.harmless args]
      · rwa [hsame.tmp]
      · rwa [hsame.parts]
    · rw [hover htmp hparts]
      rfl

/-- An array of ones. -/
def ones (n : Nat) : Field n := ⟨List.replicate n 1, List.length_replicate⟩

theorem full_ones (n : Nat) : Full (ones n) := by
  show ((List.replicate n (1 : UInt8)).takeWhile (· != 0)).length = n
  rw [List.takeWhile_eq_self_iff.mpr, List.length_replicate]
  intro b hb
  rw [List.eq_of_mem_replicate hb]
  rfl

/-- The message can be trusted, and the arrays keep their bounds, for no arguments but those that write
nothing at all. -/
theorem sound_iff_harmless (dev : Device) (args : List CString) :
    Sound dev args ↔ dev.lk = false ∨ Harmless dev false false args := by
  constructor
  · intro h
    by_contra hnot
    obtain ⟨hlk, hharm⟩ := not_or.mp hnot
    have hne : args ≠ [] := by
      rintro rfl
      exact hharm trivial
    have hloop : loop dev ⟨ones 1024, ones 896, ones 64, false, 0, false, false⟩ args = .error .overflow :=
      loop_of_not_harmless hharm (full_ones _) (full_ones _)
    refine (h (ones 1024) (ones 896) (ones 64)).1 ?_
    rw [main, if_neg hlk, if_neg hne]
    simp only [hloop]
  · intro h bootRecovery tmp parts
    rw [main]
    rcases h with hlk | hharm
    · rw [if_pos hlk]
      exact ⟨by simp, by simp⟩
    · split
      · exact ⟨by simp, by simp⟩
      split
      · exact ⟨by simp, by simp⟩
      obtain ⟨hno, hmsg⟩ := loop_of_harmless (v := ⟨bootRecovery, tmp, parts, false, 0, false, false⟩) hharm
      dsimp only
      split
      · rename_i why hwhy
        refine ⟨fun h => hno ?_, fun boot pages h => by cases h⟩
        rw [hwhy, Outcome.stopped.inj h]
      · rename_i v' hv'
        rw [if_pos (hmsg v' hv')]
        split <;> exact ⟨by simp, by simp⟩

/-- A partition smaller than asked, and arrays without an end. -/
def smallSystem : Device where
  lk := true
  blocks := fun name => if name = [115, 121, 115, 116, 101, 109] then 1200 else 0
  misc := none
  writable := false

/-- `system:1600` -/
def systemArg : CString := ⟨[115, 121, 115, 116, 101, 109, 58, 49, 54, 48, 48], by decide⟩

theorem not_sound_system : ¬ ∀ dev args, Sound dev args := by
  intro h
  have hstop : main smallSystem (ones 1024) (ones 896) (ones 64) [systemArg] = .stopped .overflow := by
    have hloop : loop smallSystem ⟨ones 1024, ones 896, ones 64, false, 0, false, false⟩ [systemArg] = .error .overflow := by
      rw [loop, step_eq]
      have hparse : parse systemArg = .size [115, 121, 115, 116, 101, 109] (some [49, 54, 48, 48]) := rfl
      have hsmall : Small smallSystem [115, 121, 115, 116, 101, 109] [49, 54, 48, 48] := by decide
      simp only [hparse, checkSize, if_pos hsmall]
      rw [strcat_full (full_ones 896)]
      rfl
    simp only [main, hloop]
    rfl
  exact (h smallSystem [systemArg] (ones 1024) (ones 896) (ones 64)).1 hstop

end Twrp.Boot.Clkpartmgr
