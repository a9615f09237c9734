import Twrp.Backup.Run
import Twrp.Tar.Division

/-! The counters of a backup's progress.

`Run_Backup` adds up the sizes of what it is going to back up, one total for images and one
for files, and `Backup_Partition` takes each size off again. The two loops do not choose the
same partitions nor the same counter for a partition that belongs to another. Here a backup
of one partition and its digests are calls of the program, and the counters go along with
everything that is taken off them; without the counters this is `runBackup`
(`handle_countedBackup`). -/
namespace Twrp.Backup
open Base Prog

/-! ### The backup with its counters -/

inductive Call where
  | mountStorage
  | mkdir (path : Path)
  /-- `Backup` of a partition of the list -/
  | backup (p : Partition)
  /-- `Backup` of a partition that belongs to one of the list -/
  | backupSub (p : Partition)
  | makeMD5 (p : Partition)

def CallAnswer : Call → Type
  | .backup _ => Int
  | .backupSub _ => Int
  | _ => Bool

abbrev Counted (α : Type) := Prog CallAnswer α

def askMount : Counted Bool := Prog.ask Call.mountStorage
def askMkdir (path : Path) : Counted Bool := Prog.ask (Call.mkdir path)
def askBackup (p : Partition) : Counted Int := Prog.ask (Call.backup p)
def askBackupSub (p : Partition) : Counted Int := Prog.ask (Call.backupSub p)
def askMD5 (p : Partition) : Counted Bool := Prog.ask (Call.makeMD5 p)

/-- `Backup_Method == 1` -/
def Partition.isFile (p : Partition) : Bool := p.method = .files

/-- The counters, and what was taken off them. -/
structure Counters where
  /-- `img_bytes_remaining` -/
  img : Nat
  /-- `file_bytes_remaining` -/
  file : Nat
  /-- the partitions whose sizes were taken off -/
  done : List Partition
deriving DecidableEq

def Counters.get (c : Counters) (isFile : Bool) : Nat := if isFile then c.file else c.img

/-- The counters now and at every moment before. -/
structure Progress where
  now : Counters
  before : List Counters
  /-- a difference went below zero -/
  wrapped : Bool

/-- An unsigned difference. -/
def less (n size : Nat) : Nat := Tar.ull (n + (18446744073709551616 - size))

/-- The size of `q` taken off the counter of files or of images. -/
def Progress.take (g : Progress) (isFile : Bool) (q : Partition) : Progress where
  now := if isFile then ⟨g.now.img, less g.now.file q.backupSize, g.now.done ++ [q]⟩
    else ⟨less g.now.img q.backupSize, g.now.file, g.now.done ++ [q]⟩
  before := g.before ++ [g.now]
  wrapped := g.wrapped || g.now.get isFile < q.backupSize

/-- A partition that is backed up along with `part`. -/
def Partition.isAlong (part q : Partition) : Bool := q.canBeBackedUp && q.toSlot.isSubOf part.toSlot

def countedSubPartitions (part : Partition) : List Partition → Progress → Counted (Bool × Progress)
  | [], g => return (true, g)
  | p :: rest, g => do
    if !part.isAlong p then return ← countedSubPartitions part rest g
    if (← askBackupSub p) = 0 then return (false, g)
    if !(← askMD5 p) then return (false, g)
    countedSubPartitions part rest (g.take part.isFile p)

/-- The end of `Backup_Partition`. -/
def countedEnd (part : Partition) (g : Progress) : Counted (Bool × Progress) := do
  return (← askMD5 part, g.take part.isFile part)

def countedPartition (partitions : List Partition) (part : Partition) (g : Progress) : Counted (Bool × Progress) := do
  let res ← askBackup part
  if res = -1 then return (true, g)
  if res ≠ 1 then return (false, g)
  if part.hasSubPartition then
    let r ← countedSubPartitions part partitions g
    if r.1 then countedEnd part r.2 else return r
  else countedEnd part g

def countedAll (partitions : List Partition) : List (Option Partition) → Progress → Counted (Bool × Progress)
  | [], g => return (true, g)
  | none :: rest, g => countedAll partitions rest g
  | some part :: rest, g => do
    let r ← countedPartition partitions part g
    if r.1 then countedAll partitions rest r.2 else return r

/-- What the first loop adds for a partition: itself, and what belongs to it and is there. -/
def Request.listedWith (r : Request) (p : Partition) : List Partition :=
  p :: if p.hasSubPartition then r.partitions.filter fun q => q.isPresent && p.isAlong q else []

def Request.listed (r : Request) : List Partition := r.located.flatMap r.listedWith

/-- The size of the files or of the images among some partitions. -/
def bytesOf (isFile : Bool) (ps : List Partition) : Nat := ((ps.filter (·.isFile = isFile)).map Partition.backupSize).sum

/-- The counters as the first loop leaves them. -/
def Request.start (r : Request) : Progress :=
  ⟨⟨Tar.ull (bytesOf false r.listed), Tar.ull (bytesOf true r.listed), []⟩, [], false⟩

def countedBackup (r : Request) : Counted (Bool × Progress) := do
  if !(← askMount) then return (false, r.start)
  if r.located = [] then return (false, r.start)
  if (r.find r.storagePath).isNone then return (false, r.start)
  if r.tooLittleSpace then return (false, r.start)
  if !(← askMkdir r.settings.folder) then return (false, r.start)
  countedAll r.partitions ((pieces r.backupList).map r.find) r.start

/-! ### Without the counters -/

/-- The calls, as programs of the backup. -/
def Call.run (s : Settings) : (q : Call) → Session (CallAnswer q)
  | .mountStorage => mountCurrentStorage
  | .mkdir path => recursiveMkdir path
  | .backup p => Backup.backup s p
  | .backupSub p => Backup.backup s p
  | .makeMD5 p => Backup.makeMD5 s p

/-- A program with its calls carried out, and its result. -/
def carried {α : Type} (s : Settings) (x : Counted (Bool × α)) : Session Bool :=
  x.handle (Call.run s) >>= fun r => pure r.1

section Carried
variable {α β : Type} (s : Settings)

theorem carried_bind (x : Counted β) (f : β → Counted (Bool × α)) :
    carried s (x >>= f) = x.handle (Call.run s) >>= fun b => carried s (f b) := by
  unfold carried
  rw [handle_bind]
  exact bind_assoc _ _ _

theorem carried_ite (c : Prop) [Decidable c] (x y : Counted (Bool × α)) :
    carried s (if c then x else y) = if c then carried s x else carried s y := by
  split <;> rfl

/-- A call is its program, and what follows is carried on from its answer. -/
theorem carried_ask (q : Call) (f : CallAnswer q → Counted (Bool × α)) :
    carried s (Prog.ask q >>= f) = q.run s >>= fun a => carried s (f a) := by
  rw [carried_bind, handle_ask]

/-- What follows depends on the result only. -/
theorem carried_then {x : Counted (Bool × β)} {f : Bool × β → Counted (Bool × α)} {k : Bool → Session Bool}
    (h : ∀ r, carried s (f r) = k r.1) : carried s (x >>= f) = carried s x >>= k := by
  rw [carried_bind, funext h]
  exact (bind_assoc (x.handle (Call.run s)) (fun r => pure r.1) k).symm

theorem carried_subPartitions (part : Partition) (ps : List Partition) (g : Progress) :
    carried s (countedSubPartitions part ps g) = backupSubPartitions s part ps := by
  induction ps generalizing g with
  | nil => rfl
  | cons p rest ih =>
    unfold countedSubPartitions backupSubPartitions
    rw [carried_ite, ih]
    refine congrArg (ite _ _) ?_
    refine (carried_ask s (.backupSub p) _).trans (congrArg (_ >>= ·) (funext fun res : Int => ?_))
    rw [carried_ite]
    refine congrArg (ite _ _) ?_
    refine (carried_ask s (.makeMD5 p) _).trans (congrArg (_ >>= ·) (funext fun ok : Bool => ?_))
    rw [carried_ite, ih]
    rfl

theorem carried_partition (partitions : List Partition) (part : Partition) (g : Progress) :
    carried s (countedPartition partitions part g) = backupPartition s partitions part := by
  have hend : ∀ g, carried s (countedEnd part g) = makeMD5 s part := by
    intro g
    refine (carried_ask s (.makeMD5 part) _).trans ?_
    exact bind_done _
  unfold countedPartition backupPartition
  refine (carried_ask s (.backup part) _).trans (congrArg (_ >>= ·) (funext fun res : Int => ?_))
  rw [carried_ite]
  refine congrArg (ite _ _) ?_
  rw [carried_ite]
  refine congrArg (ite _ _) ?_
  by_cases hsub : part.hasSubPartition = true
  · simp only [if_pos hsub]
    rw [← carried_subPartitions s part partitions g]
    apply carried_then
    intro r
    obtain ⟨ok, g'⟩ := r
    cases ok
    · rfl
    · exact hend g'
  · simp only [if_neg hsub]
    exact hend g

theorem carried_all (partitions : List Partition) (ps : List (Option Partition)) (g : Progress) :
    carried s (countedAll partitions ps g) = backupAll s partitions ps := by
  induction ps generalizing g with
  | nil => rfl
  | cons p rest ih =>
    cases p with
    | none => exact ih g
    | some part =>
      unfold countedAll backupAll
      rw [← carried_partition s partitions part g]
      apply carried_then
      intro r
      obtain ⟨ok, g'⟩ := r
      cases ok
      · rfl
      · exact ih g'

end Carried

/-- The backup with counters is the backup. -/
theorem handle_countedBackup (r : Request) : carried r.settings (countedBackup r) = runBackup r := by
  unfold countedBackup runBackup
  refine (carried_ask r.settings .mountStorage _).trans (congrArg (_ >>= ·) (funext fun ok : Bool => ?_))
  rw [carried_ite]
  refine congrArg (ite _ _) ?_
  rw [carried_ite]
  refine congrArg (ite _ _) ?_
  rw [carried_ite]
  refine congrArg (ite _ _) ?_
  rw [carried_ite]
  refine congrArg (ite _ _) ?_
  refine (carried_ask r.settings (.mkdir _) _).trans (congrArg (_ >>= ·) (funext fun ok : Bool => ?_))
  rw [carried_ite]
  exact congrArg (ite _ _) (carried_all _ _ _ _)

/-! ### What is asked of the counters -/

/-- Each counter is the size of what is listed and not yet backed up. -/
def Request.Exact (r : Request) (c : Counters) : Prop :=
  ∀ isFile, c.get isFile + bytesOf isFile c.done = bytesOf isFile r.listed

/-- The counters at every moment of a run, and at its end. -/
structure Request.Accurate (r : Request) (ok : Bool) (g : Progress) : Prop where
  before : ∀ c ∈ g.before, r.Exact c
  now : r.Exact g.now
  wrapped : g.wrapped = false
  zero : ok = true → g.now.img = 0 ∧ g.now.file = 0

/-- What belongs to a partition of the list is there and is backed up in the same way, or has
no size. -/
def Request.Uniform (r : Request) : Prop :=
  ∀ p ∈ r.located, p.hasSubPartition = true → ∀ q ∈ r.partitions, p.isAlong q = true →
    q.backupSize = 0 ∨ q.isPresent = true ∧ q.isFile = p.isFile

/-- The totals are no larger than the counters. -/
def Request.Fits (r : Request) : Prop := ∀ isFile, bytesOf isFile r.listed < 18446744073709551616

/-- A partition of the list that turns out to be empty has no size, nor has what belongs to it. -/
def Request.NoneEmpty (r : Request) (log : List (Sigma CallAnswer)) : Prop :=
  ∀ p, (⟨.backup p, (-1 : Int)⟩ : Sigma CallAnswer) ∈ log → ∀ isFile, bytesOf isFile (r.listedWith p) = 0

theorem less_eq {n size : Nat} (hn : n < 18446744073709551616) (h : size ≤ n) : less n size = n - size := by
  unfold less Tar.ull
  omega

theorem bytesOf_append (isFile : Bool) (ps qs : List Partition) :
    bytesOf isFile (ps ++ qs) = bytesOf isFile ps + bytesOf isFile qs := by
  simp [bytesOf]

theorem bytesOf_cons (isFile : Bool) (p : Partition) (ps : List Partition) :
    bytesOf isFile (p :: ps) = (if p.isFile = isFile then p.backupSize else 0) + bytesOf isFile ps := by
  unfold bytesOf
  rw [List.filter_cons]
  by_cases h : p.isFile = isFile <;> simp [h]

/-- All moments up to now are as they should be. -/
structure Request.Sound (r : Request) (g : Progress) : Prop where
  before : ∀ c ∈ g.before, r.Exact c
  now : r.Exact g.now
  wrapped : g.wrapped = false

theorem Counters.get_lt {r : Request} (hfits : r.Fits) {c : Counters} (h : r.Exact c) (isFile : Bool) :
    c.get isFile < 18446744073709551616 := by
  have := h isFile
  have := hfits isFile
  omega

/-- A size that is no larger than its counter is taken off. -/
theorem Request.Sound.take {r : Request} (hfits : r.Fits) {g : Progress} (h : r.Sound g) {isFile : Bool} {q : Partition}
    (hq : q.backupSize = 0 ∨ q.isFile = isFile) (hle : q.backupSize ≤ g.now.get isFile) :
    r.Sound (g.take isFile q) ∧ (g.take isFile q).now.get isFile = g.now.get isFile - q.backupSize ∧
      (g.take isFile q).now.get (!isFile) = g.now.get (!isFile) := by
  have hown : (g.take isFile q).now.get isFile = g.now.get isFile - q.backupSize := by
    have hless := less_eq (Counters.get_lt hfits h.now isFile) hle
    cases isFile <;> exact hless
  have hother : (g.take isFile q).now.get (!isFile) = g.now.get (!isFile) := by
    cases isFile <;> rfl
  have hdone : (g.take isFile q).now.done = g.now.done ++ [q] := by
    cases isFile <;> rfl
  refine ⟨⟨?_, ?_, ?_⟩, hown, hother⟩
  · intro c hc
    rcases List.mem_append.mp hc with hc | hc
    · exact h.before c hc
    · rw [List.mem_singleton.mp hc]
      exact h.now
  · have hone := h.now isFile
    have htwo := h.now (!isFile)
    have hsum : ∀ b, (g.take isFile q).now.get b + bytesOf b (g.take isFile q).now.done =
        (g.take isFile q).now.get b + (bytesOf b g.now.done + if q.isFile = b then q.backupSize else 0) := by
      intro b
      rw [hdone, bytesOf_append, bytesOf_cons]
      simp [bytesOf]
    have hcount : ∀ b, (if q.isFile = b then q.backupSize else 0) = if b = isFile then q.backupSize else 0 := by
      intro b
      rcases hq with hzero | heq
      · simp [hzero]
      · rw [heq]
        exact if_congr eq_comm rfl rfl
    intro b
    rw [hsum, hcount]
    rcases Bool.eq_or_eq_not b isFile with rfl | rfl
    · rw [hown, if_pos rfl]
      omega
    · rw [hother, if_neg (by cases isFile <;> decide)]
      omega
  · show (g.wrapped || decide (g.now.get isFile < q.backupSize)) = false
    rw [h.wrapped, Bool.false_or, decide_eq_false_iff_not]
    omega

/-! ### The loops -/

section Loops
variable {r : Request}

/-- The size of what is backed up along with `part`, out of a table. -/
def alongBytes (part : Partition) (ps : List Partition) : Nat :=
  ((ps.filter fun q => part.isAlong q).map Partition.backupSize).sum

theorem alongBytes_cons (part p : Partition) (ps : List Partition) :
    alongBytes part (p :: ps) = (if part.isAlong p then p.backupSize else 0) + alongBytes part ps := by
  unfold alongBytes
  rw [List.filter_cons]
  by_cases h : part.isAlong p = true <;> simp [h]

theorem post_countedSubPartitions (hfits : r.Fits) {part : Partition} {ps : List Partition}
    (hps : ∀ q ∈ ps, part.isAlong q = true → q.backupSize = 0 ∨ q.isFile = part.isFile) {g : Progress} (h : r.Sound g)
    (hle : alongBytes part ps ≤ g.now.get part.isFile) :
    Post (countedSubPartitions part ps g) fun _ out => r.Sound out.2 ∧ (out.1 = true →
      out.2.now.get part.isFile = g.now.get part.isFile - alongBytes part ps ∧
        out.2.now.get (!part.isFile) = g.now.get (!part.isFile)) := by
  induction ps generalizing g with
  | nil => exact post_pure ⟨h, fun _ => ⟨rfl, rfl⟩⟩
  | cons p rest ih =>
    have hrest : ∀ q ∈ rest, part.isAlong q = true → q.backupSize = 0 ∨ q.isFile = part.isFile :=
      fun q hq => hps q (List.mem_cons_of_mem p hq)
    rw [alongBytes_cons] at hle
    unfold countedSubPartitions
    refine post_ite (fun hnot => ?_) fun halong => ?_
    · have hno : part.isAlong p = false := by simpa using hnot
      rw [hno] at hle
      refine (ih hrest h (by simpa using hle)).mono fun _ out hout => ⟨hout.1, fun hok => ?_⟩
      rw [alongBytes_cons, hno]
      simpa using hout.2 hok
    · have hyes : part.isAlong p = true := by simpa using halong
      rw [if_pos hyes] at hle
      obtain ⟨hsound, hown, hother⟩ := h.take hfits (hps p List.mem_cons_self hyes) (by omega)
      refine post_call (logs_ask _) fun res : Int => ?_
      refine post_ite (fun _ => post_pure ⟨h, by simp⟩) fun _ => ?_
      refine post_check (logs_ask _) (post_pure ⟨h, by simp⟩) ?_
      refine (ih hrest hsound (by omega)).mono fun _ out hout => ⟨hout.1, fun hok => ?_⟩
      obtain ⟨h₁, h₂⟩ := hout.2 hok
      rw [alongBytes_cons, if_pos hyes, h₁, h₂, hown, hother]
      exact ⟨by omega, rfl⟩

/-- What is listed for a partition, in its own counter and in the other one. -/
theorem bytesOf_listedWith (huniform : r.Uniform) {part : Partition} (hpart : part ∈ r.located) :
    bytesOf part.isFile (r.listedWith part) =
        part.backupSize + (if part.hasSubPartition then alongBytes part r.partitions else 0) ∧
      bytesOf (!part.isFile) (r.listedWith part) = 0 := by
  by_cases hsub : part.hasSubPartition = true
  · have hall : ∀ qs ⊆ r.partitions,
        bytesOf part.isFile (qs.filter fun q => q.isPresent && part.isAlong q) = alongBytes part qs ∧
          bytesOf (!part.isFile) (qs.filter fun q => q.isPresent && part.isAlong q) = 0 := by
      intro qs hqs
      induction qs with
      | nil => exact ⟨rfl, rfl⟩
      | cons q rest ih =>
        obtain ⟨ih₁, ih₂⟩ := ih fun x hx => hqs (List.mem_cons_of_mem q hx)
        rw [alongBytes_cons, List.filter_cons]
        by_cases halong : part.isAlong q = true
        · rcases huniform part hpart hsub q (hqs List.mem_cons_self) halong with hzero | ⟨hpresent, hkind⟩
          · rw [if_pos halong, hzero]
            split
            · rw [bytesOf_cons, bytesOf_cons, hzero, ih₁, ih₂]
              simp
            · exact ⟨by rw [ih₁]; simp, ih₂⟩
          · rw [if_pos (by simp [hpresent, halong]), if_pos halong, bytesOf_cons, bytesOf_cons, hkind, ih₁, ih₂]
            exact ⟨by simp, by cases part.isFile <;> simp⟩
        · rw [if_neg (by simp [halong]), if_neg halong, Nat.zero_add]
          exact ⟨ih₁, ih₂⟩
    obtain ⟨h₁, h₂⟩ := hall r.partitions fun _ h => h
    unfold Request.listedWith
    rw [if_pos hsub, if_pos hsub, bytesOf_cons, bytesOf_cons, h₁, h₂, if_pos rfl]
    exact ⟨rfl, by cases part.isFile <;> simp⟩
  · unfold Request.listedWith
    rw [if_neg hsub, if_neg hsub, bytesOf_cons, bytesOf_cons, if_pos rfl]
    exact ⟨rfl, by cases part.isFile <;> simp [bytesOf]⟩

theorem post_countedPartition (hfits : r.Fits) (huniform : r.Uniform) {part : Partition} (hpart : part ∈ r.located)
    {g : Progress} (h : r.Sound g) (hle : ∀ b, bytesOf b (r.listedWith part) ≤ g.now.get b) :
    Post (countedPartition r.partitions part g) fun log out => r.Sound out.2 ∧ (out.1 = true →
      (∀ b, out.2.now.get b + bytesOf b (r.listedWith part) = g.now.get b) ∨
        (⟨.backup part, (-1 : Int)⟩ : Sigma CallAnswer) ∈ log ∧ out.2 = g) := by
  obtain ⟨hown, hother⟩ := bytesOf_listedWith huniform hpart
  have hlisted := hle part.isFile
  rw [hown] at hlisted
  have hfinish : ∀ {g' : Progress}, r.Sound g' →
      g'.now.get part.isFile + (if part.hasSubPartition then alongBytes part r.partitions else 0) = g.now.get part.isFile →
      g'.now.get (!part.isFile) = g.now.get (!part.isFile) →
      Post (countedEnd part g') fun _ out => r.Sound out.2 ∧
        ∀ b, out.2.now.get b + bytesOf b (r.listedWith part) = g.now.get b := by
    intro g' hsound hown' hother'
    have hself : part.backupSize = 0 ∨ part.isFile = part.isFile := .inr rfl
    obtain ⟨hsound', hget, hget'⟩ := hsound.take hfits hself (by omega)
    refine post_call (logs_ask _) fun ok => post_pure ⟨hsound', fun b => ?_⟩
    rcases Bool.eq_or_eq_not b part.isFile with rfl | rfl
    · rw [hown, hget]
      omega
    · rw [hother, hget', hother']
      rfl
  unfold countedPartition
  refine post_call (logs_ask _) fun res : Int => ?_
  refine post_ite (fun hempty => ?_) fun _ => ?_
  · subst hempty
    exact post_pure ⟨h, fun _ => .inr ⟨List.mem_cons_self, rfl⟩⟩
  refine post_ite (fun _ => post_pure ⟨h, by simp⟩) fun _ => ?_
  refine post_ite (fun hsub => ?_) fun hsub => ?_
  · rw [if_pos hsub] at hlisted
    have hps : ∀ q ∈ r.partitions, part.isAlong q = true → q.backupSize = 0 ∨ q.isFile = part.isFile :=
      fun q hq halong => (huniform part hpart hsub q hq halong).imp_right And.right
    refine post_bind (post_countedSubPartitions hfits hps h (by omega)) fun _ out hout => ?_
    refine post_ite (fun hok => ?_) fun hok => ?_
    · obtain ⟨hget, hget'⟩ := hout.2 hok
      refine (hfinish hout.1 ?_ hget').mono fun _ _ hend => ⟨hend.1, fun _ => .inl hend.2⟩
      rw [if_pos hsub, hget]
      omega
    · exact post_pure ⟨hout.1, fun h => absurd h hok⟩
  · refine (hfinish h ?_ rfl).mono fun _ _ hend => ⟨hend.1, fun _ => .inl hend.2⟩
    rw [if_neg hsub]
    rfl

/-- The size of what is listed for some partitions. -/
def listedBytes (r : Request) (isFile : Bool) (ps : List Partition) : Nat := bytesOf isFile (ps.flatMap r.listedWith)

theorem listedBytes_cons (isFile : Bool) (p : Partition) (ps : List Partition) :
    listedBytes r isFile (p :: ps) = bytesOf isFile (r.listedWith p) + listedBytes r isFile ps := by
  rw [listedBytes, List.flatMap_cons, bytesOf_append]
  rfl

theorem post_countedAll (hfits : r.Fits) (huniform : r.Uniform) {ps : List (Option Partition)}
    (hps : ps.filterMap id ⊆ r.located) {g : Progress} (h : r.Sound g)
    (hle : ∀ b, listedBytes r b (ps.filterMap id) ≤ g.now.get b) :
    Post (countedAll r.partitions ps g) fun log out => r.Sound out.2 ∧ (out.1 = true → r.NoneEmpty log →
      ∀ b, out.2.now.get b + listedBytes r b (ps.filterMap id) = g.now.get b) := by
  induction ps generalizing g with
  | nil => exact post_pure ⟨h, fun _ _ b => rfl⟩
  | cons p rest ih =>
    cases p with
    | none => exact ih hps h hle
    | some part =>
      have hlist : (some part :: rest).filterMap id = part :: rest.filterMap id := rfl
      simp only [hlist, listedBytes_cons] at hle ⊢
      rw [hlist] at hps
      have hrest : rest.filterMap id ⊆ r.located := fun q hq => hps (List.mem_cons_of_mem part hq)
      unfold countedAll
      refine post_bind (post_countedPartition hfits huniform (hps List.mem_cons_self) h fun b => ?_) fun log out hout => ?_
      · have := hle b
        omega
      refine post_ite (fun hok => ?_) fun hok => ?_
      · obtain ⟨hsound, hgone⟩ := hout
        have hle' : ∀ b, listedBytes r b (rest.filterMap id) ≤ out.2.now.get b := by
          intro b
          have := hle b
          rcases hgone hok with htaken | ⟨-, hsame⟩
          · have := htaken b
            omega
          · rw [hsame]
            omega
        refine (ih hrest hsound hle').mono fun log' out' hall => ⟨hall.1, fun hok' hnone b => ?_⟩
        have hafter := hall.2 hok' (fun p hp => hnone p (List.mem_append_right log hp)) b
        rcases hgone hok with htaken | ⟨hempty, hsame⟩
        · have := htaken b
          omega
        · have hzero := hnone part (List.mem_append_left log' hempty) b
          rw [hsame] at hafter
          omega
      · exact post_pure ⟨hout.1, fun hyes => absurd hyes hok⟩

theorem sound_start (hfits : r.Fits) : r.Sound r.start := by
  refine ⟨fun c hc => absurd hc List.not_mem_nil, ?_, rfl⟩
  intro b
  have hull : Tar.ull (bytesOf b r.listed) = bytesOf b r.listed := Nat.mod_eq_of_lt (hfits b)
  cases b <;> exact hull

theorem listed_eq (b : Bool) : listedBytes r b ((pieces r.backupList).map r.find |>.filterMap id) = bytesOf b r.listed := by
  rw [List.filterMap_map]
  rfl

end Loops

/-- **The counters are what is left to back up** at every moment of a run in which the totals
fit, what belongs to a partition is counted with it, and nothing with a size turns out to be
empty. -/
theorem counters_accurate (r : Request) (hfits : r.Fits) (huniform : r.Uniform) {log : List (Sigma CallAnswer)} {ok : Bool}
    {g : Progress} (hruns : Runs (countedBackup r) log (ok, g)) (hnone : r.NoneEmpty log) : r.Accurate ok g := by
  have hstart : r.Sound r.start := sound_start hfits
  have hpost : Post (countedBackup r) fun log out => r.Sound out.2 ∧
      (out.1 = true → r.NoneEmpty log → ∀ b, out.2.now.get b = 0) := by
    unfold countedBackup
    refine post_check (logs_ask _) (post_pure ⟨hstart, by simp⟩) ?_
    refine post_ite (fun _ => post_pure ⟨hstart, by simp⟩) fun _ => ?_
    refine post_ite (fun _ => post_pure ⟨hstart, by simp⟩) fun _ => ?_
    refine post_ite (fun _ => post_pure ⟨hstart, by simp⟩) fun _ => ?_
    refine post_check (logs_ask _) (post_pure ⟨hstart, by simp⟩) ?_
    have hlocated : ((pieces r.backupList).map r.find).filterMap id ⊆ r.located := by
      rw [List.filterMap_map]
      exact fun q hq => hq
    have hget : ∀ b, r.start.now.get b = listedBytes r b (((pieces r.backupList).map r.find).filterMap id) := by
      intro b
      have hnow := hstart.now b
      have hnil : bytesOf b r.start.now.done = 0 := rfl
      rw [listed_eq]
      omega
    refine (post_countedAll hfits huniform hlocated hstart fun b => (hget b).ge).mono fun log out hall => ⟨hall.1, ?_⟩
    intro hok hnone b
    have hend := hall.2 hok (fun p hp => hnone p (List.mem_cons_of_mem _ (List.mem_cons_of_mem _ hp))) b
    rw [hget b] at hend
    omega
  obtain ⟨hsound, hzero⟩ := hpost log (ok, g) hruns
  exact ⟨hsound.before, hsound.now, hsound.wrapped, fun hok => ⟨hzero hok hnone false, hzero hok hnone true⟩⟩

/-- A data partition of 4 MB with one that belongs to it. -/
def dataPartitions (present : Bool) : List Partition :=
  [{ mountPoint := "/data".toList, symlinkMountPoint := [], isPresent := true, hasSubPartition := true,
     isSubPartition := false, subPartitionOf := [], backupPath := "/data".toList, backupName := "data".toList,
     currentFileSystem := "ext4".toList, method := .files, backupSize := 4194304, canBeBackedUp := true,
     canEncryptBackup := false, useUserdataEncryption := false, hasDataMedia := false, dalvikCacheSize := 0 },
   { mountPoint := "/datadata".toList, symlinkMountPoint := [], isPresent := present, hasSubPartition := false,
     isSubPartition := true, subPartitionOf := "/data".toList, backupPath := "/datadata".toList,
     backupName := "datadata".toList, currentFileSystem := "ext4".toList, method := .files, backupSize := 8388608,
     canBeBackedUp := true, canEncryptBackup := false, useUserdataEncryption := false, hasDataMedia := false,
     dalvikCacheSize := 0 }]

def dataRequest (present : Bool) : Request where
  settings := ⟨false, false, false, false, true, "/sdcard/b/".toList⟩
  partitions := dataPartitions present
  backupList := "/data;".toList
  storagePath := "/data".toList
  free := 0
  skipFreeSpaceCheck := true

/-- Every call succeeds. -/
def allDone : (q : Call) → CallAnswer q
  | .mountStorage => true
  | .mkdir _ => true
  | .backup _ => (1 : Int)
  | .backupSub _ => (1 : Int)
  | .makeMD5 _ => true

/-- Nothing turns out to be empty where every call succeeds. -/
theorem noneEmpty_allDone (r : Request) (x : Counted (Bool × Progress)) :
    r.NoneEmpty ((x.calls allDone).map fun q => ⟨q, allDone q⟩) := by
  intro p hp
  obtain ⟨q, -, heq⟩ := List.mem_map.mp hp
  cases heq

theorem counters_accurate_data :
    (dataRequest true).Fits ∧ (dataRequest true).Uniform ∧
      (dataRequest true).Accurate ((countedBackup (dataRequest true)).eval allDone).1
        ((countedBackup (dataRequest true)).eval allDone).2 := by
  have hfits : (dataRequest true).Fits := by
    unfold Request.Fits
    decide
  have huniform : (dataRequest true).Uniform := by
    unfold Request.Uniform
    decide
  exact ⟨hfits, huniform, counters_accurate _ hfits huniform (runs_eval allDone _) (noneEmpty_allDone _ _)⟩

/-- A partition that is not there is taken off though it was not added. -/
theorem not_counters_accurate :
    ∃ log ok g, Runs (countedBackup (dataRequest false)) log (ok, g) ∧ ¬(dataRequest false).Accurate ok g := by
  refine ⟨_, _, _, runs_eval allDone (countedBackup (dataRequest false)), fun h => ?_⟩
  exact absurd h.wrapped (by decide)

end Twrp.Backup
