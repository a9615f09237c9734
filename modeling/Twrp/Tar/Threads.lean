import Twrp.Tar.Walk

/-! The encrypted backup: lists of items divided among threads.

The child process scans `tardir` twice. The first scan adds up what is to be
encrypted and, with userdata encryption, lists the `app*` and `dalvik*` directories
for the one archiver that does not encrypt. The second scan lists the rest and moves on
to the next thread each time the running size passes the target. Each archiver then
takes the items with its own number from the list it is given, in `tarList`.

Threads share nothing that they write, so the calls of a thread stand where it is
created. Nothing sets `Excluded` in this mode, and no name is skipped by it. -/
namespace Twrp.Tar
open Base

/-! ### Lists -/

/-- `TarListStruct` -/
structure TarItem where
  fn : Path
  threadId : Nat
deriving DecidableEq

/-- What `Generate_TarList` moves along: the list, `*thread_id` and
`Archive_Current_Size`. -/
structure ListState where
  list : List TarItem
  threadId : Nat
  currentSize : Nat

/-- `TarList->push_back(TarItem)` -/
def ListState.push (s : ListState) (fn : Path) : ListState :=
  {s with list := s.list ++ [⟨fn, s.threadId⟩]}

def ListState.count (s : ListState) (size : Nat) : ListState :=
  {s with currentSize := ull (s.currentSize + size)}

/-- The next thread, once the running size has passed the target. -/
def ListState.advance (s : ListState) (target : Nat) : ListState :=
  if s.currentSize ≠ 0 ∧ target ≠ 0 ∧ s.currentSize > target then
    {s with threadId := (s.threadId + 1) % 4294967296, currentSize := 0}
  else s

/-- The loop of `Generate_TarList` over the entries of `path`. -/
def tarListEntries (cfg : Config) (target : Nat) (path : Path) : Listing → ListState → Walk (Int × ListState)
  | .nil, s => return (0, s)
  | .leaf name kind rest, s => do
    let fileName := join path name
    if cfg.skipsMedia fileName || !kind.isFile then return ← tarListEntries cfg target path rest s
    tarListEntries cfg target path rest (((s.push fileName).count kind.size).advance target)
  | .dir name sub rest, s => do
    let fileName := join path name
    if cfg.skipsMedia fileName || name = lostFound then return ← tarListEntries cfg target path rest s
    -- `Generate_TarList` on the subdirectory
    if !(← opendir fileName) then return (-1, s.push fileName)
    let (ret, s) ← tarListEntries cfg target fileName sub (s.push fileName)
    if ret < 0 then return (-1, s)
    tarListEntries cfg target path rest s

def generateTarList (cfg : Config) (target : Nat) (path : Path) (listing : Listing) (s : ListState) :
    Walk (Int × ListState) := do
  if cfg.skipsMedia path then return (0, s)
  if !(← opendir path) then return (-1, s)
  tarListEntries cfg target path listing s

/-! ### The two scans -/

/-- What the encrypted branch of `createTarFork` reads. -/
structure Job where
  cfg : Config
  /-- `userdata_encryption` -/
  userdata : Bool
  /-- `sysconf(_SC_NPROCESSORS_CONF)` -/
  processors : Nat
  tarfn : Path
  tardir : Path
  tree : Listing
  /-- what `st` of each archiver holds before its first `stat` -/
  stack : Nat → Stat

namespace Job

/-- `core_count`, at most 8. -/
def cores (job : Job) : Nat := if job.processors > 8 then 8 else job.processors

/-- Directories that userdata encryption leaves unencrypted. -/
def isRegular (job : Job) (name : Path) : Bool :=
  job.userdata && ("app".toList.isPrefixOf name || "dalvik".toList.isPrefixOf name)

/-- `start_thread_id` -/
def startThread (job : Job) : Nat := if job.userdata then 1 else 0

/-- `core_count` after its adjustment: the last thread. -/
def lastThread (job : Job) : Nat := if job.userdata then job.cores else job.cores - 1

end Job

/-- `encrypt_size`, and `RegularList` with what goes with it. -/
structure FirstScan where
  encryptSize : Nat
  regular : ListState

def firstEntries (job : Job) : Listing → FirstScan → Walk (Option FirstScan)
  | .nil, s => return some s
  | .leaf name kind rest, s => do
    if job.cfg.skipsMedia (join job.tardir name) then return ← firstEntries job rest s
    firstEntries job rest {s with encryptSize := ull (s.encryptSize + kind.size)}
  | .dir name sub rest, s => do
    let fileName := join job.tardir name
    if job.cfg.skipsMedia fileName || name = lostFound then return ← firstEntries job rest s
    if job.isRegular name then
      let (ret, regular) ← generateTarList job.cfg 0 fileName sub s.regular
      if ret < 0 then return none
      firstEntries job rest {s with regular := regular}
    else firstEntries job rest {s with encryptSize := ull (s.encryptSize + sub.folderSize)}

def secondEntries (job : Job) (target : Nat) : Listing → ListState → Walk (Option ListState)
  | .nil, s => return some s
  | .leaf name kind rest, s => do
    let fileName := join job.tardir name
    if job.cfg.skipsMedia fileName || !kind.isFile then return ← secondEntries job target rest s
    -- the target is not looked at here
    secondEntries job target rest ((s.push fileName).count kind.size)
  | .dir name sub rest, s => do
    let fileName := join job.tardir name
    if job.cfg.skipsMedia fileName || name = lostFound || job.isRegular name then
      return ← secondEntries job target rest s
    let (ret, s) ← generateTarList job.cfg target fileName sub s
    if ret < 0 then return none
    secondEntries job target rest s

/-- `RegularList`, `EncryptList` and the last `enc_thread_id`. -/
structure Lists where
  regular : List TarItem
  encrypt : List TarItem
  threadId : Nat

/-- `target_size` -/
def Job.target (job : Job) (encryptSize : Nat) : Nat := ull (encryptSize / job.cores + 1)

def buildLists (job : Job) : Walk (Option Lists) := do
  if !(← opendir job.tardir) then return none
  match ← firstEntries job job.tree ⟨0, [], 0, 0⟩ with
  | none => return none
  | some first =>
    if !(← opendir job.tardir) then return none
    match ← secondEntries job (job.target first.encryptSize) job.tree ⟨[], job.startThread, 0⟩ with
    | none => return none
    | some s => return some ⟨first.regular.list, s.list, s.threadId⟩

/-! ### Archives of one thread -/

/-- The archive `count` of a thread: `basefn` with `%i%02i`. -/
def partName (basefn : Path) (threadId count : Nat) : Path := basefn ++ decimal threadId ++ padded 2 count

/-- What `tarList` moves along: the archive, how many there were before it, its size so
far, and the last `stat` that was filled in. -/
structure PartState where
  tarfn : Path
  count : Nat
  currentSize : Nat
  st : Stat

/-- A regular file of `size` bytes: open the next archive if this one has no room. -/
def nextPart (basefn : Path) (threadId size : Nat) (s : PartState) : Walk (Int × PartState) := do
  if ull (s.currentSize + size) > maxArchiveSize then
    if !(← closeTar s.tarfn) then return (-3, s)
    let count := s.count + 1
    if count > 99 then
      tooMany s.tarfn
      return (-4, {s with count := count})
    let tarfn := partName basefn threadId count
    if !(← createTar tarfn) then return (-2, {s with tarfn := tarfn, count := count})
    return (0, {s with tarfn := tarfn, count := count, currentSize := ull size})
  else return (0, {s with currentSize := ull (s.currentSize + size)})

/-- The loop of `tarList`, and the closing of its last archive. -/
def tarListItems (basefn : Path) (threadId : Nat) : List TarItem → PartState → Walk Int
  | [], s => do
    if !(← closeTar s.tarfn) then return -3
    return 0
  | item :: rest, s => do
    if item.threadId ≠ threadId then return ← tarListItems basefn threadId rest s
    -- a `stat` that fails leaves the last one in place
    let st := (← stat item.fn).getD s.st
    let (ret, s) ← if st.isReg then nextPart basefn threadId st.size {s with st := st} else pure (0, {s with st := st})
    if ret ≠ 0 then return ret
    if (← addFile item.fn true) ≠ 0 then return -1
    tarListItems basefn threadId rest s

def tarList (job : Job) (list : List TarItem) (threadId : Nat) : Walk Int := do
  let tarfn := partName job.tarfn threadId 0
  if !(← createTar tarfn) then return -2
  tarListItems job.tarfn threadId list ⟨tarfn, 0, 0, job.stack threadId⟩

/-- `createList`: of the codes of `tarList` only -1 is passed on. -/
def createList (job : Job) (list : List TarItem) (threadId : Nat) : Walk Int := do
  if (← tarList job list threadId) = -1 then return -2 else return 0

/-! ### The child process -/

/-- `pthread_attr_init` and the settings after it, which fail alike. -/
def pthreadAttr : Walk Bool := Prog.ask Call.threadAttr
def pthreadCreate (i : Nat) : Walk Bool := Prog.ask (Call.threadCreate i)
def pthreadJoin (i : Nat) : Walk Bool := Prog.ask (Call.threadJoin i)

/-- The loop that starts the threads: those that were created, with what they will
return. A thread that cannot be created has its list made in place. -/
def startThreads (job : Job) (list : List TarItem) : List Nat → Walk (Option (List (Nat × Int)))
  | [] => return some []
  | i :: rest => do
    let created ← pthreadCreate i
    let ret ← createList job list i
    if !created ∧ ret ≠ 0 then return none
    match ← startThreads job list rest with
    | none => return none
    | some threads => return some (if created then (i, ret) :: threads else threads)

def joinThreads : List (Nat × Int) → Walk Int
  | [] => return 0
  | (i, ret) :: rest => do
    if !(← pthreadJoin i) then return -1
    if ret ≠ 0 then return -1
    joinThreads rest

/-- The threads that encrypt. -/
def Job.threads (job : Job) : List Nat := List.range' job.startThread (job.lastThread + 1 - job.startThread)

/-- The archivers, once the lists stand. -/
def runLists (job : Job) (lists : Lists) : Walk Int := do
  -- too many threads for the cores
  if lists.threadId > job.lastThread then return -1
  let ret ← if job.userdata then createList job lists.regular 0 else pure 0
  if ret ≠ 0 then return -1
  if !(← pthreadAttr) then return -1
  match ← startThreads job lists.encrypt job.threads with
  | none => return -1
  | some threads => joinThreads threads

/-- The end of `runLists`, behind the archiver that does not encrypt. -/
def runThreads (job : Job) (lists : Lists) (ret : Int) : Walk Int := do
  if ret ≠ 0 then return -1
  if !(← pthreadAttr) then return -1
  match ← startThreads job lists.encrypt job.threads with
  | none => return -1
  | some threads => joinThreads threads

/-- The encrypted branch of the child of `createTarFork`, up to `_exit`. -/
def createEncrypted (job : Job) : Walk Int := do
  match ← buildLists job with
  | none => return -1
  | some lists => runLists job lists

end Twrp.Tar
