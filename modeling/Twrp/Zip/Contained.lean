import Twrp.Zip.Reported

/-! Where an extraction can create something.

A directory is made for each missing level of an entry's path, and the file or link at the path itself.
Names are only checked for printable characters, so a path can lead out of `targetDir`: what is created
lies under it as long as no level on the way leaves it sideways. -/
namespace Twrp.Zip
open Base

/-! ### Paths -/

def dot : Bytes := [0x2e]
def dotdot : Bytes := [0x2e, 0x2e]

/-- One component more. -/
def enter (stack : List Bytes) (component : Bytes) : List Bytes :=
  if component = [] ∨ component = dot then stack else if component = dotdot then stack.dropLast else stack ++ [component]

/-- A path with `.` and `..` resolved, as the names on the way. -/
def resolve (path : Bytes) : List Bytes := (path.splitOn slash).foldl enter []

theorem resolve_append (p rest : Bytes) : resolve (p ++ slash :: rest) = (rest.splitOn slash).foldl enter (resolve p) := by
  unfold resolve
  rw [List.splitOn_append_cons_self, List.foldl_append]

/-- Without `..` a path only leads down. -/
theorem prefix_foldl_enter (components stack : List Bytes) (h : dotdot ∉ components) : stack <+: components.foldl enter stack := by
  induction components generalizing stack with
  | nil => exact List.prefix_refl _
  | cons c components ih =>
    obtain ⟨hc, hrest⟩ := not_or.mp (List.mem_cons.not.mp h)
    refine List.IsPrefix.trans ?_ (ih _ hrest)
    unfold enter
    rw [if_neg (Ne.symm hc)]
    split
    · exact List.prefix_refl _
    · exact List.prefix_append _ _

theorem levelsFrom_append (front a b : Bytes) : levelsFrom front (a ++ b) = levelsFrom front a ++ levelsFrom (front ++ a) b := by
  induction a generalizing front with
  | nil => simp [levelsFrom]
  | cons x a ih =>
    rw [List.cons_append, levelsFrom, levelsFrom, ih]
    split <;> simp

theorem levels_append (a b : Bytes) : levels (a ++ b) = levels a ++ levelsFrom a b := levelsFrom_append [] a b

/-- A level is what stands before a slash. -/
theorem mem_levelsFrom {front rest level : Bytes} (h : level ∈ levelsFrom front rest) : ∃ a b, rest = a ++ slash :: b ∧ level = front ++ a := by
  induction rest generalizing front with
  | nil => exact absurd h (by simp [levelsFrom])
  | cons x rest ih =>
    have hlater : level ∈ levelsFrom (front ++ [x]) rest → ∃ a b, x :: rest = a ++ slash :: b ∧ level = front ++ a := by
      intro hlevel
      obtain ⟨a, b, hrest, hlevel'⟩ := ih hlevel
      exact ⟨x :: a, b, by rw [hrest, List.cons_append], by rw [hlevel']; simp⟩
    rw [levelsFrom] at h
    split at h
    · rename_i hslash
      rcases List.mem_cons.mp h with rfl | h
      · exact ⟨[], rest, by rw [hslash.1]; rfl, by simp⟩
      · exact hlater h
    · exact hlater h

/-! ### What a run creates -/

/-- What a call creates if it succeeds. -/
def Call.creates : Call → Option Bytes
  | .mkdir path => some path
  | .creat path => some path
  | .symlink _ path => some path
  | _ => none

/-- What a step created. -/
def created : Sigma Answer → Option Bytes
  | ⟨.mkdir path, true⟩ => some path
  | ⟨.creat path, true⟩ => some path
  | ⟨.symlink _ path, true⟩ => some path
  | _ => none

theorem creates_of_created {s : Sigma Answer} {p : Bytes} (h : created s = some p) : s.1.creates = some p := by
  obtain ⟨c, r⟩ := s
  cases c with
  | mkdir path => cases r <;> first | exact h | cases h
  | creat path => cases r <;> first | exact h | cases h
  | symlink target path => cases r <;> first | exact h | cases h
  | _ => cases h

namespace Request
variable (q : Request)

/-- Where something can be created for an entry. -/
def places (e : ZipEntry) : List Bytes := q.path e :: levels (q.path e ++ [slash])

/-- Where something is created: for an entry below `zipDir`. -/
def Placed (entries : List ZipEntry) (c : Call) : Prop := ∀ p, c.creates = some p → ∃ e ∈ entries, q.isBelow e = true ∧ p ∈ q.places e

variable {q} {entries : List ZipEntry}

theorem placed_none {c : Call} (h : c.creates = none) : q.Placed entries c := by
  intro p hp
  rw [h] at hp
  cases hp

theorem placed_fetch (c : Call) (h : c.isFetch = true) : q.Placed entries c := by
  apply placed_none
  cases c <;> first | rfl | cases h

theorem levels_stripFileName {path cpath level : Bytes} (h : stripFileName path = some cpath) (hlevel : level ∈ levels cpath) :
    level ∈ levels (path ++ [slash]) := by
  unfold stripFileName at h
  dsimp only at h
  split at h
  · cases h
  · obtain rfl := Option.some.inj h
    have hsplit : path = (path.reverse.dropWhile (· ≠ slash)).reverse ++ (path.reverse.takeWhile (· ≠ slash)).reverse := by
      rw [← List.reverse_append, List.takeWhile_append_dropWhile, List.reverse_reverse]
    rw [hsplit, levels_append, levels_append]
    exact List.mem_append_left _ (List.mem_append_left _ hlevel)

theorem all_create {e : ZipEntry} (he : e ∈ entries) (hbelow : q.isBelow e = true) : (q.create e).All (q.Placed entries) := by
  have hplace : ∀ c p, c.creates = some p → p ∈ q.places e → q.Placed entries c := by
    intro c p hc hp p' hp'
    rw [hc] at hp'
    obtain rfl := Option.some.inj hp'
    exact ⟨e, he, hbelow, hp⟩
  have hlevel : ∀ level ∈ levels (q.path e ++ [slash]), q.Placed entries (.mkdir level) ∧ q.Placed entries (.utime level) :=
    fun level hlevel => ⟨hplace _ level rfl (List.mem_cons_of_mem _ hlevel), placed_none rfl⟩
  have hdirs : ∀ strip, (dirCreateHierarchy (q.path e) q.timestamp strip).All (q.Placed entries) := by
    intro strip
    apply all_dirCreateHierarchy _ _ _ (fun _ => placed_none rfl) fun _ => placed_none rfl
    intro cpath hcpath level hmem
    rcases hcpath with rfl | hstrip
    · exact hlevel level hmem
    · exact hlevel level (levels_stripFileName hstrip hmem)
  have hpath : q.path e ∈ q.places e := List.mem_cons_self
  unfold create
  refine Prog.all_ite (fun _ => Prog.all_ite (fun _ => Prog.all_pure _) fun _ => ?_) fun _ => ?_
  · exact Prog.all_bind (hdirs false) fun ok => Prog.all_ite (fun _ => Prog.all_pure _) fun _ => Prog.all_pure _
  refine Prog.all_bind (hdirs true) fun ok => Prog.all_ite (fun _ => Prog.all_pure _) fun _ => ?_
  refine Prog.all_ite (fun _ => ?_) fun _ => ?_
  · unfold extractSymlink
    refine Prog.all_ite (fun _ => Prog.all_pure _) fun _ => ?_
    refine Prog.all_bind (Prog.all_ask (placed_none rfl)) fun ok => Prog.all_ite (fun _ => Prog.all_pure _) fun _ => ?_
    refine Prog.all_bind (all_mzReadZipEntry placed_fetch (placed_none rfl) _ _ _) fun r => ?_
    cases r with
    | none => exact Prog.all_pure _
    | some copied =>
      refine Prog.all_ite (fun _ => ⟨placed_none rfl, fun r => r.elim⟩) fun _ => ?_
      refine Prog.all_bind (Prog.all_ask (placed_none rfl)) fun rest => ?_
      refine Prog.all_bind (Prog.all_ask (hplace _ _ rfl hpath)) fun ok => ?_
      exact Prog.all_ite (fun _ => Prog.all_pure _) fun _ => Prog.all_pure _
  · unfold extractFile
    refine Prog.all_bind (Prog.all_ask (hplace _ _ rfl hpath)) fun ok => Prog.all_ite (fun _ => Prog.all_pure _) fun _ => ?_
    refine Prog.all_bind (all_mzExtractZipEntryToFile placed_fetch (placed_none rfl) (fun _ => placed_none rfl) _ _) fun ok => ?_
    refine Prog.all_ite (fun _ => Prog.all_pure _) fun _ => ?_
    refine Prog.all_bind (all_stamp _ (placed_none rfl)) fun ok => ?_
    exact Prog.all_ite (fun _ => Prog.all_pure _) fun _ => Prog.all_pure _

theorem all_extractLoop (rest : List ZipEntry) (hrest : ∀ e ∈ rest, e ∈ entries) (seenMatch : Bool) (h : MzPathHelper) :
    (q.extractLoop rest seenMatch h).All (q.Placed entries) := by
  induction rest generalizing seenMatch h with
  | nil => exact Prog.all_pure _
  | cons e rest ih =>
    obtain ⟨he, hrest⟩ := List.forall_mem_cons.mp hrest
    rw [extractLoop]
    refine Prog.all_ite (fun _ => Prog.all_ite (fun _ => Prog.all_pure _) fun _ => ih hrest _ _) fun hbelow => ?_
    have hpath : (q.targetEntryPath h e).All (q.Placed entries) := by
      refine Prog.all_ite (fun _ => Prog.all_bind (Prog.all_ask (placed_none rfl)) fun ok => ?_) fun _ => Prog.all_pure _
      exact Prog.all_ite (fun _ => Prog.all_pure _) fun _ => Prog.all_pure _
    have hnotify : (q.notify e).All (q.Placed entries) := Prog.all_ite (fun _ => Prog.all_ask (placed_none rfl)) fun _ => Prog.all_pure _
    have hentry : (q.extractEntry e).All (q.Placed entries) := by
      refine Prog.all_ite (fun _ => Prog.all_bind hnotify fun _ => Prog.all_pure _) fun _ => ?_
      refine Prog.all_bind (all_create he (by simpa using hbelow)) fun r => ?_
      cases r with
      | stop ok => exact Prog.all_pure _
      | go => exact Prog.all_bind hnotify fun _ => Prog.all_pure _
    refine Prog.all_bind hpath fun r => ?_
    cases r with
    | none => exact Prog.all_pure _
    | some h =>
      refine Prog.all_bind hentry fun r => ?_
      cases r with
      | stop ok => exact Prog.all_pure _
      | go => exact ih hrest _ _

variable (q)

/-- `targetDir` is there, and nothing can be created in its place, above it or on the way to it. -/
def Standing (log : Log) : Prop :=
  ∀ s ∈ log, ∀ p, created s = some p → p ∉ levels q.root ∧ ¬resolve p <+: resolve q.targetDir

/-- On the way of an entry no level leaves `targetDir` sideways: each is under it, above it or on the
way to it. -/
def Stays (e : ZipEntry) : Prop :=
  ∀ p ∈ q.places e, p ∈ levels q.root ∨ resolve q.targetDir <+: resolve p ∨ resolve p <+: resolve q.targetDir

variable {q}

theorem resolve_root (rest : Bytes) : resolve (q.root ++ rest) = (rest.splitOn slash).foldl enter (resolve q.targetDir) := by
  unfold root
  split
  · rename_i hlast
    obtain ⟨front, hfront⟩ := List.getLast?_eq_some_iff.mp hlast
    have hempty : resolve (front ++ [slash]) = resolve front := resolve_append front []
    rw [hfront, hempty, List.append_assoc, List.singleton_append, resolve_append]
  · rw [List.append_assoc, List.singleton_append, resolve_append]

/-- An entry whose name has no component `..` stays. -/
theorem stays_of_down {e : ZipEntry} (h : dotdot ∉ (e.fileName.drop q.zpath.length).splitOn slash) : q.Stays e := by
  have hdown : ∀ a b, e.fileName.drop q.zpath.length ++ [slash] = a ++ slash :: b → resolve q.targetDir <+: resolve (q.root ++ a) := by
    intro a b heq
    rw [resolve_root]
    apply prefix_foldl_enter
    intro hmem
    have hsplit := congrArg (List.splitOn slash) heq
    rw [List.splitOn_append_cons_self, List.splitOn_append_cons_self] at hsplit
    have hmem' : dotdot ∈ (e.fileName.drop q.zpath.length).splitOn slash ++ List.splitOn slash [] := by
      rw [hsplit]
      exact List.mem_append_left _ hmem
    rcases List.mem_append.mp hmem' with hname | hnil
    · exact h hname
    · simp [dotdot] at hnil
  intro p hp
  rcases List.mem_cons.mp hp with rfl | hlevel
  · exact .inr (.inl (hdown _ [] rfl))
  · rw [path, List.append_assoc, levels_append] at hlevel
    rcases List.mem_append.mp hlevel with hroot | hbelow
    · exact .inl hroot
    · obtain ⟨a, b, heq, rfl⟩ := mem_levelsFrom hbelow
      exact .inr (.inl (hdown a b heq))

end Request

/-- All that a run creates lies under `targetDir`, if that is there and the entries below `zipDir` stay
in it. -/
theorem extraction_contained {archive : ZipArchive} {zipDir targetDir : CString}
    {flags : Flags} {timestamp callback : Bool} {fuel : Nat} {log : Log} {ok : Bool}
    (hrun : (mzExtractRecursive archive zipDir targetDir flags timestamp callback fuel).Runs log ok)
    (hstanding : (request zipDir targetDir flags timestamp callback fuel).Standing log)
    (hstays : ∀ e ∈ archive.entries, zipPath zipDir.bytes <+: e.fileName → (request zipDir targetDir flags timestamp callback fuel).Stays e) :
    ∀ s ∈ log, ∀ p, created s = some p → resolve targetDir.bytes <+: resolve p := by
  have hall : (mzExtractRecursive archive zipDir targetDir flags timestamp callback fuel).All
      ((request zipDir targetDir flags timestamp callback fuel).Placed archive.entries) := by
    refine Prog.all_ite (fun _ => Prog.all_pure _) fun _ => Prog.all_ite (fun _ => Prog.all_pure _) fun _ => ?_
    refine Prog.all_bind (Prog.all_ask (Request.placed_none rfl)) fun ok => Prog.all_ite (fun _ => Prog.all_pure _) fun _ => ?_
    exact Request.all_extractLoop _ (fun e he => he) _ _
  intro s hs p hp
  obtain ⟨e, he, hbelow, hplace⟩ := hrun.all hall s hs p (creates_of_created hp)
  obtain ⟨hnotRoot, hnotAbove⟩ := hstanding s hs p hp
  rcases hstays e he ((Request.isBelow_iff _ e).mp hbelow) p hplace with hroot | hunder | habove
  · exact absurd hroot hnotRoot
  · exact hunder
  · exact absurd habove hnotAbove

instance (q : Request) (log : Log) : Decidable (q.Standing log) :=
  decidable_of_iff (∀ s ∈ log, ∀ p ∈ created s, p ∉ levels q.root ∧ ¬resolve p <+: resolve q.targetDir) Iff.rfl

instance (q : Request) (e : ZipEntry) : Decidable (q.Stays e) := inferInstanceAs (Decidable (∀ p ∈ q.places e, _ ∨ _ ∨ _))

/-- The file of the sample is created under `/t`. -/
theorem extraction_contained_sample : ∃ archive log, mzOpenZipArchive sample = some archive ∧
    (mzExtractRecursive archive "" "/t" ⟨true, false⟩ true false 0).Runs log true ∧ (∃ s ∈ log, created s = some [0x2f, 0x74, 0x2f, 0x61]) ∧
    ∀ s ∈ log, ∀ p, created s = some p → resolve [0x2f, 0x74] <+: resolve p := by
  obtain ⟨hopen, hrun, -⟩ := @sampleRun_runs sample (fun data => some data.length) (by decide) (by decide) (by decide)
  refine ⟨_, _, hopen, hrun, by decide, extraction_contained hrun ?_ ?_⟩
  · decide
  · decide

/-- An archive with the file `../x`. -/
def climbing : Bytes := pack [([0x2e, 0x2e, 0x2f, 0x78], [0x79])]

/-- Its file is created beside `targetDir`. -/
theorem not_extraction_contained : ∃ archive log, mzOpenZipArchive climbing = some archive ∧
    (mzExtractRecursive archive "" "/t" ⟨true, false⟩ true false 0).Runs log true ∧
    (request "" "/t" ⟨true, false⟩ true false 0).Standing log ∧
    ∃ s ∈ log, ∃ p, created s = some p ∧ ¬resolve [0x2f, 0x74] <+: resolve p := by
  obtain ⟨hopen, hrun, -⟩ := @sampleRun_runs climbing (fun data => some data.length) (by decide) (by decide) (by decide)
  refine ⟨_, _, hopen, hrun, by decide, ?_⟩
  have hcreated : ∃ s ∈ ((sampleRun climbing fun data => some data.length).get (by decide)).1,
      created s = some [0x2f, 0x74, 0x2f, 0x2e, 0x2e, 0x2f, 0x78] := by decide
  obtain ⟨s, hs, hp⟩ := hcreated
  exact ⟨s, hs, _, hp, by decide⟩

end Twrp.Zip
