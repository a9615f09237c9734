import Twrp.Tar.Walk

/-! Where an archived path is restored.

`Restore_Tar` extracts below a directory, so a path comes back to its place when the
stored name, joined to that directory with slashes collapsed, is the path itself. The
single archive stores names without their first component, and `Backup_Path` has
exactly one. The split archives store names whole, or, below a directory that fits
one archive, a `0` and whatever the buffer held; they are restored below the same
`Backup_Path`.

The statements are about every call a walk can make (`Prog.All`), so they hold in
every run, whichever calls fail. -/
namespace Twrp.Tar
open Base

/-! ### Paths below a root -/

/-- An absolute path of one component. -/
structure Root (root : Path) : Prop where
  absolute : ∃ c, root = '/' :: c ∧ c ≠ [] ∧ '/' ∉ c

/-- Collapsed, and not ending in a slash. -/
structure Proper (p : Path) : Prop where
  collapsed : Collapsed p
  last : p.getLast? ≠ some '/'

theorem collapsed_append {p q : Path} (hp : Proper p) (hq : Collapsed q) : Collapsed (p ++ q) := by
  refine List.isChain_append.mpr ⟨hp.collapsed, hq, fun c hc d _ h => ?_⟩
  rw [h.1] at hc
  exact hp.last hc

theorem collapsed_noSlash {name : Path} (h : '/' ∉ name) : Collapsed name := by
  induction name with
  | nil => exact List.IsChain.nil
  | cons c rest ih =>
    simp only [List.mem_cons, not_or] at h
    exact List.IsChain.cons (ih h.2) fun d _ hd => h.1 hd.1.symm

theorem collapsed_slash_cons {name : Path} (h : '/' ∉ name) : Collapsed ('/' :: name) := by
  refine List.IsChain.cons (collapsed_noSlash h) fun d hd hc => ?_
  rw [hc.2] at hd
  exact h (List.mem_of_mem_head? hd)

theorem last_append_noSlash (p : Path) {name : Path} (hne : name ≠ []) (h : '/' ∉ name) :
    (p ++ name).getLast? ≠ some '/' := by
  rw [List.getLast?_append_of_ne_nil p hne]
  intro hl
  exact h (List.mem_of_getLast? hl)

theorem Root.proper {root : Path} (h : Root root) : Proper root := by
  obtain ⟨c, rfl, hne, hc⟩ := h.absolute
  exact ⟨collapsed_slash_cons hc, last_append_noSlash ['/'] hne hc⟩

theorem Proper.join {d name : Path} (hd : Proper d) (hn : GoodName name) : Proper (join d name) where
  collapsed := collapsed_append hd (collapsed_slash_cons hn.noSlash)
  last := by
    show (d ++ (['/'] ++ name)).getLast? ≠ some '/'
    rw [← List.append_assoc]
    exact last_append_noSlash _ hn.nonempty hn.noSlash

theorem Proper.slash {d : Path} (hd : Proper d) : Collapsed (d ++ ['/']) :=
  collapsed_append hd (List.IsChain.singleton _)

theorem stripRootDir_root {root : Path} (h : Root root) (rest : Path) :
    stripRootDir (root ++ '/' :: rest) = '/' :: rest := by
  obtain ⟨c, rfl, _, hc⟩ := h.absolute
  unfold stripRootDir
  have hdrop : (c ++ '/' :: rest).dropWhile (· != '/') = '/' :: rest := by
    rw [List.dropWhile_append_of_pos]
    · simp
    · intro x hx
      simp only [bne_iff_ne, ne_eq]
      rintro rfl
      exact hc hx
  simp only [List.cons_append, List.head?_cons, if_true, List.tail_cons]
  rw [if_pos (by simp), hdrop]

/-! ### Restoring -/

/-- The path in the header of an entry: `th_set_path` ends a directory's name with a
slash where the name fits the field, and stores a longer name whole. -/
def headerName (isDir : Bool) (name : Path) : Path :=
  if name.length > 99 then name
  else (name ++ if isDir ∧ name.getLast? ≠ some '/' then ['/'] else []).take 99

/-- The directory `Restore_Tar` extracts a single archive to. `TarEntryExists` looks
for a name without wildcards, so it asks whether a header is that name. -/
def singleDir (backupPath storagePath : Path) (headers : List Path) : Path :=
  if backupPath = "/sd-ext".toList then
    if "sd-ext/".toList ∈ headers then ['/'] else backupPath
  else if backupPath = "/and-sec".toList then
    if ".android_secure/".toList ∈ headers then storagePath else backupPath
  else backupPath

/-- An unencrypted backup of a partition. -/
structure Unencrypted where
  cfg : Config
  backupSize : Nat
  backupPath : Path
  storagePath : Path
  fileName : Path
  tree : Listing
  isDir : Path → Bool

namespace Unencrypted
variable (u : Unencrypted) (junk : Path → Path)

/-- Up to `MAX_ARCHIVE_SIZE` the backup is a single archive. -/
def single : Bool := u.backupSize ≤ maxArchiveSize

def walk : Walk Int :=
  if u.single then create u.cfg u.fileName u.backupPath u.tree
  else splitArchive u.cfg u.fileName u.backupPath u.tree

/-- The directory that `Restore_Tar` passes on for the archives of a run. -/
def restoreDir (log : List (Sigma Ans)) : Path :=
  if u.single then
    singleDir u.backupPath u.storagePath
      ((archived log).map fun e => headerName (u.isDir e.1) (e.2.text junk))
  else u.backupPath

/-- Where an entry of a run is restored. -/
def place (log : List (Sigma Ans)) (e : Path × Stored) : Path :=
  collapse (join (u.restoreDir junk log) (e.2.text junk))

/-- Every entry of every run comes back to its path, and different paths to different
places, whatever the buffers held. -/
structure RoundTrip : Prop where
  places : ∀ junk log ret, Prog.Runs u.walk log ret → ∀ e ∈ archived log, u.place junk log e = e.1
  distinct : ∀ junk log ret, Prog.Runs u.walk log ret → ∀ e ∈ archived log, ∀ e' ∈ archived log,
    e.1 ≠ e'.1 → u.place junk log e ≠ u.place junk log e'

end Unencrypted

/-! ### The calls of the walks -/

/-- A call that stores a path under a known name that restores to it below `dir`. -/
def Placed (dir : Path) : Call → Prop
  | .append real (.known name) => collapse (join dir name) = real ∧ name.head? = some '/'
  | .append _ (.unset _ _) => False
  | _ => True

/-- A call that stores a path under a name that does not restore to it, if the buffers
held nothing. -/
def Misplaced (dir : Path) : Call → Prop
  | .append real save => collapse (join dir (save.text fun _ => [])) ≠ real
  | _ => True

theorem all_addFile {P : Call → Prop} {fn : Path} {includeRoot : Bool}
    (h : P (.append fn (.known (if includeRoot then fn else stripRootDir fn)))) : (addFile fn includeRoot).All P := by
  refine Prog.all_bind (Prog.all_ask h) fun ok => ?_
  exact Prog.all_ite (fun _ => Prog.all_pure _) fun _ => Prog.all_pure _

/-- The walk below a directory, for a property of calls that says nothing of `lstat`
and `opendir` and holds of each path under its name. -/
theorem all_appendEntries {P : Call → Prop} {realdir : Path} {savedir : Stored} (listing : Listing)
    (hlstat : ∀ p, P (.lstat p)) (hopen : ∀ p, P (.opendir p)) (I : Path → Stored → Prop)
    (hjoin : ∀ r s n, I r s → GoodName n → I (join r n) (s.join n) ∧ P (.append (join r n) (s.join n)))
    (hI : I realdir savedir) (hwf : listing.WellFormed) : (appendEntries realdir savedir listing).All P := by
  induction listing generalizing realdir savedir with
  | nil => exact Prog.all_pure _
  | leaf name kind rest ih =>
    obtain ⟨hn, _, hrest⟩ := hwf
    refine Prog.all_bind (Prog.all_ask (hlstat _)) fun ok => Prog.all_ite (fun _ => Prog.all_pure _) fun _ => ?_
    refine Prog.all_bind (Prog.all_ask (hjoin _ _ _ hI hn).2) fun ok => ?_
    exact Prog.all_ite (fun _ => Prog.all_pure _) fun _ => ih hI hrest
  | dir name sub rest ihsub ihrest =>
    obtain ⟨hn, _, hsub, hrest⟩ := hwf
    have hstep := hjoin _ _ _ hI hn
    refine Prog.all_bind (Prog.all_ask (hlstat _)) fun ok => Prog.all_ite (fun _ => Prog.all_pure _) fun _ => ?_
    refine Prog.all_bind (Prog.all_ask hstep.2) fun ok => Prog.all_ite (fun _ => Prog.all_pure _) fun _ => ?_
    refine Prog.all_bind (Prog.all_ask (hopen _)) fun ok => Prog.all_ite (fun _ => Prog.all_pure _) fun _ => ?_
    refine Prog.all_bind (ihsub hstep.1 hsub) fun ret => ?_
    exact Prog.all_ite (fun _ => Prog.all_pure _) fun _ => ihrest hI hrest

theorem all_tarAppendTree {P : Call → Prop} {realdir : Path} {savedir : Stored} (sub : Listing)
    (hlstat : ∀ p, P (.lstat p)) (hopen : ∀ p, P (.opendir p)) (I : Path → Stored → Prop)
    (hjoin : ∀ r s n, I r s → GoodName n → I (join r n) (s.join n) ∧ P (.append (join r n) (s.join n)))
    (hI : I realdir savedir) (hhere : P (.append realdir savedir)) (hwf : sub.WellFormed) :
    (tarAppendTree realdir savedir sub).All P := by
  refine Prog.all_bind (Prog.all_ask hhere) fun ok => Prog.all_ite (fun _ => Prog.all_pure _) fun _ => ?_
  refine Prog.all_bind (Prog.all_ask (hopen _)) fun ok => Prog.all_ite (fun _ => Prog.all_pure _) fun _ => ?_
  exact all_appendEntries sub hlstat hopen I hjoin hI hwf

/-- The name a directory below `tardir` is stored under. -/
def treeName (includeRoot : Bool) (buf : Path) : Stored :=
  if includeRoot then .unset buf [] else .known (stripRootDir buf)

/-- The name a file is stored under. -/
def fileName (includeRoot : Bool) (fn : Path) : Stored :=
  .known (if includeRoot then fn else stripRootDir fn)

theorem all_tarEntries {P : Call → Prop} (cfg : Config) {tardir : Path} {includeRoot : Bool} (listing : Listing)
    (hfile : ∀ n, GoodName n → P (.append (join tardir n) (fileName includeRoot (join tardir n))))
    (htree : ∀ n sub, GoodName n → sub.WellFormed →
      (tarAppendTree (join tardir n) (treeName includeRoot (join tardir n)) sub).All P)
    (hwf : listing.WellFormed) : (tarEntries cfg tardir includeRoot listing).All P := by
  induction listing with
  | nil => exact Prog.all_pure _
  | leaf name kind rest ih =>
    obtain ⟨hn, _, hrest⟩ := hwf
    have hnext := ih hrest
    refine Prog.all_ite (fun _ => hnext) fun _ => Prog.all_ite (fun _ => hnext) fun _ => ?_
    refine Prog.all_ite (fun _ => ?_) fun _ => hnext
    refine Prog.all_bind (all_addFile (hfile name hn)) fun ret => ?_
    exact Prog.all_ite (fun _ => Prog.all_pure _) fun _ => hnext
  | dir name sub rest _ ih =>
    obtain ⟨hn, _, hsub, hrest⟩ := hwf
    have hnext := ih hrest
    refine Prog.all_ite (fun _ => hnext) fun _ => Prog.all_ite (fun _ => hnext) fun _ => ?_
    refine Prog.all_bind (htree name sub hn hsub) fun ret => ?_
    exact Prog.all_ite (fun _ => Prog.all_pure _) fun _ => hnext

theorem all_tarDirs {P : Call → Prop} (cfg : Config) {tardir : Path} {includeRoot : Bool} (listing : Listing)
    (hopen : ∀ p, P (.opendir p))
    (hroot : P (.append (tardir ++ ['/']) (fileName includeRoot (tardir ++ ['/']))))
    (hfile : ∀ n, GoodName n → P (.append (join tardir n) (fileName includeRoot (join tardir n))))
    (htree : ∀ n sub, GoodName n → sub.WellFormed →
      (tarAppendTree (join tardir n) (treeName includeRoot (join tardir n)) sub).All P)
    (hwf : listing.WellFormed) : (tarDirs cfg tardir includeRoot listing).All P := by
  have hentries := all_tarEntries cfg listing hfile htree hwf
  refine Prog.all_bind (Prog.all_ask (hopen _)) fun ok => Prog.all_ite (fun _ => Prog.all_pure _) fun _ => ?_
  refine Prog.all_ite (fun _ => ?_) fun _ => hentries
  refine Prog.all_bind (all_addFile hroot) fun ret => ?_
  exact Prog.all_ite (fun _ => Prog.all_pure _) fun _ => hentries

/-! ### The single archive comes back -/

theorem placed_below {root rest : Path} (hc : Collapsed (root ++ '/' :: rest)) :
    Placed root (.append (root ++ '/' :: rest) (.known ('/' :: rest))) :=
  ⟨collapse_join_slash hc, rfl⟩

theorem placed_tree {root rest : Path} (sub : Listing) (hp : Proper (root ++ '/' :: rest)) (hwf : sub.WellFormed) :
    (tarAppendTree (root ++ '/' :: rest) (.known ('/' :: rest)) sub).All (Placed root) := by
  refine all_tarAppendTree sub (fun _ => trivial) (fun _ => trivial)
    (fun r s => ∃ t, r = root ++ '/' :: t ∧ s = .known ('/' :: t) ∧ Proper r) ?_ ⟨rest, rfl, rfl, hp⟩
    (placed_below hp.collapsed) hwf
  rintro _ _ n ⟨t, rfl, rfl, hr⟩ hn
  have hjoin : join (root ++ '/' :: t) n = root ++ '/' :: (t ++ '/' :: n) := by
    simp [join]
  have hproper := hr.join hn
  rw [hjoin] at hproper ⊢
  exact ⟨⟨t ++ '/' :: n, rfl, rfl, hproper⟩, placed_below hproper.collapsed⟩

theorem placed_create {root : Path} (h : Root root) (cfg : Config) (tarfn : Path) (tree : Listing) (hwf : tree.WellFormed) :
    (create cfg tarfn root tree).All (Placed root) := by
  have hstrip : ∀ rest, fileName false (root ++ '/' :: rest) = .known ('/' :: rest) :=
    fun rest => congrArg Stored.known (stripRootDir_root h rest)
  have hdirs : (tarDirs cfg root false tree).All (Placed root) := by
    refine all_tarDirs cfg tree (fun _ => trivial) ?_ (fun n hn => ?_) (fun n sub hn hsub => ?_) hwf
    · rw [hstrip]
      exact placed_below h.proper.slash
    · rw [join, hstrip]
      exact placed_below (h.proper.join hn).collapsed
    · rw [show treeName false (join root n) = .known ('/' :: n) from hstrip n]
      exact placed_tree sub (h.proper.join hn) hsub
  refine Prog.all_bind (Prog.all_ask trivial) fun ok => Prog.all_ite (fun _ => Prog.all_pure _) fun _ => ?_
  refine Prog.all_bind hdirs fun ret => Prog.all_ite (fun _ => Prog.all_pure _) fun _ => ?_
  refine Prog.all_bind (Prog.all_ask trivial) fun ok => ?_
  exact Prog.all_ite (fun _ => Prog.all_pure _) fun _ => Prog.all_pure _

theorem headerName_slash {isDir : Bool} {name : Path} (h : name.head? = some '/') :
    (headerName isDir name).head? = some '/' := by
  unfold headerName
  cases name with
  | nil => cases h
  | cons c rest =>
    split_ifs
    · exact h
    · simpa using h
    · simpa using h

/-- Headers that start with a slash are none of the names a foreign backup is known by. -/
theorem singleDir_eq {backupPath storagePath : Path} {headers : List Path}
    (h : ∀ n ∈ headers, n.head? = some '/') : singleDir backupPath storagePath headers = backupPath := by
  have hnot : ∀ n : Path, n.head? ≠ some '/' → n ∉ headers := fun n hn hmem => hn (h n hmem)
  unfold singleDir
  rw [if_neg (hnot _ (by decide)), if_neg (hnot _ (by decide))]
  split_ifs <;> rfl

/-! ### The split archives do not -/

theorem misplaced_whole {root fn : Path} (h : Root root) (hfn : ∃ rest, fn = root ++ '/' :: rest)
    (hc : Collapsed fn) : Misplaced root (.append fn (.known fn)) := by
  obtain ⟨c, hroot, _, _⟩ := h.absolute
  obtain ⟨rest, hrest⟩ := hfn
  have hslash : fn = '/' :: (c ++ '/' :: rest) := by
    rw [hrest, hroot]
    rfl
  show collapse (join root fn) ≠ fn
  rw [hslash] at hc ⊢
  rw [collapse_join_slash (collapsed_append h.proper hc)]
  intro heq
  have hlen := congrArg List.length heq
  rw [List.length_append, hroot] at hlen
  simp at hlen

/-- A `0` in place of two components and more: too short to be the path. -/
theorem misplaced_tree {root realdir buf : Path} (h : Root root) (sub : Listing)
    (hlen : root.length + 2 < realdir.length) (hwf : sub.WellFormed) :
    (tarAppendTree realdir (.unset buf []) sub).All (Misplaced root) := by
  have hhere : ∀ r below : Path, Proper (join root ('0' :: below)) → (join root ('0' :: below)).length < r.length →
      Misplaced root (.append r (.unset buf below)) := by
    intro r below hs hlen heq
    rw [show (Stored.unset buf below).text (fun _ => []) = '0' :: below from rfl,
      collapse_of_collapsed hs.collapsed] at heq
    rw [heq] at hlen
    exact lt_irrefl _ hlen
  have hzero : Proper (join root ['0']) := h.proper.join ⟨by decide, by decide, by decide, by decide⟩
  have hlen' : (join root ['0']).length < realdir.length := by
    simpa [join] using hlen
  refine all_tarAppendTree sub (fun _ => trivial) (fun _ => trivial)
    (fun r s => ∃ below, s = .unset buf below ∧ Proper (join root ('0' :: below)) ∧
      (join root ('0' :: below)).length < r.length) ?_ ⟨[], rfl, hzero, hlen'⟩ (hhere _ _ hzero hlen') hwf
  rintro r _ n ⟨below, rfl, hs, hlen⟩ hn
  have hjoin : join root ('0' :: join below n) = join (join root ('0' :: below)) n := by
    simp [join]
  have hproper := hs.join hn
  have hlen'' : (join root ('0' :: join below n)).length < (join r n).length := by
    rw [hjoin]
    simp only [join, List.length_append, List.length_cons] at hlen ⊢
    omega
  rw [← hjoin] at hproper
  exact ⟨⟨join below n, rfl, hproper, hlen''⟩, hhere _ _ hproper hlen''⟩

/-- A path strictly below the root. -/
structure Below (root p : Path) : Prop where
  path : ∃ n, n ≠ [] ∧ p = root ++ '/' :: n
  proper : Proper p

theorem Below.of_root {root n : Path} (h : Root root) (hn : GoodName n) : Below root (join root n) :=
  ⟨⟨n, hn.nonempty, rfl⟩, h.proper.join hn⟩

theorem Below.join {root p n : Path} (hp : Below root p) (hn : GoodName n) : Below root (join p n) := by
  obtain ⟨m, hm, rfl⟩ := hp.path
  exact ⟨⟨m ++ '/' :: n, by simp, by simp [Base.join]⟩, hp.proper.join hn⟩

theorem misplaced_tarDirs {root : Path} (h : Root root) (cfg : Config) {fn : Path} (sub : Listing)
    (hfn : Below root fn) (hwf : sub.WellFormed) : (tarDirs cfg fn true sub).All (Misplaced root) := by
  obtain ⟨n, hne, rfl⟩ := hfn.path
  refine all_tarDirs cfg sub (fun _ => trivial) ?_ (fun m hm => ?_) (fun m sub hm hsub => ?_) hwf
  · exact misplaced_whole h ⟨n ++ ['/'], by simp⟩ hfn.proper.slash
  · exact misplaced_whole h ⟨n ++ '/' :: m, by simp [join]⟩ (hfn.proper.join hm).collapsed
  · refine misplaced_tree h sub ?_ hsub
    have := List.length_pos_iff.mpr hne
    simp only [join, List.length_append, List.length_cons]
    omega

theorem misplaced_addSplitFile {root fn : Path} (h : Root root) (basefn : Path) (kind : Kind) (s : SplitState)
    (hfn : Below root fn) : (addSplitFile basefn fn kind s).All (Misplaced root) := by
  have hnext : (nextArchive basefn kind.size s).All (Misplaced root) := by
    refine Prog.all_ite (fun _ => ?_) fun _ => Prog.all_pure _
    refine Prog.all_bind (Prog.all_ask trivial) fun _ => Prog.all_bind (Prog.all_ask trivial) fun size => ?_
    refine Prog.all_ite (fun _ => Prog.all_pure _) fun _ => Prog.all_ite (fun _ => ?_) fun _ => ?_
    · exact Prog.all_bind (Prog.all_ask trivial) fun _ => Prog.all_pure _
    · refine Prog.all_bind (Prog.all_ask trivial) fun ok => ?_
      exact Prog.all_ite (fun _ => Prog.all_pure _) fun _ => Prog.all_pure _
  have hrest : ∀ r : Int × SplitState, (if r.1 < 0 then pure (-1, r.2) else do
      if (← addFile fn true) < 0 then return (-1, r.2)
      return (0, if kind = .lnk then r.2 else
        {r.2 with currentSize := ull (r.2.currentSize + kind.size)}) : Walk (Int × SplitState)).All (Misplaced root) := by
    obtain ⟨n, _, heq⟩ := hfn.path
    intro r
    refine Prog.all_ite (fun _ => Prog.all_pure _) fun _ => ?_
    refine Prog.all_bind (all_addFile (misplaced_whole h ⟨n, heq⟩ hfn.proper.collapsed)) fun ret => ?_
    exact Prog.all_ite (fun _ => Prog.all_pure _) fun _ => Prog.all_pure _
  unfold addSplitFile
  refine Prog.all_ite (fun _ => ?_) fun _ => ?_
  · exact Prog.all_bind (Prog.all_pure _) hrest
  · exact Prog.all_bind hnext hrest

theorem misplaced_generateEntries {root : Path} (h : Root root) (cfg : Config) (basefn : Path) {path : Path}
    (listing : Listing) (hpath : ∀ n, GoodName n → Below root (join path n)) (hwf : listing.WellFormed)
    (s : SplitState) : (generateEntries cfg basefn path listing s).All (Misplaced root) := by
  induction listing generalizing path s with
  | nil => exact Prog.all_pure _
  | leaf name kind rest ih =>
    obtain ⟨hn, _, hrest⟩ := hwf
    refine Prog.all_ite (fun _ => ih hpath hrest s) fun _ => ?_
    refine Prog.all_bind (misplaced_addSplitFile h basefn kind s (hpath name hn)) fun r => ?_
    exact Prog.all_ite (fun _ => Prog.all_pure _) fun _ => ih hpath hrest r.2
  | dir name sub rest ihsub ihrest =>
    obtain ⟨hn, _, hsub, hrest⟩ := hwf
    have hbelow := hpath name hn
    obtain ⟨n, _, heq⟩ := hbelow.path
    refine Prog.all_ite (fun _ => ihrest hpath hrest s) fun _ => Prog.all_ite (fun _ => ?_) fun _ => ?_
    · refine Prog.all_bind (all_addFile (misplaced_whole h ⟨n, heq⟩ hbelow.proper.collapsed)) fun ret => ?_
      refine Prog.all_ite (fun _ => Prog.all_pure _) fun _ => ?_
      refine Prog.all_bind (Prog.all_ask trivial) fun ok => Prog.all_ite (fun _ => Prog.all_pure _) fun _ => ?_
      refine Prog.all_bind (ihsub (fun m hm => hbelow.join hm) hsub s) fun r => ?_
      exact Prog.all_ite (fun _ => Prog.all_pure _) fun _ => ihrest hpath hrest r.2
    · refine Prog.all_bind (misplaced_tarDirs h cfg sub hbelow hsub) fun ret => ?_
      exact Prog.all_ite (fun _ => Prog.all_pure _) fun _ => ihrest hpath hrest _

theorem misplaced_splitArchive {root : Path} (h : Root root) (cfg : Config) (tarfn : Path) (tree : Listing)
    (hwf : tree.WellFormed) : (splitArchive cfg tarfn root tree).All (Misplaced root) := by
  have hwalk : ∀ s, (generateMultipleArchives cfg tarfn root tree s).All (Misplaced root) := by
    intro s
    refine Prog.all_ite (fun _ => Prog.all_pure _) fun _ => ?_
    refine Prog.all_bind (Prog.all_ask trivial) fun ok => Prog.all_ite (fun _ => Prog.all_pure _) fun _ => ?_
    exact misplaced_generateEntries h cfg tarfn tree (fun n hn => .of_root h hn) hwf s
  refine Prog.all_bind (Prog.all_ask trivial) fun _ => Prog.all_bind (hwalk _) fun r => ?_
  refine Prog.all_ite (fun _ => Prog.all_pure _) fun _ => ?_
  exact Prog.all_bind (Prog.all_ask trivial) fun _ => Prog.all_pure _

/-! ### The round trip -/

namespace Unencrypted
variable {u : Unencrypted}

theorem placed_of_single (hroot : Root u.backupPath) (hwf : u.tree.WellFormed) (hs : u.single = true)
    {log : List (Sigma Ans)} {ret : Int} (hrun : Prog.Runs u.walk log ret) {e : Path × Stored}
    (he : e ∈ archived log) : ∃ name, e.2 = .known name ∧ collapse (join u.backupPath name) = e.1 ∧
      name.head? = some '/' := by
  rw [walk, if_pos hs] at hrun
  have hplaced := hrun.all (placed_create hroot u.cfg u.fileName u.tree hwf) _ (mem_archived he)
  cases hsave : e.2 with
  | known name =>
    rw [hsave] at hplaced
    exact ⟨name, rfl, hplaced⟩
  | unset buf below =>
    rw [hsave] at hplaced
    exact absurd hplaced id

theorem place_of_single (hroot : Root u.backupPath) (hwf : u.tree.WellFormed) (hs : u.single = true)
    (junk : Path → Path) {log : List (Sigma Ans)} {ret : Int} (hrun : Prog.Runs u.walk log ret)
    {e : Path × Stored} (he : e ∈ archived log) : u.place junk log e = e.1 := by
  have hdir : u.restoreDir junk log = u.backupPath := by
    rw [restoreDir, if_pos hs]
    refine singleDir_eq fun n hn => ?_
    obtain ⟨e', he', rfl⟩ := List.mem_map.mp hn
    obtain ⟨name, hname, _, hslash⟩ := placed_of_single hroot hwf hs hrun he'
    rw [hname]
    exact headerName_slash hslash
  obtain ⟨name, hname, hplace, _⟩ := placed_of_single hroot hwf hs hrun he
  rw [place, hdir, hname]
  exact hplace

theorem misplaced_of_split (hroot : Root u.backupPath) (hwf : u.tree.WellFormed) (hs : ¬u.single = true)
    {log : List (Sigma Ans)} {ret : Int} (hrun : Prog.Runs u.walk log ret) {e : Path × Stored}
    (he : e ∈ archived log) : u.place (fun _ => []) log e ≠ e.1 := by
  rw [walk, if_neg hs] at hrun
  rw [place, restoreDir, if_neg hs]
  exact hrun.all (misplaced_splitArchive hroot u.cfg u.fileName u.tree hwf) _ (mem_archived he)

/-- **Paths.** Archived paths come back to their places exactly when the backup is a
single archive, or archives nothing. -/
theorem path_roundTrip_iff (hroot : Root u.backupPath) (hwf : u.tree.WellFormed) :
    u.RoundTrip ↔ u.backupSize ≤ maxArchiveSize ∨
      ∀ log ret, Prog.Runs u.walk log ret → archived log = [] := by
  constructor
  · intro h
    by_cases hs : u.single = true
    · exact .inl (by simpa [single] using hs)
    · refine .inr fun log ret hrun => List.eq_nil_iff_forall_not_mem.mpr fun e he => ?_
      exact misplaced_of_split hroot hwf hs hrun he (h.places _ log ret hrun e he)
  · rintro (hsize | hnone)
    · have hs : u.single = true := by simpa [single] using hsize
      refine ⟨fun junk log ret hrun e he => place_of_single hroot hwf hs junk hrun he,
        fun junk log ret hrun e he e' he' hne => ?_⟩
      rw [place_of_single hroot hwf hs junk hrun he, place_of_single hroot hwf hs junk hrun he']
      exact hne
    · refine ⟨fun junk log ret hrun e he => ?_, fun junk log ret hrun e he => ?_⟩
      · rw [hnone log ret hrun] at he
        cases he
      · rw [hnone log ret hrun] at he
        cases he

end Unencrypted

/-! ### One file in split archives -/

/-- `/data` with one file, as a partition of `size` bytes. -/
def oneFile (size : Nat) : Unencrypted where
  cfg := ⟨false, false, []⟩
  backupSize := size
  backupPath := "/data".toList
  storagePath := "/sdcard".toList
  fileName := "data.ext4.win".toList
  tree := .leaf ['f'] (.reg size) .nil
  isDir := fun _ => false

theorem oneFile_root (size : Nat) : Root (oneFile size).backupPath :=
  ⟨"data".toList, show "/data".toList = '/' :: "data".toList by decide, by decide, by decide⟩

theorem oneFile_wellFormed (size : Nat) : (oneFile size).tree.WellFormed :=
  ⟨⟨by decide, by decide, by decide, by decide⟩, by simp [Listing.names], trivial⟩

theorem path_roundTrip_small : Root (oneFile 4096).backupPath ∧ (oneFile 4096).tree.WellFormed ∧
    ((oneFile 4096).RoundTrip ↔ (oneFile 4096).backupSize ≤ maxArchiveSize ∨
      ∀ log ret, Prog.Runs (oneFile 4096).walk log ret → archived log = []) :=
  ⟨oneFile_root _, oneFile_wellFormed _,
    Unencrypted.path_roundTrip_iff (oneFile_root _) (oneFile_wellFormed _)⟩

/-- The file `/data/f` of a partition of 2 GB is restored to `/data/data/f`. -/
theorem path_roundTrip_split :
    Root (oneFile 2147483648).backupPath ∧ (oneFile 2147483648).tree.WellFormed ∧
      ¬(oneFile 2147483648).RoundTrip := by
  refine ⟨oneFile_root _, oneFile_wellFormed _, fun h => ?_⟩
  have hrun := Prog.runs_eval succeed (oneFile 2147483648).walk
  have hmem : ("/data/f".toList, Stored.known "/data/f".toList) ∈
      archived (((oneFile 2147483648).walk.calls succeed).map fun q => ⟨q, succeed q⟩) := by
    decide
  have hplace := h.places (fun _ => []) _ _ hrun _ hmem
  exact absurd hplace (by decide)

end Twrp.Tar
