import Twrp.Tar.Division
import Twrp.Tar.Fork
import Twrp.Tar.RoundTrip

/-! The archive files that a backup makes.

The single archive is one file. The split walk numbers its archives without a gap. The
threads of an encrypted backup number theirs each in its own hundred: thread `i` makes
`100 * i`, `100 * i + 1` and so on, as many as its share needs and no more than a hundred.
How many that is depends on what `stat` finds, so the threads are followed along a run
whose answers come from a table. -/
namespace Twrp.Tar
open Base

/-- The archives that were made in a run. -/
def made (log : List (Sigma Ans)) : List Path :=
  log.filterMap fun
    | ⟨.createTar file, true⟩ => some file
    | _ => none

theorem made_append (l l' : List (Sigma Ans)) : made (l ++ l') = made l ++ made l' := List.filterMap_append

/-- A call that makes no archive. -/
def Quiet (q : Call) : Prop := ∀ file, q ≠ .createTar file

theorem made_cons_quiet {e : Sigma Ans} (h : Quiet e.1) (l : List (Sigma Ans)) : made (e :: l) = made l := by
  obtain ⟨q, r⟩ := e
  cases q with
  | createTar file => exact absurd rfl (h file)
  | _ => rfl

theorem made_of_quiet {log : List (Sigma Ans)} (h : ∀ e ∈ log, Quiet e.1) : made log = [] := by
  induction log with
  | nil => rfl
  | cons e log ih =>
    rw [made_cons_quiet (h e List.mem_cons_self), ih fun e he => h e (List.mem_cons_of_mem _ he)]

theorem post_quiet {α : Type} {x : Walk α} (h : x.All Quiet) : x.Post fun log _ => made log = [] :=
  fun _ _ hrun => made_of_quiet (hrun.all h)

/-! ### Archives split by size -/

theorem quiet_tarDirs (cfg : Config) {tardir : Path} {includeRoot : Bool} {listing : Listing}
    (hwf : listing.WellFormed) : (tarDirs cfg tardir includeRoot listing).All Quiet := by
  refine all_tarDirs cfg listing (fun _ _ h => by cases h) (fun _ h => by cases h) (fun _ _ _ h => by cases h)
    (fun n sub _ hsub => ?_) hwf
  exact all_tarAppendTree sub (fun _ _ h => by cases h) (fun _ _ h => by cases h) (fun _ _ => True)
    (fun _ _ _ _ _ => ⟨trivial, fun _ h => by cases h⟩) trivial (fun _ h => by cases h) hsub

theorem quiet_addFile (fn : Path) (includeRoot : Bool) : (addFile fn includeRoot).All Quiet :=
  all_addFile fun _ h => by cases h

/-- The split walk goes on from archive `s.fileCount`: it makes the next ones in order. -/
def Grows (basefn : Path) (s : SplitState) (log : List (Sigma Ans)) (r : Int × SplitState) : Prop :=
  ∃ n, made log = (List.range' (s.fileCount + 1) n).map (splitName basefn) ∧
    (0 ≤ r.1 → r.2.fileCount = s.fileCount + n)

section Grows
variable {basefn : Path} {s : SplitState}

theorem Grows.none {log : List (Sigma Ans)} {r : Int × SplitState} (hlog : made log = [])
    (hcount : 0 ≤ r.1 → r.2.fileCount = s.fileCount) : Grows basefn s log r :=
  ⟨0, hlog, hcount⟩

theorem Grows.failed {log : List (Sigma Ans)} {s' : SplitState} (hlog : made log = []) : Grows basefn s log (-1, s') :=
  ⟨0, hlog, fun h => absurd h (show ¬(0 : Int) ≤ -1 by decide)⟩

/-- A walk that stops keeps what was made before. -/
theorem Grows.stop {l l' : List (Sigma Ans)} {r : Int × SplitState} {s' : SplitState} (h : Grows basefn s l r)
    (hl' : made l' = []) : Grows basefn s (l ++ l') (-1, s') := by
  obtain ⟨n, hmade, _⟩ := h
  refine ⟨n, ?_, fun h => absurd h (show ¬(0 : Int) ≤ -1 by decide)⟩
  rw [made_append, hl', List.append_nil, hmade]

theorem Grows.trans {l l' : List (Sigma Ans)} {r r' : Int × SplitState} (h : Grows basefn s l r) (hr : 0 ≤ r.1)
    (h' : Grows basefn r.2 l' r') : Grows basefn s (l ++ l') r' := by
  obtain ⟨n, hmade, hcount⟩ := h
  obtain ⟨n', hmade', hcount'⟩ := h'
  refine ⟨n + n', ?_, fun hr' => ?_⟩
  · rw [made_append, hmade, hmade', hcount hr, ← List.map_append, Nat.add_right_comm, List.range'_append_1]
  · rw [hcount' hr', hcount hr, Nat.add_assoc]

theorem Grows.quiet_left {l l' : List (Sigma Ans)} {r : Int × SplitState} (hl : made l = []) (h : Grows basefn s l' r) :
    Grows basefn s (l ++ l') r := by
  obtain ⟨n, hmade, hcount⟩ := h
  exact ⟨n, by rw [made_append, hl, List.nil_append, hmade], hcount⟩

end Grows

theorem grows_nextArchive (basefn : Path) (size : Nat) (s : SplitState) :
    (nextArchive basefn size s).Post (Grows basefn s) := by
  apply Prog.post_ite
  · intro _
    refine Prog.post_call (logs_closeTar _) fun _ => ?_
    refine Prog.post_bind (Prog.post_ask (R := fun l n => l = [⟨.fileSize s.tarfn, n⟩]) fun n => rfl) ?_
    rintro _ n rfl
    apply Prog.post_ite
    · intro _
      exact Prog.post_pure (.failed rfl)
    · intro _
      apply Prog.post_ite
      · intro _
        refine Prog.post_bind (post_tooMany _) ?_
        rintro _ _ rfl
        exact Prog.post_pure (.failed rfl)
      · intro _
        refine Prog.post_check (logs_createTar _) ?_ ?_
        · exact Prog.post_pure (.failed rfl)
        · exact Prog.post_pure ⟨1, rfl, fun _ => rfl⟩
  · intro _
    exact Prog.post_pure (.none rfl fun _ => rfl)

theorem grows_addSplitFile (basefn fn : Path) (kind : Kind) (s : SplitState) :
    (addSplitFile basefn fn kind s).Post (Grows basefn s) := by
  have hnext : ∀ (l : List (Sigma Ans)) (r : Int × SplitState), Grows basefn s l r →
      Prog.Post (do
        if r.1 < 0 then return (-1, r.2)
        if (← addFile fn true) < 0 then return (-1, r.2)
        return (0, if kind = .lnk then r.2 else {r.2 with currentSize := ull (r.2.currentSize + kind.size)}) :
          Walk (Int × SplitState)) fun l' r' => Grows basefn s (l ++ l') r' := by
    intro l r h
    apply Prog.post_ite
    · intro _
      exact Prog.post_pure (h.stop rfl)
    · intro hr
      refine Prog.post_bind (post_quiet (quiet_addFile fn true)) fun l' ret hl' => ?_
      apply Prog.post_ite
      · intro _
        exact Prog.post_pure (h.stop (by rw [List.append_nil, hl']))
      · intro _
        refine Prog.post_pure (h.trans (Int.not_lt.mp hr) (.none (by rw [List.append_nil, hl']) fun _ => ?_))
        split_ifs <;> rfl
  unfold addSplitFile
  apply Prog.post_ite
  · intro _
    exact Prog.post_bind (Prog.post_pure (.none rfl fun _ => rfl)) hnext
  · intro _
    exact Prog.post_bind (grows_nextArchive _ _ _) hnext

theorem grows_generateEntries (cfg : Config) (basefn : Path) {path : Path} (listing : Listing)
    (hwf : listing.WellFormed) (s : SplitState) : (generateEntries cfg basefn path listing s).Post (Grows basefn s) := by
  induction listing generalizing path s with
  | nil => exact Prog.post_pure (.none rfl fun _ => rfl)
  | leaf name kind rest ih =>
    obtain ⟨_, _, hrest⟩ := hwf
    apply Prog.post_ite
    · intro _
      exact ih hrest s
    · intro _
      refine Prog.post_bind (grows_addSplitFile basefn _ kind s) fun l r h => ?_
      apply Prog.post_ite
      · intro _
        exact Prog.post_pure (h.stop rfl)
      · intro hr
        exact (ih hrest r.2).mono fun l' r' h' => h.trans (Int.not_lt.mp hr) h'
  | dir name sub rest ihsub ihrest =>
    obtain ⟨_, _, hsub, hrest⟩ := hwf
    apply Prog.post_ite
    · intro _
      exact ihrest hrest s
    · intro _
      apply Prog.post_ite
      · intro _
        refine Prog.post_bind (post_quiet (quiet_addFile _ true)) fun l ret hl => ?_
        apply Prog.post_ite
        · intro _
          exact Prog.post_pure (.failed (by rw [List.append_nil, hl]))
        · intro _
          refine Prog.post_check (logs_opendir _) ?_ ?_
          · exact Prog.post_pure (.quiet_left hl (.failed rfl))
          · refine Prog.post_bind (ihsub hsub s) fun l' r h => ?_
            apply Prog.post_ite
            · intro _
              refine Prog.post_pure (.quiet_left hl ?_)
              exact .quiet_left (l := [_]) rfl (h.stop rfl)
            · intro hr
              refine (ihrest hrest r.2).mono fun l'' r' h' => .quiet_left hl ?_
              exact .quiet_left (l := [_]) rfl (h.trans (Int.not_lt.mp hr) h')
      · intro _
        refine Prog.post_bind (post_quiet (quiet_tarDirs cfg hsub)) fun l ret hl => ?_
        apply Prog.post_ite
        · intro _
          exact Prog.post_pure (.failed (by rw [List.append_nil, hl]))
        · intro _
          exact (ihrest hrest _).mono fun l' r h => .quiet_left hl h

/-- The split walk makes its archives from `001` on without a gap, and `000` unless that
fails. -/
theorem made_splitArchive (cfg : Config) (tarfn tardir : Path) {tree : Listing} (hwf : tree.WellFormed) :
    (splitArchive cfg tarfn tardir tree).Post fun log _ => ⟨.createTar (splitName tarfn 0), false⟩ ∉ log →
      ∃ n, made log = (List.range n).map (splitName tarfn) := by
  have hwalk : ∀ s, (generateMultipleArchives cfg tarfn tardir tree s).Post (Grows tarfn s) := by
    intro s
    apply Prog.post_ite
    · intro _
      exact Prog.post_pure (.none rfl fun _ => rfl)
    · intro _
      refine Prog.post_check (logs_opendir _) ?_ ?_
      · exact Prog.post_pure (.failed rfl)
      · exact (grows_generateEntries cfg tarfn tree hwf s).mono fun l r h => .quiet_left (l := [_]) rfl h
  refine Prog.post_call (logs_createTar _) fun ok => ?_
  refine Prog.post_bind (hwalk _) fun l r h => ?_
  have hall : ∀ l', made l' = [] → ok = true → ∃ n, made (⟨.createTar (splitName tarfn 0), ok⟩ :: (l ++ l')) =
      (List.range n).map (splitName tarfn) := by
    intro l' hl' hok
    obtain ⟨n, hmade, _⟩ := h
    refine ⟨n + 1, ?_⟩
    have hfirst : made (⟨.createTar (splitName tarfn 0), ok⟩ :: (l ++ l')) = splitName tarfn 0 :: made (l ++ l') := by
      rw [hok]
      rfl
    rw [hfirst, made_append, hl', List.append_nil, hmade, List.range_eq_range', List.range'_succ, List.map_cons]
  have hok : ∀ {l' : List (Sigma Ans)}, ⟨.createTar (splitName tarfn 0), false⟩ ∉
      (⟨.createTar (splitName tarfn 0), ok⟩ :: l' : List (Sigma Ans)) → ok = true := by
    intro l' hno
    cases ok with
    | false => exact absurd List.mem_cons_self hno
    | true => rfl
  apply Prog.post_ite
  · intro _
    exact Prog.post_pure fun hno => hall [] rfl (hok hno)
  · intro _
    refine Prog.post_call (logs_closeTar _) fun _ => ?_
    exact Prog.post_pure fun hno => hall _ rfl (hok hno)

/-! ### The archives of one thread -/

/-- Calls that succeed. What `stat` finds and which threads can be created is given. -/
def working (stat : Path → Option Stat) (created : Nat → Bool) : (q : Call) → Ans q
  | .stat path => stat path
  | .threadCreate i => created i
  | q => succeed q

/-- A run whose answers come from a table. -/
def Follows (env : (q : Call) → Ans q) (log : List (Sigma Ans)) : Prop := ∀ e ∈ log, e.2 = env e.1

theorem follows_append {env : (q : Call) → Ans q} {l l' : List (Sigma Ans)} :
    Follows env (l ++ l') ↔ Follows env l ∧ Follows env l' := List.forall_mem_append

theorem follows_cons {env : (q : Call) → Ans q} {q : Call} {r : Ans q} {l : List (Sigma Ans)} :
    Follows env (⟨q, r⟩ :: l) ↔ r = env q ∧ Follows env l := List.forall_mem_cons

theorem follows_eval {α : Type} (env : (q : Call) → Ans q) (x : Walk α) :
    Follows env ((x.calls env).map fun q => ⟨q, env q⟩) := by
  intro e he
  obtain ⟨q, _, rfl⟩ := List.mem_map.mp he
  rfl

/-- How often an archiver finds its archive full, given the items, the last `stat` and the
size so far. -/
def rolls (stat : Path → Option Stat) : List Path → Stat → Nat → Nat
  | [], _, _ => 0
  | fn :: rest, st, currentSize =>
    let st := (stat fn).getD st
    if !st.isReg then rolls stat rest st currentSize
    else if ull (currentSize + st.size) > maxArchiveSize then rolls stat rest st (ull st.size) + 1
    else rolls stat rest st (ull (currentSize + st.size))

/-- The archives of a thread from `count + 1` on, where `more` are needed: there is none
after the hundredth. -/
def partsAfter (basefn : Path) (threadId count more : Nat) : List Path :=
  (List.range' (count + 1) (min more (99 - count))).map (partName basefn threadId)

theorem partsAfter_zero (basefn : Path) (threadId count : Nat) : partsAfter basefn threadId count 0 = [] := by
  simp [partsAfter]

theorem partsAfter_full (basefn : Path) (threadId more : Nat) : partsAfter basefn threadId 99 more = [] := by
  simp [partsAfter]

theorem partsAfter_succ (basefn : Path) {threadId count : Nat} (hcount : count < 99) (more : Nat) :
    partsAfter basefn threadId count (more + 1) =
      partName basefn threadId (count + 1) :: partsAfter basefn threadId (count + 1) more := by
  have hmin : min (more + 1) (99 - count) = min more (99 - (count + 1)) + 1 := by omega
  rw [partsAfter, hmin, List.range'_succ, List.map_cons]
  rfl

section Table
variable (stat : Path → Option Stat) (created : Nat → Bool)

theorem made_nextPart (basefn : Path) (threadId size : Nat) {s : PartState} (hs : s.count ≤ 99) :
    (nextPart basefn threadId size s).Post fun log r => Follows (working stat created) log →
      if ull (s.currentSize + size) > maxArchiveSize then
        s.count = 99 ∧ made log = [] ∧ r.1 = -4 ∨
          s.count < 99 ∧ made log = [partName basefn threadId (s.count + 1)] ∧ r.1 = 0 ∧
            r.2 = ⟨partName basefn threadId (s.count + 1), s.count + 1, ull size, s.st⟩
      else made log = [] ∧ r.1 = 0 ∧ r.2 = {s with currentSize := ull (s.currentSize + size)} := by
  unfold nextPart
  apply Prog.post_ite
  · intro hfull
    simp only [if_pos hfull]
    refine Prog.post_check (logs_closeTar _) ?_ ?_
    · refine Prog.post_pure fun h => ?_
      cases (follows_cons.mp h).1
    · apply Prog.post_ite
      · intro hcount
        refine Prog.post_bind (post_tooMany _) ?_
        rintro _ _ rfl
        exact Prog.post_pure fun _ => .inl ⟨by omega, rfl, rfl⟩
      · intro hcount
        refine Prog.post_check (logs_createTar _) ?_ ?_
        · refine Prog.post_pure fun h => ?_
          cases (follows_cons.mp (follows_cons.mp h).2).1
        · exact Prog.post_pure fun _ => .inr ⟨by omega, rfl, rfl, rfl⟩
  · intro hroom
    simp only [if_neg hroom]
    exact Prog.post_pure fun _ => ⟨rfl, rfl, rfl⟩

theorem made_addFile (fn : Path) (includeRoot : Bool) :
    (addFile fn includeRoot).Post fun log ret => Follows (working stat created) log → made log = [] ∧ ret = 0 := by
  refine Prog.post_bind (logs_tarAppendFile _ _) ?_
  rintro _ ok rfl
  cases ok with
  | false =>
    refine Prog.post_pure fun h => ?_
    cases (follows_cons.mp h).1
  | true => exact Prog.post_pure fun _ => ⟨rfl, rfl⟩

theorem made_tarListItems (basefn : Path) (threadId : Nat) (list : List TarItem) {s : PartState} (hs : s.count ≤ 99) :
    (tarListItems basefn threadId list s).Post fun log ret => Follows (working stat created) log →
      made log = partsAfter basefn threadId s.count (rolls stat (share list threadId) s.st s.currentSize) ∧
        (ret = 0 ∨ ret = -4) := by
  induction list generalizing s with
  | nil =>
    rw [show share [] threadId = [] from rfl, rolls, partsAfter_zero]
    refine Prog.post_check (logs_closeTar _) (Prog.post_pure fun h => ?_) (Prog.post_pure fun _ => ⟨rfl, .inl rfl⟩)
    cases (follows_cons.mp h).1
  | cons item rest ih =>
    unfold tarListItems
    by_cases hmine : item.threadId = threadId
    · have hshare : share (item :: rest) threadId = item.fn :: share rest threadId := by
        simp [share, hmine]
      rw [if_neg (not_not.mpr hmine), hshare]
      refine Prog.post_bind (Prog.post_ask (R := fun l st => l = [⟨_, st⟩]) fun st => rfl) ?_
      rintro _ found rfl
      -- the archive is ready with `more` still to be made, or the counter has run out
      have hnext : ∀ (l : List (Sigma Ans)) (r : Int × PartState) (more : Nat),
          (Follows (working stat created) l →
            (r.1 = -4 ∧ made l = partsAfter basefn threadId s.count more) ∨
            (r.1 = 0 ∧ r.2.count ≤ 99 ∧ made l ++ partsAfter basefn threadId r.2.count
                (rolls stat (share rest threadId) r.2.st r.2.currentSize) = partsAfter basefn threadId s.count more)) →
          Prog.Post (do
            if r.1 ≠ 0 then return r.1
            if (← addFile item.fn true) ≠ 0 then return -1
            tarListItems basefn threadId rest r.2 : Walk Int)
            fun l' ret => Follows (working stat created) ([⟨.stat item.fn, found⟩] ++ (l ++ l')) →
              made ([⟨.stat item.fn, found⟩] ++ (l ++ l')) = partsAfter basefn threadId s.count more ∧
                (ret = 0 ∨ ret = -4) := by
        intro l r more hr
        apply Prog.post_ite
        · intro hret
          refine Prog.post_pure fun h => ?_
          rcases hr (follows_append.mp (follows_append.mp h).2).1 with ⟨hcode, hmade⟩ | ⟨hzero, _⟩
          · rw [List.append_nil]
            exact ⟨hmade, .inr hcode⟩
          · exact absurd hzero hret
        · intro hret
          refine Prog.post_bind (made_addFile stat created item.fn true) fun l' ret hadd => ?_
          apply Prog.post_ite
          · intro hfail
            refine Prog.post_pure fun h => ?_
            have hl' := (follows_append.mp (follows_append.mp (follows_append.mp h).2).2).1
            exact absurd (hadd hl').2 hfail
          · intro _ l'' ret' hrun h
            obtain ⟨hl, hl'⟩ := follows_append.mp (follows_append.mp h).2
            obtain ⟨hl', hl''⟩ := follows_append.mp hl'
            rcases hr hl with ⟨hcode, _⟩ | ⟨_, hcount, hmade⟩
            · exact absurd (hcode.symm.trans (not_not.mp hret)) (by decide)
            · obtain ⟨hrest, hcodes⟩ := ih hcount l'' ret' hrun hl''
              refine ⟨?_, hcodes⟩
              rw [made_append, made_append, made_append, (hadd hl').1, hrest]
              exact hmade
      have hfound : ∀ {l : List (Sigma Ans)}, Follows (working stat created) ([⟨.stat item.fn, found⟩] ++ l) →
          found = stat item.fn := fun h => (follows_cons.mp h).1
      apply Prog.post_ite
      · intro hreg
        refine Prog.post_bind (made_nextPart stat created basefn threadId _ hs) fun l r hr => ?_
        intro l' ret hrun h
        rw [hfound h] at hr hreg
        refine hnext l r (rolls stat (item.fn :: share rest threadId) s.st s.currentSize) (fun hl => ?_) l' ret hrun h
        have hstep := hr hl
        simp only [rolls, hreg, Bool.not_true, Bool.false_eq_true, if_false]
        split_ifs at hstep ⊢ with hfull
        · rcases hstep with ⟨hcount, hmade, hcode⟩ | ⟨hcount, hmade, hcode, hstate⟩
          · refine .inl ⟨hcode, ?_⟩
            rw [hmade, hcount, partsAfter_full]
          · refine .inr ⟨hcode, ?_, ?_⟩
            · rw [hstate]
              exact hcount
            · rw [hmade, hstate, partsAfter_succ basefn hcount]
              rfl
        · obtain ⟨hmade, hcode, hstate⟩ := hstep
          rw [hmade, hstate]
          exact .inr ⟨hcode, hs, rfl⟩
      · intro hreg
        refine Prog.post_bind (Prog.post_pure (R := fun l r => l = [] ∧ r = ((0 : Int), {s with st := found.getD s.st}))
          ⟨rfl, rfl⟩) ?_
        rintro _ _ ⟨rfl, rfl⟩ l' ret hrun h
        rw [hfound h] at hreg
        refine hnext [] (0, {s with st := found.getD s.st}) (rolls stat (item.fn :: share rest threadId) s.st s.currentSize)
          (fun hl => ?_) l' ret hrun h
        have hnot : ((stat item.fn).getD s.st).isReg = false := Bool.not_eq_true _ ▸ hreg
        refine .inr ⟨rfl, hs, ?_⟩
        simp only [rolls, hnot, Bool.not_false, if_true]
        rw [hfound h]
        rfl
    · have hshare : share (item :: rest) threadId = share rest threadId := by
        simp [share, hmine]
      rw [if_pos hmine, hshare]
      exact ih hs

/-! ### All archives of a job -/

/-- Thread `i` numbers its archives from `100 * i` on. -/
theorem partName_eq (file : Path) {i c : Nat} (hi : i < 10) (hc : c < 100) :
    partName file i c = splitName file (100 * i + c) := by
  rw [partName, splitName, List.append_assoc, decimal_padded i hi c hc]

theorem lastThread_lt (job : Job) : job.lastThread < 10 := by
  have hcores := cores_le job
  unfold Job.lastThread
  split_ifs <;> omega

/-- The archives of a thread that finds its archive full `full` times. -/
def threadFiles (basefn : Path) (threadId full : Nat) : List Path :=
  (List.range (min full 99 + 1)).map (partName basefn threadId)

theorem made_createList (job : Job) (list : List TarItem) (threadId : Nat) :
    (createList job list threadId).Post fun log ret => Follows (working stat created) log →
      made log = threadFiles job.tarfn threadId (rolls stat (share list threadId) (job.stack threadId) 0) ∧ ret = 0 := by
  have hlist : (tarList job list threadId).Post fun log ret => Follows (working stat created) log →
      made log = threadFiles job.tarfn threadId (rolls stat (share list threadId) (job.stack threadId) 0) ∧
        (ret = 0 ∨ ret = -4) := by
    refine Prog.post_check (logs_createTar _) (Prog.post_pure fun h => ?_) ?_
    · cases (follows_cons.mp h).1
    · refine (made_tarListItems stat created job.tarfn threadId list (Nat.zero_le 99)).mono fun l ret hl h => ?_
      obtain ⟨hmade, hcodes⟩ := hl (follows_cons.mp h).2
      refine ⟨?_, hcodes⟩
      rw [threadFiles, List.range_eq_range', List.range'_succ, List.map_cons]
      exact congrArg _ hmade
  refine Prog.post_bind hlist fun l ret hl => ?_
  apply Prog.post_ite
  · intro hret
    refine Prog.post_pure fun h => ?_
    rw [List.append_nil] at h
    rcases (hl h).2 with hzero | hfour
    · exact absurd (hret.symm.trans hzero) (by decide)
    · exact absurd (hret.symm.trans hfour) (by decide)
  · intro _
    refine Prog.post_pure fun h => ?_
    rw [List.append_nil] at h ⊢
    exact ⟨(hl h).1, rfl⟩

theorem made_startThreads (job : Job) (list : List TarItem) (ids : List Nat) :
    (startThreads job list ids).Post fun log r => Follows (working stat created) log →
      made log = ids.flatMap (fun i => threadFiles job.tarfn i (rolls stat (share list i) (job.stack i) 0)) ∧
        ∃ threads, r = some threads ∧ ∀ t ∈ threads, t.2 = 0 := by
  induction ids with
  | nil => exact Prog.post_pure fun _ => ⟨rfl, [], rfl, by simp⟩
  | cons i ids ih =>
    refine Prog.post_bind (Prog.post_ask (R := fun l _ => made l = []) fun _ => rfl) fun l ok hl => ?_
    refine Prog.post_bind (made_createList stat created job list i) fun l' ret hlist => ?_
    apply Prog.post_ite
    · intro hfail
      refine Prog.post_pure fun h => ?_
      exact absurd (hlist (follows_append.mp (follows_append.mp h).2).1).2 hfail.2
    · intro _
      refine Prog.post_bind ih fun l'' r hrest => ?_
      have hall : Follows (working stat created) (l ++ (l' ++ (l'' ++ []))) →
          made (l ++ (l' ++ (l'' ++ []))) = (i :: ids).flatMap (fun i => threadFiles job.tarfn i
            (rolls stat (share list i) (job.stack i) 0)) ∧ ret = 0 ∧ ∃ threads, r = some threads ∧ ∀ t ∈ threads, t.2 = 0 := by
        intro h
        obtain ⟨hl', hl''⟩ := follows_append.mp (follows_append.mp h).2
        obtain ⟨hmade, hret⟩ := hlist hl'
        obtain ⟨hmade', hthreads⟩ := hrest (follows_append.mp hl'').1
        refine ⟨?_, hret, hthreads⟩
        rw [made_append, made_append, hl, hmade, List.append_nil, hmade', List.flatMap_cons]
        rfl
      cases r with
      | none =>
        refine Prog.post_pure fun h => ?_
        obtain ⟨_, _, threads, hthreads, _⟩ := hall h
        cases hthreads
      | some threads =>
        refine Prog.post_pure fun h => ?_
        obtain ⟨hmade, hret, _, hthreads, hzero⟩ := hall h
        cases hthreads
        refine ⟨hmade, _, rfl, fun t ht => ?_⟩
        split at ht
        · rcases List.mem_cons.mp ht with rfl | ht
          · exact hret
          · exact hzero t ht
        · exact hzero t ht

theorem made_joinThreads (threads : List (Nat × Int)) : (joinThreads threads).Post fun log _ => made log = [] := by
  refine post_quiet ?_
  induction threads with
  | nil => exact Prog.all_pure _
  | cons t rest ih =>
    refine Prog.all_bind (Prog.all_ask fun _ h => by cases h) fun ok => Prog.all_ite (fun _ => Prog.all_pure _) fun _ => ?_
    exact Prog.all_ite (fun _ => Prog.all_pure _) fun _ => ih

/-- The items that archiver `i` is given. -/
def Job.shareOf (job : Job) (i : Nat) : List Path :=
  if job.userdata ∧ i = 0 then share job.lists.regular 0 else share job.lists.encrypt i

/-- The archivers that are started: none where there are more threads than cores. -/
def Job.started (job : Job) : List Nat :=
  if job.lists.threadId > job.lastThread then [] else List.range (job.lastThread + 1)

/-- How often archiver `i` finds its archive full. -/
def Job.fills (job : Job) (i : Nat) : Nat := rolls stat (job.shareOf i) (job.stack i) 0

/-- Archiver 0 with userdata encryption, and the threads. -/
theorem flatMap_started (job : Job) :
    (if job.userdata then threadFiles job.tarfn 0 (rolls stat (share job.lists.regular 0) (job.stack 0) 0) else []) ++
      job.threads.flatMap (fun i => threadFiles job.tarfn i (rolls stat (share job.lists.encrypt i) (job.stack i) 0)) =
    (List.range (job.lastThread + 1)).flatMap fun i => threadFiles job.tarfn i (job.fills stat i) := by
  by_cases huser : job.userdata = true
  · have hthreads : job.threads = List.range' 1 job.lastThread := by
      simp [Job.threads, Job.startThread, huser]
    rw [if_pos huser, hthreads, List.range_eq_range', List.range'_succ, List.flatMap_cons]
    congr 1
    · rw [Job.fills, Job.shareOf, if_pos ⟨huser, rfl⟩]
    · refine List.flatMap_congr fun i hi => ?_
      have hpos : i ≠ 0 := by
        have := (List.mem_range'_1.mp hi).1
        omega
      rw [Job.fills, Job.shareOf, if_neg fun h => hpos h.2]
  · have hthreads : job.threads = List.range (job.lastThread + 1) := by
      simp [Job.threads, Job.startThread, huser, List.range_eq_range']
    rw [if_neg huser, hthreads, List.nil_append]
    refine List.flatMap_congr fun i _ => ?_
    rw [Job.fills, Job.shareOf, if_neg fun h => huser h.1]

theorem made_runLists (job : Job) :
    (runLists job job.lists).Post fun log _ => Follows (working stat created) log →
      made log = job.started.flatMap fun i => threadFiles job.tarfn i (job.fills stat i) := by
  have hstart : ∀ (l : List (Sigma Ans)) (ret : Int) (first : List Path),
      (Follows (working stat created) l → made l = first ∧ ret = 0) → (runThreads job job.lists ret).Post fun l' _ => Follows (working stat created) (l ++ l') →
          made (l ++ l') = first ++ job.threads.flatMap fun i =>
            threadFiles job.tarfn i (rolls stat (share job.lists.encrypt i) (job.stack i) 0) := by
    intro l ret first hl
    apply Prog.post_ite
    · intro hret
      exact Prog.post_pure fun h => absurd (hl (follows_append.mp h).1).2 hret
    · intro _
      refine Prog.post_check logs_pthreadAttr (Prog.post_pure fun h => ?_) ?_
      · cases (follows_cons.mp (follows_append.mp h).2).1
      · refine Prog.post_bind (made_startThreads stat created job job.lists.encrypt job.threads) fun l' r hrest => ?_
        have hsplit : ∀ {l'' : List (Sigma Ans)},
            Follows (working stat created) (l ++ ⟨.threadAttr, true⟩ :: (l' ++ l'')) →
              Follows (working stat created) l ∧ Follows (working stat created) l' := by
          intro l'' h
          obtain ⟨h, h'⟩ := follows_append.mp h
          exact ⟨h, (follows_append.mp (follows_cons.mp h').2).1⟩
        cases r with
        | none =>
          refine Prog.post_pure fun h => ?_
          obtain ⟨_, threads, hthreads, _⟩ := hrest (hsplit h).2
          cases hthreads
        | some threads =>
          refine (made_joinThreads threads).mono fun l'' _ hl'' h => ?_
          rw [made_append, made_cons_quiet (fun _ h => by cases h), made_append, hl'', List.append_nil,
            (hl (hsplit h).1).1, (hrest (hsplit h).2).1]
  unfold runLists Job.started
  apply Prog.post_ite
  · intro htoo
    rw [if_pos htoo]
    exact Prog.post_pure fun _ => rfl
  · intro henough
    rw [if_neg henough, ← flatMap_started stat job]
    by_cases huser : job.userdata = true
    · simp only [if_pos huser]
      exact Prog.post_bind (made_createList stat created job job.lists.regular 0) fun l ret h => hstart l ret _ h
    · simp only [if_neg huser]
      exact Prog.post_bind (Prog.post_pure (R := fun l ret => l = [] ∧ ret = 0) ⟨rfl, rfl⟩) fun l ret h =>
        hstart l ret [] fun _ => ⟨by rw [h.1]; rfl, h.2⟩

/-- The archives of an encrypted backup: of each archiver that is started, as many as it
needs, up to a hundred. -/
theorem made_createEncrypted (job : Job) :
    (createEncrypted job).Post fun log _ => Follows (working stat created) log →
      made log = job.started.flatMap fun i => threadFiles job.tarfn i (job.fills stat i) := by
  have hquiet : (buildLists job).All Quiet := (all_buildLists job).mono fun q hq file h => by
    obtain ⟨p, rfl⟩ := hq
    cases h
  refine Prog.post_bind ((post_buildLists job).and (post_quiet hquiet)) fun l r h => ?_
  obtain ⟨hlists, hl⟩ := h
  rcases hlists with rfl | ⟨rfl, p, hp⟩
  · refine (made_runLists stat created job).mono fun l' _ h hall => ?_
    rw [made_append, hl, List.nil_append, h (follows_append.mp hall).2]
  · refine Prog.post_pure fun hall => ?_
    cases (follows_append.mp hall).1 _ hp

end Table

end Twrp.Tar
