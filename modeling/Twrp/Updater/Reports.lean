import Twrp.Updater.Permissions

/-! The permission functions in a world: when a value other than NULL says the truth. -/
namespace Twrp.Updater.Permissions
open Base Edify

/-! ### Values -/

/-- What `ParsePermArgs` makes of valid values. -/
def Wanted.parsed (wanted : Wanted) : PermArgs where
  uid := wanted.uid.map fun n => (n.val : Int)
  gid := wanted.gid.map fun n => (n.val : Int)
  mode := wanted.mode.map fun n => (n.val : Int)
  fmode := wanted.fmode.map fun n => (n.val : Int)
  dmode := wanted.dmode.map fun n => (n.val : Int)
  selabel := wanted.selabel
  capabilities := wanted.capabilities.map fun n => (n.val : Int)

theorem number_of_whole {base : Option Nat} {bound : Nat} {s : CString} {n : Fin bound} (h : whole base bound s = some n) :
    ∃ negative, number base s = some (negative, n.val, []) ∧ (negative = true → n.val = 0) := by
  rw [whole] at h
  split at h
  · rename_i negative value hnumber
    split at h
    · rename_i hvalid
      obtain rfl := Option.some.inj h
      exact ⟨negative, hnumber, hvalid.2⟩
    · exact nomatch h
  · exact nomatch h

theorem scanInt_of_whole {base : Option Nat} {bound : Nat} {s : CString} {n : Fin bound} (h : whole base bound s = some n) :
    scanInt base s = some (n.val : Int) := by
  obtain ⟨negative, hnumber, hzero⟩ := number_of_whole h
  rw [scanInt, hnumber, Option.map_some]
  cases negative with
  | false => rfl
  | true => rw [hzero rfl]; rfl

theorem wholeUl_of_whole {bound : Nat} (hbound : bound ≤ 4294967296) {s : CString} {n : Fin bound} (h : whole none bound s = some n) :
    ∃ x : Int, wholeUl s = some x ∧ clamp x = x ∧ x % 4294967296 = n.val := by
  obtain ⟨negative, hnumber, hzero⟩ := number_of_whole h
  have hlt := n.isLt
  have hword : (if negative then (4294967296 - min 4294967295 n.val) % 4294967296 else min 4294967295 n.val) = n.val := by
    cases negative with
    | false => exact min_eq_right (by omega)
    | true => rw [hzero rfl]; rfl
  refine ⟨if n.val < 2147483648 then (n.val : Int) else (n.val : Int) - 4294967296, ?_, ?_, ?_⟩
  · rw [wholeUl, hnumber]
    dsimp only
    rw [hword]
  · rw [clamp]
    split <;> omega
  · split <;> omega

theorem asId_of_whole {s : CString} {n : Id} (h : whole none 4294967295 s = some n) {x : Int} (hx : wholeUl s = some x) : asId x = some n := by
  obtain ⟨x', hx', hclamp, hmod⟩ := wholeUl_of_whole (by decide) h
  obtain rfl := Option.some.inj (hx.symm.trans hx')
  have hlt := n.isLt
  rw [asId, dif_pos (by rw [hclamp]; omega)]
  apply congrArg some
  apply Fin.ext
  show (clamp x % 4294967296).toNat = n.val
  rw [hclamp, hmod, Int.toNat_natCast]

theorem asMode_of_whole {s : CString} {n : Mode} (h : whole none 4096 s = some n) {x : Int} (hx : wholeUl s = some x) : asMode x = n := by
  obtain ⟨x', hx', hclamp, hmod⟩ := wholeUl_of_whole (by decide) h
  obtain rfl := Option.some.inj (hx.symm.trans hx')
  have hlt := n.isLt
  apply Fin.ext
  show (clamp x % 4096).toNat = n.val
  rw [hclamp]
  omega

theorem parsePermArg_of_wantedArg {wanted wanted' : Wanted} {key value : CString} (h : wantedArg wanted key value = some wanted') :
    (parsePermArg wanted.parsed key value).1 = wanted'.parsed := by
  rw [wantedArg] at h
  rw [parsePermArg]
  dsimp only
  split at h
  · rename_i hkey
    obtain ⟨n, hn, rfl⟩ := Option.map_eq_some_iff.mp h
    rw [if_pos hkey, scanInt_of_whole hn]
    rfl
  rename_i hkey
  rw [if_neg hkey]
  split at h
  · rename_i hkey
    obtain ⟨n, hn, rfl⟩ := Option.map_eq_some_iff.mp h
    rw [if_pos hkey, scanInt_of_whole hn]
    rfl
  rename_i hkey
  rw [if_neg hkey]
  split at h
  · rename_i hkey
    obtain ⟨n, hn, rfl⟩ := Option.map_eq_some_iff.mp h
    rw [if_pos hkey, scanInt_of_whole hn]
    rfl
  rename_i hkey
  rw [if_neg hkey]
  split at h
  · rename_i hkey
    obtain ⟨n, hn, rfl⟩ := Option.map_eq_some_iff.mp h
    rw [if_pos hkey, scanInt_of_whole hn]
    rfl
  rename_i hkey
  rw [if_neg hkey]
  split at h
  · rename_i hkey
    obtain ⟨n, hn, rfl⟩ := Option.map_eq_some_iff.mp h
    rw [if_pos hkey, scanInt_of_whole hn]
    rfl
  rename_i hkey
  rw [if_neg hkey]
  split at h
  · rename_i hkey
    obtain ⟨n, hn, rfl⟩ := Option.map_eq_some_iff.mp h
    rw [if_pos hkey, scanInt_of_whole hn]
    rfl
  rename_i hkey
  rw [if_neg hkey]
  split at h
  · rename_i hlabel
    rw [if_pos hlabel]
    split at h
    · rename_i hlength
      obtain rfl := Option.some.inj h
      rw [if_pos hlength]
      rfl
    · exact nomatch h
  · rename_i hlabel
    obtain rfl := Option.some.inj h
    rw [if_neg hlabel]

theorem parsePermArgs_cons (parsed : PermArgs) (key value : CString) (rest : List CString) :
    parsePermArgs parsed (key :: value :: rest) = (do
      logIf ((parsePermArg parsed key value).2 ≠ []) (parsePermArg parsed key value).2
      parsePermArgs (parsePermArg parsed key value).1 rest) := rfl

/-- What the loop of `ParsePermArgs` comes to. -/
theorem runs_parsePermArgs {args : List CString} {wanted wanted' : Wanted} (hwanted : wantedArgs wanted args = some wanted')
    {log : List Entry} {parsed : PermArgs} (h : Prog.Runs (parsePermArgs wanted.parsed args) log parsed) : parsed = wanted'.parsed := by
  induction wanted, args using wantedArgs.induct generalizing log with
  | case1 wanted key value rest ih =>
    rw [wantedArgs] at hwanted
    rw [parsePermArgs_cons] at h
    obtain ⟨next, hnext, hrest⟩ := Option.bind_eq_some_iff.mp hwanted
    obtain ⟨l, u, l', rfl, -, hrun⟩ := Prog.runs_bind.mp h
    rw [parsePermArg_of_wantedArg hnext] at hrun
    exact ih next hrest hrun
  | case2 wanted args hshort =>
    rw [wantedArgs] at hwanted
    · rw [parsePermArgs] at h
      · obtain ⟨-, rfl⟩ := Prog.runs_pure.mp h
        rw [Option.some.inj hwanted]
      · exact hshort
    · exact hshort

/-- The parse only tells. -/
theorem silent_parsePermArgs {args : List CString} {start parsed : PermArgs} {log : List Entry}
    (h : Prog.Runs (parsePermArgs start args) log parsed) : Silent log := by
  induction start, args using parsePermArgs.induct generalizing log with
  | case1 start key value rest next wrong hnext ih =>
    rw [parsePermArgs_cons, hnext] at h
    obtain ⟨l, u, l', rfl, htold, hrun⟩ := Prog.runs_bind.mp h
    exact silent_append (runs_logIf htold) (ih hrun)
  | case2 start args hshort =>
    rw [parsePermArgs] at h
    · obtain ⟨rfl, -⟩ := Prog.runs_pure.mp h
      exact silent_nil
    · exact hshort

theorem filterMap_toList {α β : Type} (o : Option α) (f : α → Option β) : o.toList.filterMap f = (o.bind f).toList := by
  cases o with
  | none => rfl
  | some a =>
    cases h : f a with
    | none => simp [h]
    | some b => simp [h]

/-- The calls for valid values are for the changes asked for. -/
theorem changes_applyActs (wanted : Wanted) (path : CString) (kind : FileKind) :
    (applyActs path kind wanted.parsed).filterMap changeOf = wanted.changes path kind := by
  have hmode (o : Option Mode) :
      ((o.map fun n => (n.val : Int)).map (Act.chmod path)).bind changeOf = o.map (Change.mode path) := by
    cases o with
    | none => rfl
    | some n => exact congrArg (fun n => some (Change.mode path n)) (asMode_val n)
  have huid : ((wanted.uid.map fun n => (n.val : Int)).map fun uid => Act.chown path (some uid) none).bind changeOf =
      wanted.uid.map fun uid => Change.owner path (some uid) none := by
    cases wanted.uid with
    | none => rfl
    | some n => exact congrArg (fun o => some (Change.owner path o none)) (asId_val n)
  have hgid : ((wanted.gid.map fun n => (n.val : Int)).map fun gid => Act.chown path none (some gid)).bind changeOf =
      wanted.gid.map fun gid => Change.owner path none (some gid) := by
    cases wanted.gid with
    | none => rfl
    | some n => exact congrArg (fun o => some (Change.owner path none o)) (asId_val n)
  have hlabel : (wanted.selabel.map (Act.lsetfilecon path)).bind changeOf = wanted.selabel.map (Change.label path) := by
    cases wanted.selabel <;> rfl
  have hcapabilities (o : Option (Fin 9223372036854775808)) :
      ((o.map fun n => (n.val : Int)).map fun capabilities =>
        if capabilities = 0 then Act.removexattr path else Act.setxattr path capabilities).bind changeOf =
      o.map fun capabilities =>
        if capabilities.val = 0 then Change.noCapabilities path else Change.capabilities path capabilities.val := by
    cases o with
    | none => rfl
    | some n =>
      have hlt := n.isLt
      have hval : asCapabilities (n.val : Int) = n.val := by
        rw [asCapabilities, clamp]
        omega
      show changeOf (if (n.val : Int) = 0 then _ else _) = some (if n.val = 0 then _ else _)
      by_cases hzero : n.val = 0
      · rw [if_pos hzero, if_pos (by omega)]
        rfl
      · rw [if_neg hzero, if_neg (by omega)]
        exact congrArg (fun n => some (Change.capabilities path n)) hval
  have hmap {α β : Type} (p : Prop) [Decidable p] (o : Option α) (f : α → β) :
      (if p then o.map f else none) = (if p then o else none).map f := by
    split <;> rfl
  rw [applyActs, Wanted.changes]
  split
  · rfl
  · simp only [List.filterMap_append, filterMap_toList, Wanted.parsed, hmap, hmode, huid, hgid, hlabel, hcapabilities]

/-! ### The functions in a world -/

section Functions
variable {w : World} {site : Site} {log : List Entry} {v : Option Value}

/-- A call for a change, or one that only tells. -/
def Changing : Call Act → Prop
  | .say _ => True
  | .act a => (changeOf a).isSome = true
  | _ => False

theorem changing_say (m : Message) : (say m : Step Unit).All Changing := Prog.all_ask trivial

theorem changing_perform {a : Act} (h : (changeOf a).isSome = true) : (perform a).All Changing := Prog.all_ask h

theorem changing_abortWith (parts : List CString) : (abortWith parts).All Changing := Prog.all_bind (changing_say _) fun _ => trivial

theorem changing_logFailure (failed : Option Errno) (parts : CString → List CString) : (logFailure failed parts).All Changing := by
  cases failed with
  | none => trivial
  | some e => exact changing_say _

theorem changing_logIf (c : Bool) (parts : List CString) : (logIf c parts).All Changing :=
  Prog.all_ite (fun _ => changing_say _) fun _ => trivial

theorem changing_setPerms (uid gid mode : Int) (paths : List CString) : (setPerms site uid gid mode paths).All Changing := by
  induction paths with
  | nil => trivial
  | cons path rest ih =>
    refine Prog.all_bind (changing_perform rfl) fun owned => Prog.all_bind (changing_logFailure _ _) fun _ => ?_
    refine Prog.all_bind (changing_perform rfl) fun moded => Prog.all_bind (changing_logFailure _ _) fun _ => ?_
    exact Prog.all_bind ih fun _ => trivial

theorem changing_parsePermArgs (start : PermArgs) (args : List CString) : (parsePermArgs start args).All Changing := by
  induction start, args using parsePermArgs.induct with
  | case1 start key value rest next wrong hnext ih =>
    rw [parsePermArgs_cons, hnext]
    exact Prog.all_bind (changing_logIf _ _) fun _ => ih
  | case2 start args hshort =>
    rw [parsePermArgs]
    · trivial
    · exact hshort

theorem changing_applyOne {α : Type} {field : Option α} {change : α → Step (Option Errno)} {allowed : Nat → Bool} {message : α → List CString}
    (hchange : ∀ value, (change value).All Changing) : (applyOne field change allowed message).All Changing := by
  cases field with
  | none => trivial
  | some value =>
    refine Prog.all_bind (hchange value) fun failed => ?_
    cases failed with
    | none => trivial
    | some e => exact Prog.all_ite (fun _ => trivial) fun _ => Prog.all_bind (changing_say _) fun _ => trivial

theorem changing_applyParsedPerms (path : CString) (kind : FileKind) (parsed : PermArgs) :
    (applyParsedPerms path kind parsed).All Changing := by
  refine Prog.all_ite (fun _ => trivial) fun _ => ?_
  refine Prog.all_bind (changing_applyOne fun _ => changing_perform rfl) fun uid => ?_
  refine Prog.all_bind (changing_applyOne fun _ => changing_perform rfl) fun gid => ?_
  refine Prog.all_bind (changing_applyOne fun _ => changing_perform rfl) fun mode => ?_
  refine Prog.all_bind (changing_applyOne fun _ => changing_perform rfl) fun dmode => ?_
  refine Prog.all_bind (changing_applyOne fun _ => changing_perform rfl) fun fmode => ?_
  refine Prog.all_bind (changing_applyOne fun _ => changing_perform rfl) fun selabel => ?_
  refine Prog.all_bind (changing_applyOne fun caps => ?_) fun capabilities => trivial
  exact Prog.all_ite (fun _ => changing_perform rfl) fun _ => changing_perform rfl

theorem changing_nftw (parsed : PermArgs) (fails : Bool) (visits : List (CString × FileKind)) : (nftw parsed fails visits).All Changing := by
  induction visits with
  | nil => trivial
  | cons file rest ih => exact Prog.all_bind (changing_applyParsedPerms _ _ _) fun bad => Prog.all_ite (fun _ => trivial) fun _ => ih

/-- No file is looked at. -/
theorem no_lstat {α : Type} {x : Step α} (hx : x.All Changing) {a : α} (h : Prog.Runs x log a) (path : CString) (e : Errno) :
    (⟨.act (.lstat path), .inl e⟩ : Entry) ∉ log := fun hmem => Bool.false_ne_true (h.all hx _ hmem)

/-- A call that is answered as it comes. -/
def Plain (w : World) (q : Call Act) : Prop := w.serve q = Prog.ask q

theorem plain_of_changing {α : Type} {x : Step α} (h : x.All Changing) : x.All (Plain w) := by
  apply h.mono
  intro q hq
  cases q with
  | say m => rfl
  | act a =>
    cases a with
    | lstat path => exact nomatch hq
    | setMetadataRecursive path parsed => exact nomatch hq
    | _ => rfl
  | value i => exact hq.elim
  | string i => exact hq.elim
  | undefined => exact hq.elim

theorem handle_of_plain {α : Type} {x : Step α} (h : x.All (Plain w)) : x.handle w.serve = x := by
  induction x with
  | done a => rfl
  | call q k ih =>
    rw [Prog.handle, h.1]
    exact congrArg (Prog.call q) (funext fun r => ih r (h.2 r))

theorem handle_of_changing {α : Type} {x : Step α} (h : x.All Changing) : x.handle w.serve = x := handle_of_plain (plain_of_changing h)

theorem plain_setHierarchies (uid gid dirMode fileMode : Int) (paths : List CString) :
    (setHierarchies uid gid dirMode fileMode paths).All (Plain w) := by
  induction paths with
  | nil => trivial
  | cons path rest ih => exact Prog.all_bind (Prog.all_ask rfl) fun _ => ih

theorem plain_permNumbers {args : List (CString × CString)} {f : List Int → Step (Option Value)} (hf : ∀ values, (f values).All (Plain w)) :
    (permNumbers site args f).All (Plain w) := by
  induction args generalizing f with
  | nil => exact hf []
  | cons arg rest ih =>
    obtain ⟨arg, what⟩ := arg
    rw [permNumbers]
    split
    · exact plain_of_changing (changing_abortWith _)
    · exact ih fun values => hf _

/-- The numbers in front are read, or the first that is none ends the call. -/
theorem runs_permNumbers {args : List (CString × CString)} {f : List Int → Step (Option Value)}
    (h : Prog.Runs (permNumbers site args f) log v) :
    ((∃ arg ∈ args, wholeUl arg.1 = none) ∧ v = none ∧ Silent log) ∨
      ∃ values, args.map (fun arg => wholeUl arg.1) = values.map some ∧ Prog.Runs (f values) log v := by
  induction args generalizing f with
  | nil => exact Or.inr ⟨[], rfl, h⟩
  | cons arg rest ih =>
    obtain ⟨arg, what⟩ := arg
    rw [permNumbers] at h
    split at h
    · rename_i hnone
      exact Or.inl ⟨⟨_, List.mem_cons_self, hnone⟩, runs_abortWith h⟩
    · rename_i value hvalue
      obtain ⟨⟨arg', harg', hnone⟩, hv⟩ | ⟨values, hvalues, hrun⟩ := ih h
      · exact Or.inl ⟨⟨arg', List.mem_cons_of_mem _ harg', hnone⟩, hv⟩
      · refine Or.inr ⟨value :: values, ?_, hrun⟩
        rw [List.map_cons, List.map_cons, hvalue, hvalues]

theorem handle_readArgs (start count : Nat) : (readArgs start count : Step _).handle w.serve = pure (w.read start count) := by
  induction count generalizing start with
  | zero => rfl
  | succ count ih =>
    rw [World.read]
    show (Prog.handle w.serve (evaluate start >>= _)) = _
    rw [Prog.handle_bind]
    have hfirst : (evaluate start : Step _).handle w.serve = pure (w.arg start) := Prog.handle_ask _ _
    rw [hfirst]
    cases w.arg start with
    | none => rfl
    | some arg =>
      show Prog.handle w.serve (readArgs (start + 1) count >>= _) = _
      rw [Prog.handle_bind, ih]
      cases w.read (start + 1) count <;> rfl

theorem length_read {start count : Nat} {args : List CString} (h : w.read start count = some args) : args.length = count := by
  induction count generalizing start args with
  | zero =>
    obtain rfl := Option.some.inj h
    rfl
  | succ count ih =>
    rw [World.read] at h
    split at h
    · exact nomatch h
    · obtain ⟨rest, hrest, rfl⟩ := Option.map_eq_some_iff.mp h
      rw [List.length_cons, ih hrest]

theorem runs_handle_bind {α β : Type} {x : Step α} {f : α → Step β} {b : β} (h : Prog.Runs (Prog.handle w.serve (x >>= f)) log b) :
    ∃ l a l', log = l ++ l' ∧ Prog.Runs (Prog.handle w.serve x) l a ∧ Prog.Runs (Prog.handle w.serve (f a)) l' b := by
  rw [Prog.handle_bind] at h
  exact Prog.runs_bind.mp h

/-- A function that reads its arguments. -/
theorem runs_readArgs {count : Nat} {f : Option (List CString) → Step (Option Value)}
    (h : Prog.Runs (Prog.handle w.serve (readArgs 0 count >>= f)) log v) : Prog.Runs (Prog.handle w.serve (f (w.read 0 count))) log v := by
  rw [Prog.handle_bind, handle_readArgs] at h
  exact h

theorem runs_setPerm (hname : site.name = PermFn.setPerm.name) (h : Prog.Runs ((setPermFn site).handle w.serve) log v) :
    (Rejected .setPerm w site ∧ v = none) ∨ ∃ uid gid mode paths u g m, ¬site.argc < 4 ∧
      w.read 0 site.argc = some (uid :: gid :: mode :: paths) ∧
      wholeUl uid = some u ∧ wholeUl gid = some g ∧ wholeUl mode = some m ∧
      Did (paths.flatMap fun path => [Act.chown path (some u) (some g), Act.chmod path m]) (v = none) log := by
  have hrec : decide (site.name = "set_perm_recursive") = false := by
    rw [hname]
    decide
  rw [setPermFn] at h
  simp only [hrec, Bool.false_eq_true, if_false] at h
  rw [Prog.handle_ite] at h
  split at h
  · rename_i hfew
    rw [handle_of_changing (changing_abortWith _)] at h
    exact Or.inl ⟨Or.inl hfew, (runs_abortWith h).1⟩
  · rename_i hmany
    replace h := runs_readArgs h
    cases hread : w.read 0 site.argc with
    | none =>
      rw [hread] at h
      exact Or.inl ⟨Or.inr (by rw [hread]; exact nofun), (Prog.runs_pure.mp h).2⟩
    | some args =>
      have hlength := length_read hread
      rw [hread] at h
      obtain _ | ⟨uid, _ | ⟨gid, _ | ⟨mode, paths⟩⟩⟩ := args
      · exact absurd hlength (by simp only [List.length_nil]; omega)
      · exact absurd hlength (by simp only [List.length_cons, List.length_nil]; omega)
      · exact absurd hlength (by simp only [List.length_cons, List.length_nil]; omega)
      · dsimp only at h
        rw [handle_of_plain] at h
        · obtain ⟨⟨arg, harg, hnone⟩, hv, -⟩ | ⟨values, hvalues, hrun⟩ := runs_permNumbers h
          · refine Or.inl ⟨Or.inr ?_, hv⟩
            intro args hargs
            obtain rfl := Option.some.inj (hread.symm.trans hargs)
            exact ⟨arg.1, List.mem_map_of_mem (f := Prod.fst) harg, hnone⟩
          · obtain _ | ⟨u, _ | ⟨g, _ | ⟨m, _ | ⟨x, values⟩⟩⟩⟩ := values
            · simp at hvalues
            · simp at hvalues
            · simp at hvalues
            · simp only [List.map_cons, List.map_nil, List.cons.injEq, and_true] at hvalues
              refine Or.inr ⟨uid, gid, mode, paths, u, g, m, hmany, rfl, hvalues.1, hvalues.2.1, hvalues.2.2, ?_⟩
              obtain ⟨l, bad, l', rfl, hset, hrun⟩ := Prog.runs_bind.mp hrun
              have hdid := runs_setPerms hset
              split at hrun
              · rename_i hbad
                obtain ⟨rfl, hsilent⟩ := runs_abortWith hrun
                exact ((hdid.append hsilent.did).congr (by simp [hbad])).congr_acts (List.append_nil _)
              · rename_i hgood
                obtain ⟨rfl, rfl⟩ := Prog.runs_pure.mp hrun
                rw [List.append_nil]
                exact hdid.congr (by simp [hgood])
            · simp at hvalues
        · apply plain_permNumbers
          intro values
          split
          · apply plain_of_changing
            exact Prog.all_bind (changing_setPerms _ _ _ _) fun bad => Prog.all_ite (fun _ => changing_abortWith _) fun _ => trivial
          · trivial

theorem runs_setHierarchies {uid gid dirMode fileMode : Int} {paths : List CString} {u : Unit}
    (h : Prog.Runs (setHierarchies uid gid dirMode fileMode paths) log u) :
    Did [] False log ∧ hierarchies log = paths.map fun path => (path, ⟨asId uid, asId gid, asMode dirMode, asMode fileMode⟩) := by
  induction paths generalizing log with
  | nil =>
    obtain ⟨rfl, -⟩ := Prog.runs_pure.mp h
    exact ⟨did_nil, rfl⟩
  | cons path rest ih =>
    obtain ⟨l, r, l', rfl, hask, hrun⟩ := Prog.runs_bind.mp h
    obtain ⟨hdid, hwalks⟩ := ih hrun
    rw [Prog.runs_ask.mp hask]
    refine ⟨⟨hdid.acts, ?_⟩, ?_⟩
    · rw [← hdid.counted, List.singleton_append, List.exists_mem_cons_iff]
      exact or_iff_right Bool.false_ne_true
    · rw [List.map_cons, ← hwalks]
      rfl

theorem runs_setPermRecursive (hname : site.name = PermFn.setPermRecursive.name) (h : Prog.Runs ((setPermFn site).handle w.serve) log v) :
    (Rejected .setPermRecursive w site ∧ v = none ∧ Did [] False log) ∨
      ∃ uid gid dirMode fileMode paths u g d f, ¬site.argc < 5 ∧
        w.read 0 site.argc = some (uid :: gid :: dirMode :: fileMode :: paths) ∧
        wholeUl uid = some u ∧ wholeUl gid = some g ∧ wholeUl dirMode = some d ∧ wholeUl fileMode = some f ∧ v ≠ none ∧ Did [] False log ∧
        hierarchies log = paths.map fun path => (path, ⟨asId u, asId g, asMode d, asMode f⟩) := by
  have hrec : decide (site.name = "set_perm_recursive") = true := decide_eq_true hname
  rw [setPermFn] at h
  simp only [hrec, if_true] at h
  rw [Prog.handle_ite] at h
  split at h
  · rename_i hfew
    rw [handle_of_changing (changing_abortWith _)] at h
    obtain ⟨hv, hsilent⟩ := runs_abortWith h
    exact Or.inl ⟨Or.inl hfew, hv, hsilent.did⟩
  · rename_i hmany
    replace h := runs_readArgs h
    cases hread : w.read 0 site.argc with
    | none =>
      rw [hread] at h
      obtain ⟨rfl, hv⟩ := Prog.runs_pure.mp h
      exact Or.inl ⟨Or.inr (by rw [hread]; exact nofun), hv, did_nil⟩
    | some args =>
      have hlength := length_read hread
      rw [hread] at h
      obtain _ | ⟨uid, _ | ⟨gid, _ | ⟨dirMode, _ | ⟨fileMode, paths⟩⟩⟩⟩ := args
      · exact absurd hlength (by simp only [List.length_nil]; omega)
      · exact absurd hlength (by simp only [List.length_cons, List.length_nil]; omega)
      · exact absurd hlength (by simp only [List.length_cons, List.length_nil]; omega)
      · exact absurd hlength (by simp only [List.length_cons, List.length_nil]; omega)
      · dsimp only at h
        rw [handle_of_plain] at h
        · obtain ⟨⟨arg, harg, hnone⟩, hv, hsilent⟩ | ⟨values, hvalues, hrun⟩ := runs_permNumbers h
          · refine Or.inl ⟨Or.inr ?_, hv, hsilent.did⟩
            intro args hargs
            obtain rfl := Option.some.inj (hread.symm.trans hargs)
            exact ⟨arg.1, List.mem_map_of_mem (f := Prod.fst) harg, hnone⟩
          · obtain _ | ⟨u, _ | ⟨g, _ | ⟨d, _ | ⟨f, _ | ⟨x, values⟩⟩⟩⟩⟩ := values
            · simp at hvalues
            · simp at hvalues
            · simp at hvalues
            · simp at hvalues
            · simp only [List.map_cons, List.map_nil, List.cons.injEq, and_true] at hvalues
              obtain ⟨l, bad, l', rfl, hset, hrun⟩ := Prog.runs_bind.mp hrun
              obtain ⟨hdid, hwalks⟩ := runs_setHierarchies hset
              obtain ⟨rfl, rfl⟩ := Prog.runs_pure.mp hrun
              rw [List.append_nil]
              exact Or.inr ⟨uid, gid, dirMode, fileMode, paths, u, g, d, f, hmany, rfl, hvalues.1, hvalues.2.1, hvalues.2.2.1, hvalues.2.2.2, nofun,
                hdid, hwalks⟩
            · simp at hvalues
        · apply plain_permNumbers
          intro values
          split
          · exact Prog.all_bind (plain_setHierarchies _ _ _ _ _) fun _ => trivial
          · trivial

/-- The files that `set_metadata` comes to. -/
def PermFn.visits (f : PermFn) (w : World) (path : CString) : List (CString × FileKind) :=
  match f with
  | setMetadataRecursive => w.visits
  | _ => [(path, w.kind)]

/-- What `lstat` tells in a world. -/
theorem runs_lstat {path : CString} {stat : Errno ⊕ FileKind} (h : Prog.Runs (Prog.handle w.serve (perform (.lstat path))) log stat) :
    ∃ stat', log = [⟨.act (.lstat path), stat'⟩] ∧ stat = Sum.map id (fun _ => w.kind) (stat' : Errno ⊕ FileKind) := by
  have hserve : Prog.handle w.serve (perform (.lstat path)) = w.serve (.act (.lstat path)) := Prog.handle_ask _ _
  rw [hserve] at h
  obtain ⟨l, stat', l', rfl, hask, hrun⟩ := Prog.runs_bind.mp h
  obtain ⟨rfl, rfl⟩ := Prog.runs_pure.mp hrun
  rw [List.append_nil]
  exact ⟨stat', Prog.runs_ask.mp hask, rfl⟩

theorem runs_walk {path : CString} {parsed : PermArgs} {r : Int}
    (h : Prog.Runs (Prog.handle w.serve (perform (.setMetadataRecursive path parsed))) log r) :
    Prog.Runs (nftw parsed w.walkFails w.visits) log r := by
  have hserve : Prog.handle w.serve (perform (.setMetadataRecursive path parsed)) = nftw parsed w.walkFails w.visits := Prog.handle_ask _ _
  rw [hserve] at h
  exact h

theorem did_lstat (path : CString) (answer : (Act.lstat path).Answer) : Did [] False [⟨.act (.lstat path), answer⟩] := by
  refine ⟨rfl, ?_⟩
  rw [List.exists_mem_cons_iff]
  simp [counted, changeOf]

theorem runs_verdict {bad : Prop} [Decidable bad] {parts : List CString}
    (h : Prog.Runs (Prog.handle w.serve (if bad then abortWith parts else ret "")) log v) : (v = none ↔ bad) ∧ Silent log := by
  rw [Prog.handle_ite] at h
  split at h
  · rename_i hbad
    rw [handle_of_changing (changing_abortWith _)] at h
    obtain ⟨rfl, hsilent⟩ := runs_abortWith h
    exact ⟨iff_of_true rfl hbad, hsilent⟩
  · rename_i hgood
    obtain ⟨rfl, rfl⟩ := Prog.runs_pure.mp h
    exact ⟨iff_of_false nofun hgood, silent_nil⟩

/-- The calls of `SetMetadataFn` for the files it comes to, behind what it reads. -/
theorem runs_apply {f : PermFn} (hf : f = .setMetadata ∨ f = .setMetadataRecursive) (hname : site.name = f.name) {path : CString}
    {parsed : PermArgs} {parts : List CString}
    (h : Prog.Runs (Prog.handle w.serve (if site.name = "set_metadata_recursive" then do
        let bad : Int ← perform (.setMetadataRecursive path parsed)
        if bad > 0 then abortWith parts else ret ""
      else do
        let bad ← applyParsedPerms path w.kind parsed
        if bad > 0 then abortWith parts else ret "")) log v) :
    (∀ path e, (⟨.act (.lstat path), .inl e⟩ : Entry) ∉ log) ∧ (v = none ↔ ∃ e ∈ log, counted e = true) ∧
      ((¬∃ e ∈ log, counted e = true) → acts log = (f.visits w path).flatMap fun file => applyActs file.1 file.2 parsed) := by
  have htail {l l' : List Entry} {bad : Prop} (hbad : bad ↔ ∃ e ∈ l, counted e = true) (hl' : Silent l') (hv : v = none ↔ bad) :
      (v = none ↔ ∃ e ∈ l ++ l', counted e = true) ∧ acts (l ++ l') = acts l := by
    have hdid : Did (acts l) bad l := ⟨rfl, hbad.symm⟩
    have hall := hdid.append hl'.did
    exact ⟨by rw [hall.counted, hv, or_false], hall.acts.trans (List.append_nil _)⟩
  have hstat {α : Type} {l l' : List Entry} {x : Step α} {r : α} (hx : x.All Changing) (hrun : Prog.Runs x l r) (hl' : Silent l') (path : CString)
      (e : Errno) : (⟨.act (.lstat path), .inl e⟩ : Entry) ∉ l ++ l' := by
    intro hmem
    cases List.mem_append.mp hmem with
    | inl hmem => exact no_lstat hx hrun path e hmem
    | inr hmem =>
      obtain ⟨m, hm⟩ := hl' _ hmem
      exact nomatch hm
  obtain rfl | rfl := hf
  · have hother : ¬site.name = "set_metadata_recursive" := by
      rw [hname]
      decide
    rw [if_neg hother] at h
    obtain ⟨l, bad, l', rfl, hrun, h⟩ := runs_handle_bind h
    rw [handle_of_changing (changing_applyParsedPerms _ _ _)] at hrun
    obtain ⟨hv, hsilent⟩ := runs_verdict h
    have hdid := runs_applyParsedPerms hrun
    obtain ⟨hcount, hacts⟩ := htail (Nat.pos_iff_ne_zero.trans hdid.counted.symm : bad > 0 ↔ _) hsilent hv
    refine ⟨hstat (changing_applyParsedPerms _ _ _) hrun hsilent, hcount, fun _ => ?_⟩
    rw [hacts, hdid.acts]
    exact (List.append_nil _).symm
  · have hrec : site.name = "set_metadata_recursive" := hname
    rw [if_pos hrec] at h
    obtain ⟨l, bad, l', rfl, hrun, h⟩ := runs_handle_bind h
    replace hrun := runs_walk hrun
    obtain ⟨hv, hsilent⟩ := runs_verdict h
    obtain ⟨hbad, hall⟩ := runs_nftw hrun
    obtain ⟨hcount, hacts⟩ := htail hbad hsilent hv
    refine ⟨hstat (changing_nftw _ _ _) hrun hsilent, hcount, fun hnot => ?_⟩
    rw [hacts]
    exact hall fun ⟨e, he, hce⟩ => hnot ⟨e, List.mem_append_left _ he, hce⟩

/-- The ways of `SetMetadataFn`: refused, a file that cannot be looked at, or the calls for the files. -/
theorem runs_setMetadata {f : PermFn} (hf : f = .setMetadata ∨ f = .setMetadataRecursive) (hname : site.name = f.name)
    (h : Prog.Runs ((setMetadataFn site).handle w.serve) log v) :
    (Rejected f w site ∧ v = none) ∨ ∃ path args, ¬site.argc % 2 ≠ 1 ∧ w.read 0 site.argc = some (path :: args) ∧
      ((v ≠ none ∧ Did [] False log ∧ ∃ e, (⟨.act (.lstat path), .inl e⟩ : Entry) ∈ log) ∨
        ((∀ path e, (⟨.act (.lstat path), .inl e⟩ : Entry) ∉ log) ∧ (v = none ↔ ∃ e ∈ log, counted e = true) ∧
          ∀ wanted, wantedArgs {} args = some wanted → (¬∃ e ∈ log, counted e = true) →
            acts log = (f.visits w path).flatMap fun file => applyActs file.1 file.2 wanted.parsed)) := by
  rw [setMetadataFn, Prog.handle_ite] at h
  split at h
  · rename_i hodd
    rw [handle_of_changing (changing_abortWith _)] at h
    refine Or.inl ⟨Or.inl ?_, (runs_abortWith h).1⟩
    obtain rfl | rfl := hf
    · exact hodd
    · exact hodd
  · rename_i hodd
    replace h := runs_readArgs h
    cases hread : w.read 0 site.argc with
    | none =>
      rw [hread] at h
      exact Or.inl ⟨Or.inr (by rw [hread]; exact nofun), (Prog.runs_pure.mp h).2⟩
    | some args =>
      have hlength := length_read hread
      rw [hread] at h
      obtain _ | ⟨path, args⟩ := args
      · rw [List.length_nil] at hlength
        omega
      · refine Or.inr ⟨path, args, hodd, rfl, ?_⟩
        dsimp only at h
        obtain ⟨l, stat, l', rfl, hstat, h⟩ := runs_handle_bind h
        obtain ⟨stat', rfl, rfl⟩ := runs_lstat hstat
        cases stat' with
        | inl e =>
          obtain ⟨l₁, u, l₂, rfl, htold, h⟩ := runs_handle_bind h
          rw [handle_of_changing (changing_say _)] at htold
          obtain ⟨rfl, rfl⟩ := Prog.runs_pure.mp h
          refine Or.inl ⟨nofun, ?_, e, List.mem_append_left _ List.mem_cons_self⟩
          rw [List.append_nil]
          exact ⟨(runs_say htold).did.acts, by
            rw [← (runs_say htold).did.counted, List.singleton_append, List.exists_mem_cons_iff]
            exact or_iff_right Bool.false_ne_true⟩
        | inr kind =>
          obtain ⟨l₁, parsed, l₂, rfl, hparse, h⟩ := runs_handle_bind h
          rw [handle_of_changing (changing_parsePermArgs _ _)] at hparse
          obtain ⟨hstat, hv, hacts⟩ := runs_apply hf hname h
          have hfront := (did_lstat path (.inr kind)).append (silent_parsePermArgs hparse).did
          have hlast : Did (acts l₂) (∃ e ∈ l₂, counted e = true) l₂ := ⟨rfl, Iff.rfl⟩
          have hall := hfront.append hlast
          rw [← List.append_assoc]
          have hcount : (∃ e ∈ [(⟨.act (.lstat path), .inr kind⟩ : Entry)] ++ l₁ ++ l₂, counted e = true) ↔ ∃ e ∈ l₂, counted e = true := by
            rw [hall.counted]
            simp only [or_self, false_or]
          refine Or.inr ⟨?_, hv.trans hcount.symm, ?_⟩
          · intro path' e hmem
            obtain (hmem | hmem) | hmem := (List.mem_append.mp hmem).imp_left List.mem_append.mp
            · exact nomatch List.mem_singleton.mp hmem
            · obtain ⟨m, hm⟩ := silent_parsePermArgs hparse _ hmem
              exact nomatch hm
            · exact hstat path' e hmem
          · intro wanted hwanted hnot
            rw [hall.acts]
            rw [runs_parsePermArgs hwanted hparse] at hacts
            exact hacts fun hex => hnot (hcount.mpr hex)

/-! ### What is lost -/

theorem not_rejected {f : PermFn} {args : List CString} (hcount : ¬f.Miscounts site.argc) (hread : w.read 0 site.argc = some args)
    (hnumbers : ∀ arg ∈ args.take f.numbers, wholeUl arg ≠ none) : ¬Rejected f w site := by
  intro hrejected
  cases hrejected with
  | inl h => exact hcount h
  | inr h =>
    obtain ⟨arg, harg, hnone⟩ := h args hread
    exact hnumbers arg harg hnone

/-- A call that is not refused and counts no failure says the truth when nothing gets lost. -/
theorem reports_iff_kept {f : PermFn} {args : List CString} (hnot : ¬Rejected f w site) (hread : w.read 0 site.argc = some args)
    (hcount : ¬∃ e ∈ log, counted e = true) (hv : v ≠ none) (hkept : Fulfilled w log f args ↔ Kept w log f args) :
    Reports f w site log v ↔ HoldsWhen f w site log := by
  constructor
  · intro h
    obtain ⟨args', hargs', hfulfilled⟩ := h hv
    obtain rfl := Option.some.inj (hread.symm.trans hargs')
    exact Or.inr (Or.inr ⟨args, hread, hkept.mp hfulfilled⟩)
  · intro h _
    obtain h | h | ⟨args', hargs', h⟩ := h
    · exact absurd h hnot
    · exact absurd h hcount
    · obtain rfl := Option.some.inj (hread.symm.trans hargs')
      exact ⟨args, hread, hkept.mpr h⟩

theorem reports_setPerm (hname : site.name = PermFn.setPerm.name) (h : Prog.Runs ((setPermFn site).handle w.serve) log v) :
    Reports .setPerm w site log v ↔ HoldsWhen .setPerm w site log := by
  obtain ⟨hrejected, rfl⟩ | ⟨uid, gid, mode, paths, u, g, m, hmany, hread, hu, hg, hm, hdid⟩ := runs_setPerm hname h
  · exact iff_of_true (fun hv => absurd rfl hv) (Or.inl hrejected)
  by_cases hcount : ∃ e ∈ log, counted e = true
  · exact iff_of_true (fun hv => absurd (hdid.counted.mp hcount) hv) (Or.inr (Or.inl hcount))
  · have hnot : ¬Rejected .setPerm w site := by
      apply not_rejected (f := .setPerm) hmany hread
      intro arg harg
      simp only [PermFn.numbers, List.take_succ_cons, List.take_zero, List.mem_cons, List.not_mem_nil, or_false] at harg
      obtain rfl | rfl | rfl := harg
      · simp [hu]
      · simp [hg]
      · simp [hm]
    apply reports_iff_kept hnot hread hcount fun hv => hcount (hdid.counted.mpr hv)
    constructor
    · intro ⟨uid', gid', mode', huid, hgid, hmode, _⟩
      exact ⟨by rw [huid]; rfl, by rw [hgid]; rfl, by rw [hmode]; rfl⟩
    · intro ⟨huid, hgid, hmode⟩
      obtain ⟨uid', huid⟩ := Option.isSome_iff_exists.mp huid
      obtain ⟨gid', hgid⟩ := Option.isSome_iff_exists.mp hgid
      obtain ⟨mode', hmode⟩ := Option.isSome_iff_exists.mp hmode
      refine ⟨uid', gid', mode', huid, hgid, hmode, ?_⟩
      intro path hpath
      have hcalls {a : Act} (ha : (changeOf a).isSome = true) (hmem : a ∈ [Act.chown path (some u) (some g), Act.chmod path m]) :
          ∃ answer, (⟨.act a, answer⟩ : Entry) ∈ log := by
        rw [← mem_acts ha, hdid.acts]
        exact List.mem_flatMap.mpr ⟨path, hpath, hmem⟩
      constructor
      · obtain ⟨answer, hanswer⟩ := hcalls (a := .chown path (some u) (some g)) rfl (by simp)
        rw [mem_changesMade_of_not_counted hcount]
        refine ⟨_, answer, hanswer, ?_, rfl⟩
        show some (Change.owner path (asId u) (asId g)) = _
        rw [asId_of_whole huid hu, asId_of_whole hgid hg]
      · obtain ⟨answer, hanswer⟩ := hcalls (a := .chmod path m) rfl (by simp)
        rw [mem_changesMade_of_not_counted hcount]
        refine ⟨_, answer, hanswer, ?_, rfl⟩
        show some (Change.mode path (asMode m)) = _
        rw [asMode_of_whole hmode hm]

theorem permsOf_eq {uid gid dirMode fileMode : CString} {u g d f : Int} (hu : wholeUl uid = some u) (hg : wholeUl gid = some g)
    (hd : wholeUl dirMode = some d) (hf : wholeUl fileMode = some f) {perms : Perms} (h : permsOf uid gid dirMode fileMode = some perms) :
    (⟨asId u, asId g, asMode d, asMode f⟩ : Perms) = perms := by
  obtain ⟨uid', huid, h⟩ := Option.bind_eq_some_iff.mp h
  obtain ⟨gid', hgid, h⟩ := Option.bind_eq_some_iff.mp h
  obtain ⟨dirMode', hdirMode, h⟩ := Option.bind_eq_some_iff.mp h
  obtain ⟨fileMode', hfileMode, h⟩ := Option.bind_eq_some_iff.mp h
  rw [asId_of_whole huid hu, asId_of_whole hgid hg, asMode_of_whole hdirMode hd, asMode_of_whole hfileMode hf]
  exact Option.some.inj h

theorem reports_setPermRecursive (hname : site.name = PermFn.setPermRecursive.name) (h : Prog.Runs ((setPermFn site).handle w.serve) log v) :
    Reports .setPermRecursive w site log v ↔ HoldsWhen .setPermRecursive w site log := by
  obtain ⟨hrejected, rfl, -⟩ | ⟨uid, gid, dirMode, fileMode, paths, u, g, d, f, hmany, hread, hu, hg, hd, hf, hv, hdid, hwalks⟩ :=
    runs_setPermRecursive hname h
  · exact iff_of_true (fun hv => absurd rfl hv) (Or.inl hrejected)
  · have hnot : ¬Rejected .setPermRecursive w site := by
      apply not_rejected (f := .setPermRecursive) hmany hread
      intro arg harg
      simp only [PermFn.numbers, List.take_succ_cons, List.take_zero, List.mem_cons, List.not_mem_nil, or_false] at harg
      obtain rfl | rfl | rfl | rfl := harg
      · simp [hu]
      · simp [hg]
      · simp [hd]
      · simp [hf]
    apply reports_iff_kept hnot hread hdid.counted.mp hv
    constructor
    · intro ⟨perms, hperms, hall⟩
      refine ⟨perms, hperms, ?_⟩
      intro i path hpath
      obtain ⟨perms', hwalk, hmade⟩ := hall i path hpath
      rw [hwalks, List.getElem?_map, hpath, permsOf_eq hu hg hd hf hperms] at hwalk
      obtain rfl := (Prod.mk.inj (Option.some.inj hwalk)).2
      exact (asked_subperm_walk_iff perms path (w.tree i)).mp hmade
    · intro ⟨perms, hperms, hall⟩
      refine ⟨perms, hperms, ?_⟩
      intro i path hpath
      refine ⟨perms, ?_, (asked_subperm_walk_iff perms path (w.tree i)).mpr (hall i path hpath)⟩
      rw [hwalks, List.getElem?_map, hpath, permsOf_eq hu hg hd hf hperms]
      rfl

theorem mem_changesMade_iff_reached {wanted : Wanted} {visits : List (CString × FileKind)} (hcount : ¬∃ e ∈ log, counted e = true)
    (hstat : ∀ path e, (⟨.act (.lstat path), .inl e⟩ : Entry) ∉ log)
    (hacts : acts log = visits.flatMap fun file => applyActs file.1 file.2 wanted.parsed) (c : Change) :
    c ∈ changesMade log ↔ Reached wanted visits log c := by
  rw [mem_changesMade_of_not_counted hcount]
  constructor
  · intro ⟨a, answer, he, hc, hnot⟩
    refine ⟨hstat, ?_, a, answer, he, hc, hnot⟩
    have hmem : a ∈ acts log := (mem_acts (by rw [hc]; rfl)).mpr ⟨answer, he⟩
    rw [hacts] at hmem
    obtain ⟨file, hfile, ha⟩ := List.mem_flatMap.mp hmem
    refine ⟨file, hfile, ?_⟩
    rw [← changes_applyActs]
    exact List.mem_filterMap.mpr ⟨a, ha, hc⟩
  · intro h
    exact h.accepted

theorem reports_setMetadata {f : PermFn} (hf : f = .setMetadata ∨ f = .setMetadataRecursive) (hname : site.name = f.name)
    (h : Prog.Runs ((setMetadataFn site).handle w.serve) log v) : Reports f w site log v ↔ HoldsWhen f w site log := by
  obtain ⟨hrejected, rfl⟩ | ⟨path, args, hodd, hread, hways⟩ := runs_setMetadata hf hname h
  · exact iff_of_true (fun hv => absurd rfl hv) (Or.inl hrejected)
  have hnot : ¬Rejected f w site := by
    obtain rfl | rfl := hf
    · exact not_rejected hodd hread (by simp [PermFn.numbers])
    · exact not_rejected hodd hread (by simp [PermFn.numbers])
  -- both sides say the same of each change
  have hkept (hsame : ∀ wanted, wantedArgs {} args = some wanted → ∀ c, c ∈ changesMade log ↔ Reached wanted (f.visits w path) log c) :
      Fulfilled w log f (path :: args) ↔ Kept w log f (path :: args) := by
    obtain rfl | rfl := hf
    · constructor
      · intro ⟨wanted, hwanted, hall⟩
        exact ⟨wanted, hwanted, fun c hc => (hsame wanted hwanted c).mp (hall c hc)⟩
      · intro ⟨wanted, hwanted, hall⟩
        exact ⟨wanted, hwanted, fun c hc => (hsame wanted hwanted c).mpr (hall c hc)⟩
    · constructor
      · intro ⟨wanted, hwanted, hall⟩
        exact ⟨wanted, hwanted, fun file hfile c hc => (hsame wanted hwanted c).mp (hall file hfile c hc)⟩
      · intro ⟨wanted, hwanted, hall⟩
        exact ⟨wanted, hwanted, fun file hfile c hc => (hsame wanted hwanted c).mpr (hall file hfile c hc)⟩
  obtain ⟨hv, hdid, e, he⟩ | ⟨hstat, hv, hacts⟩ := hways
  · apply reports_iff_kept hnot hread hdid.counted.mp hv
    apply hkept
    intro wanted _ c
    refine iff_of_false ?_ fun hreached => hreached.stat path e he
    intro hmade
    obtain ⟨a, answer, hmem, -, hc⟩ := mem_changesMade.mp hmade
    have hact : a ∈ acts log := (mem_acts (by rw [hc]; rfl)).mpr ⟨answer, hmem⟩
    rw [hdid.acts] at hact
    exact nomatch hact
  · by_cases hcount : ∃ e ∈ log, counted e = true
    · exact iff_of_true (fun hne => absurd (hv.mpr hcount) hne) (Or.inr (Or.inl hcount))
    · apply reports_iff_kept hnot hread hcount fun hnone => hcount (hv.mp hnone)
      apply hkept
      intro wanted hwanted c
      exact mem_changesMade_iff_reached hcount hstat (hacts wanted hwanted hcount) c

end Functions

/-- Arguments in a world with one plain file. -/
def plainWorld (args : List CString) : World where
  arg i := args[i]?
  tree _ := ⟨.regular, ⟨false, false, false, false, false⟩, .done false⟩
  kind := .regular
  below := []
  visits := []
  walkFails := false

def plainSite (f : PermFn) (argc : Nat) : Site := ⟨f.name, argc, fun _ => []⟩

/-- Every call goes well, but for `lstat`, which may fail. -/
def answers (stat : Errno ⊕ FileKind) : (q : Call Act) → Option (Answer Act.Answer q)
  | .say _ => some ()
  | .act (.lstat _) => some stat
  | .act (.chown _ _ _) => some (none : Option Errno)
  | .act (.chmod _ _) => some (none : Option Errno)
  | _ => none

end Twrp.Updater.Permissions
