import Twrp.Settings.Load

/-! Which variables the settings file holds, over whole runs.

The persist mark of a variable is set when the variable is created, or when it is read from
the file; setting it again keeps the mark it has. So a variable that asks to be persisted is
in the file after the call only if it is new or carries the mark already. The other way
round, whatever `SaveValues` writes has got its mark from a default, from a `SetValue` that
asked for it, or from the file. -/
namespace Twrp.Settings
open Base

/-! ### What a file contains -/

/-- The bytes of a string in its frame. -/
def body (s : CString) : List UInt8 := (s.bytes ++ [0]).take ((s.length + 1) % 65536)

theorem body_length (s : CString) : (body s).length = (s.length + 1) % 65536 := by
  unfold body
  rw [List.length_take, List.length_append]
  have hle : (s.length + 1) % 65536 ≤ s.length + 1 := Nat.mod_le ..
  unfold CString.length at hle ⊢
  simpa using hle

/-- A frame holds a terminated string only if its count did not wrap. -/
theorem body_eq_iff (s t : CString) : body s = t.bytes ++ [0] ↔ s = t ∧ s.length < 65535 := by
  constructor
  · intro h
    have hmem : 0 ∈ body s := by
      rw [h]
      simp
    have hcount : s.length + 1 ≤ (s.length + 1) % 65536 := by
      by_contra hlt
      unfold body at hmem
      rw [List.take_append_of_le_length (by unfold CString.length at hlt ⊢; omega)] at hmem
      exact s.noNul (List.mem_of_mem_take hmem)
    have hwhole : body s = s.bytes ++ [0] := by
      unfold body
      refine List.take_of_length_le ?_
      simpa [CString.length] using hcount
    rw [hwhole] at h
    exact ⟨CString.ext (List.append_cancel_right h), by omega⟩
  · rintro ⟨rfl, hlen⟩
    unfold body
    rw [Nat.mod_eq_of_lt (by omega)]
    refine List.take_of_length_le ?_
    simp [CString.length]

/-- One counted field of a file, whatever its count. -/
def anyField (rest : List UInt8) : Option (List UInt8 × List UInt8) :=
  if rest.length < 2 ∨ (rest.drop 2).length < fromLe (rest.take 2) then none
  else some ((rest.drop 2).take (fromLe (rest.take 2)), (rest.drop 2).drop (fromLe (rest.take 2)))

theorem anyField_frame (s : CString) (rest : List UInt8) : anyField (frame s ++ rest) = some (body s, rest) := by
  have hcount : fromLe ((frame s ++ rest).take 2) = (s.length + 1) % 65536 := by
    show fromLe (le16 ((s.length + 1) % 65536)) = (s.length + 1) % 65536
    rw [fromLe_le16]
    omega
  have hdrop : (frame s ++ rest).drop 2 = body s ++ rest := rfl
  have hlen : ¬(frame s ++ rest).length < 2 := by
    have := frame_pos s
    rw [List.length_append]
    omega
  unfold anyField
  rw [hcount, hdrop, if_neg, List.take_left' (body_length s), List.drop_left' (body_length s)]
  rw [not_or]
  refine ⟨hlen, ?_⟩
  rw [List.length_append, body_length]
  omega

theorem anyField_shorter {rest bytes rest' : List UInt8} (h : anyField rest = some (bytes, rest')) :
    rest'.length < rest.length := by
  unfold anyField at h
  split_ifs at h with hno
  cases h
  simp only [List.length_drop]
  omega

/-- The records of a file by their counts, as far as they are complete. -/
def allRecords (rest : List UInt8) : List (List UInt8 × List UInt8) :=
  match _hname : anyField rest with
  | none => []
  | some (name, rest₁) =>
    match _hvalue : anyField rest₁ with
    | none => []
    | some (value, rest₂) => (name, value) :: allRecords rest₂
termination_by rest.length
decreasing_by exact (anyField_shorter _hvalue).trans (anyField_shorter _hname)

theorem allRecords_cons {rest rest₁ rest₂ name value : List UInt8} (hname : anyField rest = some (name, rest₁))
    (hvalue : anyField rest₁ = some (value, rest₂)) : allRecords rest = (name, value) :: allRecords rest₂ := by
  rw [allRecords]
  split
  · rename_i h
    cases hname.symm.trans h
  · rename_i h
    cases hname.symm.trans h
    split
    · rename_i h'
      cases hvalue.symm.trans h'
    · rename_i h'
      cases hvalue.symm.trans h'
      rfl

theorem allRecords_flatMap (entries : List (CString × Var)) :
    allRecords (entries.flatMap record) = entries.map fun e => (body e.1, body e.2.value) := by
  induction entries with
  | nil =>
    rw [List.flatMap_nil, allRecords]
    rfl
  | cons e entries ih =>
    have hrec : (e :: entries).flatMap record = frame e.1 ++ (frame e.2.value ++ entries.flatMap record) := by
      rw [List.flatMap_cons, record, List.append_assoc]
    rw [hrec, allRecords_cons (anyField_frame e.1 _) (anyField_frame e.2.value _), ih, List.map_cons]

/-- The file has a record with this name and value. -/
def Contains (bytes : List UInt8) (n v : CString) : Prop :=
  (n.bytes ++ [0], v.bytes ++ [0]) ∈ allRecords (bytes.drop 4)

/-- What `SaveValues` writes contains the marked variables, and no others. -/
theorem contains_fileBytes {m : Std.TreeMap CString Var} {n v : CString} :
    Contains (fileBytes m) n v ↔
      (∃ p, p ≠ 0 ∧ m[n]? = some ⟨v, p⟩) ∧ n.length < 65535 ∧ v.length < 65535 := by
  have hdrop : (fileBytes m).drop 4 = (persisted m).flatMap record := rfl
  unfold Contains
  rw [hdrop, allRecords_flatMap, List.mem_map]
  constructor
  · rintro ⟨⟨n', w⟩, hmem, heq⟩
    obtain ⟨hn, hv⟩ := Prod.mk.inj heq
    obtain ⟨rfl, hnlen⟩ := (body_eq_iff _ _).mp hn
    obtain ⟨rfl, hvlen⟩ := (body_eq_iff _ _).mp hv
    obtain ⟨hget, hmark⟩ := mem_persisted.mp hmem
    exact ⟨⟨w.persist, hmark, hget⟩, hnlen, hvlen⟩
  · rintro ⟨⟨p, hp, hget⟩, hnlen, hvlen⟩
    refine ⟨(n, ⟨v, p⟩), mem_persisted.mpr ⟨hget, hp⟩, ?_⟩
    rw [(body_eq_iff n n).mpr ⟨rfl, hnlen⟩, (body_eq_iff v v).mpr ⟨rfl, hvlen⟩]

/-! ### Calls -/

/-- `GetValueRef`: a name that is not there is created with an empty value and no mark. -/
def getValueRef (d : DataManager) (varName : CString) : DataManager :=
  if d.mConstValues[varName]?.isSome then d
  else {d with mValues := d.mValues.insertIfNew varName ⟨"", 0⟩}

inductive Op where
  | set (varName value : CString) (persist : Int)
  | setInt (varName : CString) (value persist : Int)
  | ref (varName : CString)
  | load (filename : CString) (junk : Junk)
  | save

/-- One call; `none` where a load reads a string that has no defined value. -/
def Op.step (host : Host) (d : DataManager) : Op → Option DataManager
  | set varName value persist => some (setValue host d varName value persist).2
  | setInt varName value persist => some (setIntValue host d varName value persist).2
  | ref varName => some (getValueRef d varName)
  | load filename junk => (loadValues host junk d filename).map Prod.snd
  | save => some (saveValues host d).2

/-- The name, value and mark that a call of `SetValue` asks for. -/
def Op.asks : Op → Option (CString × CString × Int)
  | set varName value persist => some (varName, value, persist)
  | setInt varName value persist => some (varName, CString.ofInt value, persist)
  | _ => none

/-- The name is read from the file: it is there when a manager with no variables reads it. -/
def ReadFrom (junk : Junk) (bytes : List UInt8) (n : CString) : Prop :=
  4 ≤ bytes.length ∧ fromLe (bytes.take 4) = fileVersion ∧
    ∃ ret m, loadLoop junk (ftell bytes.length) ∅ 4 (bytes.drop 4) = some (ret, m) ∧ n ∈ m

/-- The call reads `n` from a file. -/
def Op.Reads (d : DataManager) (n : CString) : Op → Prop
  | load filename junk => ∃ bytes, d.files filename = some bytes ∧ ReadFrom junk bytes n
  | _ => False

/-- A call in state `d` that gives `n` its mark. -/
def Op.Gives (d : DataManager) (n : CString) (op : Op) : Prop :=
  op.Reads d n ∨ ∃ v p, op.asks = some (n, v, p) ∧ p ≠ 0

/-- A run from the defaults, with the calls and the states they were made in. -/
inductive Run (b : Build) (host : Host) (files : CString → Option (List UInt8)) :
    List (DataManager × Op) → DataManager → Prop where
  | start : Run b host files [] (fresh b host files)
  | step {history : List (DataManager × Op)} {d d' : DataManager} (op : Op) :
      Run b host files history d → op.step host d = some d' → Run b host files ((d, op) :: history) d'

/-- Calls that do not read `n` from a file. -/
inductive Since (host : Host) (n : CString) : DataManager → DataManager → Prop where
  | refl (d : DataManager) : Since host n d d
  | step {d d' d'' : DataManager} (op : Op) :
      Since host n d d' → op.step host d' = some d'' → ¬op.Reads d' n → Since host n d d''

def Marked (d : DataManager) (n : CString) : Prop := ∃ w, d.mValues[n]? = some w ∧ w.persist ≠ 0

/-- What can have given `n` its mark: a default, or a call of the run. -/
def Source (b : Build) (host : Host) (files : CString → Option (List UInt8)) (history : List (DataManager × Op))
    (n : CString) : Prop :=
  Marked (fresh b host files) n ∨ ∃ c ∈ history, c.2.Gives c.1 n

/-! ### What every call keeps

A property that storing one variable keeps is kept by every call that stores. -/

section OfStore
variable {host : Host} {P : DataManager → Prop} {Q : CString → Int → Prop} (hfree : ∀ n, Q n 0)
  (hstore : ∀ d n v p, Q n p → P d → P (storeValue host d n v p).2)
include hfree hstore

theorem set_of_store {d : DataManager} {n : CString} (v : CString) {p : Int} (hq : Q n p) (hd : P d) :
    P (setValue host d n v p).2 := by
  have hstored := hstore d n v p hq hd
  unfold setValue
  split
  · rename_i stored heq
    rw [heq] at hstored
    dsimp only
    split_ifs
    · exact hstore _ _ _ 0 (hfree _) (hstore _ _ _ 0 (hfree _) hstored)
    · exact hstored
  · exact hstored

theorem backupFolder_of_store {d : DataManager} (storagePath : CString) (hd : P d) :
    P (setBackupFolder host d storagePath) :=
  set_of_store hfree hstore _ (hfree _) (set_of_store hfree hstore _ (hfree _) hd)

theorem setInt_of_store {d : DataManager} {n : CString} (value : Int) {p : Int} (hq : Q n p) (hd : P d) :
    P (setIntValue host d n value p).2 := by
  unfold setIntValue
  dsimp only
  by_cases hstorage : n = "tw_use_external_storage"
  · rw [if_pos hstorage]
    exact set_of_store hfree hstore _ hq (backupFolder_of_store hfree hstore _ hd)
  · rw [if_neg hstorage]
    exact set_of_store hfree hstore _ hq hd

end OfStore

/-! ### A variable that is kept -/

/-- Storage that always mounts and files that always open. -/
structure Mountable (host : Host) : Prop where
  mounted : ∀ path, host.mounted path = true
  opens : ∀ file, host.opens file = true

/-- The variable has its mark and its value, and the settings file has its record. -/
structure Kept (d : DataManager) (n v : CString) : Prop where
  record : ∃ bytes, d.files d.mBackingFile = some bytes ∧ Contains bytes n v
  marked : ∃ p, p ≠ 0 ∧ d.mValues[n]? = some ⟨v, p⟩
  short : n.length < 65535 ∧ v.length < 65535

theorem saveValues_mountable {host : Host} (h : Mountable host) {d : DataManager} (hback : d.mBackingFile ≠ "") :
    saveValues host d = (0, {d with files := Function.update d.files d.mBackingFile (some (fileBytes d.mValues))}) := by
  unfold saveValues
  rw [if_neg hback, if_neg (by simp [h.mounted]), if_neg (by simp [h.opens])]

/-- A marked variable is kept once the file is written. -/
theorem kept_of_save {host : Host} (h : Mountable host) {d : DataManager} (hback : d.mBackingFile ≠ "") {n v : CString}
    (hmarked : ∃ p, p ≠ 0 ∧ d.mValues[n]? = some ⟨v, p⟩) (hshort : n.length < 65535 ∧ v.length < 65535) :
    Kept (saveValues host d).2 n v := by
  rw [saveValues_mountable h hback]
  refine ⟨⟨fileBytes d.mValues, Function.update_self .., ?_⟩, hmarked, hshort⟩
  exact contains_fileBytes.mpr ⟨hmarked, hshort⟩

/-- Storing another variable keeps it. -/
theorem Kept.store {host : Host} (h : Mountable host) {d : DataManager} (hback : d.mBackingFile ≠ "") {n v : CString}
    (hkept : Kept d n v) {n' : CString} (hne : n' ≠ n) (v' : CString) (p' : Int) :
    Kept (storeValue host d n' v' p').2 n v := by
  have hmarked : ∃ p, p ≠ 0 ∧ (assign d.mValues n' v' p')[n]? = some ⟨v, p⟩ := by
    rw [assign_other d.mValues v' p' hne]
    exact hkept.marked
  unfold storeValue
  split_ifs
  · exact hkept
  · exact hkept
  · dsimp only
    split
    · exact ⟨hkept.record, hmarked, hkept.short⟩
    · split_ifs
      · exact kept_of_save (d := {d with mValues := assign d.mValues n' v' p'}) h hback hmarked hkept.short
      · exact ⟨hkept.record, hmarked, hkept.short⟩

/-- The state in which a `SetValue` that asks for the mark is followed by the file: the name
is accepted, the settings file is known, the variable is new or marked, and both strings fit
the 16-bit count. -/
structure Lasting (d : DataManager) (n v : CString) : Prop where
  name : badName n = false
  notConst : d.mConstValues[n]? = none
  backing : d.mBackingFile ≠ ""
  mark : ∀ w, d.mValues[n]? = some w → w.persist ≠ 0
  short : n.length < 65535 ∧ v.length < 65535

theorem kept_store {host : Host} (h : Mountable host) {d : DataManager} {n v : CString} {p : Int} (hp : p ≠ 0)
    (hlasting : Lasting d n v) : Kept (storeValue host d n v p).2 n v := by
  have hmarked : ∃ q, q ≠ 0 ∧ (assign d.mValues n v p)[n]? = some ⟨v, q⟩ := by
    cases hold : d.mValues[n]? with
    | none =>
      refine ⟨p, hp, ?_⟩
      rw [assign, hold]
      exact Std.TreeMap.getElem?_insert_self
    | some w => exact ⟨w.persist, hlasting.mark w hold, assign_existing d.mValues v p hold⟩
  obtain ⟨q, hq, hget⟩ := hmarked
  unfold storeValue
  rw [if_neg (by simp [hlasting.name]), if_neg (by simp [hlasting.notConst])]
  dsimp only
  rw [hget]
  dsimp only
  rw [if_pos hq]
  exact kept_of_save (d := {d with mValues := assign d.mValues n v p}) h hlasting.backing ⟨q, hq, hget⟩ hlasting.short

theorem kept_set {host : Host} (h : Mountable host) {d : DataManager} {n v : CString} {p : Int} (hp : p ≠ 0)
    (hlasting : Lasting d n v) : Kept (setValue host d n v p).2 n v := by
  have hkept := kept_store h hp hlasting
  have hback : (storeValue host d n v p).2.mBackingFile ≠ "" := by
    rw [(touches_store host d n v p).backing]
    exact hlasting.backing
  unfold setValue
  split
  · rename_i stored hstored
    rw [hstored] at hkept hback
    dsimp only at hkept hback ⊢
    split_ifs with hzone
    · have hfirst := hkept.store h hback (show "tw_time_zone" ≠ n by rw [hzone]; decide)
      refine Kept.store h ?_ (hfirst _ 0) (by rw [hzone]; decide) _ 0
      rw [(touches_store host _ _ _ _).backing]
      exact hback
    · exact hkept
  · exact hkept

theorem backing_step {host : Host} {d d' : DataManager} {op : Op} {n v : CString} {p : Int}
    (hasks : op.asks = some (n, v, p)) (hstep : op.step host d = some d') : d'.mBackingFile = d.mBackingFile := by
  cases op with
  | set varName value persist =>
    cases hstep
    exact (touches_set host d _ _ _).backing
  | setInt varName value persist =>
    cases hstep
    exact (touches_setInt host d _ _ _).backing
  | ref varName => cases hasks
  | load filename junk => cases hasks
  | save => cases hasks

/-- A call that asks for the mark in such a state puts the variable into the file. -/
theorem kept_step {host : Host} (h : Mountable host) {d d' : DataManager} {op : Op} {n v : CString} {p : Int}
    (hasks : op.asks = some (n, v, p)) (hp : p ≠ 0) (hlasting : Lasting d n v) (hstep : op.step host d = some d') :
    Kept d' n v := by
  cases op with
  | set varName value persist =>
    cases hasks
    cases hstep
    exact kept_set h hp hlasting
  | setInt varName value persist =>
    cases hasks
    cases hstep
    unfold setIntValue
    dsimp only
    by_cases hstorage : n = "tw_use_external_storage"
    · rw [if_pos hstorage]
      refine kept_set h hp ?_
      have htouches := touches_folderNames host d
      refine ⟨hlasting.name, ?_, ?_, fun w hw => ?_, hlasting.short⟩
      · rw [(htouches _).consts]
        exact hlasting.notConst
      · rw [(htouches _).backing]
        exact hlasting.backing
      · rw [(htouches _).other n (by rw [hstorage]; decide)] at hw
        exact hlasting.mark w hw
    · rw [if_neg hstorage]
      exact kept_set h hp hlasting
  | ref varName => cases hasks
  | load filename junk => cases hasks
  | save => cases hasks

/-! ### Where marks come from -/

/-- Every mark has its source in `S`, and so has every record of a file that was written. -/
structure Sourced (files : CString → Option (List UInt8)) (S : CString → Prop) (d : DataManager) : Prop where
  marks : ∀ n, Marked d n → S n
  records : ∀ f bytes, d.files f = some bytes → files f = some bytes ∨ ∀ n v, Contains bytes n v → S n

section Sourced
variable {files : CString → Option (List UInt8)} {S : CString → Prop} {d : DataManager}

theorem Sourced.mono {S' : CString → Prop} (h : Sourced files S d) (hS : ∀ n, S n → S' n) : Sourced files S' d where
  marks n hn := hS n (h.marks n hn)
  records f bytes hbytes := (h.records f bytes hbytes).imp_right fun hall n v hv => hS n (hall n v hv)

theorem Sourced.save (h : Sourced files S d) (host : Host) : Sourced files S (saveValues host d).2 := by
  unfold saveValues
  split_ifs
  · exact h
  · exact h
  · exact h
  · refine ⟨h.marks, fun f bytes hbytes => ?_⟩
    dsimp only at hbytes
    by_cases hf : f = d.mBackingFile
    · rw [hf, Function.update_self] at hbytes
      cases hbytes
      refine .inr fun n v hv => h.marks n ?_
      obtain ⟨⟨p, hp, hget⟩, _⟩ := contains_fileBytes.mp hv
      exact ⟨_, hget, hp⟩
    · rw [Function.update_of_ne hf] at hbytes
      exact h.records f bytes hbytes

/-- A variable that is assigned keeps its mark or is new. -/
theorem marked_assign {n n' v : CString} {p : Int} {w : Var} (hw : (assign d.mValues n v p)[n']? = some w)
    (hmark : w.persist ≠ 0) : Marked d n' ∨ n' = n ∧ p ≠ 0 := by
  by_cases hn : n = n'
  · subst hn
    cases hold : d.mValues[n]? with
    | none =>
      rw [assign, hold] at hw
      dsimp only at hw
      rw [Std.TreeMap.getElem?_insert_self] at hw
      cases hw
      exact .inr ⟨rfl, hmark⟩
    | some old =>
      rw [assign_existing d.mValues v p hold] at hw
      cases hw
      exact .inl ⟨old, hold, hmark⟩
  · rw [assign_other d.mValues v p hn] at hw
    exact .inl ⟨w, hw, hmark⟩

theorem Sourced.store (h : Sourced files S d) (host : Host) {n : CString} (v : CString) {p : Int}
    (hn : p ≠ 0 → S n) : Sourced files S (storeValue host d n v p).2 := by
  have hstored : Sourced files S {d with mValues := assign d.mValues n v p} := by
    refine ⟨fun n' hn' => ?_, h.records⟩
    obtain ⟨w, hw, hmark⟩ := hn'
    rcases marked_assign hw hmark with hold | ⟨rfl, hp⟩
    · exact h.marks n' hold
    · exact hn hp
  unfold storeValue
  split_ifs
  · exact h
  · exact h
  · dsimp only
    split
    · exact hstored
    · split_ifs
      · exact hstored.save host
      · exact hstored

theorem Sourced.ref (h : Sourced files S d) (n : CString) : Sourced files S (getValueRef d n) := by
  unfold getValueRef
  split_ifs
  · exact h
  · refine ⟨fun n' hn' => ?_, h.records⟩
    obtain ⟨w, hw, hmark⟩ := hn'
    dsimp only at hw
    rw [Std.TreeMap.getElem?_insertIfNew] at hw
    split_ifs at hw
    · cases hw
      exact absurd rfl hmark
    · exact h.marks n' ⟨w, hw, hmark⟩

end Sourced

/-- What a loop reads does not depend on the variables it starts from. -/
theorem loadLoop_reads (junk : Junk) (fileSize : Int) (position : Nat) (rest : List UInt8) :
    ∃ found : Option (Int × List (CString × CString)), ∀ values,
      loadLoop junk fileSize values position rest = found.map fun r => (r.1, insertAll values r.2) := by
  induction hn : rest.length using Nat.strong_induction_on generalizing position rest with
  | h n ih =>
    by_cases hlt : (position : Int) < fileSize
    · cases hfront : front rest with
      | broken =>
        refine ⟨some (1, []), fun values => ?_⟩
        rw [loadLoop_step _ _ _ _ _ hlt, hfront]
        rfl
      | half name =>
        cases hscan : CString.scan (name ++ (junk.array position).drop name.length) with
        | none =>
          refine ⟨none, fun values => ?_⟩
          rw [loadLoop_step _ _ _ _ _ hlt, hfront]
          dsimp only
          rw [hscan]
          rfl
        | some s =>
          refine ⟨some (1, []), fun values => ?_⟩
          rw [loadLoop_step _ _ _ _ _ hlt, hfront]
          dsimp only
          rw [hscan]
          rfl
      | whole r rest' =>
        cases htaken : taken (junk.array position) r with
        | none =>
          refine ⟨none, fun values => ?_⟩
          rw [loadLoop_step _ _ _ _ _ hlt, hfront]
          dsimp only
          rw [htaken]
          rfl
        | some read =>
          have hlen := front_whole_length hfront
          obtain ⟨found, hfound⟩ := ih rest'.length (by omega) (position + (rest.length - rest'.length)) rest' rfl
          refine ⟨found.map fun r => (r.1, read :: r.2), fun values => ?_⟩
          rw [loadLoop_step _ _ _ _ _ hlt, hfront]
          dsimp only
          rw [htaken]
          dsimp only
          rw [hfound, Option.map_map]
          rfl
    · refine ⟨some (0, []), fun values => ?_⟩
      rw [loadLoop, if_neg hlt]
      rfl

/-- A mark after the records is one from before, or the name was among them. -/
theorem marked_insertAll {values : Std.TreeMap CString Var} {reads : List (CString × CString)} {n : CString} {w : Var}
    (hw : (insertAll values reads)[n]? = some w) : values[n]? = some w ∨ n ∈ insertAll ∅ reads := by
  rw [insertAll_get] at hw
  cases hlast : lastRead reads n with
  | none =>
    rw [hlast] at hw
    exact .inl hw
  | some v =>
    have hget := insertAll_get ∅ reads n
    rw [hlast] at hget
    refine .inr ?_
    rw [Std.TreeMap.mem_iff_isSome_getElem?, hget]
    rfl

/-- A load sets the settings file if there is none, stores what it reads and moves the backup folders. -/
theorem loadValues_reads {host : Host} {junk : Junk} {d d' : DataManager} {filename : CString} {ret : Int}
    (hload : loadValues host junk d filename = some (ret, d')) :
    d' = {d with mBackingFile := if d.mBackingFile = "" then filename else d.mBackingFile} ∨
      ∃ bytes reads, d.files filename = some bytes ∧ (∀ n, n ∈ insertAll ∅ reads → ReadFrom junk bytes n) ∧
        d' = setBackupFolder host (afterReads d filename reads) (getCurrentStoragePath (afterReads d filename reads)) := by
  have hback : (if d.mBackingFile = "" then {d with mBackingFile := filename} else d) =
      {d with mBackingFile := if d.mBackingFile = "" then filename else d.mBackingFile} := by
    split_ifs <;> rfl
  have hnone : ∀ n, n ∈ insertAll ∅ [] → False := fun n hn => Std.TreeMap.not_mem_emptyc hn
  unfold loadValues at hload
  rw [hback] at hload
  dsimp only at hload
  cases hbytes : d.files filename with
  | none =>
    rw [hbytes] at hload
    exact .inl (Prod.mk.inj (Option.some.inj hload)).2.symm
  | some bytes =>
    rw [hbytes] at hload
    dsimp only at hload
    refine .inr ⟨bytes, ?_⟩
    by_cases hshort : bytes.length < 4
    · rw [if_pos hshort] at hload
      exact ⟨[], rfl, fun n hn => (hnone n hn).elim, (Prod.mk.inj (Option.some.inj hload)).2.symm⟩
    · rw [if_neg hshort] at hload
      by_cases hversion : fromLe (bytes.take 4) ≠ fileVersion
      · rw [if_pos hversion] at hload
        exact ⟨[], rfl, fun n hn => (hnone n hn).elim, (Prod.mk.inj (Option.some.inj hload)).2.symm⟩
      · rw [if_neg hversion] at hload
        obtain ⟨found, hfound⟩ := loadLoop_reads junk (ftell bytes.length) 4 (bytes.drop 4)
        rw [hfound] at hload
        cases found with
        | none => exact absurd hload (Option.some_ne_none _).symm
        | some r =>
          refine ⟨r.2, rfl, fun n hn => ?_, (Prod.mk.inj (Option.some.inj hload)).2.symm⟩
          exact ⟨by omega, not_not.mp hversion, r.1, _, hfound ∅, hn⟩

theorem Sourced.load {files : CString → Option (List UInt8)} {S : CString → Prop} {d d' : DataManager}
    (h : Sourced files S d) (host : Host) (junk : Junk) {filename : CString}
    (hread : ∀ bytes n, d.files filename = some bytes → ReadFrom junk bytes n → S n) {ret : Int}
    (hload : loadValues host junk d filename = some (ret, d')) : Sourced files S d' := by
  rcases loadValues_reads hload with hd' | ⟨bytes, reads, hbytes, hreads, hd'⟩
  · rw [hd']
    exact ⟨h.marks, h.records⟩
  · have hafter : Sourced files S (afterReads d filename reads) := by
      refine ⟨fun n hn => ?_, h.records⟩
      obtain ⟨w, hw, hmark⟩ := hn
      rcases marked_insertAll hw with hold | hnew
      · exact h.marks n ⟨w, hold, hmark⟩
      · exact hread bytes n hbytes (hreads n hnew)
    rw [hd']
    exact backupFolder_of_store (P := Sourced files S) (fun _ hp => absurd rfl hp) (fun _ _ v _ hn hd => hd.store host v hn) _ hafter

/-! ### The file follows the variable -/

/-- The variable is marked, and the settings file has its present value where that fits. -/
structure Synced (d : DataManager) (n : CString) : Prop where
  backing : d.mBackingFile ≠ ""
  short : n.length < 65535
  current : ∃ v, (∃ p, p ≠ 0 ∧ d.mValues[n]? = some ⟨v, p⟩) ∧
    (v.length < 65535 → ∃ bytes, d.files d.mBackingFile = some bytes ∧ Contains bytes n v)

section Synced
variable {host : Host} {d : DataManager} {n : CString}

theorem Kept.synced {v : CString} (h : Kept d n v) (hback : d.mBackingFile ≠ "") : Synced d n :=
  ⟨hback, h.short.1, v, h.marked, fun _ => h.record⟩

theorem synced_save (hmount : Mountable host) (hback : d.mBackingFile ≠ "") (hshort : n.length < 65535)
    (hmarked : ∃ v p, p ≠ 0 ∧ d.mValues[n]? = some ⟨v, p⟩) : Synced (saveValues host d).2 n := by
  obtain ⟨v, hv⟩ := hmarked
  rw [saveValues_mountable hmount hback]
  refine ⟨hback, hshort, v, hv, fun hlen => ⟨fileBytes d.mValues, Function.update_self .., ?_⟩⟩
  exact contains_fileBytes.mpr ⟨hv, hshort, hlen⟩

/-- Storing a marked variable writes the file, storing another leaves this one as it is. -/
theorem Synced.store (hmount : Mountable host) (h : Synced d n) (n' v' : CString) (p' : Int) :
    Synced (storeValue host d n' v' p').2 n := by
  obtain ⟨v, ⟨p, hp, hget⟩, hrecord⟩ := h.current
  unfold storeValue
  split_ifs
  · exact h
  · exact h
  · dsimp only
    by_cases hn : n' = n
    · subst hn
      rw [assign_existing d.mValues v' p' hget]
      dsimp only
      rw [if_pos hp]
      refine synced_save hmount h.backing h.short ⟨v', p, hp, ?_⟩
      exact assign_existing d.mValues v' p' hget
    · have hsame := (assign_other d.mValues v' p' hn).trans hget
      split
      · exact ⟨h.backing, h.short, v, ⟨p, hp, hsame⟩, hrecord⟩
      · split_ifs
        · exact synced_save hmount h.backing h.short ⟨v, p, hp, hsame⟩
        · exact ⟨h.backing, h.short, v, ⟨p, hp, hsame⟩, hrecord⟩

theorem Synced.ref (h : Synced d n) (n' : CString) : Synced (getValueRef d n') n := by
  unfold getValueRef
  split_ifs
  · exact h
  · obtain ⟨v, ⟨p, hp, hget⟩, hrecord⟩ := h.current
    refine ⟨h.backing, h.short, v, ⟨p, hp, ?_⟩, hrecord⟩
    have hmem : n ∈ d.mValues := by
      rw [Std.TreeMap.mem_iff_isSome_getElem?, hget]
      rfl
    dsimp only
    rw [Std.TreeMap.getElem?_insertIfNew, if_neg, hget]
    rintro ⟨heq, hnot⟩
    rw [Std.LawfulEqCmp.compare_eq_iff_eq] at heq
    rw [heq] at hnot
    exact hnot hmem

theorem Synced.load (hmount : Mountable host) (h : Synced d n) {junk : Junk} {filename : CString} {d' : DataManager}
    {ret : Int} (hload : loadValues host junk d filename = some (ret, d'))
    (hread : ∀ bytes, d.files filename = some bytes → ¬ReadFrom junk bytes n) : Synced d' n := by
  have hbacking : (if d.mBackingFile = "" then filename else d.mBackingFile) = d.mBackingFile := if_neg h.backing
  rcases loadValues_reads hload with hd' | ⟨bytes, reads, hbytes, hreads, hd'⟩
  · rw [hd', hbacking]
    exact h
  · have hafter : Synced (afterReads d filename reads) n := by
      obtain ⟨v, ⟨p, hp, hget⟩, hrecord⟩ := h.current
      unfold afterReads
      rw [hbacking]
      refine ⟨h.backing, h.short, v, ⟨p, hp, ?_⟩, hrecord⟩
      dsimp only
      cases hlast : lastRead reads n with
      | none => rw [insertAll_get, hlast, hget]
      | some u =>
        refine absurd (hreads n ?_) (hread bytes hbytes)
        rw [Std.TreeMap.mem_iff_isSome_getElem?, insertAll_get, hlast]
        rfl
    rw [hd']
    exact backupFolder_of_store (P := (Synced · n)) (Q := fun _ _ => True) (fun _ => trivial)
      (fun _ n' v' p' _ hd => hd.store hmount n' v' p') _ hafter

theorem Synced.step (hmount : Mountable host) (h : Synced d n) {op : Op} {d' : DataManager}
    (hstep : op.step host d = some d') (hread : ¬op.Reads d n) : Synced d' n := by
  have hstore : ∀ d n' v' (p' : Int), True → Synced d n → Synced (storeValue host d n' v' p').2 n :=
    fun _ n' v' p' _ hd => hd.store hmount n' v' p'
  cases op with
  | set varName value persist =>
    cases hstep
    exact set_of_store (P := (Synced · n)) (fun _ => trivial) hstore value trivial h
  | setInt varName value persist =>
    cases hstep
    exact setInt_of_store (P := (Synced · n)) (fun _ => trivial) hstore value trivial h
  | ref varName =>
    cases hstep
    exact h.ref varName
  | load filename junk =>
    obtain ⟨⟨ret, d''⟩, hload, rfl⟩ := Option.map_eq_some_iff.mp hstep
    exact h.load hmount hload fun bytes hbytes hin => hread ⟨bytes, hbytes, hin⟩
  | save =>
    cases hstep
    obtain ⟨v, hv, _⟩ := h.current
    exact synced_save hmount h.backing h.short ⟨v, hv⟩

theorem Since.synced (hmount : Mountable host) {d' : DataManager} (hsince : Since host n d d') (h : Synced d n) :
    Synced d' n := by
  induction hsince with
  | refl => exact h
  | step op _ hstep hread ih => exact ih.step hmount hstep hread

end Synced

/-! ### Runs -/

section Run
variable {b : Build} {host : Host} {files : CString → Option (List UInt8)}

theorem Source.later {history : List (DataManager × Op)} {n : CString} (c : DataManager × Op)
    (h : Source b host files history n) : Source b host files (c :: history) n :=
  h.imp_right fun ⟨c', hc', hgives⟩ => ⟨c', List.mem_cons_of_mem c hc', hgives⟩

/-- Along a run every mark, and every record that was written, has its source. -/
theorem Run.sourced {history : List (DataManager × Op)} {d : DataManager} (hrun : Run b host files history d) :
    Sourced files (Source b host files history) d := by
  induction hrun with
  | start =>
    refine ⟨fun n hn => .inl hn, fun f bytes hbytes => .inl ?_⟩
    rw [← hbytes, fresh_files]
  | @step history d d' op hrun hstep ih =>
    have hd := ih.mono fun n hn => hn.later (d, op)
    have hgives : ∀ n, op.Gives d n → Source b host files ((d, op) :: history) n :=
      fun n hn => .inr ⟨(d, op), List.mem_cons_self, hn⟩
    have hfree : ∀ n, (0 : Int) ≠ 0 → Source b host files ((d, op) :: history) n := fun n hp => absurd rfl hp
    have hstore : ∀ d' n v (p : Int), (p ≠ 0 → Source b host files ((d, op) :: history) n) →
        Sourced files (Source b host files ((d, op) :: history)) d' →
        Sourced files (Source b host files ((d, op) :: history)) (storeValue host d' n v p).2 :=
      fun d' n v p hn hd' => hd'.store host v hn
    cases op with
    | set varName value persist =>
      cases hstep
      exact set_of_store hfree hstore value (fun hp => hgives varName (.inr ⟨value, persist, rfl, hp⟩)) hd
    | setInt varName value persist =>
      cases hstep
      exact setInt_of_store hfree hstore value (fun hp => hgives varName (.inr ⟨_, persist, rfl, hp⟩)) hd
    | ref varName =>
      cases hstep
      exact hd.ref varName
    | load filename junk =>
      obtain ⟨⟨ret, d''⟩, hload, rfl⟩ := Option.map_eq_some_iff.mp hstep
      exact hd.load host junk (fun bytes n hbytes hread => hgives n (.inl ⟨bytes, hbytes, hread⟩)) hload
    | save =>
      cases hstep
      exact hd.save host

/-- **Persistence over a run.** In every state of a run, a `SetValue` that asks for the mark
of a variable that is new or marked, under a name and a value that fit, leaves the variable
in the settings file with this value, and from then on the file has the latest value of the
variable until a file is read that has it; and a file that was written in the run contains only
variables that a default, a `SetValue` or a file that was read has given the mark. -/
theorem persistence (hmount : Mountable host) {history : List (DataManager × Op)} {d : DataManager}
    (hrun : Run b host files history d) :
    (∀ (op : Op) n v p d', op.asks = some (n, v, p) → p ≠ 0 → Lasting d n v → op.step host d = some d' →
      (∃ bytes, d'.files d'.mBackingFile = some bytes ∧ Contains bytes n v) ∧
      ∀ d'', Since host n d' d'' → ∃ v' q, d''.mValues[n]? = some ⟨v', q⟩ ∧
        (v'.length < 65535 → ∃ bytes, d''.files d''.mBackingFile = some bytes ∧ Contains bytes n v')) ∧
    ∀ bytes, d.files d.mBackingFile = some bytes → files d.mBackingFile ≠ some bytes →
      ∀ n v, Contains bytes n v → Source b host files history n := by
  constructor
  · intro op n v p d' hasks hp hlasting hstep
    have hkept := kept_step hmount hasks hp hlasting hstep
    refine ⟨hkept.record, fun d'' hsince => ?_⟩
    have hback : d'.mBackingFile ≠ "" := by
      rw [backing_step hasks hstep]
      exact hlasting.backing
    obtain ⟨v', ⟨q, _, hget⟩, hrecord⟩ := (hsince.synced hmount (hkept.synced hback)).current
    exact ⟨v', q, hget, hrecord⟩
  · intro bytes hbytes hnew n v hv
    exact (hrun.sourced.records _ bytes hbytes).resolve_left hnew n v hv

end Run

theorem mountable_openHost : Mountable openHost := ⟨fun _ => rfl, fun _ => rfl⟩

/-- The first start: there is no settings file to load. -/
def firstLoad : DataManager × Op :=
  (fresh plainBuild openHost fun _ => none, .load settingsFile fullJunk)

theorem run_defaults : Run plainBuild openHost (fun _ => none) [firstLoad] defaults := by
  have hfile : (fresh plainBuild openHost fun _ => none).files settingsFile = none := by
    rw [fresh_files]
  refine .step _ .start ?_
  show (loadValues openHost fullJunk (fresh plainBuild openHost fun _ => none) settingsFile).map Prod.snd = some defaults
  unfold loadValues
  rw [if_pos (fresh_mBackingFile plainBuild openHost _)]
  dsimp only
  rw [hfile]
  rfl

theorem lasting_defaults : Lasting defaults "tw_greeting" "hello" where
  name := by decide
  notConst := by decide +kernel
  backing := by decide
  mark := by
    have hnone : defaults.mValues[CString.ofString "tw_greeting"]? = none := by decide +kernel
    intro w hw
    cases hnone.symm.trans hw
  short := by decide

theorem persistence_greeting : Lasting defaults "tw_greeting" "hello" ∧ ∃ bytes,
    (setValue openHost defaults "tw_greeting" "hello" 1).2.files
      (setValue openHost defaults "tw_greeting" "hello" 1).2.mBackingFile = some bytes ∧
      Contains bytes "tw_greeting" "hello" := by
  refine ⟨lasting_defaults, ?_⟩
  have hset := (persistence mountable_openHost run_defaults).1 (.set "tw_greeting" "hello" 1) "tw_greeting" "hello" 1 _
    rfl (by decide) lasting_defaults rfl
  exact hset.1

/-- A variable that was first set without the mark is not in the file after a call that asks for it. -/
theorem persistence_lost : ∃ history d, Run plainBuild openHost (fun _ => none) history d ∧
    ∃ d', (Op.set "tw_greeting" "hello" 1).step openHost d = some d' ∧
      ∀ bytes, d'.files d'.mBackingFile = some bytes → ¬Contains bytes "tw_greeting" "hello" := by
  refine ⟨_, _, .step (.set "tw_greeting" "hi" 0) run_defaults rfl, _, rfl, fun bytes hbytes => ?_⟩
  have hnone : (setValue openHost (setValue openHost defaults "tw_greeting" "hi" 0).2 "tw_greeting" "hello" 1).2.files
      (setValue openHost (setValue openHost defaults "tw_greeting" "hi" 0).2 "tw_greeting" "hello" 1).2.mBackingFile =
        none := by
    decide +kernel
  cases hnone.symm.trans hbytes

end Twrp.Settings
