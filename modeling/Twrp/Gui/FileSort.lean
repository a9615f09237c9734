import Mathlib.Data.Prod.Lex
import Twrp.Base.Sorting
import Twrp.Gui.FileList

/-! The order of the file list.

Apart from the special names the comparison is that of a key: size or date where the order asks for one,
then the name without case. Two things break it. The up-a-level entry goes in front of itself. And where
`stat` fails for an entry, its size and date are those of whatever was read before it, so that they depend
on the order of `readdir`. On which directories and orders neither shows is `Settled`, exactly
(`wellSorted_iff`). -/
namespace Twrp.Gui.FileSelector
open Base

/-! ### Names without case -/

def lower (b : UInt8) : Nat := (toLower b).toNat

def folded (s : CString) : List Nat := s.bytes.map lower

theorem lower_pos {b : UInt8} (hb : b ≠ 0) : 0 < lower b := by
  have hpos : 0 < b.toNat := Nat.pos_of_ne_zero fun h => hb (UInt8.toNat_inj.mp h)
  rw [lower, toLower]
  split_ifs with h
  · have hlow : 65 ≤ b.toNat := UInt8.le_iff_toNat_le.mp h.1
    have hhigh : b.toNat ≤ 90 := UInt8.le_iff_toNat_le.mp h.2
    rw [UInt8.toNat_add]
    have h32 : (32 : UInt8).toNat = 32 := rfl
    omega
  · exact hpos

theorem strcasecmp_swap (a b : List UInt8) : strcasecmp b a = -strcasecmp a b := by
  fun_induction strcasecmp a b with
  | case1 => rfl
  | case2 b t => simp [strcasecmp]
  | case3 a s => simp [strcasecmp]
  | case4 a s b t h ih => rw [strcasecmp, if_pos h.symm, ih]
  | case5 a s b t h =>
    rw [strcasecmp, if_neg (Ne.symm h)]
    omega

theorem strcasecmp_neg {a b : List UInt8} (hb : 0 ∉ b) : strcasecmp a b < 0 ↔ a.map lower < b.map lower := by
  fun_induction strcasecmp a b with
  | case1 => exact iff_of_false (by decide) (List.not_lt_nil _)
  | case2 b t =>
    have hpos : 0 < (toLower b).toNat := lower_pos (Ne.symm (List.ne_of_not_mem_cons hb))
    exact iff_of_true (by omega) (List.nil_lt_cons _ _)
  | case3 a s => exact iff_of_false (by omega) (List.not_lt_nil _)
  | case4 a s b t h ih =>
    rw [ih (List.not_mem_of_not_mem_cons hb), List.map_cons, List.map_cons, List.cons_lt_cons_iff, lower, lower, h]
    simp
  | case5 a s b t h =>
    have hne : lower a ≠ lower b := fun heq => h (UInt8.toNat_inj.mp heq)
    rw [List.map_cons, List.map_cons, List.cons_lt_cons_iff, lower, lower] at *
    simp only [hne, false_and, or_false]
    omega

theorem strcasecmp_pos {a b : List UInt8} (ha : 0 ∉ a) : strcasecmp a b > 0 ↔ b.map lower < a.map lower := by
  rw [← strcasecmp_neg ha, strcasecmp_swap a b]
  omega

/-! ### The key -/

/-- What an order compares before the names. -/
def criterion (mSortOrder : Int) (w : Which) : Option (FileData → Int) :=
  if mSortOrder = 3 ∨ mSortOrder = -3 then
    match w with
    | .folders => none
    | .files => some FileData.fileSize
  else if mSortOrder = 2 ∨ mSortOrder = -2 then some FileData.lastModified
  else none

def primary (mSortOrder : Int) (w : Which) (d : FileData) : Int := ((criterion mSortOrder w).map (· d)).getD 0

theorem primary_eq (o : Int) (w : Which) {a b : FileData} (hsize : a.fileSize = b.fileSize)
    (htime : a.lastModified = b.lastModified) : primary o w a = primary o w b := by
  unfold primary criterion
  split_ifs
  · cases w
    · rfl
    · exact hsize
  · exact htime
  · rfl

theorem primary_const {o : Int} {w : Which} (h : criterion o w ≠ none) {d : FileData} {v : Int}
    (hsize : d.fileSize = v) (htime : d.lastModified = v) : primary o w d = v := by
  unfold primary criterion at *
  split_ifs at * with hs ht
  · cases w
    · exact absurd rfl h
    · exact hsize
  · exact htime
  · exact absurd rfl h

def descending (mSortOrder : Int) : Bool := mSortOrder = -3 ∨ mSortOrder = -2 ∨ mSortOrder = -1

abbrev Key := ℤ ×ₗ List Nat

def key (mSortOrder : Int) (w : Which) (d : FileData) : Key := toLex (primary mSortOrder w d, folded d.fileName)

/-- A row that the special names do not concern, in the list that it belongs to. -/
structure Ordinary (w : Which) (d : FileData) : Prop where
  name : d.fileName ≠ "."
  notUp : d.fileName ≠ upALevel
  type : d.fileType = .dir ↔ w = .folders

/-- The names decide where the rest is equal. -/
theorem tieBreak (p q : Int) (c : Prop) : (if p = q then c else p < q) ↔ p < q ∨ p = q ∧ c := by
  split_ifs with h <;> simp [h]

theorem tieBreak_swap (p q : Int) (c : Prop) : (if p = q then c else q < p) ↔ q < p ∨ q = p ∧ c := by
  by_cases h : p = q
  · simp [h]
  · simp [h, Ne.symm h]

theorem fileSort_iff {o : Int} {w : Which} {a b : FileData} (ha : Ordinary w a) (hb : Ordinary w b) :
    fileSort o a b = true ↔ if descending o then key o w b < key o w a else key o w a < key o w b := by
  have hneg : strcasecmp a.fileName.bytes b.fileName.bytes < 0 ↔ folded a.fileName < folded b.fileName :=
    strcasecmp_neg b.fileName.noNul
  have hpos : strcasecmp a.fileName.bytes b.fileName.bytes > 0 ↔ folded b.fileName < folded a.fileName :=
    strcasecmp_pos a.fileName.noNul
  simp only [fileSort, ha.name, hb.name, ha.notUp, hb.notUp, if_false, hneg, hpos, ha.type]
  simp only [key, Prod.Lex.toLex_lt_toLex, primary, criterion, descending]
  split
  · cases w <;> simp [tieBreak]
  · cases w <;> simp [tieBreak_swap]
  · simp [tieBreak]
  · simp [tieBreak_swap]
  · simp
  · rename_i h3 hm3 h2 hm2 hm1
    have hnone : (o = 3 ∨ o = -3) = False ∧ (o = 2 ∨ o = -2) = False ∧ (o = -3 ∨ o = -2 ∨ o = -1) = False :=
      ⟨eq_false (by tauto), eq_false (by tauto), eq_false (by tauto)⟩
    simp [hnone]

/-- On a list, the comparison is that of a key, from small to large or back. -/
def Directed {K : Type} [LinearOrder K] (o : Int) (k : FileData → K) (l : List FileData) : Prop :=
  ∀ a ∈ l, ∀ b ∈ l, fileSort o a b = true ↔ if descending o then k b < k a else k a < k b

namespace Directed
variable {K : Type} [LinearOrder K] {o : Int} {k : FileData → K} {l l' s s' : List FileData}

theorem ascending (h : Directed o k l) (ho : ¬ descending o = true) : ByKey (fileSort o) k l := by
  intro a ha b hb
  rw [h a ha b hb, if_neg ho]

theorem reversed (h : Directed o k l) (ho : descending o = true) : ByKey (fileSort o) (OrderDual.toDual ∘ k) l := by
  intro a ha b hb
  rw [h a ha b hb, if_pos ho]
  exact OrderDual.toDual_lt_toDual.symm

theorem strictWeak (h : Directed o k l) : StrictWeak (fileSort o) l := by
  by_cases ho : descending o = true
  · exact (h.reversed ho).strictWeak
  · exact (h.ascending ho).strictWeak

theorem exists_sorts (h : Directed o k l) : ∃ s, Sorts (fileSort o) l s := by
  by_cases ho : descending o = true
  · exact (h.reversed ho).exists_sorts
  · exact (h.ascending ho).exists_sorts

theorem map_eq (h : Directed o k l) (h' : Directed o k l') (hkeys : (l.map k).Perm (l'.map k))
    (hs : Sorts (fileSort o) l s) (hs' : Sorts (fileSort o) l' s') : s.map k = s'.map k := by
  by_cases ho : descending o = true
  · have hdual := (h.reversed ho).map_eq (h'.reversed ho) (by
      rw [← List.map_map, ← List.map_map]
      exact hkeys.map OrderDual.toDual) hs hs'
    exact hdual
  · exact (h.ascending ho).map_eq (h'.ascending ho) hkeys hs hs'

end Directed

theorem directed_key {o : Int} {w : Which} {l : List FileData} (h : ∀ d ∈ l, Ordinary w d) : Directed o (key o w) l :=
  fun a ha b hb => fileSort_iff (h a ha) (h b hb)

/-- Where what is compared first is the same for all, the names decide. -/
theorem directed_folded {o : Int} {w : Which} {l : List FileData} (h : ∀ d ∈ l, Ordinary w d)
    (hsame : ∀ a ∈ l, ∀ b ∈ l, primary o w a = primary o w b) : Directed o (fun d => folded d.fileName) l := by
  intro a ha b hb
  have hprimary := hsame a ha b hb
  rw [fileSort_iff (h a ha) (h b hb), key, key, Prod.Lex.toLex_lt_toLex, Prod.Lex.toLex_lt_toLex, hprimary]
  simp

/-! ### What is read -/

section Rows
variable (c : Config) (folder : CString) (stat : CString → Option Stat)

/-- The entries that go on to `stat`. -/
def entries (l : List (Dirent × Nat)) : List (Dirent × Nat) := l.filterMap fun de => (seen folder de.1).map (·, de.2)

/-- One of the lists, told by the entries. -/
def rows (w : Which) : Stat → List (Dirent × Nat) → List FileData
  | _, [] => []
  | st, (e, junk) :: rest =>
    let st := fill folder stat st e
    let fileType := typeOf folder stat e junk
    (if placed c e.name fileType = some w then [record e.name fileType st] else []) ++ rows w st rest

theorem foldl_readEntry (w : Which) (s : Stat × Lists) (l : List (Dirent × Nat)) :
    (l.foldl (readEntry c folder stat) s).2.get w = s.2.get w ++ rows c folder stat w s.1 (entries folder l) := by
  induction l generalizing s with
  | nil => exact (List.append_nil _).symm
  | cons de l ih =>
    rw [List.foldl_cons, ih]
    cases hseen : seen folder de.1 with
    | none => simp [entries, readEntry, hseen]
    | some e =>
      have hentries : entries folder (de :: l) = (e, de.2) :: entries folder l := by simp [entries, hseen]
      rw [hentries, rows, readEntry, hseen]
      dsimp only [pushEntry]
      rw [← List.append_assoc]
      congr 1
      cases placed c e.name (typeOf folder stat e de.2) with
      | none => simp
      | some w' => simp [Lists.get_push]

theorem readLists_get {dir : Directory} (r : Reading dir) (w : Which) :
    (readLists c folder r).get w = rows c folder dir.stat w r.initial (entries folder r.dirents) := by
  have hempty : (⟨[], []⟩ : Lists).get w = [] := by cases w <;> rfl
  rw [readLists, foldl_readEntry, hempty]
  rfl

theorem seen_name {de e : Dirent} (h : seen folder de = some e) : e.name ≠ "." := by
  rw [seen] at h
  split_ifs at h with hdot hroot hup
  · obtain rfl := Option.some.inj h
    decide
  · obtain rfl := Option.some.inj h
    exact hdot

theorem placed_type {c : Config} {name : CString} {t : DType} {w : Which} (h : placed c name t = some w) :
    t = .dir ↔ w = .folders := by
  rw [placed] at h
  dsimp only at h
  split_ifs at h <;> obtain rfl := Option.some.inj h <;> simp [*]

/-- Where a row comes from. -/
theorem of_mem_rows {w : Which} {st : Stat} {l : List (Dirent × Nat)} {d : FileData}
    (h : d ∈ rows c folder stat w st l) :
    ∃ e junk st', (e, junk) ∈ l ∧ placed c e.name (typeOf folder stat e junk) = some w ∧
      d = record e.name (typeOf folder stat e junk) (fill folder stat st' e) := by
  induction l generalizing st with
  | nil => exact absurd h List.not_mem_nil
  | cons p l ih =>
    obtain ⟨e, junk⟩ := p
    rw [rows] at h
    obtain hhead | htail := List.mem_append.mp h
    · split_ifs at hhead with hplaced
      · exact ⟨e, junk, st, List.mem_cons_self, hplaced, List.mem_singleton.mp hhead⟩
      · exact absurd hhead List.not_mem_nil
    · obtain ⟨e', junk', st', hmem, hrest⟩ := ih htail
      exact ⟨e', junk', st', List.mem_cons_of_mem _ hmem, hrest⟩

theorem exists_row {w : Which} (st : Stat) {l : List (Dirent × Nat)} {e : Dirent} {junk : Nat} (hmem : (e, junk) ∈ l)
    (hplaced : placed c e.name (typeOf folder stat e junk) = some w) :
    ∃ d ∈ rows c folder stat w st l, d.fileName = e.name := by
  induction l generalizing st with
  | nil => exact absurd hmem List.not_mem_nil
  | cons p l ih =>
    obtain rfl | hmem := List.mem_cons.mp hmem
    · refine ⟨record e.name (typeOf folder stat e junk) (fill folder stat st e), ?_, rfl⟩
      rw [rows]
      rw [if_pos hplaced]
      exact List.mem_cons_self
    · obtain ⟨d, hd, hname⟩ := ih (fill folder stat st p.1) hmem
      exact ⟨d, List.mem_append_right _ hd, hname⟩

/-- A row is ordinary unless it is the entry to go up by. -/
theorem ordinary_row {w : Which} {st : Stat} {l : List (Dirent × Nat)} {d : FileData}
    (h : d ∈ rows c folder stat w st (entries folder l)) (hup : d.fileName ≠ upALevel) : Ordinary w d := by
  obtain ⟨e, junk, st', hmem, hplaced, rfl⟩ := of_mem_rows c folder stat h
  refine ⟨?_, hup, placed_type hplaced⟩
  obtain ⟨de, _, hde⟩ := List.mem_filterMap.mp hmem
  obtain ⟨e', hseen, heq⟩ := Option.map_eq_some_iff.mp hde
  obtain rfl : e' = e := (Prod.mk.inj heq).1
  exact seen_name folder hseen

/-- Where an entry is placed, if its type can be told. -/
def place (e : Dirent) : Option Which := placed c e.name (typeOf folder stat e 0)

/-- A list mapped by what only depends on the entries. -/
theorem rows_map {β : Type} {w : Which} (f : FileData → β) (g : Dirent → β) (st : Stat) {l : List (Dirent × Nat)}
    (hsure : ∀ p ∈ l, placed c p.1.name (typeOf folder stat p.1 p.2) = place c folder stat p.1)
    (hfg : ∀ p ∈ l, place c folder stat p.1 = some w → ∀ t st, f (record p.1.name t (fill folder stat st p.1)) = g p.1) :
    (rows c folder stat w st l).map f = ((l.map Prod.fst).filter (place c folder stat · = some w)).map g := by
  induction l generalizing st with
  | nil => rfl
  | cons p l ih =>
    obtain ⟨hp, hl⟩ := List.forall_mem_cons.mp hsure
    obtain ⟨hfgp, hfgl⟩ := List.forall_mem_cons.mp hfg
    rw [rows]
    rw [hp, List.map_append, ih _ hl hfgl, List.map_cons]
    by_cases hw : place c folder stat p.1 = some w
    · rw [if_pos hw, List.filter_cons, if_pos (decide_eq_true hw), List.map_singleton, hfgp hw]
      rfl
    · rw [if_neg hw, List.filter_cons, if_neg (by simpa using hw)]
      rfl

/-- Where every `stat` fails, what stood in `st` stands in every row. -/
theorem rows_stale {w : Which} {st : Stat} {l : List (Dirent × Nat)} (h : ∀ p ∈ l, statOf folder stat p.1.name = none)
    {d : FileData} (hd : d ∈ rows c folder stat w st l) : d.fileSize = st.size ∧ d.lastModified = st.mtime := by
  induction l generalizing st with
  | nil => exact absurd hd List.not_mem_nil
  | cons p l ih =>
    obtain ⟨hp, hl⟩ := List.forall_mem_cons.mp h
    have hfill : fill folder stat st p.1 = st := by rw [fill, hp, Option.getD_none]
    rw [rows] at hd
    rw [hfill] at hd
    obtain hhead | htail := List.mem_append.mp hd
    · split_ifs at hhead
      · rw [List.mem_singleton.mp hhead]
        exact ⟨rfl, rfl⟩
      · exact absurd hhead List.not_mem_nil
    · exact ih hl htail

end Rows

/-! ### What is asked of the lists -/

/-- For every order in which the directory is read, the comparison is fit for the library's sort, and what the
sort may leave is the same up to names that are equal but for case, with the up-a-level entry first. -/
structure WellSorted (c : Config) (folder : CString) (dir : Directory) : Prop where
  strictWeak : ∀ (r : Reading dir) (w : Which), StrictWeak (fileSort c.mSortOrder) ((readLists c folder r).get w)
  same : ∀ (r r' : Reading dir) (w : Which) (s s' : List FileData),
    Sorts (fileSort c.mSortOrder) ((readLists c folder r).get w) s →
    Sorts (fileSort c.mSortOrder) ((readLists c folder r').get w) s' →
    s.map (fun d => folded d.fileName) = s'.map (fun d => folded d.fileName)
  upFirst : ∀ (r : Reading dir) (w : Which) (s : List FileData),
    Sorts (fileSort c.mSortOrder) ((readLists c folder r).get w) s →
    (∃ d ∈ s, d.fileName = upALevel) → s.head?.map FileData.fileName = some upALevel

/-- The entries of the directory that go on to `stat`. -/
def entriesOf (folder : CString) (dir : Directory) : List Dirent := dir.dirents.filterMap (seen folder)

section Settled
variable (c : Config) (folder : CString) (dir : Directory)

/-- The entries that are listed in one of the lists. -/
def listed (w : Which) : List Dirent := (entriesOf folder dir).filter (place c folder dir.stat · = some w)

/-- What the order compares can be told for one of the lists. -/
def Told (w : Which) : Prop :=
  -- it is there for each of them, or not asked for among names that are the same, or for none of all entries
  (∀ e ∈ listed c folder dir w, statOf folder dir.stat e.name ≠ none) ∨
  (∀ e ∈ listed c folder dir w, ∀ e' ∈ listed c folder dir w, folded e.name = folded e'.name) ∨
  ∀ e ∈ entriesOf folder dir, statOf folder dir.stat e.name = none

/-- An entry whose type only a failing `stat` could tell is listed under no type. -/
def Sure : Prop :=
  ∀ e ∈ entriesOf folder dir, e.type = .unknown → statOf folder dir.stat e.name = none →
    ∀ mode, placed c e.name (dTypeOfMode mode) = none

/-- The directories and orders that neither defect shows on. -/
structure Settled : Prop where
  /-- the up-a-level entry is not listed, nor any other of its name -/
  noUp : ∀ w, ∀ e ∈ listed c folder dir w, e.name ≠ upALevel
  sure : Sure c folder dir
  told : ∀ w, criterion c.mSortOrder w ≠ none → Told c folder dir w

variable {c folder dir}

theorem entries_perm (r : Reading dir) : ((entries folder r.dirents).map Prod.fst).Perm (entriesOf folder dir) := by
  have hmap : (entries folder r.dirents).map Prod.fst = (r.dirents.map Prod.fst).filterMap (seen folder) := by
    rw [entries, List.map_filterMap, List.filterMap_map]
    congr 1
    funext de
    show ((seen folder de.1).map (·, de.2)).map Prod.fst = seen folder de.1
    cases seen folder de.1 <;> rfl
  rw [hmap]
  exact r.perm.filterMap _

theorem mem_entries {r : Reading dir} {p : Dirent × Nat} (h : p ∈ entries folder r.dirents) : p.1 ∈ entriesOf folder dir :=
  (entries_perm r).mem_iff.mp (List.mem_map_of_mem h)

/-- Where entries are placed does not depend on what `Get_D_Type_From_Stat` finds on the stack. -/
theorem placed_sure (hsure : Sure c folder dir) {e : Dirent} (he : e ∈ entriesOf folder dir) (junk : Nat) :
    placed c e.name (typeOf folder dir.stat e junk) = place c folder dir.stat e := by
  rw [place, typeOf, typeOf]
  by_cases hunknown : e.type = .unknown
  · rw [if_pos hunknown, if_pos hunknown]
    cases hstat : statOf folder dir.stat e.name with
    | none => rw [Option.map_none, Option.getD_none, Option.getD_none, hsure e he hunknown hstat, hsure e he hunknown hstat]
    | some st => rfl
  · rw [if_neg hunknown, if_neg hunknown]

/-- Without the up-a-level entry all rows are ordinary. -/
theorem Settled.ordinary (h : Settled c folder dir) (r : Reading dir) (w : Which) :
    ∀ d ∈ (readLists c folder r).get w, Ordinary w d := by
  intro d hd
  rw [readLists_get] at hd
  apply ordinary_row c folder dir.stat hd
  obtain ⟨e, junk, _, hmem, hplaced, rfl⟩ := of_mem_rows c folder dir.stat hd
  have he : e ∈ entriesOf folder dir := mem_entries hmem
  rw [placed_sure h.sure he] at hplaced
  exact h.noUp w e (List.mem_filter.mpr ⟨he, decide_eq_true hplaced⟩)

theorem Sure.map_rows (h : Sure c folder dir) {β : Type} {w : Which} {f : FileData → β} {g : Dirent → β}
    (hfg : ∀ e ∈ listed c folder dir w, ∀ t st, f (record e.name t (fill folder dir.stat st e)) = g e) (r : Reading dir) :
    (((readLists c folder r).get w).map f).Perm ((listed c folder dir w).map g) := by
  rw [readLists_get, rows_map c folder dir.stat f g r.initial]
  · exact ((entries_perm r).filter _).map g
  · exact fun p hp => placed_sure h (mem_entries hp) p.2
  · exact fun p hp hplace => hfg p.1 (List.mem_filter.mpr ⟨mem_entries hp, decide_eq_true hplace⟩)

theorem Sure.names (h : Sure c folder dir) (w : Which) (r : Reading dir) :
    (((readLists c folder r).get w).map fun d => folded d.fileName).Perm
      ((listed c folder dir w).map fun e => folded e.name) :=
  h.map_rows (fun _ _ _ _ => rfl) r

/-- The type of a row is not part of its key. -/
theorem key_record (o : Int) (w : Which) (name : CString) (st : Stat) (t t' : DType) :
    key o w (record name t st) = key o w (record name t' st) := by
  rw [key, key, primary_eq o w (a := record name t st) (b := record name t' st) rfl rfl]
  rfl

theorem fill_told {e : Dirent} (h : statOf folder dir.stat e.name ≠ none) (st st' : Stat) :
    fill folder dir.stat st e = fill folder dir.stat st' e := by
  obtain ⟨answer, hanswer⟩ := Option.ne_none_iff_exists'.mp h
  rw [fill, fill, hanswer]
  rfl

theorem Settled.same (h : Settled c folder dir) {r r' : Reading dir} {w : Which} {s s' : List FileData}
    (hs : Sorts (fileSort c.mSortOrder) ((readLists c folder r).get w) s)
    (hs' : Sorts (fileSort c.mSortOrder) ((readLists c folder r').get w) s') :
    s.map (fun d => folded d.fileName) = s'.map (fun d => folded d.fileName) := by
  have hord := h.ordinary r w
  have hord' := h.ordinary r' w
  have hnames := (h.sure.names w r).trans (h.sure.names w r').symm
  -- the names decide alone
  have hbyName (hsame : ∀ r : Reading dir, ∀ a ∈ (readLists c folder r).get w, ∀ b ∈ (readLists c folder r).get w,
      primary c.mSortOrder w a = primary c.mSortOrder w b) :
      s.map (fun d => folded d.fileName) = s'.map (fun d => folded d.fileName) :=
    (directed_folded hord (hsame r)).map_eq (directed_folded hord' (hsame r')) hnames hs hs'
  by_cases hcriterion : criterion c.mSortOrder w = none
  · exact hbyName fun _ _ _ _ _ => by rw [primary, primary, hcriterion]; rfl
  · obtain htold | hequal | hstale := h.told w hcriterion
    · let own (e : Dirent) : Key :=
        key c.mSortOrder w (record e.name .unknown (fill folder dir.stat r.initial e))
      have hown : ∀ e ∈ listed c folder dir w, ∀ t st,
          key c.mSortOrder w (record e.name t (fill folder dir.stat st e)) = own e := by
        intro e he t st
        rw [fill_told (htold e he) st r.initial]
        exact key_record _ _ _ _ t .unknown
      have hkeys := (h.sure.map_rows hown r).trans (h.sure.map_rows hown r').symm
      have heq := (directed_key hord).map_eq (directed_key hord') hkeys hs hs'
      have hsnd := congrArg (List.map fun k => (ofLex k).2) heq
      rw [List.map_map, List.map_map] at hsnd
      exact hsnd
    · have halike {r : Reading dir} {s : List FileData} (hs : Sorts (fileSort c.mSortOrder) ((readLists c folder r).get w) s) :
          (s.map fun d => folded d.fileName).Pairwise (· = ·) := by
        apply List.pairwise_of_forall_mem_list
        have hperm := (hs.perm.map fun d => folded d.fileName).trans (h.sure.names w r)
        intro a ha b hb
        obtain ⟨e, he, rfl⟩ := List.mem_map.mp (hperm.mem_iff.mp ha)
        obtain ⟨e', he', rfl⟩ := List.mem_map.mp (hperm.mem_iff.mp hb)
        exact hequal e he e' he'
      have hperm := ((hs.perm.map fun d => folded d.fileName).trans hnames).trans (hs'.perm.map _).symm
      exact hperm.eq_of_pairwise (fun _ _ _ _ hab _ => hab) (halike hs) (halike hs')
    · apply hbyName
      intro r a ha b hb
      rw [readLists_get] at ha hb
      have hfail : ∀ p ∈ entries folder r.dirents, statOf folder dir.stat p.1.name = none :=
        fun p hp => hstale p.1 (mem_entries hp)
      obtain ⟨hsize, htime⟩ := rows_stale c folder dir.stat hfail ha
      obtain ⟨hsize', htime'⟩ := rows_stale c folder dir.stat hfail hb
      exact primary_eq _ w (hsize.trans hsize'.symm) (htime.trans htime'.symm)

theorem Settled.wellSorted (h : Settled c folder dir) : WellSorted c folder dir where
  strictWeak r w := (directed_key (h.ordinary r w)).strictWeak
  same _ _ _ _ _ hs hs' := h.same hs hs'
  upFirst r w s hs := by
    intro hup
    obtain ⟨d, hd, hname⟩ := hup
    exact absurd hname (h.ordinary r w d (hs.perm.mem_iff.mp hd)).notUp

/-! ### Where it is not so -/

/-- The up-a-level entry goes in front of itself. -/
theorem fileSort_up {o : Int} {d : FileData} (h : d.fileName = upALevel) : fileSort o d d = true := by
  have hdot : upALevel ≠ "." := by decide
  simp [fileSort, h, hdot]

theorem WellSorted.ordinary (h : WellSorted c folder dir) (r : Reading dir) (w : Which) :
    ∀ d ∈ (readLists c folder r).get w, Ordinary w d := by
  intro d hd
  have hup : d.fileName ≠ upALevel := by
    intro hname
    have hirrefl := (h.strictWeak r w).irrefl d hd
    rw [fileSort_up hname] at hirrefl
    exact Bool.noConfusion hirrefl
  rw [readLists_get] at hd
  exact ordinary_row c folder dir.stat hd hup

theorem WellSorted.exists_sorts (h : WellSorted c folder dir) (r : Reading dir) (w : Which) :
    ∃ s, Sorts (fileSort c.mSortOrder) ((readLists c folder r).get w) s :=
  (directed_key (h.ordinary r w)).exists_sorts

def zeroStat : Stat := ⟨0, 0, 0, 0, 0, 0, 0⟩

theorem zip_perm {l : List Dirent} (hl : l.Perm dir.dirents) : ((l.map (·, 0)).map Prod.fst).Perm dir.dirents := by
  rw [List.map_map]
  show (l.map id).Perm dir.dirents
  rwa [List.map_id]

theorem WellSorted.noUp (h : WellSorted c folder dir) (w : Which) : ∀ e ∈ listed c folder dir w, e.name ≠ upALevel := by
  intro e he hname
  obtain ⟨hmem, hplace⟩ := List.mem_filter.mp he
  obtain ⟨de, hde, hseen⟩ := List.mem_filterMap.mp hmem
  let r : Reading dir := ⟨dir.dirents.map (·, 0), zip_perm (List.Perm.refl _), zeroStat⟩
  have hentry : (e, 0) ∈ entries folder r.dirents := by
    apply List.mem_filterMap.mpr
    exact ⟨(de, 0), List.mem_map_of_mem hde, by rw [hseen]; rfl⟩
  obtain ⟨d, hd, hdname⟩ := exists_row c folder dir.stat zeroStat hentry (of_decide_eq_true hplace)
  rw [← readLists_get c folder r w] at hd
  exact (h.ordinary r w d hd).notUp (hdname.trans hname)

/-- An entry of the directory, read first. -/
theorem entries_first {e : Dirent} (he : e ∈ entriesOf folder dir) :
    ∃ de later, (de :: later).Perm dir.dirents ∧ seen folder de = some e := by
  obtain ⟨de, hde, hseen⟩ := List.mem_filterMap.mp he
  exact ⟨de, dir.dirents.erase de, (List.perm_cons_erase hde).symm, hseen⟩

theorem entries_cons {de e : Dirent} (hseen : seen folder de = some e) (junk : Nat) (l : List (Dirent × Nat)) :
    entries folder ((de, junk) :: l) = (e, junk) :: entries folder l := by
  rw [entries, List.filterMap_cons, hseen]
  rfl

theorem WellSorted.sure (h : WellSorted c folder dir) : Sure c folder dir := by
  intro e he hunknown hstat mode
  by_contra hlisted
  obtain ⟨w, hw⟩ := Option.ne_none_iff_exists'.mp hlisted
  obtain ⟨de, later, hperm, hseen⟩ := entries_first he
  -- read with that mode on the stack, and with none
  let read (junk : Nat) : Reading dir := ⟨(de, junk) :: later.map (·, 0), by
    rw [List.map_cons, List.map_map]
    show (de :: later.map id).Perm dir.dirents
    rwa [List.map_id], zeroStat⟩
  have htype (junk : Nat) : typeOf folder dir.stat e junk = dTypeOfMode junk := by
    rw [typeOf, if_pos hunknown, hstat]
    rfl
  have hrows (junk : Nat) : (readLists c folder (read junk)).get w =
      (if placed c e.name (dTypeOfMode junk) = some w then
        [record e.name (dTypeOfMode junk) (fill folder dir.stat zeroStat e)] else []) ++
      rows c folder dir.stat w (fill folder dir.stat zeroStat e) (entries folder (later.map (·, 0))) := by
    rw [readLists_get]
    show rows c folder dir.stat w zeroStat (entries folder ((de, junk) :: later.map (·, 0))) = _
    rw [entries_cons hseen, rows, htype]
  have hzero : placed c e.name (dTypeOfMode 0) ≠ some w := by
    have hunlisted : placed c e.name .unknown = none := rfl
    rw [show dTypeOfMode 0 = .unknown from rfl, hunlisted]
    nofun
  obtain ⟨s, hs⟩ := h.exists_sorts (read mode) w
  obtain ⟨s', hs'⟩ := h.exists_sorts (read 0) w
  have hlength := congrArg List.length (h.same (read mode) (read 0) w s s' hs hs')
  rw [List.length_map, List.length_map, hs.perm.length_eq, hs'.perm.length_eq, hrows, hrows, if_pos hw, if_neg hzero,
    List.length_append, List.length_append] at hlength
  simp at hlength

theorem append_eq_cons {α : Type} {l : List α} {a : α} (h : l ++ [a] = a :: l) : ∀ b ∈ l, b = a := by
  induction l with
  | nil => nofun
  | cons c l ih =>
    obtain ⟨rfl, htail⟩ := List.cons.inj h
    exact List.forall_mem_cons.mpr ⟨rfl, ih htail⟩

/-- Sorted with one more row, whose key is above the others. -/
theorem sorts_above {o : Int} {w : Which} {b : FileData} {l s : List FileData} (hb : Ordinary w b)
    (hl : ∀ d ∈ l, Ordinary w d) (hs : Sorts (fileSort o) l s) (habove : ∀ d ∈ l, key o w d < key o w b) :
    Sorts (fileSort o) (b :: l) (if descending o then b :: s else s ++ [b]) := by
  split_ifs with ho
  · apply hs.cons
    intro d hd
    rw [← Bool.not_eq_true, fileSort_iff (hl d hd) hb, if_pos ho]
    exact (habove d hd).not_gt
  · apply hs.concat
    intro d hd
    rw [← Bool.not_eq_true, fileSort_iff hb (hl d hd), if_neg ho]
    exact (habove d hd).not_gt

theorem sorts_below {o : Int} {w : Which} {b : FileData} {l s : List FileData} (hb : Ordinary w b)
    (hl : ∀ d ∈ l, Ordinary w d) (hs : Sorts (fileSort o) l s) (hbelow : ∀ d ∈ l, key o w b < key o w d) :
    Sorts (fileSort o) (b :: l) (if descending o then s ++ [b] else b :: s) := by
  split_ifs with ho
  · apply hs.concat
    intro d hd
    rw [← Bool.not_eq_true, fileSort_iff hb (hl d hd), if_pos ho]
    exact (hbelow d hd).not_gt
  · apply hs.cons
    intro d hd
    rw [← Bool.not_eq_true, fileSort_iff (hl d hd) hb, if_neg ho]
    exact (hbelow d hd).not_gt

/-- A value above and one below what the rows compare first. -/
theorem primary_bounded (o : Int) (w : Which) (l : List FileData) :
    (∃ v, ∀ d ∈ l, primary o w d < v) ∧ ∃ v, ∀ d ∈ l, v < primary o w d := by
  have hfinite : (primary o w '' {d | d ∈ l}).Finite := l.finite_toSet.image _
  obtain ⟨top, htop⟩ := hfinite.bddAbove
  obtain ⟨bottom, hbottom⟩ := hfinite.bddBelow
  exact ⟨⟨top + 1, fun d hd => Int.lt_add_one_of_le (htop ⟨d, hd, rfl⟩)⟩,
    ⟨bottom - 1, fun d hd => Int.sub_one_lt_of_le (hbottom ⟨d, hd, rfl⟩)⟩⟩

def junkStat (v : Int) : Stat := {zeroStat with size := v, mtime := v}

/-- A directory read so that an entry whose `stat` fails comes first, and is followed by one whose `stat` does
not: only the row of the first depends on what the stack held. -/
theorem junk_first {w : Which} {b g : Dirent} (hb : b ∈ listed c folder dir w) (hg : g ∈ entriesOf folder dir)
    (hbstat : statOf folder dir.stat b.name = none) (hgstat : statOf folder dir.stat g.name ≠ none) :
    ∃ (read : Int → Reading dir) (t : DType) (l : List FileData),
      ∀ v, (readLists c folder (read v)).get w = record b.name t (junkStat v) :: l := by
  obtain ⟨hmem, hplace⟩ := List.mem_filter.mp hb
  have hplaced : placed c b.name (typeOf folder dir.stat b 0) = some w := of_decide_eq_true hplace
  obtain ⟨de, later, hperm, hseen⟩ := entries_first hmem
  have hlater : ∃ de' ∈ later, seen folder de' = some g := by
    have hg' : g ∈ (de :: later).filterMap (seen folder) := (hperm.filterMap _).mem_iff.mpr hg
    rw [List.filterMap_cons, hseen] at hg'
    obtain rfl | hg' := List.mem_cons.mp hg'
    · exact absurd hbstat hgstat
    · exact List.mem_filterMap.mp hg'
  obtain ⟨de', hde', hseen'⟩ := hlater
  let rest := later.erase de'
  have hdirents : (de :: de' :: rest).Perm dir.dirents := ((List.perm_cons_erase hde').symm.cons de).trans hperm
  refine ⟨fun v => ⟨(de :: de' :: rest).map (·, 0), zip_perm hdirents, junkStat v⟩, typeOf folder dir.stat b 0,
    rows c folder dir.stat w zeroStat ((g, 0) :: entries folder (rest.map (·, 0))), fun v => ?_⟩
  rw [readLists_get]
  show rows c folder dir.stat w (junkStat v) (entries folder ((de, 0) :: (de', 0) :: rest.map (·, 0))) = _
  have hfill : fill folder dir.stat (junkStat v) b = junkStat v := by rw [fill, hbstat, Option.getD_none]
  rw [entries_cons hseen, entries_cons hseen', rows, hfill, if_pos hplaced, rows, rows, fill_told hgstat (junkStat v) zeroStat]
  rfl

theorem WellSorted.told (h : WellSorted c folder dir) {w : Which} (hcriterion : criterion c.mSortOrder w ≠ none) :
    Told c folder dir w := by
  by_contra hnot
  rw [Told] at hnot
  push Not at hnot
  obtain ⟨⟨b, hb, hbstat⟩, ⟨x, hx, x', hx', hne⟩, g, hg, hgstat⟩ := hnot
  obtain ⟨read, t, l, hread⟩ := junk_first hb hg hbstat hgstat
  let row (v : Int) : FileData := record b.name t (junkStat v)
  have hordinary (v : Int) := hread v ▸ h.ordinary (read v) w
  have hl : ∀ d ∈ l, Ordinary w d := (List.forall_mem_cons.mp (hordinary 0)).2
  have hrow (v : Int) : Ordinary w (row v) := (List.forall_mem_cons.mp (hordinary v)).1
  have hvalue (v : Int) : primary c.mSortOrder w (row v) = v := primary_const hcriterion rfl rfl
  obtain ⟨s, hs⟩ := (directed_key (o := c.mSortOrder) hl).exists_sorts
  obtain ⟨⟨top, htop⟩, bottom, hbottom⟩ := primary_bounded c.mSortOrder w l
  have habove : ∀ d ∈ l, key c.mSortOrder w d < key c.mSortOrder w (row top) := fun d hd =>
    Prod.Lex.toLex_lt_toLex.mpr (Or.inl (by rw [hvalue]; exact htop d hd))
  have hbelow : ∀ d ∈ l, key c.mSortOrder w (row bottom) < key c.mSortOrder w d := fun d hd =>
    Prod.Lex.toLex_lt_toLex.mpr (Or.inl (by rw [hvalue]; exact hbottom d hd))
  have hsame := h.same (read top) (read bottom) w _ _ (hread top ▸ sorts_above (hrow top) hl hs habove)
    (hread bottom ▸ sorts_below (hrow bottom) hl hs hbelow)
  -- first in one of them and last in the other
  have hequal : (s.map fun d => folded d.fileName) ++ [folded b.name] = folded b.name :: s.map fun d => folded d.fileName := by
    by_cases ho : descending c.mSortOrder = true
    · rw [if_pos ho, if_pos ho, List.map_append] at hsame
      exact hsame.symm
    · rw [if_neg ho, if_neg ho, List.map_append] at hsame
      exact hsame
  have hall {y : Dirent} (hy : y ∈ listed c folder dir w) : folded y.name = folded b.name := by
    have hmem : folded y.name ∈ (row top :: l).map fun d => folded d.fileName := by
      rw [← hread top]
      exact (h.sure.names w (read top)).mem_iff.mpr (List.mem_map_of_mem hy)
    obtain hhead | htail := List.mem_cons.mp hmem
    · exact hhead
    · exact append_eq_cons hequal _ ((hs.perm.map _).mem_iff.mpr htail)
  exact hne ((hall hx).trans (hall hx').symm)

/-- The lists are fit for the sort and come out the same for every order of `readdir` exactly on the settled
directories. -/
theorem wellSorted_iff (c : Config) (folder : CString) (dir : Directory) :
    WellSorted c folder dir ↔ Settled c folder dir :=
  ⟨fun h => ⟨h.noUp, h.sure, fun _ hcriterion => h.told hcriterion⟩, Settled.wellSorted⟩

/-! ### A directory to go up from -/

def oneFolder : Directory where
  dirents := [⟨".", .dir⟩, ⟨"..", .dir⟩, ⟨"TWRP", .dir⟩]
  stat _ := some zeroStat

/-- With navigation on, the list of any folder below the root has an entry that goes in front of itself. -/
theorem oneFolder_not_wellSorted : ¬ WellSorted ⟨1, 1, ""⟩ "/sdcard" oneFolder := by
  intro h
  have hlisted : ⟨upALevel, .dir⟩ ∈ listed ⟨1, 1, ""⟩ "/sdcard" oneFolder .folders := by decide
  exact h.noUp .folders ⟨upALevel, .dir⟩ hlisted rfl

end Settled

end Twrp.Gui.FileSelector
