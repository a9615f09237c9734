import Twrp.Base.Fscanf
import Twrp.Scan.Lines

/-! The table of the MTD partitions.

The number behind `mtd` is the index that is stored at, and nobody asks whether the table has it. A later line takes the
place of an earlier one with its index, and of two entries with one name the one with the lower index is found. -/
namespace Twrp.Scan.Partitions
open Base Scanf Fscanf

structure MtdPartition where
  deviceIndex : Int
  size : BitVec 32
  eraseSize : BitVec 32
  name : Text
deriving DecidableEq

def literals : Text → Text → Option Text
  | [], text => some text
  | c :: cs, text => if text.head? = some c then literals cs text.tail else none

/-- `mtd%d: %x %x "`: the numbers, and what stands behind the quote. -/
def scanNumbers (text : Text) : Option (Numeral × Numeral × Numeral × Text) := do
  let rest ← literals [109, 116, 100] text
  let (mtdnum, rest) ← number .d rest
  let rest ← literals [58] rest
  let (mtdsize, rest) ← number .x (skip rest)
  let (mtderasesize, rest) ← number .x (skip rest)
  let rest ← literals [34] (skip rest)
  return (mtdnum, mtdsize, mtderasesize, rest)

/-- `%63[^"]` -/
def nextUnquoted (text : Text) : Option Text :=
  if text.takeWhile (· ≠ 34) = [] then none else some ((text.takeWhile (· ≠ 34)).take 63)

/-- The whole format, where all four fields match. -/
def scanPartition (text : Text) : Option MtdPartition := do
  let (mtdnum, mtdsize, mtderasesize, rest) ← scanNumbers text
  let mtdname ← nextUnquoted rest
  return ⟨mtdnum.toInt, mtdsize.toUnsigned, mtderasesize.toUnsigned, mtdname⟩

/-- `partitions_allocd` -/
def allocated : Nat := 32

/-- An entry with the index -1 is `none`. -/
structure Table where
  slots : Fin allocated → Option MtdPartition
  indexed : ∀ i p, slots i = some p → p.deviceIndex = (i : Nat)

def Table.empty : Table := ⟨fun _ => none, nofun⟩

structure MtdState where
  partitions : Table
  partitionCount : Int
  scanned : Bool

/-- Nothing is allocated, and nothing is found. -/
def MtdState.initial : MtdState := ⟨.empty, -1, false⟩

structure MtdPartition.InTable (p : MtdPartition) : Prop where
  nonneg : 0 ≤ p.deviceIndex
  lt : p.deviceIndex < allocated

instance (p : MtdPartition) : Decidable p.InTable :=
  decidable_of_iff (0 ≤ p.deviceIndex ∧ p.deviceIndex < allocated) ⟨fun h => ⟨h.1, h.2⟩, fun h => ⟨h.1, h.2⟩⟩

def MtdPartition.InTable.slot {p : MtdPartition} (h : p.InTable) : Fin allocated := ⟨p.deviceIndex.toNat, (Int.toNat_lt h.nonneg).mpr h.lt⟩

theorem MtdPartition.InTable.slot_eq {p : MtdPartition} (h : p.InTable) : p.deviceIndex = (h.slot : Nat) := (Int.toNat_of_nonneg h.nonneg).symm

def Table.put (t : Table) (i : Fin allocated) (p : MtdPartition) (hp : p.deviceIndex = (i : Nat)) : Table where
  slots := Function.update t.slots i (some p)
  indexed := by
    intro j q hq
    by_cases hj : j = i
    · subst hj
      rw [Function.update_self] at hq
      rw [← Option.some.inj hq]
      exact hp
    · rw [Function.update_of_ne hj] at hq
      exact t.indexed j q hq

/-- `partitions[mtdnum]` is filled in; nothing where that is not in the table. -/
def Table.set (t : Table) (p : MtdPartition) : Option Table :=
  if h : p.InTable then some (t.put h.slot p h.slot_eq) else none

def MtdState.add (m : MtdState) (p : MtdPartition) : Option MtdState :=
  (m.partitions.set p).map fun t => { m with partitions := t, partitionCount := m.partitionCount + 1 }

/-- The body of the loop, with `bufp` at the start of a line. -/
def scanLine (m : MtdState) (bufp : Text) : Option MtdState :=
  match scanPartition (CString.ofBytes bufp).bytes with
  | some p => m.add p
  | none => some m

/-- `mtd_scan_partitions`, where the file holds that, or cannot be opened or read. The old entries are freed before. -/
def mtdScanPartitions : Option Text → Option (Int × MtdState)
  | none => some (-1, ⟨.empty, -1, false⟩)
  | some file =>
    ((starts (file.take bufferSize)).foldlM scanLine ⟨.empty, 0, false⟩).map fun m => (m.partitionCount, { m with scanned := true })

/-- The loop of `mtd_find_partition_by_name`. -/
def MtdState.find (m : MtdState) (name : Text) : Option MtdPartition :=
  ((List.finRange allocated).filterMap m.partitions.slots).find? (·.name == name)

/-- `mtd_find_partition_by_name`, where a scan finds the file like that. -/
def mtdFindPartitionByName (file : Option Text) (name : Text) (m : MtdState) : Option (Option MtdPartition × MtdState) := do
  let m ← if m.scanned then some m else (mtdScanPartitions file).map Prod.snd
  return (m.find name, m)

/-! ### The lines -/

/-- The line names the partition in full, and its name and its index fit. -/
structure MtdPartition.SpelledBy (p : MtdPartition) (line : Text) : Prop where
  spelled : ∃ index size eraseSize rest, scanNumbers line = some (index, size, eraseSize, p.name ++ 34 :: rest) ∧
    index.value = p.deviceIndex ∧ size.value = p.size.toNat ∧ eraseSize.value = p.eraseSize.toNat
  unquoted : 34 ∉ p.name
  name : p.name ≠ [] ∧ p.name.length ≤ 63
  index : p.InTable

/-- The entry of a listed line that fits. -/
def MtdPartition.Of (file : Option Text) (p : MtdPartition) : Prop := ∃ text ∈ file, ∃ line, Listed text line ∧ p.SpelledBy line

/-- What `sscanf` matches in a file, from the start of each line on. -/
def records (text : Text) : List MtdPartition :=
  (starts (text.take bufferSize)).filterMap fun start => scanPartition (CString.ofBytes start).bytes

/-- No later record has the index. -/
def Kept (rs : List MtdPartition) (p : MtdPartition) : Prop :=
  ∃ before after, rs = before ++ p :: after ∧ ∀ q ∈ after, q.deviceIndex ≠ p.deviceIndex

/-- The indices are those of the table, the name of a line that fits is not lost with its index to a later record, and a
record that is kept without being the entry of a line that fits is hidden by one with its name and a lower index. -/
structure Clean (text : Text) : Prop where
  inTable : ∀ p ∈ records text, p.InTable
  replaced : ∀ before p after, records text = before ++ p :: after → p.Of (some text) → (∃ q ∈ after, q.deviceIndex = p.deviceIndex) →
    ∃ q, Kept (records text) q ∧ q.name = p.name
  hidden : ∀ p, Kept (records text) p → ¬p.Of (some text) → ∃ q, Kept (records text) q ∧ q.deviceIndex < p.deviceIndex ∧ q.name = p.name

def Shows (file : Option Text) (m : MtdState) : Prop := Finds (MtdPartition.Of file) MtdPartition.name m.find

/-! ### Numbers behind which a text goes on -/

theorem literals_eq {cs text rest : Text} : literals cs text = some rest ↔ text = cs ++ rest := by
  induction cs generalizing text with
  | nil => simp [literals]
  | cons c cs ih =>
    cases text with
    | nil => simp [literals]
    | cons b text =>
      rw [literals]
      by_cases hb : b = c
      · simp [hb, ih]
      · simp [hb]

theorem scanNumbers_append {line rest : Text} {index size eraseSize : Numeral} (tail : Text)
    (h : scanNumbers line = some (index, size, eraseSize, rest)) (hrest : rest ≠ []) :
    scanNumbers (line ++ tail) = some (index, size, eraseSize, rest ++ tail) := by
  simp only [scanNumbers, Option.bind_eq_bind, Option.bind_eq_some_iff, literals_eq] at h
  obtain ⟨r₁, rfl, ⟨_, r₂⟩, h₂, r₃, h₃, ⟨_, r₄⟩, h₄, ⟨_, r₅⟩, h₅, r₆, h₆, heq⟩ := h
  obtain ⟨rfl, rfl, rfl, rfl⟩ := by simpa using heq
  dsimp only at h₃ h₄ h₅ h₆
  have hpos := List.length_pos_of_ne_nil hrest
  have hl₆ := congrArg List.length h₆
  rw [List.length_append] at hl₆
  have hskip₅ := length_skip_le r₅
  have hl₅ := number_length h₅
  have hskip₄ := length_skip_le r₄
  have hl₄ := number_length h₄
  have hskip₃ := length_skip_le r₃
  have hone : (List.length [(34 : UInt8)]) = 1 := rfl
  rw [hone] at hl₆
  have hne (text : Text) (hlt : 2 ≤ (skip text).length) : skip text ≠ [] := by
    intro hnil
    rw [hnil] at hlt
    exact absurd hlt (by decide)
  simp only [scanNumbers, Option.bind_eq_bind, Option.bind_eq_some_iff, literals_eq]
  refine ⟨r₁ ++ tail, List.append_assoc _ _ _, (_, r₂ ++ tail), number_append tail h₂ ?_, r₃ ++ tail, ?_, (_, r₄ ++ tail), ?_, (_, r₅ ++ tail), ?_,
    r₆ ++ tail, ?_, rfl⟩
  · rw [h₃, List.length_append]
    omega
  · rw [h₃]
    rfl
  · rw [skip_append tail (hne r₃ (by omega))]
    exact number_append tail h₄ (by omega)
  · rw [skip_append tail (hne r₄ (by omega))]
    exact number_append tail h₅ (by omega)
  · rw [skip_append tail (hne r₅ (by omega)), h₆]
    rfl

theorem nextUnquoted_quoted {name : Text} (rest : Text) (hquote : 34 ∉ name) (hname : name ≠ [] ∧ name.length ≤ 63) :
    nextUnquoted (name ++ 34 :: rest) = some name := by
  have hfree : ∀ b ∈ name, decide (b ≠ 34) = true := by
    intro b hb
    rw [decide_eq_true_eq]
    rintro rfl
    exact hquote hb
  have htake : (name ++ 34 :: rest).takeWhile (· ≠ 34) = name := by
    rw [List.takeWhile_append_of_pos hfree, List.takeWhile_cons_of_neg (by decide), List.append_nil]
  rw [nextUnquoted, htake, if_neg hname.1, List.take_of_length_le hname.2]

theorem toUnsigned_of_value {m : Numeral} {n : BitVec 32} (h : m.value = n.toNat) : m.toUnsigned = n := by
  have hlt := n.isLt
  rw [toUnsigned_word (by omega) (by omega), h, BitVec.ofInt_natCast, BitVec.ofNat_toNat, BitVec.setWidth_eq]

theorem MtdPartition.SpelledBy.scan {p : MtdPartition} {line : Text} (h : p.SpelledBy line) (tail : Text) :
    scanPartition (line ++ tail) = some p := by
  obtain ⟨⟨index, size, eraseSize, rest, hline, hindex, hsize, heraseSize⟩, hquote, hname, hin⟩ := h
  have hlow := hin.nonneg
  have hhigh := hin.lt
  rw [allocated] at hhigh
  have hvalue : index.toInt = p.deviceIndex := by
    rw [← hindex]
    exact toInt_int (by omega) (by omega)
  rw [scanPartition, scanNumbers_append tail hline (by simp)]
  dsimp only [Option.bind_eq_bind, Option.bind_some]
  rw [List.append_assoc, List.cons_append, nextUnquoted_quoted _ hquote hname, hvalue, toUnsigned_of_value hsize, toUnsigned_of_value heraseSize]
  rfl

/-- A line that fits is found by `sscanf`. -/
theorem MtdPartition.Of.mem_records {text : Text} {p : MtdPartition} (h : p.Of (some text)) : p ∈ records text := by
  obtain ⟨t, htext, line, hlisted, hline⟩ := h
  obtain rfl := Option.some.inj htext
  have hne : line ≠ [] := by
    rintro rfl
    obtain ⟨⟨index, size, eraseSize, rest, hnone, -⟩, -⟩ := hline
    exact nomatch hnone
  obtain ⟨start, hstart, tail, hbytes, -⟩ := hlisted.exists_start hne
  refine List.mem_filterMap.mpr ⟨start, hstart, ?_⟩
  rw [hbytes]
  exact hline.scan tail

/-- The names of the lines that fit are kept when those of the entries are that a later record takes the place of. -/
theorem names_kept {text : Text} (h : ∀ before p after, records text = before ++ p :: after → p.Of (some text) →
      (∃ q ∈ after, q.deviceIndex = p.deviceIndex) → ∃ q, Kept (records text) q ∧ q.name = p.name)
    (p : MtdPartition) (hp : p.Of (some text)) : ∃ q, Kept (records text) q ∧ q.name = p.name := by
  obtain ⟨before, after, hrecords⟩ := List.append_of_mem hp.mem_records
  by_cases hlater : ∃ q ∈ after, q.deviceIndex = p.deviceIndex
  · exact h before p after hrecords hp hlater
  · refine ⟨p, ⟨before, after, hrecords, ?_⟩, rfl⟩
    intro q hq heq
    exact hlater ⟨q, hq, heq⟩

/-! ### The table -/

def Table.Holds (t : Table) (p : MtdPartition) : Prop := ∃ i, t.slots i = some p

theorem Table.holds_put {t : Table} {i : Fin allocated} {p q : MtdPartition} (hp : p.deviceIndex = (i : Nat)) :
    (t.put i p hp).Holds q ↔ q = p ∨ (t.Holds q ∧ q.deviceIndex ≠ p.deviceIndex) := by
  unfold Holds put
  dsimp only
  constructor
  · intro ⟨j, hq⟩
    by_cases hj : j = i
    · subst hj
      rw [Function.update_self] at hq
      exact .inl (Option.some.inj hq).symm
    · rw [Function.update_of_ne hj] at hq
      refine .inr ⟨⟨j, hq⟩, ?_⟩
      intro heq
      rw [t.indexed j q hq, hp] at heq
      exact hj (Fin.ext (Int.ofNat.inj heq))
  · rintro (rfl | ⟨⟨j, hq⟩, hne⟩)
    · exact ⟨i, Function.update_self _ _ _⟩
    · refine ⟨j, ?_⟩
      rw [Function.update_of_ne]
      · exact hq
      · rintro rfl
        exact hne (by rw [t.indexed _ q hq, hp])

/-- What is found is the first of what the table holds, by its index. -/
def Table.list (t : Table) : List MtdPartition := (List.finRange allocated).filterMap t.slots

theorem Table.mem_list {t : Table} {p : MtdPartition} : p ∈ t.list ↔ t.Holds p := by
  simp [Table.list, Table.Holds]

theorem Table.list_sorted (t : Table) : t.list.Pairwise (·.deviceIndex < ·.deviceIndex) := by
  rw [Table.list, List.pairwise_filterMap]
  refine (List.pairwise_lt_finRange allocated).imp ?_
  intro i j hij p hp q hq
  rw [t.indexed i p hp, t.indexed j q hq]
  exact Int.ofNat_lt.mpr hij

/-- In front of an entry stand those with a lower index. -/
theorem Table.mem_before {t : Table} {before after : List MtdPartition} {p q : MtdPartition} (h : t.list = before ++ p :: after) :
    q ∈ before ↔ t.Holds q ∧ q.deviceIndex < p.deviceIndex := by
  have hsorted := t.list_sorted
  rw [h, List.pairwise_append, List.pairwise_cons] at hsorted
  obtain ⟨-, ⟨hafter, -⟩, hbefore⟩ := hsorted
  rw [← Table.mem_list, h, List.mem_append, List.mem_cons]
  constructor
  · intro hq
    exact ⟨.inl hq, hbefore q hq p List.mem_cons_self⟩
  · rintro ⟨hq | rfl | hq, hlt⟩
    · exact hq
    · exact absurd hlt (lt_irrefl _)
    · exact absurd (hlt.trans (hafter q hq)) (lt_irrefl _)

/-- The lookups by name, in terms of what the table holds. -/
theorem shows_iff {file : Option Text} {m : MtdState} :
    Shows file m ↔ (∀ p : MtdPartition, p.Of file → ∃ q, m.partitions.Holds q ∧ q.name = p.name) ∧
      ∀ p, m.partitions.Holds p → ¬p.Of file → ∃ q, m.partitions.Holds q ∧ q.deviceIndex < p.deviceIndex ∧ q.name = p.name := by
  show Finds _ _ (fun k => m.partitions.list.find? (·.name == k)) ↔ _
  rw [finds_iff]
  apply and_congr
  · simp only [Table.mem_list]
  · constructor
    · intro h p hp hof
      obtain ⟨before, after, hlist⟩ := List.append_of_mem (Table.mem_list.mpr hp)
      obtain ⟨q, hq, hname⟩ := h before p after hlist hof
      obtain ⟨hholds, hlt⟩ := (Table.mem_before hlist).mp hq
      exact ⟨q, hholds, hlt, hname⟩
    · intro h before p after hlist hof
      have hp : m.partitions.Holds p := Table.mem_list.mp (by rw [hlist]; simp)
      obtain ⟨q, hholds, hlt, hname⟩ := h p hp hof
      exact ⟨q, (Table.mem_before hlist).mpr ⟨hholds, hlt⟩, hname⟩

/-! ### Scans -/

theorem scanLines_eq (lines : List Text) (m : MtdState) :
    lines.foldlM scanLine m = (lines.filterMap fun start => scanPartition (CString.ofBytes start).bytes).foldlM MtdState.add m := by
  induction lines generalizing m with
  | nil => rfl
  | cons bufp lines ih =>
    rw [List.foldlM_cons, scanLine, List.filterMap_cons]
    cases scanPartition (CString.ofBytes bufp).bytes with
    | none => exact ih m
    | some p =>
      dsimp only
      rw [List.foldlM_cons]
      exact congrArg _ (funext ih)

theorem kept_cons {p q : MtdPartition} {rs : List MtdPartition} :
    Kept (p :: rs) q ↔ Kept rs q ∨ (q = p ∧ ∀ r ∈ rs, r.deviceIndex ≠ q.deviceIndex) := by
  constructor
  · intro ⟨before, after, heq, hafter⟩
    cases before with
    | nil =>
      obtain ⟨rfl, rfl⟩ := List.cons.inj heq
      exact .inr ⟨rfl, hafter⟩
    | cons b before => exact .inl ⟨before, after, (List.cons.inj heq).2, hafter⟩
  · rintro (⟨before, after, rfl, hafter⟩ | ⟨rfl, hafter⟩)
    · exact ⟨p :: before, after, rfl, hafter⟩
    · exact ⟨[], rs, rfl, hafter⟩

/-- Records are stored where all of them have an index of the table, and the last with its index is kept. -/
theorem exists_stored {rs : List MtdPartition} (m : MtdState) (h : ∀ p ∈ rs, p.InTable) :
    ∃ m', rs.foldlM MtdState.add m = some m' ∧
      ∀ q, m'.partitions.Holds q ↔ Kept rs q ∨ (m.partitions.Holds q ∧ ∀ r ∈ rs, r.deviceIndex ≠ q.deviceIndex) := by
  induction rs generalizing m with
  | nil =>
    refine ⟨m, rfl, ?_⟩
    intro q
    simp [Kept]
  | cons p rs ih =>
    obtain ⟨hp, hrs⟩ := List.forall_mem_cons.mp h
    obtain ⟨m', hfold, hm'⟩ := ih { m with partitions := m.partitions.put hp.slot p hp.slot_eq, partitionCount := m.partitionCount + 1 } hrs
    refine ⟨m', ?_, ?_⟩
    · rw [List.foldlM_cons, MtdState.add, Table.set, dif_pos hp]
      exact hfold
    · intro q
      rw [hm', kept_cons, Table.holds_put, List.forall_mem_cons, or_assoc]
      apply or_congr_right
      constructor
      · rintro ⟨rfl | ⟨hq, hne⟩, hlater⟩
        · exact .inl ⟨rfl, hlater⟩
        · exact .inr ⟨hq, hne.symm, hlater⟩
      · rintro (⟨rfl, hlater⟩ | ⟨hq, hne, hlater⟩)
        · exact ⟨.inl rfl, hlater⟩
        · exact ⟨.inr ⟨hq, hne.symm⟩, hlater⟩

theorem inTable_of_stored {rs : List MtdPartition} {m m' : MtdState} (h : rs.foldlM MtdState.add m = some m') : ∀ p ∈ rs, p.InTable := by
  induction rs generalizing m with
  | nil => exact nofun
  | cons p rs ih =>
    by_cases hp : p.InTable
    · rw [List.foldlM_cons, Option.bind_eq_bind, Option.bind_eq_some_iff] at h
      obtain ⟨m₁, -, hfold⟩ := h
      exact List.forall_mem_cons.mpr ⟨hp, ih hfold⟩
    · rw [List.foldlM_cons, MtdState.add, Table.set, dif_neg hp] at h
      exact nomatch h

theorem scan_file (text : Text) : mtdScanPartitions (some text) =
    ((records text).foldlM MtdState.add ⟨.empty, 0, false⟩).map fun m => (m.partitionCount, { m with scanned := true }) := by
  rw [mtdScanPartitions, scanLines_eq]
  rfl

theorem shows_none (m : MtdState) (h : m.partitions = .empty) : Shows none m := by
  have hnone (p : MtdPartition) : ¬p.Of none := nofun
  refine shows_iff.mpr ⟨fun p hp => absurd hp (hnone p), ?_⟩
  intro p hp
  rw [h] at hp
  obtain ⟨i, hi⟩ := hp
  exact nomatch hi

/-- A scan keeps to the table and shows the lines that fit just where the file is clean. -/
theorem mtdScanPartitions_shows (file : Option Text) :
    (∃ ret m, mtdScanPartitions file = some (ret, m) ∧ Shows file m) ↔ ∀ text ∈ file, Clean text := by
  cases file with
  | none =>
    constructor
    · intro _ text htext
      exact nomatch htext
    · intro _
      exact ⟨-1, _, rfl, shows_none _ rfl⟩
  | some text =>
    have hnone (q : MtdPartition) : ¬Table.empty.Holds q := fun ⟨_, h⟩ => nomatch h
    rw [scan_file]
    constructor
    · intro ⟨ret, m, hscan, hshows⟩ _ htext
      obtain rfl := Option.some.inj htext
      obtain ⟨m', hfold, hm⟩ := Option.map_eq_some_iff.mp hscan
      obtain ⟨-, rfl⟩ := Prod.mk.inj hm
      have hin := inTable_of_stored hfold
      obtain ⟨m₁, hfold₁, hholds⟩ := exists_stored ⟨.empty, 0, false⟩ hin
      obtain rfl := Option.some.inj (hfold.symm.trans hfold₁)
      have hkept (q : MtdPartition) : m'.partitions.Holds q ↔ Kept (records text) q := by simp [hholds, hnone]
      obtain ⟨hall, hhidden⟩ := shows_iff.mp hshows
      simp only [hkept] at hall hhidden
      exact ⟨hin, fun _ p _ _ hp _ => hall p hp, hhidden⟩
    · intro h
      have hclean := h text rfl
      obtain ⟨m, hfold, hholds⟩ := exists_stored ⟨.empty, 0, false⟩ hclean.inTable
      have hkept (q : MtdPartition) : m.partitions.Holds q ↔ Kept (records text) q := by simp [hholds, hnone]
      refine ⟨_, _, by rw [hfold]; rfl, shows_iff.mpr ?_⟩
      simp only [hkept]
      exact ⟨names_kept hclean.replaced, hclean.hidden⟩

end Twrp.Scan.Partitions
