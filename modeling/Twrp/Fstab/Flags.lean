import Twrp.Base.CString
import Twrp.Base.Line

/-! The flags of an fstab line (`TWPartition::Process_Flags`).

A flags string is cut at the semicolons that no double quotes protect, and each item goes
through a chain of tests. A test compares a number of bytes that is counted by hand and
then cuts that number off, so the chain is kept as a table of tests with their numbers
(`rules`). What an item means is said once more without them (`meaning`): a word and the
fields it marks, or a key and what its value gives. The two agree on every item but those
of the three keys that are miscounted and those of a lone quote (`processItem_follows`). -/
namespace Twrp.Fstab
open Base

/-- A literal of the source. -/
def lit (s : String) : List UInt8 := (s : CString).bytes

/-! ### The fields -/

/-- What flags set or read of a partition. -/
structure Part where
  removable : Bool
  isStorage : Bool
  canBeWiped : Bool
  useRmRf : Bool
  canBeBackedUp : Bool
  wipeAvailableInGui : Bool
  wipeDuringFactoryReset : Bool
  isSubPartition : Bool
  subPartitionOf : List UInt8
  ignoreBlkid : Bool
  retainLayoutVersion : Bool
  symlinkPath : List UInt8
  displayName : List UInt8
  storageName : List UInt8
  backupDisplayName : List UInt8
  formatBlockSize : Int
  length : Int
  canEncryptBackup : Bool
  useUserdataEncryption : Bool
  mountOptions : List UInt8
  /-- read only -/
  hasDataMedia : Bool
deriving DecidableEq

inductive Field where
  | removable
  | isStorage
  | canBeWiped
  | useRmRf
  | canBeBackedUp
  | wipeAvailableInGui
  | wipeDuringFactoryReset
  | isSubPartition
  | subPartitionOf
  | ignoreBlkid
  | retainLayoutVersion
  | symlinkPath
  | displayName
  | storageName
  | backupDisplayName
  | formatBlockSize
  | length
  | canEncryptBackup
  | useUserdataEncryption
  | mountOptions
deriving DecidableEq

inductive Value where
  | flag (b : Bool)
  | number (n : Int)
  | text (s : List UInt8)
deriving DecidableEq

def Part.get (p : Part) : Field → Value
  | .removable => .flag p.removable
  | .isStorage => .flag p.isStorage
  | .canBeWiped => .flag p.canBeWiped
  | .useRmRf => .flag p.useRmRf
  | .canBeBackedUp => .flag p.canBeBackedUp
  | .wipeAvailableInGui => .flag p.wipeAvailableInGui
  | .wipeDuringFactoryReset => .flag p.wipeDuringFactoryReset
  | .isSubPartition => .flag p.isSubPartition
  | .subPartitionOf => .text p.subPartitionOf
  | .ignoreBlkid => .flag p.ignoreBlkid
  | .retainLayoutVersion => .flag p.retainLayoutVersion
  | .symlinkPath => .text p.symlinkPath
  | .displayName => .text p.displayName
  | .storageName => .text p.storageName
  | .backupDisplayName => .text p.backupDisplayName
  | .formatBlockSize => .number p.formatBlockSize
  | .length => .number p.length
  | .canEncryptBackup => .flag p.canEncryptBackup
  | .useUserdataEncryption => .flag p.useUserdataEncryption
  | .mountOptions => .text p.mountOptions

/-! ### The items -/

/-- The first loop: a semicolon outside quotes becomes a NUL. -/
def separate : Bool → List UInt8 → List UInt8
  | _, [] => []
  | skip, b :: rest =>
    let inside := if b = 34 then !skip else skip
    (if !inside && b = 59 then 0 else b) :: separate inside rest

/-- The texts between the NULs that the second loop stops at. -/
def items (flags : CString) : List (List UInt8) := ((separate false flags.bytes).splitOn 0).filter (· ≠ [])

/-- `mount_flags`, by name. What their bits add up to is lost: `Process_FS_Flags` gets
`Mount_Flags` by value. -/
def mountFlags : List String :=
  ["noatime", "noexec", "nosuid", "nodev", "nodiratime", "ro", "rw", "remount", "bind", "rec", "unbindable",
    "private", "slave", "shared", "sync", "defaults"]

/-- `Process_FS_Flags`: the options whose beginning is not the name of a flag, of the first
249 bytes. -/
def processFSFlags (options : List UInt8) : List UInt8 :=
  let left := (tokens [44] (options.take 249)).filter fun p => mountFlags.all fun name => !(lit name).isPrefixOf p
  List.intercalate [44] left

/-- `*ptr == '1' || *ptr == 'y' || *ptr == 'Y'` -/
def affirms (text : List UInt8) : Bool := text.head? = some 49 || text.head? = some 121 || text.head? = some 89

/-- A quote at the front and one at the end cut off; nothing where nothing is left before
the second, for which `substr` throws. -/
def unquoted (text : List UInt8) : Option (List UInt8) :=
  let rest := if text.head? = some 34 then text.drop 1 else text
  if rest = [] then none
  else some (if rest.getLast? = some 34 then rest.dropLast else rest)

structure State where
  part : Part
  hasDisplayName : Bool
  hasStorageName : Bool
  hasBackupName : Bool
  /-- what was reported as unhandled -/
  unhandled : List (List UInt8)

/-- One branch of the chain: its test, how far `ptr` is moved, and what is done with the
text from there on. -/
structure Rule where
  test : List UInt8 → Bool
  skip : Nat
  act : List UInt8 → State → Option State

/-- `strcmp(ptr, word) == 0` -/
def word (w : String) (act : Part → Part) : Rule where
  test item := item = lit w
  skip := 0
  act _ s := some {s with part := act s.part}

/-- `ptr_len > least && strncmp(ptr, key, compared) == 0`, then `ptr += skip`. -/
def valued (key : String) (least compared skip : Nat) (act : List UInt8 → State → Option State) : Rule where
  test item := least < item.length && item.take compared = (lit key).take compared
  skip := skip
  act := act

def setPart (act : List UInt8 → Part → Part) (text : List UInt8) (s : State) : Option State :=
  some {s with part := act text s.part}

/-- The flags that are only there with encrypted backups. -/
def encryptionRules : List Rule :=
  [valued "canencryptbackup=" 17 17 17 (setPart fun v p => {p with canEncryptBackup := affirms v}),
    valued "userdataencryptbackup=" 21 21 21 (setPart fun v p =>
      if affirms v then {p with canEncryptBackup := true, useUserdataEncryption := true}
      else {p with useUserdataEncryption := false})]

/-- The chain of tests up to there. -/
def plainRules : List Rule :=
  [word "removable" fun p => {p with removable := true},
    word "storage" fun p => {p with isStorage := true},
    word "settingsstorage" fun p => {p with isStorage := true},
    word "canbewiped" fun p => {p with canBeWiped := true},
    word "usermrf" fun p => {p with useRmRf := true},
    valued "backup=" 7 7 7 (setPart fun v p => {p with canBeBackedUp := affirms v}),
    word "wipeingui" fun p => {p with canBeWiped := true, wipeAvailableInGui := true},
    word "wipeduringfactoryreset" fun p =>
      {p with canBeWiped := true, wipeAvailableInGui := true, wipeDuringFactoryReset := true},
    valued "subpartitionof=" 15 15 15 (setPart fun v p => {p with isSubPartition := true, subPartitionOf := v}),
    word "ignoreblkid" fun p => {p with ignoreBlkid := true},
    word "retainlayoutversion" fun p => {p with retainLayoutVersion := true},
    valued "symlink=" 8 8 8 (setPart fun v p => {p with symlinkPath := v}),
    valued "display=" 8 8 8 fun v s => (unquoted v).map fun name =>
      {s with hasDisplayName := true, part := {s.part with displayName := name}},
    valued "storagename=" 11 11 11 fun v s => (unquoted v).map fun name =>
      {s with hasStorageName := true, part := {s.part with storageName := name}},
    valued "backupname=" 11 10 10 fun v s => (unquoted v).map fun name =>
      {s with hasBackupName := true, part := {s.part with backupDisplayName := name}},
    valued "blocksize=" 10 10 10 (setPart fun v p => {p with formatBlockSize := (CString.ofBytes v).atoi}),
    valued "length=" 7 7 7 (setPart fun v p => {p with length := (CString.ofBytes v).atoi})]

/-- The test after them. -/
def mountRules : List Rule :=
  [valued "fsflags=" 8 8 8 fun v s => (unquoted v).map fun options =>
    {s with part := {s.part with mountOptions := processFSFlags options}}]

def rules (excludeEncrypted : Bool) : List Rule :=
  plainRules ++ (if excludeEncrypted then [] else encryptionRules) ++ mountRules

/-- The chain on one item. -/
def processItem (excludeEncrypted : Bool) (s : State) (item : List UInt8) : Option State :=
  match (rules excludeEncrypted).find? (·.test item) with
  | some r => r.act (item.drop r.skip) s
  | none => some {s with unhandled := s.unhandled ++ [item]}

/-- The end of `Process_Flags`: names that were not given are taken from the others. -/
def finish (s : State) : State :=
  let p := s.part
  let p := if s.hasDisplayName && !s.hasStorageName && !p.hasDataMedia then {p with storageName := p.displayName} else p
  let p := if !s.hasDisplayName && s.hasStorageName && !p.hasDataMedia then {p with displayName := p.storageName} else p
  let p := if s.hasDisplayName && !s.hasBackupName && p.backupDisplayName ≠ lit "Android Secure" then
    {p with backupDisplayName := p.displayName} else p
  let p := if !s.hasDisplayName && s.hasBackupName then {p with displayName := p.backupDisplayName} else p
  {s with part := p}

/-- `MAX_FSTAB_LINE_LENGTH` -/
def maxFstabLineLength : Nat := 2048

/-- `Process_Flags`. Nothing is returned where the copy of the flags overflows its array and
where an exception is thrown. -/
def processFlags (excludeEncrypted : Bool) (flags : CString) (p : Part) : Option State :=
  if maxFstabLineLength ≤ flags.length then none
  else ((items flags).foldlM (processItem excludeEncrypted) ⟨p, false, false, false, []⟩).map finish

/-! ### What an item means -/

/-- The words, and the fields each of them marks. -/
def words : List (String × List Field) :=
  [("removable", [.removable]), ("storage", [.isStorage]), ("settingsstorage", [.isStorage]),
    ("canbewiped", [.canBeWiped]), ("usermrf", [.useRmRf]), ("wipeingui", [.canBeWiped, .wipeAvailableInGui]),
    ("wipeduringfactoryreset", [.canBeWiped, .wipeAvailableInGui, .wipeDuringFactoryReset]),
    ("ignoreblkid", [.ignoreBlkid]), ("retainlayoutversion", [.retainLayoutVersion])]

/-- A text without the quotes around it. -/
def bare (text : List UInt8) : List UInt8 :=
  let rest := if text.head? = some 34 then text.drop 1 else text
  if rest.getLast? = some 34 then rest.dropLast else rest

/-- A key, and the fields that a value of it gives. -/
abbrev Key := String × (List UInt8 → List (Field × Value))

def plainKeys : List Key :=
  [("backup", fun v => [(.canBeBackedUp, .flag (affirms v))]),
    ("subpartitionof", fun v => [(.isSubPartition, .flag true), (.subPartitionOf, .text v)]),
    ("symlink", fun v => [(.symlinkPath, .text v)]),
    ("display", fun v => [(.displayName, .text (bare v))]),
    ("blocksize", fun v => [(.formatBlockSize, .number (CString.ofBytes v).atoi)]),
    ("length", fun v => [(.length, .number (CString.ofBytes v).atoi)]),
    ("fsflags", fun v => [(.mountOptions, .text (processFSFlags (bare v)))])]

def encryptionKeys : List Key := [("canencryptbackup", fun v => [(.canEncryptBackup, .flag (affirms v))])]

/-- The keys that are counted right. -/
def keys (excludeEncrypted : Bool) : List Key := if excludeEncrypted then plainKeys else plainKeys ++ encryptionKeys

/-- What stands before the equals sign. -/
def keyOf (item : List UInt8) : List UInt8 := item.takeWhile (· != 61)

def valueOf (item : List UInt8) : List UInt8 := item.drop ((keyOf item).length + 1)

/-- The fields an item sets, and nothing for one that is not known. -/
def meaning (excludeEncrypted : Bool) (item : List UInt8) : Option (List (Field × Value)) :=
  match words.find? fun w => lit w.1 = item with
  | some w => some (w.2.map (·, .flag true))
  | none =>
    if valueOf item = [] then none
    else ((keys excludeEncrypted).find? fun k => lit k.1 = keyOf item).map (·.2 (valueOf item))

/-- The items whose test or cut is miscounted, and those for which `substr` throws. -/
def Miscounted (excludeEncrypted : Bool) (item : List UInt8) : Prop :=
  11 < item.length ∧ (lit "storagename" <+: item ∨ lit "backupname" <+: item) ∨
    excludeEncrypted = false ∧ 21 < item.length ∧ lit "userdataencryptbackup" <+: item ∨
    item = lit "display=\"" ∨ item = lit "fsflags=\""

instance (excludeEncrypted : Bool) (item : List UInt8) : Decidable (Miscounted excludeEncrypted item) := by
  unfold Miscounted
  infer_instance

/-- The last value given to a field. -/
def lastFor (f : Field) (given : List (Field × Value)) : Option Value :=
  ((given.filter (·.1 = f)).getLast?).map (·.2)

theorem lastFor_append (f : Field) (a b : List (Field × Value)) :
    lastFor f (a ++ b) = (lastFor f b).or (lastFor f a) := by
  unfold lastFor
  rw [List.filter_append, List.getLast?_append]
  cases (b.filter (·.1 = f)).getLast? <;> simp

/-! ### The chain follows the meaning -/

section Item
variable {excludeEncrypted : Bool} {item : List UInt8}

theorem valued_test {key : String} {n : Nat} {act : List UInt8 → State → Option State} (hlen : (lit key).length = n) :
    (valued key n n n act).test item = true ↔ ∃ v, v ≠ [] ∧ item = lit key ++ v := by
  simp only [valued, Bool.and_eq_true, decide_eq_true_eq, ← hlen, List.take_length]
  constructor
  · intro ⟨hlong, htake⟩
    refine ⟨item.drop (lit key).length, ?_, ?_⟩
    · rw [Ne, List.drop_eq_nil_iff]
      omega
    · conv_lhs => rw [← List.take_append_drop (lit key).length item, htake]
  · intro ⟨v, hv, heq⟩
    rw [heq, List.length_append, List.take_left']
    · exact ⟨Nat.lt_add_of_pos_right (List.length_pos_of_ne_nil hv), rfl⟩
    · rfl

/-- A word has no equals sign. -/
theorem words_plain : ∀ w ∈ words, 61 ∉ lit w.1 := by decide

theorem keys_plain : ∀ k ∈ keys excludeEncrypted, 61 ∉ lit k.1 := by
  cases excludeEncrypted <;> decide

theorem keyOf_append {key v : List UInt8} (hkey : 61 ∉ key) : keyOf (key ++ 61 :: v) = key := by
  have hfree : ∀ b ∈ key, (b != 61) = true := by
    intro b hb
    simp only [bne_iff_ne, ne_eq]
    intro h
    exact hkey (h ▸ hb)
  simp [keyOf, List.takeWhile_append_of_pos hfree]

theorem valueOf_append {key v : List UInt8} (hkey : 61 ∉ key) : valueOf (key ++ 61 :: v) = v := by
  rw [valueOf, keyOf_append hkey]
  simp [List.drop_append]

/-- An item with a value is not a word. -/
theorem meaning_valued {key v : List UInt8} (hkey : 61 ∉ key) (hv : v ≠ []) :
    meaning excludeEncrypted (key ++ 61 :: v) = ((keys excludeEncrypted).find? fun k => lit k.1 = key).map (·.2 v) := by
  have hwords : (words.find? fun w => lit w.1 = key ++ 61 :: v) = none := by
    rw [List.find?_eq_none]
    intro w hw heq
    have hmem : 61 ∉ lit w.1 := words_plain w hw
    rw [of_decide_eq_true heq] at hmem
    simp at hmem
  rw [meaning, hwords, valueOf_append hkey, keyOf_append hkey]
  simp only [if_neg hv]

/-- What one item did to the state, by what it means. -/
structure Follows (given : Option (List (Field × Value))) (item : List UInt8) (s s' : State) : Prop where
  fields : ∀ f, s'.part.get f = (lastFor f (given.getD [])).getD (s.part.get f)
  display : s'.hasDisplayName = (s.hasDisplayName || (lastFor .displayName (given.getD [])).isSome)
  storage : s'.hasStorageName = s.hasStorageName
  backup : s'.hasBackupName = s.hasBackupName
  media : s'.part.hasDataMedia = s.part.hasDataMedia
  reports : s'.unhandled = s.unhandled ++ if given = none then [item] else []

/-- No name stands twice in a table. -/
theorem find_name {α : Type} {table : List (String × α)} (hnodup : (table.map fun x => lit x.1).Nodup) {i : Nat}
    {entry : String × α} (hi : table[i]? = some entry) :
    table.find? (fun x => lit x.1 = lit entry.1) = some entry := by
  obtain ⟨hlt, hget⟩ := List.getElem?_eq_some_iff.mp hi
  rw [List.find?_eq_some_iff_getElem]
  refine ⟨by simp, i, hlt, hget, ?_⟩
  intro j hj
  have hne : lit (table[j]).1 ≠ lit entry.1 := by
    intro heq
    have hj' : j < (table.map fun x => lit x.1).length := by
      rw [List.length_map]
      omega
    have hi' : i < (table.map fun x => lit x.1).length := by rwa [List.length_map]
    have heq' : (table.map fun x => lit x.1)[j] = (table.map fun x => lit x.1)[i] := by
      simp only [List.getElem_map, heq, hget]
    exact absurd ((hnodup.getElem_inj_iff).mp heq') (by omega)
  simpa using hne

theorem words_nodup : (words.map fun w => lit w.1).Nodup := by decide

theorem keys_nodup : ((keys excludeEncrypted).map fun k => lit k.1).Nodup := by
  cases excludeEncrypted <;> decide

/-- The branch does what its items mean. -/
def Rule.Good (excludeEncrypted : Bool) (r : Rule) : Prop :=
  ∀ item s, ¬Miscounted excludeEncrypted item → r.test item = true →
    ∃ s', r.act (item.drop r.skip) s = some s' ∧ Follows (meaning excludeEncrypted item) item s s'

/-- A word marks its fields. -/
theorem good_word {i : Nat} {w : String} {act : Part → Part} {marked : List Field}
    (hi : words[i]? = some (w, marked))
    (hget : ∀ f p, (act p).get f = if f ∈ marked then .flag true else p.get f)
    (hname : .displayName ∉ marked) (hmedia : ∀ p, (act p).hasDataMedia = p.hasDataMedia) :
    (word w act).Good excludeEncrypted := by
  intro item s _ htest
  obtain rfl : item = lit w := of_decide_eq_true htest
  refine ⟨_, rfl, ?_⟩
  have hmeaning : meaning excludeEncrypted (lit w) = some (marked.map (·, .flag true)) := by
    rw [meaning, find_name words_nodup hi]
  have hlast : ∀ f, lastFor f (marked.map (·, Value.flag true)) = if f ∈ marked then some (.flag true) else none := by
    intro f
    unfold lastFor
    rw [List.filter_map, List.getLast?_map]
    by_cases hf : f ∈ marked
    · have hlast : (marked.filter fun g => g = f).getLast? = some f := by
        have hne : (marked.filter fun g => g = f) ≠ [] := List.ne_nil_of_mem (List.mem_filter.mpr ⟨hf, by simp⟩)
        rw [List.getLast?_eq_some_getLast hne]
        exact congrArg some (of_decide_eq_true (List.mem_filter.mp (List.getLast_mem hne)).2)
      simp only [Function.comp_def, hlast, if_pos hf]
      rfl
    · have hnil : (marked.filter fun g => g = f) = [] := by
        rw [List.filter_eq_nil_iff]
        intro g hg heq
        exact hf (of_decide_eq_true heq ▸ hg)
      simp only [Function.comp_def, hnil, if_neg hf]
      rfl
  rw [hmeaning]
  refine ⟨?_, ?_, rfl, rfl, hmedia s.part, by simp⟩
  · intro f
    rw [Option.getD_some, hlast f, hget f]
    split <;> rfl
  · rw [Option.getD_some, hlast, if_neg hname]
    simp

/-- A key that is counted right gives its whole value. -/
theorem good_valued {i : Nat} {key k : String} {n : Nat} {act : List UInt8 → State → Option State}
    {f : List UInt8 → List (Field × Value)} (hkey : lit key = lit k ++ [61]) (hlen : (lit key).length = n)
    (hi : (keys excludeEncrypted)[i]? = some (k, f))
    (hact : ∀ v s, v ≠ [] → ¬Miscounted excludeEncrypted (lit key ++ v) →
      ∃ s', act v s = some s' ∧ Follows (some (f v)) (lit key ++ v) s s') :
    (valued key n n n act).Good excludeEncrypted := by
  intro item s hplain htest
  obtain ⟨v, hv, rfl⟩ := (valued_test hlen).mp htest
  have hfind := find_name keys_nodup hi
  have hfree : 61 ∉ lit k := keys_plain (k, f) (List.mem_of_find?_eq_some hfind)
  have hmeaning : meaning excludeEncrypted (lit key ++ v) = some (f v) := by
    rw [hkey, List.append_assoc, List.singleton_append, meaning_valued hfree hv, hfind]
    rfl
  have hdrop : (lit key ++ v).drop n = v := by rw [← hlen, List.drop_left]
  rw [hmeaning]
  show ∃ s', act ((lit key ++ v).drop n) s = some s' ∧ _
  rw [hdrop]
  exact hact v s hv hplain

/-- A branch that sets fields of the partition only. -/
theorem good_setPart {i : Nat} {key k : String} {n : Nat} {act : List UInt8 → Part → Part}
    {f : List UInt8 → List (Field × Value)} (hkey : lit key = lit k ++ [61]) (hlen : (lit key).length = n)
    (hi : (keys excludeEncrypted)[i]? = some (k, f))
    (hget : ∀ g v p, (act v p).get g = (lastFor g (f v)).getD (p.get g))
    (hname : ∀ v, lastFor .displayName (f v) = none) (hmedia : ∀ v p, (act v p).hasDataMedia = p.hasDataMedia) :
    (valued key n n n (setPart act)).Good excludeEncrypted := by
  apply good_valued hkey hlen hi
  intro v s _ _
  refine ⟨_, rfl, fun g => hget g v s.part, ?_, rfl, rfl, hmedia v s.part, by simp⟩
  simp [hname v]

theorem unquoted_eq {text : List UInt8} (h : text ≠ []) (hlone : text ≠ [34]) : unquoted text = some (bare text) := by
  have hrest : (if text.head? = some 34 then text.drop 1 else text) ≠ [] := by
    cases text with
    | nil => exact absurd rfl h
    | cons b rest =>
      split
      · rename_i hquote
        cases rest with
        | nil =>
          simp only [List.head?_cons, Option.some.injEq] at hquote
          exact absurd (by rw [hquote]) hlone
        | cons c rest => simp
      · exact h
  simp only [unquoted, if_neg hrest, bare]

/-- The tests of the miscounted keys pass only for items that are left out. -/
theorem good_miscounted {key w : String} {least compared skip : Nat} {act : List UInt8 → State → Option State}
    (hword : (lit key).take compared = lit w)
    (h : ∀ item : List UInt8, least < item.length → lit w <+: item → Miscounted excludeEncrypted item) :
    (valued key least compared skip act).Good excludeEncrypted := by
  intro item s hplain htest
  simp only [valued, Bool.and_eq_true, decide_eq_true_eq, hword] at htest
  exact absurd (h item htest.1 (htest.2 ▸ List.take_prefix compared item)) hplain

theorem keys_of_plainKeys {i : Nat} {k : Key} (hi : plainKeys[i]? = some k) : (keys excludeEncrypted)[i]? = some k := by
  unfold keys
  split
  · exact hi
  · rwa [List.getElem?_append_left (List.getElem?_eq_some_iff.mp hi).1]

/-- A branch that sets a name or the options, which may throw. -/
theorem good_unquoted {i : Nat} {key k : String} {n : Nat} {act : List UInt8 → State → State}
    {f : List UInt8 → List (Field × Value)} (hkey : lit key = lit k ++ [61]) (hlen : (lit key).length = n)
    (hi : (keys excludeEncrypted)[i]? = some (k, f))
    (hlone : Miscounted excludeEncrypted (lit key ++ [34]))
    (hact : ∀ v s, Follows (some (f v)) (lit key ++ v) s (act (bare v) s)) :
    (valued key n n n fun v s => (unquoted v).map (act · s)).Good excludeEncrypted := by
  apply good_valued hkey hlen hi
  intro v s hv hplain
  have hone : v ≠ [34] := by
    intro h
    exact hplain (h ▸ hlone)
  refine ⟨_, ?_, hact v s⟩
  rw [unquoted_eq hv hone]
  rfl

theorem good_encryptionRules : ∀ r ∈ encryptionRules, r.Good false := by
  simp only [encryptionRules, List.forall_mem_cons, List.not_mem_nil, false_implies, implies_true, and_true]
  constructor
  · apply good_setPart (i := 7) (by decide) (by decide) rfl
    · intro g v p
      cases g <;> rfl
    · intro v
      rfl
    · intro v p
      rfl
  · apply good_miscounted (w := "userdataencryptbackup") (by decide)
    intro item hlong hmatch
    exact .inr (.inl ⟨rfl, hlong, hmatch⟩)

theorem good_plainRules : ∀ r ∈ plainRules, r.Good excludeEncrypted := by
  simp only [plainRules, List.forall_mem_cons, List.not_mem_nil, false_implies, implies_true, and_true]
  refine ⟨?_, ?_, ?_, ?_, ?_, ?_, ?_, ?_, ?_, ?_, ?_, ?_, ?_, ?_, ?_, ?_, ?_⟩
  · exact good_word (i := 0) rfl (fun f p => by cases f <;> rfl) (by decide) fun p => rfl
  · exact good_word (i := 1) rfl (fun f p => by cases f <;> rfl) (by decide) fun p => rfl
  · exact good_word (i := 2) rfl (fun f p => by cases f <;> rfl) (by decide) fun p => rfl
  · exact good_word (i := 3) rfl (fun f p => by cases f <;> rfl) (by decide) fun p => rfl
  · exact good_word (i := 4) rfl (fun f p => by cases f <;> rfl) (by decide) fun p => rfl
  · apply good_setPart (i := 0) (by decide) (by decide) (keys_of_plainKeys rfl)
    · intro g v p
      cases g <;> rfl
    · exact fun v => rfl
    · exact fun v p => rfl
  · exact good_word (i := 5) rfl (fun f p => by cases f <;> rfl) (by decide) fun p => rfl
  · exact good_word (i := 6) rfl (fun f p => by cases f <;> rfl) (by decide) fun p => rfl
  · apply good_setPart (i := 1) (by decide) (by decide) (keys_of_plainKeys rfl)
    · intro g v p
      cases g <;> rfl
    · exact fun v => rfl
    · exact fun v p => rfl
  · exact good_word (i := 7) rfl (fun f p => by cases f <;> rfl) (by decide) fun p => rfl
  · exact good_word (i := 8) rfl (fun f p => by cases f <;> rfl) (by decide) fun p => rfl
  · apply good_setPart (i := 2) (by decide) (by decide) (keys_of_plainKeys rfl)
    · intro g v p
      cases g <;> rfl
    · exact fun v => rfl
    · exact fun v p => rfl
  · apply good_unquoted (i := 3) (by decide) (by decide) (keys_of_plainKeys rfl)
    · exact .inr (.inr (.inl (by decide)))
    · intro v s
      refine ⟨fun f => by cases f <;> rfl, ?_, rfl, rfl, rfl, by simp⟩
      simp [lastFor]
  · apply good_miscounted (w := "storagename") (by decide)
    intro item hlong hmatch
    exact .inl ⟨hlong, .inl hmatch⟩
  · apply good_miscounted (w := "backupname") (by decide)
    intro item hlong hmatch
    exact .inl ⟨hlong, .inr hmatch⟩
  · apply good_setPart (i := 4) (by decide) (by decide) (keys_of_plainKeys rfl)
    · intro g v p
      cases g <;> rfl
    · exact fun v => rfl
    · exact fun v p => rfl
  · apply good_setPart (i := 5) (by decide) (by decide) (keys_of_plainKeys rfl)
    · intro g v p
      cases g <;> rfl
    · exact fun v => rfl
    · exact fun v p => rfl

theorem good_mountRules : ∀ r ∈ mountRules, r.Good excludeEncrypted := by
  simp only [mountRules, List.forall_mem_cons, List.not_mem_nil, false_implies, implies_true, and_true]
  apply good_unquoted (i := 6) (by decide) (by decide) (keys_of_plainKeys rfl)
  · exact .inr (.inr (.inr (by decide)))
  · intro v s
    refine ⟨fun f => by cases f <;> rfl, ?_, rfl, rfl, rfl, by simp⟩
    simp [lastFor]

/-- Every branch does what its items mean. -/
theorem good_rules : ∀ r ∈ rules excludeEncrypted, r.Good excludeEncrypted := by
  intro r hr
  rcases List.mem_append.mp hr with hr | hr
  · rcases List.mem_append.mp hr with hr | hr
    · exact good_plainRules r hr
    · cases excludeEncrypted with
      | true => cases hr
      | false => exact good_encryptionRules r hr
  · exact good_mountRules r hr

theorem test_of_key {key k : String} {n : Nat} {act : List UInt8 → State → Option State} {v : List UInt8}
    (hkey : lit key = lit k ++ [61]) (hlen : (lit key).length = n) (hv : v ≠ []) :
    (valued key n n n act).test (lit k ++ 61 :: v) = true := by
  apply (valued_test hlen).mpr
  exact ⟨v, hv, by rw [hkey, List.append_assoc, List.singleton_append]⟩

theorem mem_rules_of_plain {r : Rule} (h : r ∈ plainRules) : r ∈ rules excludeEncrypted :=
  List.mem_append_left _ (List.mem_append_left _ h)

theorem words_tested : ∀ w ∈ words, ∃ r ∈ plainRules, r.test (lit w.1) = true := by
  simp only [words, List.forall_mem_cons, List.not_mem_nil, false_implies, implies_true, and_true]
  refine ⟨?_, ?_, ?_, ?_, ?_, ?_, ?_, ?_, ?_⟩
  · exact ⟨_, List.mem_of_getElem? (i := 0) rfl, by simp [word]⟩
  · exact ⟨_, List.mem_of_getElem? (i := 1) rfl, by simp [word]⟩
  · exact ⟨_, List.mem_of_getElem? (i := 2) rfl, by simp [word]⟩
  · exact ⟨_, List.mem_of_getElem? (i := 3) rfl, by simp [word]⟩
  · exact ⟨_, List.mem_of_getElem? (i := 4) rfl, by simp [word]⟩
  · exact ⟨_, List.mem_of_getElem? (i := 6) rfl, by simp [word]⟩
  · exact ⟨_, List.mem_of_getElem? (i := 7) rfl, by simp [word]⟩
  · exact ⟨_, List.mem_of_getElem? (i := 9) rfl, by simp [word]⟩
  · exact ⟨_, List.mem_of_getElem? (i := 10) rfl, by simp [word]⟩

theorem plainKeys_tested {v : List UInt8} (hv : v ≠ []) :
    ∀ k ∈ plainKeys, ∃ r ∈ rules excludeEncrypted, r.test (lit k.1 ++ 61 :: v) = true := by
  simp only [plainKeys, List.forall_mem_cons, List.not_mem_nil, false_implies, implies_true, and_true]
  refine ⟨?_, ?_, ?_, ?_, ?_, ?_, ?_⟩
  · exact ⟨_, mem_rules_of_plain (List.mem_of_getElem? (i := 5) rfl), test_of_key (by decide) (by decide) hv⟩
  · exact ⟨_, mem_rules_of_plain (List.mem_of_getElem? (i := 8) rfl), test_of_key (by decide) (by decide) hv⟩
  · exact ⟨_, mem_rules_of_plain (List.mem_of_getElem? (i := 11) rfl), test_of_key (by decide) (by decide) hv⟩
  · exact ⟨_, mem_rules_of_plain (List.mem_of_getElem? (i := 12) rfl), test_of_key (by decide) (by decide) hv⟩
  · exact ⟨_, mem_rules_of_plain (List.mem_of_getElem? (i := 15) rfl), test_of_key (by decide) (by decide) hv⟩
  · exact ⟨_, mem_rules_of_plain (List.mem_of_getElem? (i := 16) rfl), test_of_key (by decide) (by decide) hv⟩
  · exact ⟨_, List.mem_append_right _ (List.mem_singleton_self _), test_of_key (by decide) (by decide) hv⟩

/-- Every key has its branch. -/
theorem keys_tested {v : List UInt8} (hv : v ≠ []) :
    ∀ k ∈ keys excludeEncrypted, ∃ r ∈ rules excludeEncrypted, r.test (lit k.1 ++ 61 :: v) = true := by
  intro k hk
  unfold keys at hk
  cases excludeEncrypted with
  | true => exact plainKeys_tested hv k hk
  | false =>
    rcases List.mem_append.mp hk with hk | hk
    · exact plainKeys_tested hv k hk
    · obtain rfl := List.mem_singleton.mp hk
      refine ⟨_, List.mem_append_left _ (List.mem_append_right _ (List.mem_of_getElem? (i := 0) rfl)), ?_⟩
      exact test_of_key (by decide) (by decide) hv

theorem eq_keyOf_append (h : valueOf item ≠ []) : item = keyOf item ++ 61 :: valueOf item := by
  have hdrop : item.drop (keyOf item).length ≠ [] := by
    intro hnil
    have hlen := List.drop_eq_nil_iff.mp hnil
    exact h (List.drop_eq_nil_of_le (by omega))
  have hsplit := List.takeWhile_append_dropWhile (p := (· != 61)) (l := item)
  cases hrest : item.dropWhile (· != 61) with
  | nil =>
    rw [hrest, List.append_nil] at hsplit
    exact absurd (List.drop_eq_nil_of_le (by rw [keyOf, hsplit])) hdrop
  | cons b rest =>
    have hb : b = 61 := by
      have hhead := List.head_dropWhile_not (· != 61) (l := item) (by rw [hrest]; simp)
      simpa [hrest] using hhead
    rw [hrest, hb] at hsplit
    have hfree : 61 ∉ keyOf item := by
      intro hmem
      simpa using List.mem_takeWhile_imp hmem
    have hvalue : valueOf item = rest := (congrArg valueOf hsplit).symm.trans (valueOf_append hfree)
    rw [hvalue]
    exact hsplit.symm

/-- An item that no test takes is not known. -/
theorem meaning_eq_none (h : ∀ r ∈ rules excludeEncrypted, r.test item = false) : meaning excludeEncrypted item = none := by
  have hwords : (words.find? fun w => lit w.1 = item) = none := by
    rw [List.find?_eq_none]
    intro w hw heq
    obtain ⟨r, hr, htest⟩ := words_tested w hw
    rw [of_decide_eq_true heq, h r (mem_rules_of_plain hr)] at htest
    exact Bool.false_ne_true htest
  rw [meaning, hwords]
  by_cases hvalue : valueOf item = []
  · simp [hvalue]
  · simp only [if_neg hvalue, Option.map_eq_none_iff]
    rw [List.find?_eq_none]
    intro k hk heq
    obtain ⟨r, hr, htest⟩ := keys_tested hvalue k hk
    rw [of_decide_eq_true heq, ← eq_keyOf_append hvalue, h r hr] at htest
    exact Bool.false_ne_true htest

theorem processItem_follows (s : State) (hplain : ¬Miscounted excludeEncrypted item) :
    ∃ s', processItem excludeEncrypted s item = some s' ∧ Follows (meaning excludeEncrypted item) item s s' := by
  unfold processItem
  cases hfind : (rules excludeEncrypted).find? (·.test item) with
  | some r => exact good_rules r (List.mem_of_find?_eq_some hfind) item s hplain (List.find?_some (p := fun r : Rule => r.test item) hfind)
  | none =>
    have hnone : meaning excludeEncrypted item = none := by
      apply meaning_eq_none
      intro r hr
      simpa using List.find?_eq_none.mp hfind r hr
    refine ⟨_, rfl, ?_⟩
    rw [hnone]
    exact ⟨fun f => rfl, by simp [lastFor], rfl, rfl, rfl, rfl⟩

end Item

/-! ### All the items -/

section Flags
variable (excludeEncrypted : Bool)

/-- What the items give, in their order. -/
def given (texts : List (List UInt8)) : List (Field × Value) :=
  texts.flatMap fun item => (meaning excludeEncrypted item).getD []

/-- What the items left behind, by what they mean. -/
structure FollowsAll (texts : List (List UInt8)) (s s' : State) : Prop where
  fields : ∀ f, s'.part.get f = (lastFor f (given excludeEncrypted texts)).getD (s.part.get f)
  display : s'.hasDisplayName = (s.hasDisplayName || (lastFor .displayName (given excludeEncrypted texts)).isSome)
  storage : s'.hasStorageName = s.hasStorageName
  backup : s'.hasBackupName = s.hasBackupName
  media : s'.part.hasDataMedia = s.part.hasDataMedia
  reports : s'.unhandled = s.unhandled ++ texts.filter fun item => meaning excludeEncrypted item = none

theorem processItems_follow {texts : List (List UInt8)} (hplain : ∀ item ∈ texts, ¬Miscounted excludeEncrypted item)
    (s : State) : ∃ s', texts.foldlM (processItem excludeEncrypted) s = some s' ∧
      FollowsAll excludeEncrypted texts s s' := by
  induction texts generalizing s with
  | nil => exact ⟨s, rfl, fun f => rfl, by simp [given, lastFor], rfl, rfl, rfl, by simp⟩
  | cons item rest ih =>
    obtain ⟨hitem, hrest⟩ := List.forall_mem_cons.mp hplain
    obtain ⟨s₁, hrun, hone⟩ := processItem_follows s hitem
    obtain ⟨s₂, hruns, hall⟩ := ih hrest s₁
    have hgiven : given excludeEncrypted (item :: rest) =
        (meaning excludeEncrypted item).getD [] ++ given excludeEncrypted rest := rfl
    refine ⟨s₂, ?_, ?_, ?_, hall.storage.trans hone.storage, hall.backup.trans hone.backup,
      hall.media.trans hone.media, ?_⟩
    · rw [List.foldlM_cons, hrun]
      exact hruns
    · intro f
      rw [hall.fields f, hone.fields f, hgiven, lastFor_append]
      cases lastFor f (given excludeEncrypted rest) <;> rfl
    · rw [hall.display, hone.display, hgiven, lastFor_append]
      cases lastFor .displayName (given excludeEncrypted rest) <;> simp
    · rw [hall.reports, hone.reports]
      by_cases hnone : meaning excludeEncrypted item = none <;> simp [hnone]

/-- What the partition is left with: each field has the last value that an item gives it, and
the display name also stands for the names that no item can give. -/
def outcome (p : Part) (values : List (Field × Value)) : Field → Value
  | .storageName =>
    if p.hasDataMedia then p.get .storageName else (lastFor .displayName values).getD (p.get .storageName)
  | .backupDisplayName =>
    if p.backupDisplayName = lit "Android Secure" then p.get .backupDisplayName
    else (lastFor .displayName values).getD (p.get .backupDisplayName)
  | f => (lastFor f values).getD (p.get f)

/-- No item gives the names that are miscounted. -/
theorem given_names (texts : List (List UInt8)) :
    lastFor .storageName (given excludeEncrypted texts) = none ∧
      lastFor .backupDisplayName (given excludeEncrypted texts) = none := by
  have hwords : ∀ w ∈ words, .storageName ∉ w.2 ∧ .backupDisplayName ∉ w.2 := by decide
  have hkeys : ∀ k ∈ keys excludeEncrypted, ∀ v, ∀ x ∈ k.2 v, x.1 ≠ .storageName ∧ x.1 ≠ .backupDisplayName := by
    have hsub : ∀ (v : List UInt8) (a : Field) (b : Value),
        a = .isSubPartition ∧ b = .flag true ∨ a = .subPartitionOf ∧ b = .text v → ¬a = .storageName ∧ ¬a = .backupDisplayName := by
      intro v a b h
      rcases h with ⟨rfl, -⟩ | ⟨rfl, -⟩ <;> decide
    cases excludeEncrypted <;> simpa [keys, plainKeys, encryptionKeys] using hsub
  have hmeaning : ∀ x ∈ given excludeEncrypted texts, x.1 ≠ .storageName ∧ x.1 ≠ .backupDisplayName := by
    intro x hx
    obtain ⟨item, -, hx⟩ := List.mem_flatMap.mp hx
    unfold meaning at hx
    split at hx
    · rename_i w hfind
      obtain ⟨g, hg, rfl⟩ := List.mem_map.mp hx
      obtain ⟨hstorage, hbackup⟩ := hwords w (List.mem_of_find?_eq_some hfind)
      exact ⟨fun h => hstorage (h ▸ hg), fun h => hbackup (h ▸ hg)⟩
    · split at hx
      · cases hx
      · cases hfind : (keys excludeEncrypted).find? fun k => lit k.1 = keyOf item with
        | none =>
          rw [hfind] at hx
          cases hx
        | some k =>
          rw [hfind] at hx
          exact hkeys k (List.mem_of_find?_eq_some hfind) _ x hx
  have hfilter : ∀ f, (∀ x ∈ given excludeEncrypted texts, x.1 ≠ f) → lastFor f (given excludeEncrypted texts) = none := by
    intro f hf
    rw [lastFor, List.filter_eq_nil_iff.mpr]
    · rfl
    · intro x hx
      simpa using hf x hx
  exact ⟨hfilter _ fun x hx => (hmeaning x hx).1, hfilter _ fun x hx => (hmeaning x hx).2⟩

theorem finish_get {s : State} (hstorage : s.hasStorageName = false) (hbackup : s.hasBackupName = false) (f : Field) :
    (finish s).part.get f = match f with
      | .storageName => if s.hasDisplayName && !s.part.hasDataMedia then s.part.get .displayName else s.part.get .storageName
      | .backupDisplayName => if s.hasDisplayName && s.part.backupDisplayName ≠ lit "Android Secure" then
          s.part.get .displayName else s.part.get .backupDisplayName
      | f => s.part.get f := by
  unfold finish
  simp only [hstorage, hbackup, Bool.not_false, Bool.and_true, Bool.and_false, Bool.false_and, Bool.false_eq_true, if_false]
  by_cases hfirst : (s.hasDisplayName && !s.part.hasDataMedia) = true
  · by_cases hsecond : (s.hasDisplayName && decide (s.part.backupDisplayName ≠ lit "Android Secure")) = true
    · simp only [if_pos hfirst, if_pos hsecond]
      cases f <;> rfl
    · simp only [if_pos hfirst, if_neg hsecond]
      cases f <;> rfl
  · by_cases hsecond : (s.hasDisplayName && decide (s.part.backupDisplayName ≠ lit "Android Secure")) = true
    · simp only [if_neg hfirst, if_pos hsecond]
      cases f <;> rfl
    · simp only [if_neg hfirst, if_neg hsecond]
      cases f <;> rfl

/-- **Every field has the last value that an item gives it**, whatever the other items are
and however they stand among them; what is reported is what is not known. -/
theorem flags_independent (flags : CString) (p : Part) (hfits : flags.length < maxFstabLineLength)
    (hplain : ∀ item ∈ items flags, ¬Miscounted excludeEncrypted item) :
    ∃ s, processFlags excludeEncrypted flags p = some s ∧
      (∀ f, s.part.get f = outcome p (given excludeEncrypted (items flags)) f) ∧
      s.unhandled = (items flags).filter fun item => meaning excludeEncrypted item = none := by
  obtain ⟨s, hrun, hall⟩ := processItems_follow excludeEncrypted hplain ⟨p, false, false, false, []⟩
  refine ⟨finish s, ?_, ?_, ?_⟩
  · rw [processFlags, if_neg (by omega), hrun]
    rfl
  · intro f
    obtain ⟨hstorage, hbackup⟩ := given_names excludeEncrypted (items flags)
    have hname := hall.fields .displayName
    rw [finish_get hall.storage hall.backup, hall.display, hall.media]
    cases f with
    | storageName =>
      have hold := hall.fields .storageName
      rw [hstorage] at hold
      simp only [hold, hname, outcome, Bool.false_or]
      cases lastFor .displayName (given excludeEncrypted (items flags)) <;> cases p.hasDataMedia <;> rfl
    | backupDisplayName =>
      have hold := hall.fields .backupDisplayName
      rw [hbackup] at hold
      have hsame : s.part.backupDisplayName = p.backupDisplayName := Value.text.inj hold
      simp only [hold, hname, hsame, outcome, Bool.false_or]
      by_cases hsecure : p.backupDisplayName = lit "Android Secure"
      · simp [hsecure]
      · cases lastFor .displayName (given excludeEncrypted (items flags)) <;> simp [hsecure]
    | _ => exact hall.fields _
  · exact hall.reports

end Flags

/-- A partition as it is constructed. -/
def newPart : Part where
  removable := false
  isStorage := false
  canBeWiped := false
  useRmRf := false
  canBeBackedUp := false
  wipeAvailableInGui := false
  wipeDuringFactoryReset := false
  isSubPartition := false
  subPartitionOf := []
  ignoreBlkid := false
  retainLayoutVersion := false
  symlinkPath := []
  displayName := []
  storageName := []
  backupDisplayName := []
  formatBlockSize := 0
  length := 0
  canEncryptBackup := false
  useUserdataEncryption := false
  mountOptions := []
  hasDataMedia := false

def cardFlags : CString := "display=\"My;Card\";backup=1;later;wipeingui"

theorem flags_independent_card :
    cardFlags.length < maxFstabLineLength ∧ (∀ item ∈ items cardFlags, ¬Miscounted false item) ∧
      ∃ s, processFlags false cardFlags newPart = some s ∧
        (∀ f, s.part.get f = outcome newPart (given false (items cardFlags)) f) ∧
        s.unhandled = (items cardFlags).filter fun item => meaning false item = none := by
  have hfits : cardFlags.length < maxFstabLineLength := by decide
  have hplain : ∀ item ∈ items cardFlags, ¬Miscounted false item := by decide
  exact ⟨hfits, hplain, flags_independent false cardFlags newPart hfits hplain⟩

example : (given false (items cardFlags)) =
    [(.displayName, .text (lit "My;Card")), (.canBeBackedUp, .flag true), (.canBeWiped, .flag true),
      (.wipeAvailableInGui, .flag true)] := by decide

/-- The key that a field is named after. -/
def Field.key : Field → String
  | .removable => "removable"
  | .isStorage => "storage"
  | .canBeWiped => "canbewiped"
  | .useRmRf => "usermrf"
  | .canBeBackedUp => "backup"
  | .wipeAvailableInGui => "wipeingui"
  | .wipeDuringFactoryReset => "wipeduringfactoryreset"
  | .isSubPartition => "subpartitionof"
  | .subPartitionOf => "subpartitionof"
  | .ignoreBlkid => "ignoreblkid"
  | .retainLayoutVersion => "retainlayoutversion"
  | .symlinkPath => "symlink"
  | .displayName => "display"
  | .storageName => "storagename"
  | .backupDisplayName => "backupname"
  | .formatBlockSize => "blocksize"
  | .length => "length"
  | .canEncryptBackup => "canencryptbackup"
  | .useUserdataEncryption => "userdataencryptbackup"
  | .mountOptions => "fsflags"

/-- A field changes only where an item has its key. -/
def OwnKeysOnly (excludeEncrypted : Bool) (flags : CString) (p : Part) : Prop :=
  ∀ s, processFlags excludeEncrypted flags p = some s →
    ∀ f, s.part.get f ≠ p.get f → ∃ item ∈ items flags, keyOf item = lit f.key

/-- What can be wiped from the menu can be wiped. -/
theorem not_ownKeysOnly_wipeingui : ¬OwnKeysOnly false "wipeingui" newPart := by
  intro h
  have hrun : (processFlags false "wipeingui" newPart).isSome = true := by decide
  obtain ⟨s, hs⟩ := Option.isSome_iff_exists.mp hrun
  have hget : (processFlags false "wipeingui" newPart).map (·.part.get .canBeWiped) = some (.flag true) := by decide
  rw [hs] at hget
  have hvalue : s.part.get .canBeWiped = .flag true := Option.some.inj hget
  have hchanged : s.part.get .canBeWiped ≠ newPart.get .canBeWiped := by
    rw [hvalue]
    decide
  exact absurd (h s hs .canBeWiped hchanged) (by decide)

/-- The sign stays in front of a storage name: the key has twelve bytes and eleven are
counted. -/
theorem storagename_keeps_sign (excludeEncrypted : Bool) (s : State) (v : List UInt8) :
    processItem excludeEncrypted s (lit "storagename=" ++ v) = (unquoted (61 :: v)).map fun name =>
      {s with hasStorageName := true, part := {s.part with storageName := name}} := by
  have hlen : (lit "storagename=").length = 12 := by decide
  have hmem : (61 : UInt8) ∈ lit "storagename=" ++ v := List.mem_append_left _ (by decide)
  have hwords : ∀ w ∈ words, ¬lit "storagename=" ++ v = lit w.1 := by
    intro w hw heq
    exact words_plain w hw (heq ▸ hmem)
  have hkeys : ∀ k ∈ [("backup=", 7), ("subpartitionof=", 15), ("symlink=", 8), ("display=", 8)],
      ¬(lit "storagename=" ++ v).take k.2 = (lit k.1).take k.2 := by
    -- the first two bytes differ already
    have htwo : ∀ k ∈ [("backup=", 7), ("subpartitionof=", 15), ("symlink=", 8), ("display=", 8)],
        ¬(lit "storagename=").take (min 2 k.2) = (lit k.1).take (min 2 k.2) := by decide
    intro k hk heq
    have hcut := congrArg (List.take 2) heq
    rw [List.take_take, List.take_take, List.take_append_of_le_length (by omega)] at hcut
    exact htwo k hk hcut
  have hlast : (lit "storagename=" ++ v).take 11 = (lit "storagename=").take 11 :=
    List.take_append_of_le_length (by omega)
  have hlong : 11 < (lit "storagename=" ++ v).length := by
    rw [List.length_append]
    omega
  have hdrop : (lit "storagename=" ++ v).drop 11 = 61 :: v := by
    rw [List.drop_append_of_le_length (by omega)]
    rfl
  simp only [words, List.forall_mem_cons, List.not_mem_nil, false_implies, implies_true, and_true] at hwords
  simp only [List.forall_mem_cons, List.not_mem_nil, false_implies, implies_true, and_true] at hkeys
  simp only [processItem, rules, plainRules, List.cons_append, List.find?_cons, word, valued, hwords, hkeys,
    decide_false, Bool.and_false, hlast, hlong, decide_true, Bool.and_self, hdrop]

end Twrp.Fstab
