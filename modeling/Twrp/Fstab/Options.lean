import Twrp.Fstab.Flags

/-! The mount options of an fstab line (`fsflags=` of `TWPartition::Process_Flags`, and
`TWPartition::Process_FS_Flags`).

An option that names an entry of `mount_flags` should become bits of `Mount_Flags`, any other
should stay in `Mount_Options`. The options are passed by reference and the bits by value, so
the bits are lost; an option counts as an entry that it only begins with; and the options are
copied into an array of 250 bytes. What was meant is told here from the table alone (`flagOf`,
`others`), and the two agree on exactly the options of `Kept` (`fsflags_split_iff`). -/
namespace Twrp.Fstab
open Base

/-! ### The code -/

/-- `mount_flags`, with the `MS_` bits of `<sys/mount.h>`. -/
def mountFlagTable : List (String × BitVec 32) :=
  [("noatime", 1024), ("noexec", 8), ("nosuid", 2), ("nodev", 4), ("nodiratime", 2048), ("ro", 1), ("rw", 0),
    ("remount", 32), ("bind", 4096), ("rec", 16384), ("unbindable", 131072), ("private", 262144), ("slave", 524288),
    ("shared", 1048576), ("sync", 16), ("defaults", 0)]

theorem mountFlagTable_names : mountFlagTable.map (·.1) = mountFlags := rfl

/-- `Mount_Options` and `Mount_Flags`. -/
structure Mount where
  options : List UInt8
  flags : BitVec 32
deriving DecidableEq

/-- The first entry whose name the option begins with: `strncmp(p, name, strlen(name)) == 0`. -/
def matchedFlag (p : List UInt8) : Option (BitVec 32) :=
  (mountFlagTable.find? fun e => (lit e.1).isPrefixOf p).map (·.2)

/-- The body of the loop, on `Options` and the argument `Flags`. -/
def fsOption (s : Mount) (p : List UInt8) : Mount :=
  match matchedFlag p with
  | some flag => {s with flags := s.flags ||| flag}
  | none => {s with options := (if s.options ≠ [] then s.options ++ [44] else s.options) ++ p}

/-- `Process_FS_Flags`: what its two variables hold at its end. -/
def fsOptions (options : List UInt8) (flags : BitVec 32) : Mount :=
  (tokens [44] (options.take 249)).foldl fsOption ⟨[], flags⟩

/-- What `Process_Flags` does with the text after `fsflags=`. `Mount_Flags` is passed by value. -/
def fsflags (m : Mount) (text : List UInt8) : Option Mount :=
  (unquoted text).map fun options => {m with options := (fsOptions options m.flags).options}

/-! ### The loop -/

/-- The options that no entry matches. -/
def unmatched (pieces : List (List UInt8)) : List (List UInt8) := pieces.filter fun p => matchedFlag p = none

theorem matchedFlag_eq_none {p : List UInt8} :
    matchedFlag p = none ↔ ∀ e ∈ mountFlagTable, ¬lit e.1 <+: p := by
  simp [matchedFlag, List.find?_eq_none]

theorem intercalate_concat {sep p : List UInt8} {pieces : List (List UInt8)} (h : pieces ≠ []) :
    List.intercalate sep (pieces ++ [p]) = List.intercalate sep pieces ++ sep ++ p := by
  induction pieces with
  | nil => exact absurd rfl h
  | cons q pieces ih =>
    cases pieces with
    | nil => simp [List.intercalate]
    | cons r pieces =>
      have hrest := ih (List.cons_ne_nil r pieces)
      simp only [List.intercalate, List.cons_append, List.intersperse_cons_cons, List.flatten_cons] at hrest ⊢
      rw [hrest]
      simp only [List.append_assoc]

theorem intercalate_ne_nil {sep : List UInt8} {pieces : List (List UInt8)} (h : pieces ≠ []) (hne : ∀ p ∈ pieces, p ≠ []) :
    List.intercalate sep pieces ≠ [] := by
  cases pieces with
  | nil => exact absurd rfl h
  | cons p pieces =>
    have hp : p ≠ [] := hne p List.mem_cons_self
    cases pieces <;> simp [List.intercalate, hp]

/-- The loop keeps the options read so far that no entry matches, joined by commas. -/
theorem foldl_fsOption (done pieces : List (List UInt8)) (hne : ∀ p ∈ done ++ pieces, p ≠ []) (s : Mount)
    (hs : s.options = List.intercalate [44] (unmatched done)) :
    (pieces.foldl fsOption s).options = List.intercalate [44] (unmatched (done ++ pieces)) := by
  induction pieces generalizing done s with
  | nil => simpa using hs
  | cons p pieces ih =>
    rw [List.foldl_cons, List.append_cons]
    apply ih
    · simpa using hne
    · cases hmatch : matchedFlag p with
      | some flag => simp [fsOption, hmatch, hs, unmatched]
      | none =>
        have hkept : unmatched (done ++ [p]) = unmatched done ++ [p] := by simp [unmatched, hmatch]
        rw [hkept, fsOption, hmatch]
        by_cases hnil : unmatched done = []
        · simp [hs, hnil, List.intercalate]
        · have hfull : List.intercalate [44] (unmatched done) ≠ [] := by
            apply intercalate_ne_nil hnil
            intro q hq
            exact hne q (List.mem_append_left _ (List.mem_of_mem_filter hq))
          simp only [hs, ne_eq, hfull, not_false_eq_true, if_true]
          exact (intercalate_concat hnil).symm

theorem fsOptions_options (options : List UInt8) (flags : BitVec 32) :
    (fsOptions options flags).options = List.intercalate [44] (unmatched (splitString 44 (options.take 249))) := by
  rw [fsOptions, tokens_splitOn]
  apply foldl_fsOption []
  · intro p hp
    exact of_decide_eq_true (List.mem_filter.mp hp).2
  · rfl

/-- The options are those of the chain of flags. -/
theorem fsOptions_processFSFlags (options : List UInt8) (flags : BitVec 32) :
    (fsOptions options flags).options = processFSFlags options := by
  rw [fsOptions_options, processFSFlags, tokens_splitOn, unmatched, splitString]
  congr 2
  funext p
  rw [← mountFlagTable_names, List.all_map, Bool.eq_iff_iff]
  simp [matchedFlag_eq_none, ← List.isPrefixOf_iff_prefix]

/-- Of the chain of tests, an item that begins with `fsflags=` only passes the last. -/
theorem processItem_fsflags (excludeEncrypted : Bool) (s : State) {v : List UInt8} (hv : v ≠ []) (flags : BitVec 32) :
    processItem excludeEncrypted s (lit "fsflags=" ++ v) = (fsflags ⟨s.part.mountOptions, flags⟩ v).map fun m =>
      {s with part := {s.part with mountOptions := m.options}} := by
  have hlen : (lit "fsflags=").length = 8 := by decide
  have hmem : (61 : UInt8) ∈ lit "fsflags=" ++ v := List.mem_append_left _ (by decide)
  have hwords : ∀ w ∈ words, ¬lit "fsflags=" ++ v = lit w.1 := by
    intro w hw heq
    exact words_plain w hw (heq ▸ hmem)
  have hkeys : ∀ k ∈ [("backup=", 7), ("subpartitionof=", 15), ("symlink=", 8), ("display=", 8), ("storagename=", 11),
      ("backupname=", 10), ("blocksize=", 10), ("length=", 7), ("canencryptbackup=", 17), ("userdataencryptbackup=", 21)],
      ¬(lit "fsflags=" ++ v).take k.2 = (lit k.1).take k.2 := by
    -- the first byte differs already
    have hone : ∀ k ∈ [("backup=", 7), ("subpartitionof=", 15), ("symlink=", 8), ("display=", 8), ("storagename=", 11),
        ("backupname=", 10), ("blocksize=", 10), ("length=", 7), ("canencryptbackup=", 17), ("userdataencryptbackup=", 21)],
        ¬(lit "fsflags=").take (min 1 k.2) = (lit k.1).take (min 1 k.2) := by decide
    intro k hk heq
    have hcut := congrArg (List.take 1) heq
    rw [List.take_take, List.take_take, List.take_append_of_le_length (by omega)] at hcut
    exact hone k hk hcut
  have hlast : (lit "fsflags=" ++ v).take 8 = (lit "fsflags=").take 8 := List.take_append_of_le_length (by omega)
  have hlong : 8 < (lit "fsflags=" ++ v).length := by
    have hpos := List.length_pos_of_ne_nil hv
    rw [List.length_append]
    omega
  have hdrop : (lit "fsflags=" ++ v).drop 8 = v := by
    rw [List.drop_append_of_le_length (by omega)]
    rfl
  have hrun : processItem excludeEncrypted s (lit "fsflags=" ++ v) = (unquoted v).map fun options =>
      {s with part := {s.part with mountOptions := processFSFlags options}} := by
    simp only [words, List.forall_mem_cons, List.not_mem_nil, false_implies, implies_true, and_true] at hwords
    simp only [List.forall_mem_cons, List.not_mem_nil, false_implies, implies_true, and_true, hlast] at hkeys
    cases excludeEncrypted <;>
      simp only [processItem, rules, plainRules, encryptionRules, mountRules, if_true, Bool.false_eq_true, if_false,
        List.append_nil, List.cons_append, List.nil_append, List.find?_cons, word, valued, hwords, hkeys,
        decide_false, Bool.and_false, hlast, hlong, decide_true, Bool.and_self, hdrop]
  rw [hrun, fsflags, Option.map_map]
  congr 1
  funext options
  simp only [Function.comp_apply, fsOptions_processFSFlags]

/-! ### What the options mean -/

/-- The options of a text: between commas, and not empty. -/
def optionsOf (text : List UInt8) : List (List UInt8) := splitString 44 text

/-- The bits of the entry that has this name. -/
def flagOf (p : List UInt8) : Option (BitVec 32) := (mountFlagTable.find? fun e => lit e.1 = p).map (·.2)

/-- The options that name no entry. -/
def others (text : List UInt8) : List (List UInt8) := (optionsOf text).filter fun p => flagOf p = none

/-- The bits of all options that name an entry. -/
def union (text : List UInt8) : BitVec 32 := ((optionsOf text).filterMap flagOf).foldl (· ||| ·) 0

theorem flagOf_eq_none {p : List UInt8} : flagOf p = none ↔ ∀ e ∈ mountFlagTable, lit e.1 ≠ p := by
  simp [flagOf, List.find?_eq_none]

/-- An option that names an entry begins with it. -/
theorem flagOf_of_matchedFlag {p : List UInt8} (h : matchedFlag p = none) : flagOf p = none := by
  rw [flagOf_eq_none]
  intro e he heq
  exact matchedFlag_eq_none.mp h e he (heq ▸ List.prefix_rfl)

/-- No entry is the beginning of another. -/
theorem mountFlagTable_free : ∀ e ∈ mountFlagTable, ∀ f ∈ mountFlagTable, lit e.1 <+: lit f.1 → lit e.1 = lit f.1 := by
  decide

theorem foldl_or_eq_zero (bits : List (BitVec 32)) (acc : BitVec 32) :
    bits.foldl (· ||| ·) acc = 0 ↔ acc = 0 ∧ ∀ b ∈ bits, b = 0 := by
  induction bits generalizing acc with
  | nil => simp
  | cons b bits ih =>
    have hor : acc ||| b = 0 ↔ acc = 0 ∧ b = 0 := BitVec.or_eq_zero_iff
    rw [List.foldl_cons, ih, hor, List.forall_mem_cons, and_assoc]

/-! ### When the code keeps to it -/

/-- The options on which nothing is lost. -/
structure Kept (text : List UInt8) : Prop where
  /-- No bit is asked for: the entries named are `rw` and `defaults`. -/
  flagless : ∀ p ∈ optionsOf text, ∀ flag, flagOf p = some flag → flag = 0
  /-- What begins with an entry's name is that name. -/
  whole : ∀ p ∈ optionsOf text, flagOf p = none → ∀ e ∈ mountFlagTable, ¬lit e.1 <+: p
  /-- All the other options are found in the first 249 bytes. -/
  fits : others (text.take 249) = others text

/-- What the code keeps are the other options where no other option begins with an entry
and the array holds them. -/
theorem unmatched_eq_others (text : List UInt8) :
    unmatched (optionsOf (text.take 249)) = others text ↔
      (∀ p ∈ optionsOf text, flagOf p = none → ∀ e ∈ mountFlagTable, ¬lit e.1 <+: p) ∧
        others (text.take 249) = others text := by
  -- a cut that leaves an entry's name in front cuts nothing off
  have hcut : (∀ p ∈ optionsOf text, flagOf p = none → ∀ e ∈ mountFlagTable, ¬lit e.1 <+: p) →
      unmatched (optionsOf (text.take 249)) = others (text.take 249) := by
    intro hwhole
    apply List.filter_congr
    intro q hq
    rw [decide_eq_decide]
    constructor
    · exact flagOf_of_matchedFlag
    · intro hnone
      rw [matchedFlag_eq_none]
      intro e he hpre
      obtain ⟨p, hp, hqp⟩ := splitString_take 44 text 249 hq
      have hep : lit e.1 <+: p := hpre.trans hqp
      have hnamed : flagOf p ≠ none := fun h => hwhole p hp h e he hep
      rw [Ne, flagOf_eq_none] at hnamed
      push Not at hnamed
      obtain ⟨f, hf, hname⟩ := hnamed
      have hsame : lit e.1 = lit f.1 := mountFlagTable_free e he f hf (hname ▸ hep)
      have hqe : q = lit e.1 := by
        rw [hsame, hname]
        exact hqp.eq_of_length_le (by rw [← hname, ← hsame]; exact hpre.length_le)
      exact flagOf_eq_none.mp hnone e he hqe.symm
  constructor
  · intro heq
    have hwhole : ∀ p ∈ optionsOf text, flagOf p = none → ∀ e ∈ mountFlagTable, ¬lit e.1 <+: p := by
      intro p hp hnone
      have hmem : p ∈ others text := List.mem_filter.mpr ⟨hp, decide_eq_true hnone⟩
      rw [← heq] at hmem
      exact matchedFlag_eq_none.mp (of_decide_eq_true (List.mem_filter.mp hmem).2)
    exact ⟨hwhole, (hcut hwhole).symm.trans heq⟩
  · intro ⟨hwhole, hfits⟩
    exact (hcut hwhole).trans hfits

/-- Lists of options are told apart by their texts. -/
theorem intercalate_options {a b : List (List UInt8)} (ha : ∀ p ∈ a, p ≠ [] ∧ 44 ∉ p) (hb : ∀ p ∈ b, p ≠ [] ∧ 44 ∉ p) :
    List.intercalate [44] a = List.intercalate [44] b ↔ a = b := by
  constructor
  · intro h
    have hsplit := congrArg (splitString 44) h
    rwa [splitString_intercalate 44 ha, splitString_intercalate 44 hb] at hsplit
  · intro h
    rw [h]

theorem of_mem_optionsOf {text p : List UInt8} (h : p ∈ optionsOf text) : p ≠ [] ∧ 44 ∉ p := by
  obtain ⟨hmem, hne⟩ := List.mem_filter.mp h
  exact ⟨of_decide_eq_true hne, (of_mem_splitOn 44 hmem).1⟩

theorem union_eq_zero (text : List UInt8) :
    union text = 0 ↔ ∀ p ∈ optionsOf text, ∀ flag, flagOf p = some flag → flag = 0 := by
  rw [union, foldl_or_eq_zero]
  simp only [true_and, List.mem_filterMap]
  constructor
  · intro h p hp flag hflag
    exact h flag ⟨p, hp, hflag⟩
  · intro h flag ⟨p, hp, hflag⟩
    exact h p hp flag hflag

/-- The text after `fsflags=` is taken apart as it should be, on a partition whose
`Mount_Flags` is still that of the constructor: no bit and no option too much or too few. -/
def SplitRight (given : List UInt8) (text : List UInt8) : Prop :=
  ∃ m, fsflags ⟨given, 0⟩ text = some m ∧ m.flags = union (bare text) ∧
    m.options = List.intercalate [44] (others (bare text))

/-- Where the text is nothing but one quote, the code throws. -/
theorem fsflags_split_iff (given text : List UInt8) :
    SplitRight given text ↔ text ≠ [] ∧ text ≠ [34] ∧ Kept (bare text) := by
  by_cases hempty : text = []
  · subst hempty
    simp [SplitRight, fsflags, unquoted]
  · by_cases hlone : text = [34]
    · subst hlone
      simp [SplitRight, fsflags, unquoted]
    · have hrun : fsflags ⟨given, 0⟩ text =
          some ⟨List.intercalate [44] (unmatched (optionsOf ((bare text).take 249))), 0⟩ := by
        rw [fsflags, unquoted_eq hempty hlone, Option.map_some, fsOptions_options]
        rfl
      have hleft : ∀ p ∈ unmatched (optionsOf ((bare text).take 249)), p ≠ [] ∧ 44 ∉ p := fun p hp =>
        of_mem_optionsOf (List.mem_of_mem_filter hp)
      have hright : ∀ p ∈ others (bare text), p ≠ [] ∧ 44 ∉ p := fun p hp =>
        of_mem_optionsOf (List.mem_of_mem_filter hp)
      rw [SplitRight, hrun]
      simp only [Option.some.injEq, exists_eq_left', intercalate_options hleft hright, unmatched_eq_others,
        eq_comm (a := (0 : BitVec 32)), union_eq_zero, ne_eq, hempty, hlone, not_false_eq_true, true_and]
      constructor
      · rintro ⟨hflagless, hwhole, hfits⟩
        exact ⟨hflagless, hwhole, hfits⟩
      · rintro ⟨hflagless, hwhole, hfits⟩
        exact ⟨hflagless, hwhole, hfits⟩

/-- The bit of `noatime` does not reach the partition. -/
theorem not_splitRight_noatime : ¬SplitRight [] (lit "noatime") := by
  intro ⟨m, hrun, hflags, hoptions⟩
  have hvalue : fsflags ⟨[], 0⟩ (lit "noatime") = some ⟨[], 0⟩ := by decide
  rw [hvalue] at hrun
  obtain rfl := Option.some.inj hrun
  exact absurd hflags (by decide)

example : fsflags ⟨[], 0⟩ (lit "\"rw,errors=panic,syncopate,barrier=1\"") = some ⟨lit "errors=panic,barrier=1", 0⟩ := by
  decide

end Twrp.Fstab
