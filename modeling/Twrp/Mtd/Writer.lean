import Twrp.Mtd.Reader

/-! Writing a partition as a stream.

The writer meets the blocks it can use in order, and puts the whole blocks of its data into them,
however the data is cut; the rest waits for the closing call, which pads it and erases what is behind
it. A block that is given up is left erased, or as it was if it cannot be erased. -/
namespace Twrp.Mtd.Chip
open Base

variable (c : Chip)

/-- The writer takes the block. -/
def usable (i : Nat) : Bool := !c.marked i && (c.fault i).isNone

/-- How many of the blocks before a place the writer takes. -/
abbrev rank (i : Nat) : Nat := Nat.count (fun i => c.usable i = true) i

/-- How many blocks the writer can take. -/
def capacity : Nat := c.rank c.blocks

/-- What erasing a block makes of it. -/
def wiped (i : Nat) (b : Block UInt8 c.eraseSize) : Block UInt8 c.eraseSize :=
  match c.fault i with
  | some .erase => b
  | _ => erased c.eraseSize

/-- What a block holds that the writer has passed. -/
def passed (i : Nat) (b : Block UInt8 c.eraseSize) : Block UInt8 c.eraseSize := if c.marked i then b else c.wiped i b

/-- What a block holds once `bs` have been written over `content` and what is behind them erased. -/
def laid (content : Nat → Block UInt8 c.eraseSize) (bs : List (Block UInt8 c.eraseSize)) (i : Nat) : Block UInt8 c.eraseSize :=
  if c.usable i then bs.getD (c.rank i) (erased c.eraseSize) else c.passed i (content i)

/-- The blocks `bs` have been written over `content`, up to the file offset. -/
structure Written (content : Nat → Block UInt8 c.eraseSize) (bs : List (Block UInt8 c.eraseSize)) (d : Flash c.eraseSize) : Prop where
  offset_le : d.offset ≤ c.blocks
  rank_eq : c.rank d.offset = bs.length
  content_eq : ∀ i, d.content i = if i < d.offset then c.laid content bs i else content i

variable {c}

theorem memgetbadblock_pos {i : Nat} : (c.memgetbadblock i).1 > 0 ↔ c.marked i = true := by
  unfold memgetbadblock marked
  cases c.marks with
  | none => simp
  | some bad => cases h : bad i <;> simp [h]

/-- The writer's test for a marked block allows for a driver that knows no marks. -/
theorem memgetbadblock_skipped {i : Nat} :
    ((c.memgetbadblock i).1 ≠ 0 ∧ ¬((c.memgetbadblock i).1 = -1 ∧ (c.memgetbadblock i).2 = .EOPNOTSUPP)) ↔ c.marked i = true := by
  unfold memgetbadblock marked
  cases c.marks with
  | none => simp
  | some bad => cases h : bad i <;> simp [h]

theorem memerase_content (i : Nat) (d : Flash c.eraseSize) :
    (c.memerase i d).2.content = Function.update d.content i (c.wiped i (d.content i)) := by
  unfold memerase wiped
  rcases c.fault i with _ | _ | _ <;> simp

/-- A block that is neither marked nor worn out is written at the first try. -/
theorem writeOnce_usable {i : Nat} (h : c.usable i = true) (b : Block UInt8 c.eraseSize) (d : Flash c.eraseSize) :
    ∃ d', c.writeOnce i b d = (true, d') ∧ d'.offset = i + 1 ∧ d'.content = Function.update d.content i b := by
  simp only [usable, Bool.and_eq_true, Bool.not_eq_true', Option.isNone_iff_eq_none] at h
  have hclean := c.sound i h.1 h.2
  refine ⟨⟨Function.update d.content i b, d.failed, i + 1⟩, ?_, rfl, rfl⟩
  simp [writeOnce, memerase, write, read, h.2, hclean, Reading.clean]

/-- A worn out block is never written, and nothing else is touched. -/
theorem writeOnce_fault {i : Nat} {f : Fault c.eraseSize} (h : c.fault i = some f) (b : Block UInt8 c.eraseSize) (d : Flash c.eraseSize) :
    ∃ d' x, c.writeOnce i b d = (false, d') ∧ d'.content = Function.update d.content i x ∧ c.wiped i x = c.wiped i (d.content i) := by
  cases f with
  | erase =>
    refine ⟨d, d.content i, ?_, by simp, rfl⟩
    simp only [writeOnce, memerase, h]
  | verify garble differs =>
    have hcontent : ∀ d', c.read i (c.write i b (c.memerase i d).2) = d' → d'.2.content = Function.update d.content i (garble b) := by
      intro d' hread
      rw [(read_content hread).1]
      simp [write, memerase, h]
    have hwiped : c.wiped i (garble b) = c.wiped i (d.content i) := by simp only [wiped, h]
    have herase : c.memerase i d = (true, (c.memerase i d).2) := by simp only [memerase, h]
    rcases hread : c.read i (c.write i b (c.memerase i d).2) with ⟨got, d'⟩
    refine ⟨d', garble b, ?_, hcontent _ hread, hwiped⟩
    rw [writeOnce, herase]
    simp only [hread]
    cases got with
    | none => rfl
    | some verify =>
      obtain ⟨-, hverify, -⟩ := read_done hread
      have : verify = garble b := by
        rw [hverify, ← (read_content hread).1, hcontent _ hread, Function.update_self]
      simp only [this, decide_eq_false (differs b).symm]

/-- What one call of `write_block` does: it writes the next block it can use, if there is one. -/
def PutsNext (pos : Nat) (b : Block UInt8 c.eraseSize) (d : Flash c.eraseSize) (r : Except (Flash c.eraseSize) (Flash c.eraseSize)) :
    Prop :=
  match ahead c.usable c.blocks pos with
  | [] => ∃ d', r = .error d'
  | i :: _ => ∃ d', r = .ok d' ∧ d'.offset = i + 1 ∧
      ∀ j, d'.content j = if j = i then b else if pos ≤ j ∧ j < i then c.passed j (d.content j) else d.content j

theorem PutsNext.skip {pos : Nat} {b : Block UInt8 c.eraseSize} {d d' : Flash c.eraseSize}
    {r : Except (Flash c.eraseSize) (Flash c.eraseSize)} (hskip : c.usable pos = false)
    (hcontent : d'.content = Function.update d.content pos (c.passed pos (d.content pos))) (h : PutsNext (pos + 1) b d' r) :
    PutsNext pos b d r := by
  unfold PutsNext at h ⊢
  rw [ahead_skip hskip]
  cases hahead : ahead c.usable c.blocks (pos + 1) with
  | nil =>
    rw [hahead] at h
    exact h
  | cons i t =>
    rw [hahead] at h
    obtain ⟨d₂, hok, hoffset, hafter⟩ := h
    obtain ⟨-, hle, -, -, -⟩ := ahead_cons hahead
    refine ⟨d₂, hok, hoffset, fun j => ?_⟩
    rw [hafter j, hcontent]
    by_cases hj : j = pos
    · subst hj
      rw [if_neg (by omega), if_neg (by omega), if_neg (by omega), if_pos ⟨le_refl _, by omega⟩, Function.update_self]
    · rw [Function.update_of_ne hj]
      by_cases hi : j = i
      · rw [if_pos hi, if_pos hi]
      · rw [if_neg hi, if_neg hi]
        by_cases hbetween : pos + 1 ≤ j ∧ j < i
        · rw [if_pos hbetween, if_pos ⟨by omega, hbetween.2⟩]
        · rw [if_neg hbetween, if_neg (by omega)]

theorem writeBlockFrom_next (pos : Nat) (b : Block UInt8 c.eraseSize) (d : Flash c.eraseSize) :
    PutsNext pos b d (c.writeBlockFrom pos b d) := by
  induction hleft : c.blocks - pos using Nat.strong_induction_on generalizing pos d with
  | _ n ih =>
    rw [writeBlockFrom]
    by_cases hpos : pos < c.blocks
    · rw [if_pos hpos]
      have hnext : ∀ d', PutsNext (pos + 1) b d' (c.writeBlockFrom (pos + 1) b d') := fun d' => ih _ (by omega) (pos + 1) d' rfl
      by_cases hmarked : c.marked pos = true
      · rw [if_pos (memgetbadblock_skipped.mpr hmarked)]
        apply PutsNext.skip (by simp [usable, hmarked]) _ (hnext d)
        rw [passed, if_pos hmarked, Function.update_eq_self]
      · rw [if_neg (mt memgetbadblock_skipped.mp hmarked)]
        cases hfault : c.fault pos with
        | none =>
          have husable : c.usable pos = true := by simp [usable, hmarked, hfault]
          obtain ⟨d', honce, hoffset, hcontent⟩ := writeOnce_usable husable b d
          rw [honce]
          unfold PutsNext
          rw [ahead_take hpos husable]
          refine ⟨d', rfl, hoffset, fun j => ?_⟩
          rw [hcontent]
          by_cases hj : j = pos
          · subst hj
            rw [Function.update_self, if_pos rfl]
          · rw [Function.update_of_ne hj, if_neg hj, if_neg (by omega)]
        | some f =>
          obtain ⟨d₁, x, honce, hcontent, hwiped⟩ := writeOnce_fault hfault b d
          obtain ⟨d₂, y, htwice, hcontent₂, hwiped₂⟩ := writeOnce_fault hfault b d₁
          simp only [honce, htwice]
          apply PutsNext.skip (by simp [usable, hfault]) _ (hnext _)
          rw [memerase_content, hcontent₂, Function.update_self, hwiped₂, hcontent, Function.update_self, hwiped, passed,
            if_neg hmarked, Function.update_idem, Function.update_idem]
    · rw [if_neg hpos]
      unfold PutsNext
      rw [ahead_end (Nat.le_of_not_lt hpos)]
      exact ⟨d, rfl⟩

section Written
variable {content : Nat → Block UInt8 c.eraseSize} {bs : List (Block UInt8 c.eraseSize)} {d : Flash c.eraseSize}

theorem laid_usable {i : Nat} (h : c.usable i = true) : c.laid content bs i = bs.getD (c.rank i) (erased c.eraseSize) := by
  rw [laid, if_pos h]

theorem laid_passed {i : Nat} (h : c.usable i = false) : c.laid content bs i = c.passed i (content i) := by
  rw [laid, if_neg (by simp [h])]

theorem Written.length_ahead (h : c.Written content bs d) : (ahead c.usable c.blocks d.offset).length + bs.length = c.capacity := by
  rw [← h.rank_eq]
  exact Base.length_ahead h.offset_le

/-- The blocks written so far stay as they are. -/
theorem laid_append {i : Nat} (hrank : c.rank i < bs.length) (more : List (Block UInt8 c.eraseSize)) :
    c.laid content (bs ++ more) i = c.laid content bs i := by
  unfold laid
  rw [List.getD_eq_getElem?_getD, List.getElem?_append_left hrank, List.getD_eq_getElem?_getD]

theorem Written.put (h : c.Written content bs d) (b : Block UInt8 c.eraseSize) (hlt : bs.length < c.capacity) :
    ∃ d', c.writeBlock b d = .ok d' ∧ c.Written content (bs ++ [b]) d' := by
  have hlength := h.length_ahead
  have hnext := writeBlockFrom_next d.offset b d
  unfold PutsNext at hnext
  obtain ⟨i, t, hahead⟩ := List.exists_cons_of_length_pos (l := ahead c.usable c.blocks d.offset) (by omega)
  obtain ⟨husable, hle, hblocks, -, hbetween⟩ := ahead_cons hahead
  rw [hahead] at hnext
  obtain ⟨d', hok, hoffset, hcontent⟩ := hnext
  have hrank : c.rank i = bs.length := (count_skip hle hbetween).trans h.rank_eq
  refine ⟨d', hok, ?_, ?_, fun j => ?_⟩
  · rw [hoffset]
    exact hblocks
  · rw [hoffset, rank, Nat.count_succ, if_pos husable, List.length_append, List.length_singleton]
    exact congrArg (· + 1) hrank
  · rw [hcontent j, hoffset]
    by_cases hj : j = i
    · subst hj
      rw [if_pos rfl, if_pos (Nat.lt_succ_self _), laid_usable husable, hrank,
        List.getD_eq_getElem?_getD, List.getElem?_concat_length]
      rfl
    · rw [if_neg hj]
      by_cases hpast : d.offset ≤ j ∧ j < i
      · rw [if_pos hpast, if_pos (by omega), laid_passed (hbetween j hpast.1 hpast.2), h.content_eq, if_neg (by omega)]
      · rw [if_neg hpast, h.content_eq]
        by_cases hbefore : j < d.offset
        · rw [if_pos hbefore, if_pos (by omega)]
          by_cases hj' : c.usable j = true
          · rw [laid_append]
            rw [← h.rank_eq]
            exact Nat.count_strict_mono hj' hbefore
          · rw [Bool.not_eq_true] at hj'
            rw [laid_passed hj', laid_passed hj']
        · rw [if_neg hbefore, if_neg (by omega)]

theorem Written.full (h : c.Written content bs d) (b : Block UInt8 c.eraseSize) (hge : c.capacity ≤ bs.length) :
    ∃ d', c.writeBlock b d = .error d' := by
  have hlength := h.length_ahead
  have hnext := writeBlockFrom_next d.offset b d
  unfold PutsNext at hnext
  rw [List.eq_nil_of_length_eq_zero (l := ahead c.usable c.blocks d.offset) (by omega)] at hnext
  exact hnext

theorem Written.puts (h : c.Written content bs d) (more : List (Block UInt8 c.eraseSize)) (hle : bs.length + more.length ≤ c.capacity) :
    ∃ d', c.writeBlocks more d = .ok d' ∧ c.Written content (bs ++ more) d' := by
  induction more generalizing bs d with
  | nil => exact ⟨d, rfl, by rwa [List.append_nil]⟩
  | cons b more ih =>
    rw [List.length_cons] at hle
    obtain ⟨d₁, hput, h₁⟩ := h.put b (by omega)
    obtain ⟨d₂, hputs, h₂⟩ := ih h₁ (by rw [List.length_append, List.length_singleton]; omega)
    refine ⟨d₂, ?_, ?_⟩
    · rw [writeBlocks, hput]
      exact hputs
    · rwa [List.append_assoc, List.singleton_append] at h₂

theorem Written.overflows (h : c.Written content bs d) (more : List (Block UInt8 c.eraseSize)) (hlt : c.capacity < bs.length + more.length)
    (hle : bs.length ≤ c.capacity) : ∃ d', c.writeBlocks more d = .error d' := by
  induction more generalizing bs d with
  | nil =>
    rw [List.length_nil] at hlt
    omega
  | cons b more ih =>
    rw [List.length_cons] at hlt
    rw [writeBlocks]
    rcases Nat.lt_or_ge bs.length c.capacity with hroom | hroom
    · obtain ⟨d₁, hput, h₁⟩ := h.put b hroom
      rw [hput]
      apply ih h₁ <;> rw [List.length_append, List.length_singleton] <;> omega
    · obtain ⟨d₁, hput⟩ := h.full b hroom
      rw [hput]
      exact ⟨d₁, rfl⟩

end Written

section Data
variable {ctx : MtdWriteContext c.eraseSize} {d : Flash c.eraseSize}

/-- A context that holds what is left of a stream. -/
def waiting (c : Chip) (stream : List UInt8) : MtdWriteContext c.eraseSize :=
  ⟨leftover c.eraseSize stream, by
    rw [length_leftover]
    exact Nat.le_of_lt (Nat.mod_lt _ (Nat.zero_lt_of_lt c.eraseSize_gt))⟩

theorem waiting_block (b : Block UInt8 c.eraseSize) (stream : List UInt8) : c.waiting (b.val ++ stream) = c.waiting stream := by
  simp only [waiting, leftover_block (Nat.zero_lt_of_lt c.eraseSize_gt)]

theorem writeBlocks_append (bs more : List (Block UInt8 c.eraseSize)) (d : Flash c.eraseSize) :
    c.writeBlocks (bs ++ more) d = c.writeBlocks bs d >>= c.writeBlocks more := by
  induction bs generalizing d with
  | nil => rfl
  | cons b bs ih =>
    rw [List.cons_append, writeBlocks, writeBlocks]
    cases c.writeBlock b d with
    | error => rfl
    | ok d => exact ih d

/-- Less than a block of data is kept. -/
theorem mtdWriteData_short {data : List UInt8} (hshort : ctx.buffer.length + data.length < c.eraseSize) :
    c.mtdWriteData ctx data d = .ok (c.waiting (ctx.buffer ++ data), d) := by
  have hleft : leftover c.eraseSize (ctx.buffer ++ data) = ctx.buffer ++ data :=
    leftover_short (by rw [List.length_append]; exact hshort)
  have hctx : ∀ ctx' : MtdWriteContext c.eraseSize, ctx'.buffer = ctx.buffer ++ data → ctx' = c.waiting (ctx.buffer ++ data) := by
    intro ctx' h
    cases ctx'
    simp only [waiting, hleft, MtdWriteContext.mk.injEq]
    exact h
  rw [mtdWriteData]
  by_cases hnil : data = []
  · rw [dif_pos hnil, ← hctx ctx (by rw [hnil, List.append_nil])]
  · have hpos := List.length_pos_of_ne_nil hnil
    have hpartly : ctx.partly data := .inr (by omega)
    have hbuffer : (ctx.coalesce data).buffer = ctx.buffer ++ data := by
      simp only [MtdWriteContext.coalesce, if_pos hpartly]
      rw [List.take_of_length_le (by omega)]
    have hlength : (ctx.coalesce data).buffer.length = ctx.buffer.length + data.length := by rw [hbuffer, List.length_append]
    have hemptied : (ctx.coalesce data).emptied = ctx.coalesce data := if_neg (by omega)
    have huncopied : ctx.uncopied data = [] := by
      rw [MtdWriteContext.uncopied, if_pos hpartly, List.drop_eq_nil_of_le (by omega)]
    have hunwritten : (ctx.coalesce data).unwritten [] = [] := if_neg (by omega)
    have hfull : c.writeFull (ctx.coalesce data) d = .ok d := dif_neg (by omega)
    have hdirect : c.writeDirect (ctx.coalesce data) [] d = .ok d := if_neg (by omega)
    simp only [hemptied, huncopied, hunwritten, hfull, bind, Except.bind, hdirect, dif_neg hnil]
    rw [mtdWriteData, dif_pos rfl, hctx _ hbuffer]

/-- Once the buffer is empty, whole blocks go to the flash and the rest to the buffer. -/
theorem writeDirect_then (data : List UInt8) (d : Flash c.eraseSize) :
    (do
      let d ← c.writeDirect (.opened _) data d
      c.mtdWriteData (.opened _) ((MtdWriteContext.opened c.eraseSize).unwritten data) d) =
      (c.writeBlocks (wholes c.eraseSize data) d).map fun d => (c.waiting data, d) := by
  have he := c.eraseSize_gt
  have hunwritten : (MtdWriteContext.opened c.eraseSize).unwritten data = leftover c.eraseSize data := if_pos rfl
  have hlt : (leftover c.eraseSize data).length < c.eraseSize := by
    rw [length_leftover]
    exact Nat.mod_lt _ (by omega)
  have hdirect : c.writeDirect (.opened _) data d = c.writeBlocks (wholes c.eraseSize data) d := if_pos rfl
  rw [hdirect, hunwritten]
  cases c.writeBlocks (wholes c.eraseSize data) d with
  | error => rfl
  | ok d =>
    show c.mtdWriteData _ _ d = _
    have hempty : (MtdWriteContext.opened c.eraseSize).buffer = [] := rfl
    rw [mtdWriteData_short (by rw [hempty, List.length_nil]; omega), hempty, List.nil_append]
    simp only [Except.map, waiting, leftover_short hlt]

/-- `mtd_write_data` writes the whole blocks of what is stored and the data, and stores the rest. -/
theorem mtdWriteData_eq (hlt : ctx.buffer.length < c.eraseSize) (data : List UInt8) (d : Flash c.eraseSize) :
    c.mtdWriteData ctx data d =
      (c.writeBlocks (wholes c.eraseSize (ctx.buffer ++ data)) d).map fun d => (c.waiting (ctx.buffer ++ data), d) := by
  have he := c.eraseSize_gt
  rcases Nat.lt_or_ge (ctx.buffer.length + data.length) c.eraseSize with hshort | hlong
  · rw [mtdWriteData_short hshort, wholes_short (by rw [List.length_append]; exact hshort)]
    rfl
  · have hnil : data ≠ [] := by
      intro h
      rw [h, List.length_nil] at hlong
      omega
    rw [mtdWriteData, dif_neg hnil]
    by_cases hpartly : ctx.partly data
    · have hbuffer : (ctx.coalesce data).buffer = ctx.buffer ++ data.take (c.eraseSize - ctx.buffer.length) := if_pos hpartly
      have hlength : (ctx.coalesce data).buffer.length = c.eraseSize := by
        rw [hbuffer, List.length_append, List.length_take_of_le (by omega)]
        omega
      have hemptied : (ctx.coalesce data).emptied = .opened _ := if_pos hlength
      have huncopied : ctx.uncopied data = data.drop (c.eraseSize - ctx.buffer.length) := if_pos hpartly
      let b : Block UInt8 c.eraseSize := ⟨(ctx.coalesce data).buffer, hlength⟩
      have hsplit : ctx.buffer ++ data = b.val ++ ctx.uncopied data := by
        show _ = (ctx.coalesce data).buffer ++ _
        rw [hbuffer, huncopied, List.append_assoc, List.take_append_drop]
      have hfull : c.writeFull (ctx.coalesce data) d = c.writeBlock b d := dif_pos hlength
      rw [hfull, hemptied, hsplit, wholes_block (by omega), waiting_block, writeBlocks]
      cases c.writeBlock b d with
      | error => rfl
      | ok d =>
        show (do
          let d ← c.writeDirect (.opened _) (ctx.uncopied data) d
          c.mtdWriteData (.opened _) ((MtdWriteContext.opened c.eraseSize).unwritten (ctx.uncopied data)) d) = _
        rw [writeDirect_then]
        rfl
    · obtain ⟨hempty, -⟩ := not_or.mp hpartly
      have hopened : ctx = .opened _ := by
        rcases ctx with ⟨buffer, hstored⟩
        have : buffer = [] := List.eq_nil_of_length_eq_zero (by simpa using hempty)
        subst this
        rfl
      have hcoalesce : ctx.coalesce data = .opened _ := by
        have : (ctx.coalesce data).buffer = ctx.buffer := if_neg hpartly
        rcases h : ctx.coalesce data with ⟨buffer, hstored⟩
        rw [h, hopened] at this
        simp only [MtdWriteContext.opened] at this ⊢
        subst this
        rfl
      have hemptied : (MtdWriteContext.opened c.eraseSize).emptied = .opened _ := if_neg (by simp only [MtdWriteContext.opened, List.length_nil]; omega)
      have huncopied : ctx.uncopied data = data := if_neg hpartly
      have hbuffer : ctx.buffer = [] := by rw [hopened]; rfl
      rw [hcoalesce, hemptied, huncopied, writeFull, dif_neg (by simp only [MtdWriteContext.opened, List.length_nil]; omega), hbuffer,
        List.nil_append]
      exact writeDirect_then data d

theorem waiting_self (hlt : ctx.buffer.length < c.eraseSize) : c.waiting ctx.buffer = ctx := by
  cases ctx
  simp only [waiting, leftover_short hlt]

theorem length_waiting (stream : List UInt8) : (c.waiting stream).buffer.length = stream.length % c.eraseSize := length_leftover stream

/-- However the data is cut, the whole blocks of it are written and the rest is stored. -/
theorem writeAll_eq (hlt : ctx.buffer.length < c.eraseSize) (pieces : List (List UInt8)) (d : Flash c.eraseSize) :
    c.writeAll pieces ctx d =
      (c.writeBlocks (wholes c.eraseSize (ctx.buffer ++ pieces.flatten)) d).map fun d => (c.waiting (ctx.buffer ++ pieces.flatten), d) := by
  have he : 0 < c.eraseSize := Nat.zero_lt_of_lt c.eraseSize_gt
  induction pieces generalizing ctx d with
  | nil =>
    rw [List.flatten_nil, List.append_nil, wholes_short hlt, waiting_self hlt]
    rfl
  | cons data pieces ih =>
    rw [writeAll, mtdWriteData_eq hlt, List.flatten_cons, ← List.append_assoc, wholes_append he (ctx.buffer ++ data), writeBlocks_append]
    cases c.writeBlocks (wholes c.eraseSize (ctx.buffer ++ data)) d with
    | error => rfl
    | ok d =>
      have hrest : (c.waiting (ctx.buffer ++ data)).buffer = leftover c.eraseSize (ctx.buffer ++ data) := rfl
      have hwaiting : c.waiting (leftover c.eraseSize (ctx.buffer ++ data) ++ pieces.flatten) = c.waiting (ctx.buffer ++ data ++ pieces.flatten) := by
        simp only [waiting, leftover_append he (ctx.buffer ++ data)]
      show c.writeAll pieces (c.waiting (ctx.buffer ++ data)) d = _
      rw [ih (by rw [length_waiting]; exact Nat.mod_lt _ he), hrest, hwaiting]
      rfl

end Data

theorem eraseFrom_content (pos n : Nat) (d : Flash c.eraseSize) (i : Nat) :
    (c.eraseFrom pos n d).content i = if pos ≤ i ∧ i < pos + n then c.passed i (d.content i) else d.content i := by
  induction n generalizing pos d with
  | zero => rw [eraseFrom, if_neg (by omega)]
  | succ n ih =>
    have hstep : ∀ d', d'.content = Function.update d.content pos (c.passed pos (d.content pos)) →
        (c.eraseFrom (pos + 1) n d').content i = if pos ≤ i ∧ i < pos + (n + 1) then c.passed i (d.content i) else d.content i := by
      intro d' hcontent
      rw [ih, hcontent]
      by_cases hi : i = pos
      · subst hi
        rw [if_neg (by omega), if_pos (by omega), Function.update_self]
      · rw [Function.update_of_ne hi]
        by_cases hin : pos + 1 ≤ i ∧ i < pos + 1 + n
        · rw [if_pos hin, if_pos (by omega)]
        · rw [if_neg hin, if_neg (by omega)]
    rw [eraseFrom]
    by_cases hmarked : c.marked pos = true
    · rw [if_pos (memgetbadblock_pos.mpr hmarked)]
      apply hstep
      rw [passed, if_pos hmarked, Function.update_eq_self]
    · rw [if_neg (mt memgetbadblock_pos.mp hmarked)]
      apply hstep
      rw [passed, if_neg hmarked, memerase_content]

/-- The blocks `bs` have been written over `content` and what is behind them erased. -/
def Complete (c : Chip) (content : Nat → Block UInt8 c.eraseSize) (bs : List (Block UInt8 c.eraseSize)) (d : Flash c.eraseSize) : Prop :=
  ∀ i < c.total, d.content i = c.laid content bs i

section Closing
variable {content : Nat → Block UInt8 c.eraseSize} {bs : List (Block UInt8 c.eraseSize)} {d : Flash c.eraseSize}

theorem int_total {offset : Nat} : int ((c.size - offset * c.eraseSize) / c.eraseSize) = (c.total - offset : Nat) := by
  have he := c.eraseSize_gt
  have htotal := c.total_lt
  rw [Nat.mul_comm, Nat.sub_mul_div, int_small]
  · rfl
  · exact Nat.lt_of_le_of_lt (Nat.sub_le _ _) htotal

/-- Erasing the rest completes what has been written. -/
theorem Written.erase (h : c.Written content bs d) : c.Complete content bs (c.eraseFrom d.offset (c.total - d.offset) d) := by
  intro i hi
  have hle := le_trans h.offset_le c.blocks_le
  rw [eraseFrom_content, h.content_eq]
  by_cases hbefore : i < d.offset
  · rw [if_neg (by omega), if_pos hbefore]
  · rw [if_pos (by omega), if_neg hbefore]
    by_cases husable : c.usable i = true
    · have hrank : bs.length ≤ c.rank i := by
        rw [← h.rank_eq]
        exact Nat.count_monotone _ (Nat.le_of_not_lt hbefore)
      rw [laid_usable husable, List.getD_eq_getElem?_getD, List.getElem?_eq_none hrank, Option.getD_none]
      simp only [usable, Bool.and_eq_true, Bool.not_eq_true', Option.isNone_iff_eq_none] at husable
      simp only [passed, wiped, husable.1, husable.2]
      rfl
    · rw [Bool.not_eq_true] at husable
      rw [laid_passed husable]

/-- The closing erase of everything behind the data: what is stored is padded and written first. -/
theorem mtdEraseBlocks_all (ctx : MtdWriteContext c.eraseSize) (d : Flash c.eraseSize) :
    c.mtdEraseBlocks ctx (-1) d = (c.flush ctx d).map fun d => (.opened _, c.eraseFrom d.offset (c.total - d.offset) d) := by
  rw [mtdEraseBlocks]
  cases c.flush ctx d with
  | error => rfl
  | ok d =>
    show (if _ > _ then _ else _) = _
    rw [if_neg (by rw [if_pos (by decide)]; exact lt_irrefl _), if_pos (by decide), int_total, Int.toNat_natCast]
    rfl

theorem mtdWriteClose_opened (host : Host) (d : Flash c.eraseSize) :
    c.mtdWriteClose host (.opened _) d = (if host.close then 0 else -1, d) := by
  have herase : c.mtdEraseBlocks (.opened _) 0 d = .ok (.opened _, d) := by
    have hflush : c.flush (.opened _) d = .ok d := if_neg (by simp [MtdWriteContext.opened])
    rw [mtdEraseBlocks, hflush]
    show (if _ > _ then _ else _) = _
    rw [int_total, if_neg (by rw [if_neg (by decide)]; omega), if_neg (by decide)]
    rfl
  rw [mtdWriteClose, herase]

end Closing

/-- The data in blocks, the last one padded. -/
def blocksOf (c : Chip) (data : List UInt8) : List (Block UInt8 c.eraseSize) :=
  wholes c.eraseSize data ++ if data.length % c.eraseSize = 0 then [] else [(c.waiting data).padded]

/-- How many blocks so many bytes take. -/
def need (c : Chip) (n : Nat) : Nat := n / c.eraseSize + if n % c.eraseSize = 0 then 0 else 1

theorem length_blocksOf (data : List UInt8) : (c.blocksOf data).length = c.need data.length := by
  rw [blocksOf, List.length_append, length_wholes (Nat.zero_lt_of_lt c.eraseSize_gt), need]
  split <;> rfl

/-- The data is what the blocks start with. -/
theorem take_blocksOf (data : List UInt8) : (joined (c.blocksOf data)).take data.length = data := by
  have hdata := joined_wholes (Nat.zero_lt_of_lt c.eraseSize_gt) data
  have hprefix : data <+: joined (c.blocksOf data) := by
    rw [blocksOf, joined_append]
    split
    · rename_i hzero
      have hnil : leftover c.eraseSize data = [] := List.eq_nil_of_length_eq_zero (by rw [length_leftover, hzero])
      rw [hnil, List.append_nil] at hdata
      rw [hdata]
      exact List.prefix_append _ _
    · nth_rewrite 1 [← hdata]
      rw [joined_cons, joined_nil, List.append_nil]
      show _ <+: _ ++ (leftover c.eraseSize data ++ _)
      rw [← List.append_assoc]
      exact List.prefix_append _ _
  exact (List.prefix_iff_eq_take.mp hprefix).symm

/-- `mtd_write_data` on every piece, `mtd_erase_blocks` and `mtd_write_close`: the flash they leave, if
they all report success. -/
def writeOut (c : Chip) (host : Host) (pieces : List (List UInt8)) (d : Flash c.eraseSize) : Option (Flash c.eraseSize) :=
  match c.writeAll pieces (.opened _) d.rewound with
  | .error _ => none
  | .ok (ctx, d) =>
    match c.mtdEraseBlocks ctx (-1) d with
    | .error _ => none
    | .ok (ctx, d) => if (c.mtdWriteClose host ctx d).1 = 0 then some (c.mtdWriteClose host ctx d).2 else none

section Out
variable {host : Host} {pieces : List (List UInt8)} {data : List UInt8} {d : Flash c.eraseSize}

theorem written_rewound (d : Flash c.eraseSize) : c.Written d.content [] d.rewound :=
  ⟨Nat.zero_le _, Nat.count_zero _, fun _ => rfl⟩

theorem writeAll_opened (hpieces : pieces.flatten = data) : c.writeAll pieces (.opened _) d.rewound =
    (c.writeBlocks (wholes c.eraseSize data) d.rewound).map fun d => (c.waiting data, d) := by
  have hlt : (MtdWriteContext.opened c.eraseSize).buffer.length < c.eraseSize := Nat.zero_lt_of_lt c.eraseSize_gt
  rw [writeAll_eq hlt, ← hpieces]
  rfl

/-- The pieces are written, if their whole blocks fit. -/
theorem writeAll_fits (hpieces : pieces.flatten = data) (hle : data.length / c.eraseSize ≤ c.capacity) :
    ∃ d', c.writeAll pieces (.opened _) d.rewound = .ok (c.waiting data, d') ∧ c.Written d.content (wholes c.eraseSize data) d' := by
  rw [writeAll_opened hpieces]
  rw [← length_wholes (Nat.zero_lt_of_lt c.eraseSize_gt)] at hle
  obtain ⟨d', hputs, h⟩ := (written_rewound d).puts (wholes c.eraseSize data) (by simpa using hle)
  exact ⟨d', by rw [hputs]; rfl, h⟩

theorem writeAll_overflows (hpieces : pieces.flatten = data) (hlt : c.capacity < data.length / c.eraseSize) :
    ∃ d', c.writeAll pieces (.opened _) d.rewound = .error d' := by
  rw [writeAll_opened hpieces]
  rw [← length_wholes (Nat.zero_lt_of_lt c.eraseSize_gt)] at hlt
  obtain ⟨d', hputs⟩ := (written_rewound d).overflows (wholes c.eraseSize data) (by simpa using hlt) (Nat.zero_le _)
  exact ⟨d', by rw [hputs]; rfl⟩

/-- The last block is written by the closing call, if it fits. -/
theorem close_fits (hle : c.need data.length ≤ c.capacity) {content : Nat → Block UInt8 c.eraseSize} {d : Flash c.eraseSize}
    (h : c.Written content (wholes c.eraseSize data) d) :
    ∃ d', c.mtdEraseBlocks (c.waiting data) (-1) d = .ok (.opened _, d') ∧ c.Complete content (c.blocksOf data) d' := by
  rw [mtdEraseBlocks_all, flush, length_waiting]
  rw [← length_blocksOf] at hle
  unfold blocksOf at hle ⊢
  by_cases hzero : data.length % c.eraseSize = 0
  · rw [if_neg (by omega), if_pos hzero, List.append_nil]
    exact ⟨_, rfl, h.erase⟩
  · rw [if_neg hzero, List.length_append, List.length_singleton] at hle
    obtain ⟨d', hput, h'⟩ := h.put (c.waiting data).padded (by omega)
    rw [if_pos (by omega), hput, if_neg hzero]
    exact ⟨_, rfl, h'.erase⟩

theorem close_overflows (hlt : c.capacity < c.need data.length) (hle : data.length / c.eraseSize ≤ c.capacity)
    {content : Nat → Block UInt8 c.eraseSize} {d : Flash c.eraseSize} (h : c.Written content (wholes c.eraseSize data) d) :
    ∃ d', c.mtdEraseBlocks (c.waiting data) (-1) d = .error d' := by
  have hlength := length_wholes (Nat.zero_lt_of_lt c.eraseSize_gt) data
  unfold need at hlt
  have hpos : ¬data.length % c.eraseSize = 0 := by
    intro hzero
    rw [if_pos hzero] at hlt
    omega
  rw [if_neg hpos] at hlt
  obtain ⟨d', hput⟩ := h.full (c.waiting data).padded (by omega)
  rw [mtdEraseBlocks_all, flush, length_waiting, if_pos (by omega), hput]
  exact ⟨d', rfl⟩

/-- Everything reports success, and the flash holds the data in the blocks the writer can use. -/
theorem writeOut_fits (hpieces : pieces.flatten = data) (hle : c.need data.length ≤ c.capacity) (hclose : host.close = true) :
    ∃ d', c.writeOut host pieces d = some d' ∧ c.Complete d.content (c.blocksOf data) d' := by
  obtain ⟨d₁, hwrite, h₁⟩ := writeAll_fits (d := d) hpieces (le_trans (Nat.le_add_right _ _) hle)
  obtain ⟨d₂, herase, h₂⟩ := close_fits hle h₁
  refine ⟨d₂, ?_, h₂⟩
  rw [writeOut, hwrite]
  simp only [herase, mtdWriteClose_opened, hclose]
  rfl

/-- A call reports a failure when the data does not fit or the device cannot be closed. -/
theorem writeOut_none (hpieces : pieces.flatten = data) (h : c.capacity < c.need data.length ∨ host.close = false) :
    c.writeOut host pieces d = none := by
  rw [writeOut]
  rcases Nat.lt_or_ge c.capacity (data.length / c.eraseSize) with hlt | hge
  · obtain ⟨d', hwrite⟩ := writeAll_overflows (d := d) hpieces hlt
    rw [hwrite]
  · obtain ⟨d₁, hwrite, h₁⟩ := writeAll_fits (d := d) hpieces hge
    rw [hwrite]
    rcases Nat.lt_or_ge c.capacity (c.need data.length) with hlt | hle
    · obtain ⟨d', herase⟩ := close_overflows hlt hge h₁
      simp only [herase]
    · obtain ⟨d₂, herase, -⟩ := close_fits hle h₁
      have hclose : host.close = false := h.resolve_left (Nat.not_lt.mpr hle)
      simp only [herase, mtdWriteClose_opened, hclose]
      rfl

end Out

end Twrp.Mtd.Chip
