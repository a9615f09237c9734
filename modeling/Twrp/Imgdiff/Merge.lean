import Mathlib.Tactic

/-! Merging adjacent normal chunks (`imgdiff.c`).

The list of chunks is rewritten in place: what has been merged stands in front, and is never longer than
what it was made of. A run of normal chunks, each of which begins where the one before ends, in the file
as in memory, becomes one chunk. -/
namespace Twrp.Imgdiff

inductive ChunkType where
  | CHUNK_NORMAL
  | CHUNK_DEFLATE
deriving DecidableEq

/-- Where the data of a chunk are: in the copy of the file, or in a buffer of their own. -/
inductive Data where
  | image (offset : Nat)
  | buffer
deriving DecidableEq

structure ImageChunk where
  type : ChunkType
  start : Nat
  len : Nat
  data : Data
  deflateLen : Nat
deriving DecidableEq

/-- `a.data + a.len` is `b.data`. -/
def followsInMemory (a b : ImageChunk) : Bool :=
  match a.data, b.data with
  | .image x, .image y => y = x + a.len
  | _, _ => false

/-- A normal chunk that begins where the one before it ends. -/
def adjacent (a b : ImageChunk) : Bool := b.type = .CHUNK_NORMAL && b.start = a.start + a.len && followsInMemory a b

/-- The loop for the end of a run. -/
def runEnd (chunks : List ImageChunk) : (left inEnd : Nat) → Nat
  | 0, inEnd => inEnd
  | left + 1, inEnd =>
    match chunks[inEnd - 1]?, chunks[inEnd]? with
    | some a, some b => if adjacent a b then runEnd chunks left (inEnd + 1) else inEnd
    | _, _ => inEnd

/-- The outer loop: the list, and how much of it is in use. -/
def mergeLoop : (left : Nat) → List ImageChunk → (out inStart : Nat) → List ImageChunk × Nat
  | 0, chunks, out, _ => (chunks, out)
  | left + 1, chunks, out, inStart =>
    match chunks[inStart]? with
    | none => (chunks, out)
    | some first =>
      let inEnd := if first.type ≠ .CHUNK_NORMAL then inStart + 1 else runEnd chunks (chunks.length - (inStart + 1)) (inStart + 1)
      let merged :=
        if inEnd = inStart + 1 then if out ≠ inStart then chunks.set out first else chunks
        else
          match chunks[inEnd - 1]? with
          | none => chunks
          | some last => chunks.modify out fun c =>
            ⟨.CHUNK_NORMAL, first.start, last.len + (last.start - first.start), first.data, c.deflateLen⟩
      mergeLoop left merged (out + 1) inEnd

def mergeAdjacentNormalChunks (chunks : List ImageChunk) : List ImageChunk :=
  let (merged, out) := mergeLoop chunks.length chunks 0 0
  merged.take out

/-! ### What comes of a run -/

/-- A chunk is one that was there, or is made of normal chunks that are adjacent. -/
inductive MadeOf : List ImageChunk → ImageChunk → Prop where
  | kept (c : ImageChunk) : MadeOf [c] c
  | merged {first : ImageChunk} {rest : List ImageChunk} {c : ImageChunk} (hfirst : first.type = .CHUNK_NORMAL)
      (hchain : List.IsChain (fun a b => adjacent a b = true) (first :: rest)) (htype : c.type = .CHUNK_NORMAL) (hstart : c.start = first.start)
      (hdata : c.data = first.data) (hlen : c.len = ((first :: rest).map ImageChunk.len).sum) : MadeOf (first :: rest) c

/-- A list is made of another, run by run. -/
def Merged (chunks merged : List ImageChunk) : Prop := ∃ runs : List (List ImageChunk), runs.flatten = chunks ∧ List.Forall₂ MadeOf runs merged

/-- What a chunk has of the file. -/
def ImageChunk.span (c : ImageChunk) : Nat :=
  match c.type with
  | .CHUNK_NORMAL => c.len
  | .CHUNK_DEFLATE => c.deflateLen

/-- The chunks follow one another from an offset to another. -/
def Tiles : Nat → Nat → List ImageChunk → Prop
  | start, stop, [] => start = stop
  | start, stop, c :: rest => c.start = start ∧ Tiles (start + c.span) stop rest

section Runs
variable {chunks : List ImageChunk}

/-- In a run, what lies between the starts is the sum of the lengths. -/
theorem chain_length {first last : ImageChunk} {rest : List ImageChunk} (h : List.IsChain (fun a b => adjacent a b = true) (first :: rest))
    (hlast : (first :: rest).getLast? = some last) : last.len + (last.start - first.start) = ((first :: rest).map ImageChunk.len).sum ∧ first.start ≤ last.start := by
  induction rest generalizing first with
  | nil =>
    obtain rfl := Option.some.inj hlast
    simp
  | cons b rest ih =>
    obtain ⟨hab, hrest⟩ := List.isChain_cons_cons.mp h
    have hstart : b.start = first.start + first.len := by
      simp only [adjacent, Bool.and_eq_true, decide_eq_true_eq] at hab
      exact hab.1.2
    obtain ⟨hsum, hle⟩ := ih hrest (by rwa [List.getLast?_cons_cons] at hlast)
    rw [List.map_cons, List.sum_cons, ← hsum]
    omega

/-- Where a run ends: behind its last chunk. -/
theorem runEnd_spec (chunks : List ImageChunk) (left inEnd : Nat) :
    inEnd ≤ runEnd chunks left inEnd ∧ ∀ i, inEnd ≤ i → i < runEnd chunks left inEnd →
      ∃ a b, chunks[i - 1]? = some a ∧ chunks[i]? = some b ∧ adjacent a b = true := by
  induction left generalizing inEnd with
  | zero => exact ⟨le_rfl, fun i hge hlt => absurd hlt (Nat.not_lt.mpr hge)⟩
  | succ left ih =>
    have hstop : inEnd ≤ inEnd ∧ ∀ i, inEnd ≤ i → i < inEnd → ∃ a b, chunks[i - 1]? = some a ∧ chunks[i]? = some b ∧ adjacent a b = true :=
      ⟨le_rfl, fun i hge hlt => absurd hlt (Nat.not_lt.mpr hge)⟩
    rw [runEnd]
    cases ha : chunks[inEnd - 1]? with
    | none => exact hstop
    | some a =>
      cases hb : chunks[inEnd]? with
      | none => exact hstop
      | some b =>
        dsimp only
        split_ifs with hadj
        · obtain ⟨hle, hrun⟩ := ih (inEnd + 1)
          refine ⟨by omega, fun i hge hlt => ?_⟩
          rcases Nat.lt_or_eq_of_le hge with hlt' | rfl
          · exact hrun i hlt' hlt
          · exact ⟨a, b, ha, hb, hadj⟩
        · exact hstop

/-- The chunks of a run, as a list. -/
theorem chain_of_run {chunks : List ImageChunk} {s e : Nat} {first : ImageChunk} (hfirst : chunks[s]? = some first) (hse : s < e)
    (h : ∀ i, s + 1 ≤ i → i < e → ∃ a b, chunks[i - 1]? = some a ∧ chunks[i]? = some b ∧ adjacent a b = true) :
    ∃ rest last, (chunks.drop s).take (e - s) = first :: rest ∧ List.IsChain (fun a b => adjacent a b = true) (first :: rest) ∧
      (first :: rest).getLast? = some last ∧ chunks[e - 1]? = some last := by
  obtain ⟨n, rfl⟩ : ∃ n, e = s + 1 + n := ⟨e - (s + 1), by omega⟩
  induction n generalizing s first with
  | zero =>
    refine ⟨[], first, ?_, List.isChain_singleton _, rfl, hfirst⟩
    have hlt := (List.getElem?_eq_some_iff.mp hfirst).1
    have hget := (List.getElem?_eq_some_iff.mp hfirst).2
    rw [List.drop_eq_getElem_cons hlt, hget]
    simp
  | succ n ih =>
    obtain ⟨a, b, ha, hb, hab⟩ := h (s + 1) le_rfl (by omega)
    rw [Nat.add_sub_cancel, hfirst] at ha
    obtain rfl := Option.some.inj ha
    obtain ⟨rest, last, htake, hchain, hlast, hend⟩ := ih (s := s + 1) hb (by omega) fun i hi hlt => h i (by omega) (by omega)
    have hlt := (List.getElem?_eq_some_iff.mp hfirst).1
    have hget := (List.getElem?_eq_some_iff.mp hfirst).2
    have hcount : s + 1 + (n + 1) - s = (s + 1 + 1 + n - (s + 1)) + 1 := by omega
    refine ⟨b :: rest, last, ?_, List.isChain_cons_cons.mpr ⟨hab, hchain⟩, by rwa [List.getLast?_cons_cons], ?_⟩
    · rw [List.drop_eq_getElem_cons hlt, hget, hcount, List.take_succ_cons, htake]
    · rw [← hend]
      congr 1
      omega

/-- A list in which one chunk has been written. -/
theorem take_written {cur cur' : List ImageChunk} {out : Nat} {c : ImageChunk} (hnew : cur'[out]? = some c)
    (hother : ∀ j, j ≠ out → cur'[j]? = cur[j]?) : cur'.take (out + 1) = cur.take out ++ [c] := by
  have hsame : cur'.take out = cur.take out := by
    apply List.ext_getElem?
    intro j
    rw [List.getElem?_take, List.getElem?_take]
    split_ifs with hj
    · exact hother j (Nat.ne_of_lt hj)
    · rfl
  rw [List.take_add_one, hnew, hsame]
  rfl

theorem drop_written {cur cur' : List ImageChunk} {out e : Nat} (he : out < e) (hother : ∀ j, j ≠ out → cur'[j]? = cur[j]?) :
    cur'.drop e = cur.drop e := by
  apply List.ext_getElem?
  intro j
  rw [List.getElem?_drop, List.getElem?_drop]
  exact hother _ (by omega)

theorem Merged.append_run {front merged run : List ImageChunk} {c : ImageChunk} (h : Merged front merged) (hrun : MadeOf run c) :
    Merged (front ++ run) (merged ++ [c]) := by
  obtain ⟨runs, rfl, hall⟩ := h
  refine ⟨runs ++ [run], ?_, List.rel_append hall (.cons hrun .nil)⟩
  rw [List.flatten_append, List.flatten_singleton]

/-- A round of the outer loop takes one run. -/
theorem mergeLoop_spec (left : Nat) {cur : List ImageChunk} {out inStart : Nat} (hlength : cur.length = chunks.length) (hout : out ≤ inStart)
    (hin : inStart ≤ chunks.length) (hrest : cur.drop inStart = chunks.drop inStart) (hdone : Merged (chunks.take inStart) (cur.take out))
    (hleft : chunks.length - inStart ≤ left) : Merged chunks ((mergeLoop left cur out inStart).1.take (mergeLoop left cur out inStart).2) := by
  induction left generalizing cur out inStart with
  | zero =>
    have hall : chunks.take inStart = chunks := List.take_of_length_le (by omega)
    rw [mergeLoop]
    rwa [hall] at hdone
  | succ left ih =>
    rw [mergeLoop]
    cases hfirst : cur[inStart]? with
    | none =>
      have hall : chunks.take inStart = chunks := by
        apply List.take_of_length_le
        rw [List.getElem?_eq_none_iff] at hfirst
        omega
      rwa [hall] at hdone
    | some first =>
      have hlt := (List.getElem?_eq_some_iff.mp hfirst).1
      -- every step writes one chunk, in front of what is still to be read
      have hstep : ∀ e cur' c run, inStart < e → e ≤ chunks.length → (chunks.drop inStart).take (e - inStart) = run → MadeOf run c →
          cur'.length = cur.length → cur'[out]? = some c → (∀ j, j ≠ out → cur'[j]? = cur[j]?) →
          Merged chunks ((mergeLoop left cur' (out + 1) e).1.take (mergeLoop left cur' (out + 1) e).2) := by
        intro e cur' c run hse he hrun hmade hlength' hnew hother
        refine ih (hlength'.trans hlength) (by omega) he ?_ ?_ (by omega)
        · rw [drop_written (by omega) hother]
          have hdrop := congrArg (List.drop (e - inStart)) hrest
          rwa [List.drop_drop, List.drop_drop, Nat.add_sub_of_le hse.le] at hdrop
        · have hsplit : chunks.take e = chunks.take inStart ++ run := by
            rw [← hrun, ← List.take_add, Nat.add_sub_of_le hse.le]
          rw [take_written hnew hother, hsplit]
          exact hdone.append_run hmade
      have hsingle : (chunks.drop inStart).take (inStart + 1 - inStart) = [first] := by
        rw [← hrest, List.drop_eq_getElem_cons hlt, (List.getElem?_eq_some_iff.mp hfirst).2]
        simp
      have hkept : Merged chunks
          ((mergeLoop left (if out ≠ inStart then cur.set out first else cur) (out + 1) (inStart + 1)).1.take
            (mergeLoop left (if out ≠ inStart then cur.set out first else cur) (out + 1) (inStart + 1)).2) := by
        refine hstep _ _ first [first] (Nat.lt_succ_self _) (by omega) hsingle (.kept first) ?_ ?_ ?_
        · split_ifs <;> simp
        · split_ifs with hne
          · rw [List.getElem?_set_self (by omega)]
          · rwa [not_not.mp hne]
        · intro j hj
          split_ifs
          · rw [List.getElem?_set_ne hj.symm]
          · rfl
      dsimp only
      by_cases htype : first.type ≠ .CHUNK_NORMAL
      · rw [if_pos htype, if_pos rfl]
        exact hkept
      · rw [if_neg htype]
        obtain ⟨hle, hchain⟩ := runEnd_spec cur (cur.length - (inStart + 1)) (inStart + 1)
        generalize runEnd cur (cur.length - (inStart + 1)) (inStart + 1) = e at hle hchain ⊢
        by_cases hone : e = inStart + 1
        · rw [if_pos hone, hone]
          exact hkept
        · rw [if_neg hone]
          obtain ⟨rest, last, htake, hchained, hlast, hend⟩ := chain_of_run hfirst (by omega) hchain
          have he := (List.getElem?_eq_some_iff.mp hend).1
          have hout' : out < cur.length := by omega
          rw [hend]
          refine hstep e _ ⟨.CHUNK_NORMAL, first.start, last.len + (last.start - first.start), first.data, cur[out].deflateLen⟩ (first :: rest)
            (by omega) (by omega) (by rw [← hrest]; exact htake)
            (.merged (not_not.mp htype) hchained rfl rfl rfl (chain_length hchained hlast).1) (by simp) ?_ ?_
          · rw [List.getElem?_modify_eq, List.getElem?_eq_getElem hout']
            rfl
          · intro j hj
            rw [List.getElem?_modify_ne _ _ hj.symm]

/-- Runs of adjacent normal chunks are merged, and nothing else. -/
theorem merged_mergeAdjacent (chunks : List ImageChunk) : Merged chunks (mergeAdjacentNormalChunks chunks) :=
  mergeLoop_spec chunks.length rfl le_rfl (Nat.zero_le _) rfl ⟨[], rfl, .nil⟩ le_rfl

theorem Tiles.append {start mid stop : Nat} {front rest : List ImageChunk} (hfront : Tiles start mid front) (hrest : Tiles mid stop rest) :
    Tiles start stop (front ++ rest) := by
  induction front generalizing start with
  | nil =>
    obtain rfl : start = mid := hfront
    exact hrest
  | cons c front ih => exact ⟨hfront.1, ih hfront.2⟩

theorem Tiles.split {start stop : Nat} {front rest : List ImageChunk} (h : Tiles start stop (front ++ rest)) :
    ∃ mid, Tiles start mid front ∧ Tiles mid stop rest := by
  induction front generalizing start with
  | nil => exact ⟨start, rfl, h⟩
  | cons c front ih =>
    obtain ⟨mid, hfront, hrest⟩ := ih h.2
    exact ⟨mid, ⟨h.1, hfront⟩, hrest⟩

/-- What a run has of the file, the chunk made of it has. -/
theorem MadeOf.tiles {run : List ImageChunk} {c : ImageChunk} {start stop : Nat} (h : MadeOf run c) (htiles : Tiles start stop run) :
    Tiles start stop [c] := by
  cases h with
  | kept c => exact htiles
  | @merged first rest c hfirst hchain htype hstart hdata hlen =>
    have hsum : ∀ (rest : List ImageChunk) (first : ImageChunk) (start : Nat), first.type = .CHUNK_NORMAL →
        List.IsChain (fun a b => adjacent a b = true) (first :: rest) → Tiles start stop (first :: rest) →
        start + ((first :: rest).map ImageChunk.len).sum = stop := by
      intro rest
      induction rest with
      | nil =>
        intro first start hfirst _ htiles
        have hstop : start + first.span = stop := htiles.2
        rw [ImageChunk.span, hfirst] at hstop
        simpa using hstop
      | cons b rest ih =>
        intro first start hfirst hchain htiles
        obtain ⟨hab, hrest⟩ := List.isChain_cons_cons.mp hchain
        have hb : b.type = .CHUNK_NORMAL := by
          simp only [adjacent, Bool.and_eq_true, decide_eq_true_eq] at hab
          exact hab.1.1
        have hnext := ih b (start + first.span) hb hrest htiles.2
        rw [ImageChunk.span, hfirst] at hnext
        rw [List.map_cons, List.sum_cons, ← Nat.add_assoc]
        exact hnext
    refine ⟨hstart.trans htiles.1, ?_⟩
    show start + c.span = stop
    rw [ImageChunk.span, htype]
    show start + c.len = stop
    rw [hlen]
    exact hsum rest first start hfirst hchain htiles

/-- A partition of the file stays one. -/
theorem Merged.tiles {chunks merged : List ImageChunk} {start stop : Nat} (h : Merged chunks merged) (htiles : Tiles start stop chunks) :
    Tiles start stop merged := by
  obtain ⟨runs, rfl, hall⟩ := h
  induction hall generalizing start with
  | nil => exact htiles
  | @cons run c runs merged hrun _ ih =>
    rw [List.flatten_cons] at htiles
    obtain ⟨mid, hfirst, hrest⟩ := htiles.split
    exact (hrun.tiles hfirst).append (ih hrest)

end Runs

end Twrp.Imgdiff
