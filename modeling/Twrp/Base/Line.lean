import Mathlib

/-! Lines and tokens, as the C library cuts them.

`fgets` takes a line from a stream, newline included, or as many bytes of it as the buffer
holds; what does not fit is there for the next call. `strtok` takes the next run of bytes
that are not delimiters. `tokens` is the loop that takes them all, and on one delimiter it
gives the non-empty pieces between the delimiters (`tokens_single`). -/
namespace Twrp.Base

/-! ### Lines of a stream -/

/-- `fgets` into a buffer with room for `n` bytes and the terminating NUL: what is put there,
nothing at the end of the stream, and the rest of the stream. -/
def fgets : Nat → List UInt8 → List UInt8 × List UInt8
  | 0, stream => ([], stream)
  | _ + 1, [] => ([], [])
  | n + 1, b :: rest =>
    if b = 10 then ([b], rest)
    else
      let (line, left) := fgets n rest
      (b :: line, left)

/-- A line that fits is read with its newline. -/
theorem fgets_fits {n : Nat} {line : List UInt8} (hline : 10 ∉ line) (hn : line.length < n) (rest : List UInt8) :
    fgets n (line ++ 10 :: rest) = (line ++ [10], rest) := by
  induction line generalizing n with
  | nil =>
    obtain ⟨n, rfl⟩ := Nat.exists_eq_succ_of_ne_zero (Nat.ne_of_gt hn)
    simp [fgets]
  | cons b line ih =>
    obtain ⟨n, rfl⟩ := Nat.exists_eq_succ_of_ne_zero (Nat.ne_of_gt (Nat.zero_lt_of_lt hn))
    have hb : b ≠ 10 := fun h => hline (h ▸ List.mem_cons_self)
    have hrest := ih (List.not_mem_of_not_mem_cons hline) (n := n) (Nat.lt_of_succ_lt_succ hn)
    simp [fgets, hb, hrest]

/-- A line that does not fit is cut where the buffer is full. -/
theorem fgets_cut {n : Nat} {line : List UInt8} (hline : 10 ∉ line) (hn : line.length = n) (rest : List UInt8) :
    fgets n (line ++ rest) = (line, rest) := by
  subst hn
  induction line with
  | nil => simp [fgets]
  | cons b line ih =>
    have hb : b ≠ 10 := fun h => hline (h ▸ List.mem_cons_self)
    simp [fgets, hb, ih (List.not_mem_of_not_mem_cons hline)]

theorem fgets_append (n : Nat) (stream : List UInt8) : (fgets n stream).1 ++ (fgets n stream).2 = stream := by
  induction n generalizing stream with
  | zero => rfl
  | succ n ih =>
    cases stream with
    | nil => rfl
    | cons b rest =>
      by_cases hb : b = 10
      · simp [fgets, hb]
      · simp [fgets, hb, ih rest]

theorem fgets_shorter {n : Nat} (hn : 0 < n) {stream : List UInt8} (hs : stream ≠ []) :
    (fgets n stream).2.length < stream.length := by
  obtain ⟨n, rfl⟩ : ∃ k, n = k + 1 := ⟨n - 1, by omega⟩
  obtain ⟨b, rest, rfl⟩ := List.exists_cons_of_ne_nil hs
  have htaken : (fgets (n + 1) (b :: rest)).1 ≠ [] := by
    by_cases hb : b = 10 <;> simp [fgets, hb]
  have hlen := congrArg List.length (fgets_append (n + 1) (b :: rest))
  rw [List.length_append] at hlen
  have hpos := List.length_pos_of_ne_nil htaken
  omega

/-! ### A stream read to its end -/

/-- A loop over `fgets`: `fuel` bounds how many calls there are. -/
def buffersUpTo (n : Nat) : Nat → List UInt8 → List (List UInt8)
  | 0, _ => []
  | fuel + 1, stream =>
    if stream = [] then [] else (fgets n stream).1 :: buffersUpTo n fuel (fgets n stream).2

/-- Every call takes a byte, so the length of the stream bounds them. -/
def buffers (n : Nat) (stream : List UInt8) : List (List UInt8) := buffersUpTo n stream.length stream

/-- A line of a stream, and whether a newline ends it. -/
structure StreamLine where
  text : List UInt8
  ended : Bool
deriving DecidableEq

def StreamLine.bytes (l : StreamLine) : List UInt8 := l.text ++ if l.ended then [10] else []

def linesOf : List UInt8 → List StreamLine
  | [] => []
  | b :: rest =>
    if b = 10 then ⟨[], true⟩ :: linesOf rest
    else
      match linesOf rest with
      | [] => [⟨[b], false⟩]
      | l :: later => {l with text := b :: l.text} :: later

theorem linesOf_ended {line : List UInt8} (hline : 10 ∉ line) (rest : List UInt8) :
    linesOf (line ++ 10 :: rest) = ⟨line, true⟩ :: linesOf rest := by
  induction line with
  | nil => simp [linesOf]
  | cons b line ih =>
    have hb : b ≠ 10 := fun h => hline (h ▸ List.mem_cons_self)
    simp [linesOf, hb, ih (List.not_mem_of_not_mem_cons hline)]

theorem linesOf_last {line : List UInt8} (hline : 10 ∉ line) (hne : line ≠ []) : linesOf line = [⟨line, false⟩] := by
  induction line with
  | nil => exact absurd rfl hne
  | cons b line ih =>
    have hb : b ≠ 10 := fun h => hline (h ▸ List.mem_cons_self)
    by_cases hnil : line = []
    · simp [linesOf, hb, hnil]
    · simp [linesOf, hb, ih (List.not_mem_of_not_mem_cons hline) hnil]

/-- Along the lines of a stream: each with its newline, and the last one where it has none. -/
theorem lines_induction {motive : List UInt8 → Prop} (nil : motive [])
    (last : ∀ line, 10 ∉ line → line ≠ [] → motive line)
    (ended : ∀ line rest, 10 ∉ line → motive rest → motive (line ++ 10 :: rest)) (stream : List UInt8) : motive stream := by
  induction h : stream.length using Nat.strong_induction_on generalizing stream with
  | _ len ih =>
    subst h
    by_cases hmem : 10 ∈ stream
    · obtain ⟨line, rest, rfl, hline⟩ := List.eq_append_cons_of_mem hmem
      exact ended line rest hline (ih rest.length (by simp; omega) rest rfl)
    · by_cases hnil : stream = []
      · rw [hnil]
        exact nil
      · exact last stream hmem hnil

theorem of_mem_linesOf {stream : List UInt8} {l : StreamLine} (h : l ∈ linesOf stream) :
    10 ∉ l.text ∧ (l.ended = false → l.text ≠ []) := by
  induction stream using lines_induction with
  | nil => cases h
  | last line hline hne =>
    rw [linesOf_last hline hne, List.mem_singleton] at h
    subst h
    exact ⟨hline, fun _ => hne⟩
  | ended line rest hline ih =>
    rw [linesOf_ended hline] at h
    obtain rfl | h := List.mem_cons.mp h
    · exact ⟨hline, fun hend => Bool.noConfusion hend⟩
    · exact ih h

section Buffers
variable {n : Nat} (hn : 0 < n)
include hn

theorem buffersUpTo_fuel {fuel : Nat} {stream : List UInt8} (hfuel : stream.length ≤ fuel) :
    buffersUpTo n fuel stream = buffers n stream := by
  induction h : stream.length using Nat.strong_induction_on generalizing fuel stream with
  | _ len ih =>
    subst h
    by_cases hs : stream = []
    · subst hs
      cases fuel <;> simp [buffers, buffersUpTo]
    · have hless := fgets_shorter hn hs
      have hpos := List.length_pos_of_ne_nil hs
      obtain ⟨fuel, rfl⟩ : ∃ f, fuel = f + 1 := ⟨fuel - 1, by omega⟩
      obtain ⟨len, hlen⟩ : ∃ k, stream.length = k + 1 := ⟨stream.length - 1, by omega⟩
      rw [buffers, hlen, buffersUpTo, buffersUpTo, if_neg hs, if_neg hs, ih _ hless (by omega) rfl,
        ih _ hless (by omega) rfl]

theorem buffers_cons {stream : List UInt8} (hs : stream ≠ []) :
    buffers n stream = (fgets n stream).1 :: buffers n (fgets n stream).2 := by
  have hless := fgets_shorter hn hs
  have hpos := List.length_pos_of_ne_nil hs
  obtain ⟨len, hlen⟩ : ∃ k, stream.length = k + 1 := ⟨stream.length - 1, by omega⟩
  rw [buffers, hlen, buffersUpTo, if_neg hs, buffersUpTo_fuel hn (by omega)]

/-- A newline is where the loop starts anew. -/
theorem buffers_ended {line : List UInt8} (hline : 10 ∉ line) (rest : List UInt8) :
    buffers n (line ++ 10 :: rest) = buffers n (line ++ [10]) ++ buffers n rest := by
  have hnil : buffers n [] = [] := rfl
  induction h : line.length using Nat.strong_induction_on generalizing line with
  | _ len ih =>
    subst h
    rw [buffers_cons hn (List.append_ne_nil_of_right_ne_nil line (List.cons_ne_nil 10 rest)),
      buffers_cons hn (List.append_ne_nil_of_right_ne_nil line (List.cons_ne_nil 10 []))]
    by_cases hlen : line.length < n
    · rw [fgets_fits hline hlen, fgets_fits hline hlen, hnil]
      rfl
    · have hfront : 10 ∉ line.take n := fun hd => hline (List.mem_of_mem_take hd)
      have hback : 10 ∉ line.drop n := fun hd => hline (List.mem_of_mem_drop hd)
      have hfull : (line.take n).length = n := by
        rw [List.length_take]
        omega
      have hcut (tail : List UInt8) : fgets n (line ++ 10 :: tail) = (line.take n, line.drop n ++ 10 :: tail) := by
        conv_lhs => rw [← List.take_append_drop n line, List.append_assoc]
        exact fgets_cut hfront hfull _
      rw [hcut, hcut, ih (line.drop n).length (by rw [List.length_drop]; omega) hback rfl]
      rfl

/-- Each line is read by itself. -/
theorem buffers_linesOf (stream : List UInt8) :
    buffers n stream = (linesOf stream).flatMap fun l => buffers n l.bytes := by
  induction stream using lines_induction with
  | nil => rfl
  | last line hline hne => simp [linesOf_last hline hne, StreamLine.bytes]
  | ended line rest hline ih =>
    rw [linesOf_ended hline, buffers_ended hn hline, ih, List.flatMap_cons]
    rfl

/-- A line that fits with its newline is one buffer. -/
theorem buffers_fits {line : List UInt8} (hline : 10 ∉ line) (hlen : line.length < n) :
    buffers n (line ++ [10]) = [line ++ [10]] := by
  rw [buffers_cons hn (List.append_ne_nil_of_right_ne_nil line (List.cons_ne_nil 10 [])), fgets_fits hline hlen]
  rfl

/-- Of a longer text the first `n` bytes are a buffer. -/
theorem buffers_cut {line : List UInt8} (hline : 10 ∉ line) (hlen : line.length = n) (rest : List UInt8) :
    buffers n (line ++ rest) = line :: buffers n rest := by
  have hne : line ++ rest ≠ [] := List.append_ne_nil_of_left_ne_nil (List.ne_nil_of_length_pos (by omega)) rest
  rw [buffers_cons hn hne, fgets_cut hline hlen]

theorem buffers_last {line : List UInt8} (hline : 10 ∉ line) (hne : line ≠ []) (hlen : line.length ≤ n) :
    buffers n line = [line] := by
  have hwhole : fgets n line = (line, []) := by
    clear hne hn
    induction line generalizing n with
    | nil => cases n <;> rfl
    | cons b line ih =>
      obtain ⟨n, rfl⟩ : ∃ k, n = k + 1 := ⟨n - 1, by rw [List.length_cons] at hlen; omega⟩
      have hb : b ≠ 10 := fun h => hline (h ▸ List.mem_cons_self)
      simp [fgets, hb, ih (List.not_mem_of_not_mem_cons hline) (Nat.le_of_succ_le_succ hlen)]
  rw [buffers_cons hn hne, hwhole]
  rfl

end Buffers

/-! ### Tokens of a text -/

/-- `strtok`: the next token and what is left of the text after the delimiter that ends it. -/
def strtok (delims text : List UInt8) : Option (List UInt8 × List UInt8) :=
  match text.dropWhile (delims.contains ·) with
  | [] => none
  | b :: rest =>
    some ((b :: rest).takeWhile (!delims.contains ·), ((b :: rest).dropWhile (!delims.contains ·)).drop 1)

/-- The loop over all tokens: `fuel` bounds how many there are. -/
def tokensUpTo (delims : List UInt8) : Nat → List UInt8 → List (List UInt8)
  | 0, _ => []
  | fuel + 1, text =>
    match strtok delims text with
    | none => []
    | some (token, rest) => token :: tokensUpTo delims fuel rest

/-- Every token takes a byte, so the length of the text bounds them. -/
def tokens (delims text : List UInt8) : List (List UInt8) := tokensUpTo delims text.length text

section Tokens
variable {delims : List UInt8}

/-- A token is not empty, has no delimiter, and is taken from the text. -/
theorem strtok_some {text token rest : List UInt8} (h : strtok delims text = some (token, rest)) :
    token ≠ [] ∧ (∀ b ∈ token, b ∉ delims) ∧ token ⊆ text ∧ rest ⊆ text := by
  unfold strtok at h
  cases hdrop : text.dropWhile (delims.contains ·) with
  | nil =>
    rw [hdrop] at h
    cases h
  | cons b left =>
    rw [hdrop] at h
    obtain ⟨rfl, rfl⟩ := Prod.mk.inj (Option.some.inj h)
    have hsub : b :: left ⊆ text := hdrop ▸ (List.dropWhile_sublist _).subset
    have hb : b ∉ delims := by
      have hne : text.dropWhile (delims.contains ·) ≠ [] := by rw [hdrop]; exact List.cons_ne_nil b left
      have hhead := List.head_dropWhile_not _ hne
      simp only [hdrop, List.head_cons] at hhead
      simpa using hhead
    refine ⟨by simp [hb], ?_, ?_, ?_⟩
    · intro c hc
      simpa using List.mem_takeWhile_imp hc
    · exact List.Subset.trans (List.takeWhile_sublist _).subset hsub
    · exact List.Subset.trans ((List.drop_sublist _ _).trans (List.dropWhile_sublist _)).subset hsub

theorem mem_tokensUpTo {fuel : Nat} {text token : List UInt8} (h : token ∈ tokensUpTo delims fuel text) :
    token ≠ [] ∧ (∀ b ∈ token, b ∉ delims) ∧ token ⊆ text := by
  induction fuel generalizing text with
  | zero => cases h
  | succ fuel ih =>
    rw [tokensUpTo] at h
    cases htok : strtok delims text with
    | none =>
      rw [htok] at h
      cases h
    | some r =>
      obtain ⟨first, rest⟩ := r
      rw [htok] at h
      obtain ⟨hne, hfree, hsub, hrest⟩ := strtok_some htok
      rcases List.mem_cons.mp h with rfl | h
      · exact ⟨hne, hfree, hsub⟩
      · obtain ⟨hne', hfree', hsub'⟩ := ih h
        exact ⟨hne', hfree', List.Subset.trans hsub' hrest⟩

theorem length_tokensUpTo (fuel : Nat) (text : List UInt8) : (tokensUpTo delims fuel text).length ≤ fuel := by
  induction fuel generalizing text with
  | zero => exact le_refl _
  | succ fuel ih =>
    rw [tokensUpTo]
    cases strtok delims text with
    | none => exact Nat.zero_le _
    | some r => exact Nat.succ_le_succ (ih r.2)

/-- A delimiter in front changes nothing. -/
theorem strtok_skip {b : UInt8} (hb : b ∈ delims) (text : List UInt8) : strtok delims (b :: text) = strtok delims text := by
  simp [strtok, hb]

/-- A token in front is cut at the delimiter that follows it. -/
theorem strtok_token {token : List UInt8} (hne : token ≠ []) (htoken : ∀ b ∈ token, b ∉ delims) {b : UInt8}
    (hb : b ∈ delims) (rest : List UInt8) : strtok delims (token ++ b :: rest) = some (token, rest) := by
  cases token with
  | nil => exact absurd rfl hne
  | cons c token =>
    have hc : c ∉ delims := htoken c List.mem_cons_self
    have hpos : ∀ x ∈ c :: token, (!delims.contains x) = true := by
      intro x hx
      simp [htoken x hx]
    have hdrop : (c :: token ++ b :: rest).dropWhile (delims.contains ·) = c :: token ++ b :: rest := by
      simp [hc]
    rw [strtok, hdrop]
    simp only [List.cons_append]
    rw [← List.cons_append, List.takeWhile_append_of_pos hpos, List.dropWhile_append_of_pos hpos]
    simp [hb]

/-- A token at the end of the text is the last one. -/
theorem strtok_last {token : List UInt8} (hne : token ≠ []) (htoken : ∀ b ∈ token, b ∉ delims) :
    strtok delims token = some (token, []) := by
  cases token with
  | nil => exact absurd rfl hne
  | cons c token =>
    have hc : c ∉ delims := htoken c List.mem_cons_self
    have hpos : ∀ x ∈ c :: token, (!delims.contains x) = true := by
      intro x hx
      simp [htoken x hx]
    have hdrop : (c :: token).dropWhile (delims.contains ·) = c :: token := by simp [hc]
    rw [strtok, hdrop]
    simp only
    rw [List.takeWhile_eq_self_iff.mpr hpos, List.dropWhile_eq_nil_iff.mpr hpos]
    rfl

end Tokens

/-! ### One delimiter -/

section Single
variable (delim : UInt8)

theorem tokensUpTo_skip (fuel : Nat) (text : List UInt8) :
    tokensUpTo [delim] fuel (delim :: text) = tokensUpTo [delim] fuel text := by
  cases fuel with
  | zero => rfl
  | succ fuel => simp only [tokensUpTo, strtok_skip (List.mem_singleton_self delim)]

theorem tokensUpTo_token {token : List UInt8} (hne : token ≠ []) (htoken : delim ∉ token) (fuel : Nat)
    (rest : List UInt8) :
    tokensUpTo [delim] (fuel + 1) (token ++ delim :: rest) = token :: tokensUpTo [delim] fuel rest := by
  have hfree : ∀ b ∈ token, b ∉ [delim] := by
    intro b hb hmem
    exact htoken (List.mem_singleton.mp hmem ▸ hb)
  simp only [tokensUpTo, strtok_token hne hfree (List.mem_singleton_self delim)]

theorem tokensUpTo_last {token : List UInt8} (hne : token ≠ []) (htoken : delim ∉ token) (fuel : Nat) :
    tokensUpTo [delim] (fuel + 1) token = [token] := by
  have hfree : ∀ b ∈ token, b ∉ [delim] := by
    intro b hb hmem
    exact htoken (List.mem_singleton.mp hmem ▸ hb)
  cases fuel with
  | zero => simp only [tokensUpTo, strtok_last hne hfree]
  | succ fuel =>
    have hend : strtok [delim] [] = none := rfl
    simp only [tokensUpTo, strtok_last hne hfree, hend]

/-- The tokens between newlines, or any other single delimiter, are the non-empty pieces of
the text. -/
theorem tokensUpTo_splitOn {fuel : Nat} {text : List UInt8} (hfuel : text.length ≤ fuel) :
    tokensUpTo [delim] fuel text = (text.splitOn delim).filter (· ≠ []) := by
  induction h : text.length using Nat.strong_induction_on generalizing fuel text with
  | _ n ih =>
    subst h
    by_cases hmem : delim ∈ text
    · obtain ⟨token, rest, rfl, htoken⟩ := List.eq_append_cons_of_mem hmem
      rw [List.splitOn_append_cons_self_of_not_mem htoken]
      by_cases hne : token = []
      · subst hne
        rw [List.nil_append, tokensUpTo_skip, ih rest.length (by simp) _ rfl]
        · rfl
        · simp at hfuel; omega
      · obtain ⟨fuel, rfl⟩ : ∃ f, fuel = f + 1 := ⟨fuel - 1, by simp at hfuel; omega⟩
        rw [tokensUpTo_token delim hne htoken, ih rest.length (by simp; omega) _ rfl]
        · simp [hne]
        · simp at hfuel; omega
    · rw [List.splitOn_eq_singleton hmem]
      by_cases hne : text = []
      · subst hne
        cases fuel <;> rfl
      · obtain ⟨fuel, rfl⟩ : ∃ f, fuel = f + 1 :=
          ⟨fuel - 1, by have := List.length_pos_iff.mpr hne; omega⟩
        rw [tokensUpTo_last delim hne hmem]
        simp [hne]

theorem tokens_splitOn (text : List UInt8) : tokens [delim] text = (text.splitOn delim).filter (· ≠ []) :=
  tokensUpTo_splitOn delim le_rfl

/-- A piece of a text has none of the delimiters and only bytes of the text. -/
theorem of_mem_splitOn {text piece : List UInt8} (h : piece ∈ text.splitOn delim) : delim ∉ piece ∧ piece ⊆ text := by
  induction text generalizing piece with
  | nil =>
    simp only [List.splitOn_nil, List.mem_singleton] at h
    simp [h]
  | cons b text ih =>
    rw [List.splitOn_cons_eq_if_modifyHead] at h
    by_cases hb : b = delim
    · simp only [hb, beq_self_eq_true, if_true, List.mem_cons] at h
      obtain rfl | h := h
      · simp
      · exact ⟨(ih h).1, List.subset_cons_of_subset b (ih h).2⟩
    · simp only [beq_iff_eq, hb, if_false] at h
      obtain ⟨head, tail, heq⟩ := List.exists_cons_of_ne_nil (List.splitOn_ne_nil delim text)
      rw [heq, List.modifyHead_cons, List.mem_cons] at h
      obtain rfl | h := h
      · obtain ⟨hfree, hsub⟩ := ih (heq ▸ List.mem_cons_self : head ∈ text.splitOn delim)
        exact ⟨by simp [hfree, Ne.symm hb], List.cons_subset_cons b hsub⟩
      · have hpiece := ih (heq ▸ List.mem_cons_of_mem head h)
        exact ⟨hpiece.1, List.subset_cons_of_subset b hpiece.2⟩

/-- A token is not empty, has no delimiter, and has only bytes of the text. -/
theorem of_mem_tokens {text token : List UInt8} (h : token ∈ tokens [delim] text) :
    token ≠ [] ∧ delim ∉ token ∧ token ⊆ text := by
  rw [tokens_splitOn, List.mem_filter] at h
  exact ⟨of_decide_eq_true h.2, of_mem_splitOn delim h.1⟩

/-! ### Pieces -/

/-- `TWFunc::split_string(text, delim, true)`: the pieces between the delimiters that are not empty. -/
def splitString (text : List UInt8) : List (List UInt8) := (text.splitOn delim).filter (· ≠ [])

theorem splitString_skip (text : List UInt8) : splitString delim (delim :: text) = splitString delim text := by
  rw [splitString, ← List.nil_append (delim :: text), List.splitOn_append_cons_self_of_not_mem List.not_mem_nil]
  rfl

theorem splitString_replicate (n : Nat) (text : List UInt8) :
    splitString delim (List.replicate n delim ++ text) = splitString delim text := by
  induction n with
  | zero => rfl
  | succ n ih => rw [List.replicate_succ, List.cons_append, splitString_skip, ih]

theorem splitString_word {word : List UInt8} (hne : word ≠ []) (hword : delim ∉ word) (rest : List UInt8) :
    splitString delim (word ++ delim :: rest) = word :: splitString delim rest := by
  rw [splitString, List.splitOn_append_cons_self_of_not_mem hword]
  exact List.filter_cons_of_pos (decide_eq_true hne)

theorem splitString_last {word : List UInt8} (hne : word ≠ []) (hword : delim ∉ word) : splitString delim word = [word] := by
  rw [splitString, List.splitOn_eq_singleton hword]
  exact List.filter_cons_of_pos (decide_eq_true hne)

theorem splitString_append (text rest : List UInt8) :
    splitString delim (text ++ delim :: rest) = splitString delim text ++ splitString delim rest := by
  rw [splitString, List.splitOn_append_cons_self, List.filter_append]
  rfl

/-- A text without a delimiter is one piece at most. -/
theorem length_splitString_free {word : List UInt8} (hword : delim ∉ word) : (splitString delim word).length ≤ 1 := by
  rw [splitString, List.splitOn_eq_singleton hword]
  exact (List.length_filter_le _ _).trans (le_refl 1)

/-- It adds one piece at most. -/
theorem length_splitString_append_free (text : List UInt8) {word : List UInt8} (hword : delim ∉ word) :
    (splitString delim (text ++ word)).length ≤ (splitString delim text).length + 1 := by
  induction h : text.length using Nat.strong_induction_on generalizing text with
  | _ len ih =>
    subst h
    by_cases hmem : delim ∈ text
    · obtain ⟨front, rest, rfl, -⟩ := List.eq_append_cons_of_mem hmem
      have hrest := ih rest.length (by simp; omega) rest rfl
      rw [List.append_assoc, List.cons_append, splitString_append, splitString_append, List.length_append,
        List.length_append]
      omega
    · have hfree : delim ∉ text ++ word := by simp [hmem, hword]
      exact (length_splitString_free delim hfree).trans (Nat.le_add_left _ _)

/-- Of a text that is cut off, every piece is the beginning of a piece of the whole. -/
theorem splitOn_take (text : List UInt8) (n : Nat) :
    ∀ q ∈ (text.take n).splitOn delim, ∃ p ∈ text.splitOn delim, q <+: p := by
  induction h : text.length using Nat.strong_induction_on generalizing text n with
  | _ len ih =>
    subst h
    by_cases hmem : delim ∈ text
    · obtain ⟨token, rest, rfl, htoken⟩ := List.eq_append_cons_of_mem hmem
      rw [List.splitOn_append_cons_self_of_not_mem htoken]
      by_cases hn : n ≤ token.length
      · have hcut : delim ∉ token.take n := fun hd => htoken (List.mem_of_mem_take hd)
        rw [List.take_append_of_le_length hn, List.splitOn_eq_singleton hcut]
        intro q hq
        obtain rfl := List.mem_singleton.mp hq
        exact ⟨token, List.mem_cons_self, List.take_prefix n token⟩
      · obtain ⟨k, rfl⟩ : ∃ k, n = token.length + (k + 1) := ⟨n - token.length - 1, by omega⟩
        rw [List.take_length_add_append, List.take_succ_cons, List.splitOn_append_cons_self_of_not_mem htoken]
        intro q hq
        obtain rfl | hq := List.mem_cons.mp hq
        · exact ⟨q, List.mem_cons_self, List.prefix_rfl⟩
        · obtain ⟨p, hp, hpre⟩ := ih rest.length (by simp; omega) rest k rfl q hq
          exact ⟨p, List.mem_cons_of_mem token hp, hpre⟩
    · have hcut : delim ∉ text.take n := fun hd => hmem (List.mem_of_mem_take hd)
      rw [List.splitOn_eq_singleton hmem, List.splitOn_eq_singleton hcut]
      intro q hq
      obtain rfl := List.mem_singleton.mp hq
      exact ⟨text, List.mem_singleton_self text, List.take_prefix n text⟩

theorem splitString_take (text : List UInt8) (n : Nat) {q : List UInt8} (hq : q ∈ splitString delim (text.take n)) :
    ∃ p ∈ splitString delim text, q <+: p := by
  obtain ⟨hmem, hne⟩ := List.mem_filter.mp hq
  obtain ⟨p, hp, hpre⟩ := splitOn_take delim text n q hmem
  have hpne : p ≠ [] := by
    intro hnil
    subst hnil
    exact of_decide_eq_true hne (List.prefix_nil.mp hpre)
  exact ⟨p, List.mem_filter.mpr ⟨hp, decide_eq_true hpne⟩, hpre⟩

/-- Pieces are read back from the text that joins them. -/
theorem splitString_intercalate {pieces : List (List UInt8)} (h : ∀ p ∈ pieces, p ≠ [] ∧ delim ∉ p) :
    splitString delim (List.intercalate [delim] pieces) = pieces := by
  by_cases hnil : pieces = []
  · subst hnil
    rfl
  · rw [splitString, List.splitOn_intercalate delim (fun p hp => (h p hp).2) hnil]
    exact List.filter_eq_self.mpr fun p hp => decide_eq_true (h p hp).1

end Single

end Twrp.Base
