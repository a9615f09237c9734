import Twrp.Base.Fscanf
import Twrp.Zip.Verifier

/-! The file with the public keys (`load_keys`).

The file is read with a row of formats, and between them the number of the fields that were converted is
looked at. A format that ends with braces says nothing of whether they are there, and a key may start
with any character. What is read is told by `Reads`; what is documented, by `KeyFile`. -/
namespace Twrp.Zip.Keys
open Base.Fscanf Base.Scanf

/-! ### The code -/

def RSANUMWORDS : Nat := 64

structure RSAPublicKey where
  len : Int
  n0inv : BitVec 32
  n : List (BitVec 32)
  rr : List (BitVec 32)
  exponent : Int
deriving DecidableEq

abbrev Cert := Certificate RSAPublicKey

/-- `" %c"` -/
def startFormat : List Directive := [.blank, .char]

/-- `"%d {"` -/
def versionFormat : List Directive := [.number .d, .blank, .literal 123]

/-- `" %i , 0x%x , { %u"` -/
def headFormat : List Directive :=
  [.blank, .number .i, .blank, .literal 44, .blank, .literal 48, .literal 120, .number .x, .blank, .literal 44, .blank, .literal 123, .blank,
    .number .u]

/-- `" , %u"` -/
def wordFormat : List Directive := [.blank, .literal 44, .blank, .number .u]

/-- `" } , { %u"` -/
def middleFormat : List Directive := [.blank, .literal 125, .blank, .literal 44, .blank, .literal 123, .blank, .number .u]

/-- `" } } "` -/
def closingFormat : List Directive := [.blank, .literal 125, .blank, .literal 125, .blank]

section Code

/-- `fscanf` with one number to convert, where anything but 1 is a failure. -/
def readNumber (format : List Directive) (text : Text) : Option (Numeral × Text) :=
  match fscanf format text with
  | ([.number m], text) => some (m, text)
  | _ => none

def setVersion (cert : Cert) (exponent hash_len : Int) : Cert :=
  { cert with public_key := { cert.public_key with exponent := exponent }, hash_len := hash_len }

/-- The switch over the version that is written. -/
def switchVersion (cert : Cert) (version : Int) : Option Cert :=
  if version = 2 then some (setVersion cert 65537 SHA_DIGEST_SIZE)
  else if version = 3 then some (setVersion cert 3 SHA256_DIGEST_SIZE)
  else if version = 4 then some (setVersion cert 65537 SHA256_DIGEST_SIZE)
  else none

/-- How a key starts. -/
def readStart (cert : Cert) (text : Text) : Option (Cert × Text) :=
  match fscanf startFormat text with
  | ([.char start_char], text) =>
    if start_char = 123 then some (setVersion cert 3 SHA_DIGEST_SIZE, text)
    else if start_char = 118 then do
      let (version, text) ← readNumber versionFormat text
      let cert ← switchVersion cert version.toInt
      some (cert, text)
    -- any other character is taken, and sets nothing
    else some (cert, text)
  | _ => none

def readHead (text : Text) : Option (Numeral × Numeral × Numeral × Text) :=
  match fscanf headFormat text with
  | ([.number len, .number n0inv, .number n], text) => some (len, n0inv, n, text)
  | _ => none

/-- The loop over the words of a list behind its first. -/
def readWords : (left : Nat) → Text → Option (List (BitVec 32) × Text)
  | 0, text => some ([], text)
  | left + 1, text => do
    let (m, text) ← readNumber wordFormat text
    let (words, text) ← readWords left text
    some (m.toUnsigned :: words, text)

/-- One key, in a certificate of which nothing is set. -/
def readKey (fresh : Cert) (text : Text) : Option (Cert × Text) := do
  let (cert, text) ← readStart fresh text
  let (len, n0inv, n, text) ← readHead text
  if len.toInt ≠ RSANUMWORDS then none
  else do
    let (ns, text) ← readWords (RSANUMWORDS - 1) text
    let (rr, text) ← readNumber middleFormat text
    let (rrs, text) ← readWords (RSANUMWORDS - 1) text
    let text := (fscanf closingFormat text).2
    some ({ cert with public_key := ⟨len.toInt, n0inv.toUnsigned, n.toUnsigned :: ns, rr.toUnsigned :: rrs, cert.public_key.exponent⟩ }, text)

inductive Fault where
  | hang
  /-- `++*numKeys` overflows -/
  | overflow
deriving DecidableEq

/-- The loop over the keys; `fresh` is what the memory of each certificate holds before. -/
def readKeys (fresh : Nat → Cert) : (fuel : Nat) → Text → List Cert → Except Fault (Option (List Cert))
  | 0, _, _ => .error .hang
  | fuel + 1, text, out =>
    if out.length = 2147483647 then .error .overflow
    else
      match readKey (fresh out.length) text with
      | none => .ok none
      | some (cert, text) =>
        match text with
        | [] => .ok (some (out ++ [cert]))
        | c :: text => if c = 44 then readKeys fresh fuel text (out ++ [cert]) else .ok none

/-- `load_keys` on a file, if it can be opened: the certificates, and what is put into `*numKeys`. -/
def loadKeys (fresh : Nat → Cert) (fuel : Nat) : Option Text → Except Fault (Option (List Cert) × Int)
  | none => .ok (none, 0)
  | some text => do
    match ← readKeys fresh fuel text [] with
    | none => .ok (none, 0)
    | some out => .ok (some out, out.length)

end Code

/-! ### What is documented -/

/-- A key as it is dumped. -/
structure DumpedKey where
  version : Nat
  n0inv : Nat
  n : List Int
  rr : List Int

def DumpedKey.exponent (k : DumpedKey) : Int := if k.version = 1 ∨ k.version = 3 then 3 else 65537

def DumpedKey.hashLength (k : DumpedKey) : Int := if k.version ≤ 2 then SHA_DIGEST_SIZE else SHA256_DIGEST_SIZE

/-- The certificate with the numbers of the file. -/
def DumpedKey.certificate (k : DumpedKey) : Cert where
  hash_len := k.hashLength
  public_key := ⟨RSANUMWORDS, BitVec.ofNat 32 k.n0inv, k.n.map (BitVec.ofInt 32), k.rr.map (BitVec.ofInt 32), k.exponent⟩

/-- Behind blanks, the text goes on with a character. -/
def Mark (c : UInt8) (text rest : Text) : Prop := skip text = c :: rest

/-- The digits of a number in C, with nothing behind them that could be another. -/
structure Digits (radix : Nat) (ds rest : Text) : Prop where
  ne_nil : ds ≠ []
  digits : ∀ b ∈ ds, isDigitIn radix b = true
  ends : ∀ b ∈ rest.head?, isDigitIn radix b = false

/-- A decimal number: it does not start with a zero unless it is that. -/
inductive Integer : Text → Int → Text → Prop where
  | mk {text sign ds rest : Text} (hsign : sign = [] ∨ sign = [45]) (htext : skip text = sign ++ (ds ++ rest)) (hds : Digits 10 ds rest)
      (hzero : ds.head? = some 48 → ds = [48]) : Integer text (signed sign (magnitude 10 ds)) rest

/-- What a word of 32 bits can hold, with or without a sign. -/
def IsWord (v : Int) : Prop := -2147483648 ≤ v ∧ v < 4294967296

inductive Integers : Text → List Int → Text → Prop where
  | last {text rest : Text} {v : Int} (h : Integer text v rest) (hword : IsWord v) : Integers text [v] rest
  | more {text t t' rest : Text} {v : Int} {vs : List Int} (h : Integer text v t) (hword : IsWord v) (hcomma : Mark 44 t t')
      (hrest : Integers t' vs rest) : Integers text (v :: vs) rest

inductive Hexadecimal : Text → Nat → Text → Prop where
  | mk {text ds rest : Text} (htext : skip text = 48 :: 120 :: (ds ++ rest)) (hds : Digits 16 ds rest) (hword : magnitude 16 ds < 4294967296) :
      Hexadecimal text (magnitude 16 ds) rest

/-- The version of a key, and the brace that opens it. -/
inductive Version : Text → Nat → Text → Prop where
  | unversioned {text rest : Text} (h : Mark 123 text rest) : Version text 1 rest
  | versioned {text t rest : Text} {b : UInt8} (hb : b = 50 ∨ b = 51 ∨ b = 52) (htext : skip text = 118 :: b :: t) (hbrace : Mark 123 t rest) :
      Version text (digitValue b) rest

/-- `{64,0x…,{…},{…}}` -/
inductive Record : Text → DumpedKey → Text → Prop where
  | mk {text t₀ t₁ t₂ t₃ t₄ t₅ t₆ t₇ t₈ t₉ t₁₀ t₁₁ rest : Text} {k : DumpedKey} (hversion : Version text k.version t₀)
      (hcount : Integer t₀ RSANUMWORDS t₁) (hcomma : Mark 44 t₁ t₂) (hn0inv : Hexadecimal t₂ k.n0inv t₃) (hcomma' : Mark 44 t₃ t₄)
      (hopen : Mark 123 t₄ t₅) (hn : Integers t₅ k.n t₆) (hlength : k.n.length = RSANUMWORDS) (hclose : Mark 125 t₆ t₇) (hcomma'' : Mark 44 t₇ t₈)
      (hopen' : Mark 123 t₈ t₉) (hrr : Integers t₉ k.rr t₁₀) (hlength' : k.rr.length = RSANUMWORDS) (hclose' : Mark 125 t₁₀ t₁₁)
      (hlast : Mark 125 t₁₁ rest) : Record text k rest

/-- Keys with commas between them, and only blanks behind the last. -/
inductive KeyFile : Text → List DumpedKey → Prop where
  | last {text rest : Text} {k : DumpedKey} (h : Record text k rest) (hend : skip rest = []) : KeyFile text [k]
  | more {text t t' : Text} {k : DumpedKey} {ks : List DumpedKey} (h : Record text k t) (hcomma : Mark 44 t t') (hrest : KeyFile t' ks) :
      KeyFile text (k :: ks)

/-- Nothing is loaded, or the file is as documented and its numbers are loaded. -/
def AsDocumented (fresh : Nat → Cert) (text : Text) : Prop :=
  ∃ fuel out numKeys, loadKeys fresh fuel (some text) = .ok (out, numKeys) ∧
    (out = none ∨ ∃ ks, KeyFile text ks ∧ numKeys = ks.length ∧ out = some (ks.map DumpedKey.certificate))

/-! ### What is read -/

/-- How a key starts: with its brace, with a version and perhaps a brace, or with anything else. -/
inductive Opening where
  | brace
  | version (m : Numeral) (braced : Bool)
  | other (c : UInt8)

inductive Opens : Text → Opening → Text → Prop where
  | brace {text rest : Text} (h : Mark 123 text rest) : Opens text .brace rest
  | braced {text t t' rest : Text} {m : Numeral} (hv : Mark 118 text t) (hm : number .d t = some (m, t')) (hversion : m.toInt ∈ [2, 3, 4])
      (hbrace : Mark 123 t' rest) : Opens text (.version m true) rest
  | unbraced {text t t' : Text} {m : Numeral} (hv : Mark 118 text t) (hm : number .d t = some (m, t')) (hversion : m.toInt ∈ [2, 3, 4])
      (hbrace : ∀ b ∈ (skip t').head?, b ≠ 123) : Opens text (.version m false) (skip t')
  | other {text rest : Text} {c : UInt8} (h : Mark c text rest) (hbrace : c ≠ 123) (hv : c ≠ 118) : Opens text (.other c) rest

/-- The words of a list behind its first. -/
inductive Words : Text → List Numeral → Text → Prop where
  | nil {text : Text} : Words text [] text
  | cons {text t rest : Text} {m : Numeral} {ms : List Numeral} (h : Matches wordFormat text [.number m] t) (hrest : Words t ms rest) :
      Words text (m :: ms) rest

/-- How many of the two braces that close a key are there. -/
inductive Closes : Text → Nat → Text → Prop where
  | both {text t t' : Text} (h : Mark 125 text t) (h' : Mark 125 t t') : Closes text 2 (skip t')
  | one {text t : Text} (h : Mark 125 text t) (h' : ∀ b ∈ (skip t).head?, b ≠ 125) : Closes text 1 (skip t)
  | none {text : Text} (h : ∀ b ∈ (skip text).head?, b ≠ 125) : Closes text 0 (skip text)

/-- What is written where a key is read. -/
structure Written where
  opening : Opening
  len : Numeral
  n0inv : Numeral
  n : List Numeral
  rr : List Numeral
  closed : Nat

inductive Reads : Text → Written → Text → Prop where
  | mk {text t₀ t₁ t₂ t₃ t₄ rest : Text} {opening : Opening} {len n0inv m m' : Numeral} {ms ms' : List Numeral} {closed : Nat}
      (hopen : Opens text opening t₀) (hhead : Matches headFormat t₀ [.number len, .number n0inv, .number m] t₁) (hlen : len.toInt = RSANUMWORDS)
      (hn : Words t₁ ms t₂) (hcount : ms.length = RSANUMWORDS - 1) (hmiddle : Matches middleFormat t₂ [.number m'] t₃) (hrr : Words t₃ ms' t₄)
      (hcount' : ms'.length = RSANUMWORDS - 1) (hclose : Closes t₄ closed rest) :
      Reads text ⟨opening, len, n0inv, m :: ms, m' :: ms', closed⟩ rest

/-- Keys that are read with a comma behind each. -/
inductive Begins : Text → List Written → Text → Prop where
  | nil {text : Text} : Begins text [] text
  | cons {text t rest : Text} {w : Written} {ws : List Written} (h : Reads text w (44 :: t)) (hrest : Begins t ws rest) :
      Begins text (w :: ws) rest

/-- What the start of a key sets. -/
def Opening.start (cert : Cert) : Opening → Cert
  | brace => setVersion cert 3 SHA_DIGEST_SIZE
  | version m _ => (switchVersion cert m.toInt).getD cert
  | other _ => cert

/-- The certificate that is made of what is written, in memory that held another before. -/
def Written.certificate (fresh : Cert) (w : Written) : Cert where
  hash_len := (w.opening.start fresh).hash_len
  public_key := ⟨w.len.toInt, w.n0inv.toUnsigned, w.n.map Numeral.toUnsigned, w.rr.map Numeral.toUnsigned,
    (w.opening.start fresh).public_key.exponent⟩

/-- A key starts with its brace, or with `v2`, `v3` or `v4` and a brace. -/
def Opening.Exact : Opening → Prop
  | brace => True
  | version m braced => m.gap = [] ∧ m.sign = [] ∧ m.digits ∈ [[50], [51], [52]] ∧ braced = true
  | other _ => False

/-- A decimal number of 32 bits: no plus sign, and no zeros in front of it. -/
def PlainWord (m : Numeral) : Prop :=
  m.sign ≠ [43] ∧ (m.digits.head? = some 48 → m.digits = [48]) ∧ IsWord m.value

/-- A key is written as it is dumped: it starts as it has to, its count is 64 in decimal, there is just one
`0x` and then up to 32 bits in digits, the words are plain, and both braces are there at the end. -/
structure Written.Exact (w : Written) : Prop where
  opening : w.opening.Exact
  len : w.len.sign ≠ [43] ∧ w.len.radix = 10 ∧ w.len.value = RSANUMWORDS
  n0inv : w.n0inv.gap = [] ∧ w.n0inv.sign = [] ∧ w.n0inv.pre = [] ∧ w.n0inv.value < 4294967296
  n : ∀ m ∈ w.n, PlainWord m
  rr : ∀ m ∈ w.rr, PlainWord m
  closed : w.closed = 2

/-- A file that is read to its end has only keys that are written as they are dumped, and there are fewer
than 2^31 keys. -/
def Fine (text : Text) : Prop :=
  (∀ ws rest, Begins text ws rest → ws.length < 2147483647) ∧
    ∀ ws t w, Begins text ws t → Reads t w [] → ∀ w' ∈ ws ++ [w], w'.Exact

/-! ### Tokens -/

section Tokens
variable {text t rest rest' : Text}

theorem Mark.unique {c : UInt8} (h : Mark c text rest) (h' : Mark c text rest') : rest = rest' :=
  (List.cons.inj (h.symm.trans h')).2

theorem Mark.char {c c' : UInt8} (h : Mark c text rest) (h' : Mark c' text rest') : c = c' :=
  (List.cons.inj (h.symm.trans h')).1

theorem Mark.lt {c : UInt8} (h : Mark c text rest) : rest.length < text.length := by
  have hlength := congrArg List.length h
  have hskip := length_skip_le text
  rw [List.length_cons] at hlength
  omega

/-- A number that a mark stands behind ends there. -/
theorem Mark.ends {c : UInt8} {radix : Nat} (h : Mark c text rest) (hradix : radix ≤ 16) (hc : isDigitIn radix c = false) :
    ∀ b ∈ text.head?, isDigitIn radix b = false := by
  intro b hb
  rcases head_of_skip h hb with hspace | rfl
  · rw [Bool.eq_false_iff]
    intro hdigit
    rw [(digit_not_space hradix hdigit).1] at hspace
    cases hspace
  · exact hc

theorem wordFormat_iff {m : Numeral} : Matches wordFormat text [.number m] rest ↔ ∃ a, Mark 44 text a ∧ number .u (skip a) = some (m, rest) := by
  constructor
  · rintro ⟨a, ha, m', t, more, hm, hfields, hmore, hrest⟩
    obtain rfl := Field.number.inj (List.cons.inj hfields).1
    exact ⟨a, ha, hrest ▸ hm⟩
  · rintro ⟨a, ha, hm⟩
    exact ⟨a, ha, m, rest, [], hm, rfl, rfl, rfl⟩

theorem middleFormat_iff {m : Numeral} :
    Matches middleFormat text [.number m] rest ↔ ∃ a b c, Mark 125 text a ∧ Mark 44 a b ∧ Mark 123 b c ∧ number .u (skip c) = some (m, rest) := by
  constructor
  · rintro ⟨a, ha, b, hb, c, hc, m', t, more, hm, hfields, hmore, hrest⟩
    obtain rfl := Field.number.inj (List.cons.inj hfields).1
    exact ⟨a, b, c, ha, hb, hc, hrest ▸ hm⟩
  · rintro ⟨a, b, c, ha, hb, hc, hm⟩
    exact ⟨a, ha, b, hb, c, hc, m, rest, [], hm, rfl, rfl, rfl⟩

theorem headFormat_iff {len n0inv m : Numeral} :
    Matches headFormat text [.number len, .number n0inv, .number m] rest ↔
      ∃ a b c d e f, number .i (skip text) = some (len, a) ∧ Mark 44 a b ∧ skip b = 48 :: 120 :: c ∧ number .x c = some (n0inv, d) ∧ Mark 44 d e ∧
        Mark 123 e f ∧ number .u (skip f) = some (m, rest) := by
  constructor
  · rintro ⟨len', a, _, hlen, hfields, b, hb, c, hc, c', hc', n0inv', d, _, hn0inv, hfields', e, he, f, hf, m', t, _, hm, hfields'', hnone, hrest⟩
    obtain ⟨hfirst, htail⟩ := List.cons.inj hfields
    obtain ⟨hsecond, htail'⟩ := List.cons.inj (htail.trans hfields')
    obtain rfl := Field.number.inj hfirst
    obtain rfl := Field.number.inj hsecond
    obtain rfl := Field.number.inj (List.cons.inj (htail'.trans hfields'')).1
    exact ⟨a, b, c', d, e, f, hlen, hb, by rw [hc, hc'], hn0inv, he, hf, hrest ▸ hm⟩
  · rintro ⟨a, b, c, d, e, f, hlen, hb, hc, hn0inv, he, hf, hm⟩
    exact ⟨len, a, _, hlen, rfl, b, hb, _, hc, c, rfl, n0inv, d, _, hn0inv, rfl, e, he, f, hf, m, rest, [], hm, rfl, rfl, rfl⟩

/-! ### Numbers as they are dumped, and as they are read -/

/-- Where a decimal number stands, it is read. -/
theorem Integer.number_eq {v : Int} (h : Integer text v rest) (k : Kind) (hx : k ≠ .x) (hzero : k = .i → v ≠ 0) :
    ∃ m, number k (skip text) = some (m, rest) ∧ m.radix = 10 ∧ m.sign ≠ [43] ∧ (m.digits.head? = some 48 → m.digits = [48]) ∧ m.value = v := by
  obtain ⟨hsign, htext, hds, hplain⟩ := h
  rename_i sign ds
  have hoctal : k = .i → ds.head? ≠ some 48 := by
    intro hk hhead
    apply hzero hk
    rw [hplain hhead]
    rcases hsign with rfl | rfl <;> rfl
  have hplus : sign ≠ [43] := by rcases hsign with rfl | rfl <;> decide
  exact ⟨_, number_decimal hx hsign ((skip_skip text).trans htext) hds.ne_nil hds.digits hds.ends hoctal, rfl, hplus, hplain, rfl⟩

theorem sign_plain {m : Numeral} {k : Kind} (h : m.At k text rest) (hplus : m.sign ≠ [43]) : m.sign = [] ∨ m.sign = [45] := by
  rcases signOf_cases (skip text) with hs | hs | hs
  · exact .inl (h.sign.trans hs)
  · exact absurd (h.sign.trans hs) hplus
  · exact .inr (h.sign.trans hs)

/-- What is read of a decimal number without zeros in front of it is one. -/
theorem integer_of_number {k : Kind} {m : Numeral} (h : number k (skip text) = some (m, rest)) (hpre : m.pre = []) (hradix : m.radix = 10)
    (hplus : m.sign ≠ [43]) (hzero : m.digits.head? = some 48 → m.digits = [48]) : Integer text m.value rest := by
  have hat := number_iff.mp h
  have hspelled := hat.spelled
  rw [skip_skip, hpre, List.nil_append] at hspelled
  rw [Numeral.value, hradix]
  exact ⟨sign_plain hat hplus, hspelled, ⟨hat.ne_nil, hradix ▸ hat.digits, hradix ▸ hat.ends⟩, hzero⟩

/-- The count, where it is read as a decimal number. -/
theorem count_of_number {m : Numeral} (h : number .i (skip text) = some (m, rest)) (hplus : m.sign ≠ [43]) (hradix : m.radix = 10) :
    Integer text m.value rest := by
  have hat := number_iff.mp h
  have hplain := hat.radix
  rw [hradix, radixOf] at hplain
  have hpre : m.pre = [] := by
    by_contra hpre
    rw [if_pos hpre] at hplain
    exact absurd hplain (by decide)
  rw [if_neg (not_not.mpr hpre)] at hplain
  refine integer_of_number h hpre hradix hplus fun hhead => ?_
  rw [List.head?_append_of_ne_nil _ hat.ne_nil, if_pos hhead] at hplain
  exact absurd hplain (by decide)

theorem Hexadecimal.number_eq {v : Nat} (h : Hexadecimal text v t) (hcomma : Mark 44 t rest) :
    ∃ c m, skip text = 48 :: 120 :: c ∧ number .x c = some (m, t) ∧ m.gap = [] ∧ m.sign = [] ∧ m.pre = [] ∧ m.value < 4294967296 := by
  obtain ⟨htext, hds, hword⟩ := h
  rename_i ds
  obtain ⟨b, ds, rfl⟩ := List.exists_cons_of_ne_nil hds.ne_nil
  have hspace := (digit_not_space (by decide) (hds.digits b List.mem_cons_self)).1
  have hgap : (b :: ds ++ t).takeWhile isSpace = [] := List.takeWhile_cons_of_neg (by rw [hspace]; exact Bool.false_ne_true)
  have hskip : skip (b :: ds ++ t) = b :: ds ++ t := List.dropWhile_cons_of_neg (by rw [hspace]; exact Bool.false_ne_true)
  have hsign : signOf (b :: ds ++ t) = [] := signOf_digits (by decide) hds.ne_nil hds.digits
  have hpre : prefixOf .x (b :: ds ++ t) = [] := by
    apply prefixOf_eq_nil
    intro _ c more heq
    obtain ⟨-, heq⟩ := List.cons.inj heq
    cases ds with
    | nil =>
      have hhead : c ∈ t.head? := by rw [show t = c :: more from heq]; rfl
      rcases head_of_skip hcomma hhead with hspace | rfl
      · constructor <;> rintro rfl <;> exact absurd hspace (by decide)
      · decide
    | cons d ds =>
      obtain ⟨rfl, -⟩ := List.cons.inj heq
      have hdigit := hds.digits d (List.mem_cons_of_mem _ List.mem_cons_self)
      constructor <;> rintro rfl <;> exact absurd hdigit (by decide)
  refine ⟨_, ⟨[], [], [], 16, b :: ds⟩, htext, number_iff.mpr ⟨hgap.symm, hskip, ?_, hpre.symm, rfl, hds.ne_nil, hds.digits, hds.ends⟩, rfl, rfl, rfl, ?_⟩
  · rw [hskip, hsign]
  · have hvalue : (⟨[], [], [], 16, b :: ds⟩ : Numeral).value = magnitude 16 (b :: ds) := rfl
    omega

theorem hexadecimal_of_number {c : Text} {m : Numeral} (htext : skip text = 48 :: 120 :: c) (h : number .x c = some (m, rest))
    (hplain : m.gap = [] ∧ m.sign = [] ∧ m.pre = [] ∧ m.value < 4294967296) : Hexadecimal text m.value.toNat rest := by
  obtain ⟨hgap, hsign, hpre, hword⟩ := hplain
  have hat := number_iff.mp h
  have hradix : m.radix = 16 := hat.radix
  have hvalue : m.value = magnitude 16 m.digits := by
    rw [Numeral.value, hsign, hradix]
    rfl
  have hc : c = m.digits ++ rest := by
    have hspelled := hat.spelled
    rw [hsign, hpre, List.nil_append, List.nil_append] at hspelled
    have hwhole : c.takeWhile isSpace ++ skip c = c := List.takeWhile_append_dropWhile
    rw [← hat.gap, hgap, hspelled] at hwhole
    exact hwhole.symm
  rw [hvalue, Int.toNat_natCast]
  exact ⟨hc ▸ htext, ⟨hat.ne_nil, hradix ▸ hat.digits, hradix ▸ hat.ends⟩, by omega⟩

end Tokens

/-! ### Keys as they are dumped, and as they are read -/

section Exactness
variable {text t rest rest' : Text}

theorem Integers.plain {vs : List Int} {m : Numeral} {ms : List Numeral} (h : Integers text vs rest) (hm : number .u (skip text) = some (m, t))
    (hms : Words t ms rest') (hlength : vs.length = ms.length + 1) : rest' = rest ∧ ∀ m' ∈ m :: ms, PlainWord m' := by
  induction h generalizing m ms t with
  | last h hword =>
    obtain ⟨m', hm', -, hplus, hzero, hvalue⟩ := h.number_eq .u (by decide) (fun hk => absurd hk (by decide))
    obtain ⟨rfl, rfl⟩ := Prod.mk.inj (Option.some.inj (hm'.symm.trans hm))
    cases hms with
    | nil => exact ⟨rfl, fun m hm => List.mem_singleton.mp hm ▸ ⟨hplus, hzero, hvalue ▸ hword⟩⟩
    | cons _ _ => cases hlength
  | more h hword hcomma hrest ih =>
    obtain ⟨m', hm', -, hplus, hzero, hvalue⟩ := h.number_eq .u (by decide) (fun hk => absurd hk (by decide))
    obtain ⟨rfl, rfl⟩ := Prod.mk.inj (Option.some.inj (hm'.symm.trans hm))
    cases hms with
    | nil => cases hrest <;> cases hlength
    | cons hword' hwords =>
      obtain ⟨a, ha, hnumber⟩ := wordFormat_iff.mp hword'
      obtain rfl := hcomma.unique ha
      obtain ⟨hend, hall⟩ := ih hnumber hwords (Nat.succ.inj hlength)
      exact ⟨hend, List.forall_mem_cons.mpr ⟨⟨hplus, hzero, hvalue ▸ hword⟩, hall⟩⟩

theorem integers_of_words {m : Numeral} {ms : List Numeral} (hm : number .u (skip text) = some (m, t)) (hms : Words t ms rest)
    (hplain : ∀ m' ∈ m :: ms, PlainWord m') : Integers text ((m :: ms).map Numeral.value) rest := by
  induction hms generalizing text m with
  | nil =>
    obtain ⟨hplus, hzero, hword⟩ := hplain m List.mem_cons_self
    obtain ⟨hpre, hradix⟩ := number_unsigned hm
    exact .last (integer_of_number hm hpre hradix hplus hzero) hword
  | cons h hrest ih =>
    obtain ⟨⟨hplus, hzero, hword⟩, hplain⟩ := List.forall_mem_cons.mp hplain
    obtain ⟨hpre, hradix⟩ := number_unsigned hm
    obtain ⟨a, ha, hnumber⟩ := wordFormat_iff.mp h
    exact .more (integer_of_number hm hpre hradix hplus hzero) hword ha (ih hnumber hplain)

/-- One digit, with a brace behind it. -/
theorem digit_eq {b : UInt8} (hb : b = 50 ∨ b = 51 ∨ b = 52) (hbrace : Mark 123 t rest) :
    number .d (b :: t) = some (⟨[], [], [], 10, [b]⟩, t) := by
  have hdigit : isDigitIn 10 b = true := by rcases hb with rfl | rfl | rfl <;> rfl
  have hspace := (digit_not_space (by decide) hdigit).1
  have hskip : skip (b :: t) = b :: t := List.dropWhile_cons_of_neg (by rw [hspace]; exact Bool.false_ne_true)
  have hgap : (b :: t).takeWhile isSpace = [] := List.takeWhile_cons_of_neg (by rw [hspace]; exact Bool.false_ne_true)
  have hnumber := number_decimal (show Kind.d ≠ .x by decide) (.inl rfl) (show skip (b :: t) = [] ++ ([b] ++ t) from hskip) (List.cons_ne_nil _ _)
    (List.forall_mem_singleton.mpr hdigit) (hbrace.ends (by decide) rfl) (fun hk => absurd hk (by decide))
  rw [hgap] at hnumber
  exact hnumber

theorem Version.exact {v : Nat} {opening : Opening} (h : Version text v rest) (h' : Opens text opening rest') : opening.Exact ∧ rest' = rest := by
  cases h with
  | unversioned h =>
    cases h' with
    | brace h' => exact ⟨trivial, h'.unique h⟩
    | braced hv | unbraced hv => exact absurd (h.char hv) (by decide)
    | other h' hbrace => exact absurd (h'.char h) hbrace
  | versioned hb htext hbrace =>
    have hmark : Mark 118 text _ := htext
    cases h' with
    | brace h' => exact absurd (h'.char hmark) (by decide)
    | other h' _ hv => exact absurd (h'.char hmark) hv
    | braced hv hm hversion hbrace' =>
      obtain rfl := hmark.unique hv
      obtain ⟨rfl, rfl⟩ := Prod.mk.inj (Option.some.inj ((digit_eq hb hbrace).symm.trans hm))
      refine ⟨⟨rfl, rfl, ?_, rfl⟩, hbrace'.unique hbrace⟩
      rcases hb with rfl | rfl | rfl <;> simp
    | unbraced hv hm hversion hnone =>
      obtain rfl := hmark.unique hv
      obtain ⟨rfl, rfl⟩ := Prod.mk.inj (Option.some.inj ((digit_eq hb hbrace).symm.trans hm))
      rw [show skip _ = 123 :: rest from hbrace] at hnone
      exact absurd rfl (hnone 123 rfl)

/-- The version that is written. -/
def Opening.versionWritten : Opening → Nat
  | brace => 1
  | version m _ => magnitude 10 m.digits
  | other _ => 0

theorem version_of_opens {opening : Opening} (h : Opens text opening rest) (hexact : opening.Exact) (fresh : Cert) (k : DumpedKey)
    (hk : k.version = opening.versionWritten) :
    Version text opening.versionWritten rest ∧ (opening.start fresh).hash_len = k.hashLength ∧ (opening.start fresh).public_key.exponent = k.exponent := by
  cases h with
  | other => exact hexact.elim
  | brace h =>
    refine ⟨.unversioned h, ?_, ?_⟩
    · rw [DumpedKey.hashLength, hk]
      rfl
    · rw [DumpedKey.exponent, hk]
      rfl
  | unbraced => exact absurd hexact.2.2.2 (by decide)
  | braced hv hm hversion hbrace =>
    rename_i t t' m
    obtain ⟨hgap, hsign, hdigits, -⟩ := hexact
    have hat := number_iff.mp hm
    have hradix : m.radix = 10 := hat.radix
    have hpre : m.pre = [] := hat.pre.trans (if_neg fun hk => absurd hk.1 (by decide))
    have htext : t = m.digits ++ t' := by
      have hwhole : t.takeWhile isSpace ++ skip t = t := List.takeWhile_append_dropWhile
      rw [← hat.gap, hgap, hat.spelled, hsign, hpre] at hwhole
      exact hwhole.symm
    have hvalue : m.value = magnitude 10 m.digits := by
      rw [Numeral.value, hsign, hradix]
      rfl
    obtain ⟨b, hb, hm⟩ : ∃ b, (b = 50 ∨ b = 51 ∨ b = 52) ∧ m.digits = [b] := by
      rcases List.mem_cons.mp hdigits with h | hdigits
      · exact ⟨50, .inl rfl, h⟩
      · rcases List.mem_pair.mp hdigits with h | h
        · exact ⟨51, .inr (.inl rfl), h⟩
        · exact ⟨52, .inr (.inr rfl), h⟩
    have hnumber : m.toInt = digitValue b := by
      have hsmall : digitValue b < 10 := by rcases hb with rfl | rfl | rfl <;> decide
      have heq : m.value = digitValue b := by
        rw [hvalue, hm]
        simp [magnitude]
      rw [toInt_int (by omega) (by omega), heq]
    have hversion' : (Opening.version m true).versionWritten = digitValue b := by
      rw [Opening.versionWritten, hm]
      simp [magnitude]
    rw [hm] at htext
    rw [hversion'] at hk ⊢
    refine ⟨.versioned hb (by rw [show skip text = 118 :: t from hv, htext]; rfl) hbrace, ?_, ?_⟩
    · rw [DumpedKey.hashLength, hk, Opening.start, hnumber]
      rcases hb with rfl | rfl | rfl <;> rfl
    · rw [DumpedKey.exponent, hk, Opening.start, hnumber]
      rcases hb with rfl | rfl | rfl <;> rfl

end Exactness

/-! ### One key -/

section Key
variable {text t rest rest' : Text}

theorem Closes.fscanf_eq {closed : Nat} (h : Closes text closed rest) : (fscanf closingFormat text).2 = rest := by
  show (fscanf [.literal 125, .blank, .literal 125, .blank] (skip text)).2 = rest
  cases h with
  | both h h' =>
    rw [show skip text = _ from h, fscanf, if_pos rfl, fscanf, show skip _ = _ from h', fscanf, if_pos rfl]
    rfl
  | one h hnone =>
    rename_i t
    rw [show skip text = _ from h, fscanf, if_pos rfl, fscanf]
    cases ht : skip t with
    | nil => rfl
    | cons b more =>
      rw [ht] at hnone
      rw [fscanf, if_neg (hnone b rfl)]
  | none hnone =>
    cases ht : skip text with
    | nil => rfl
    | cons b more =>
      rw [ht] at hnone
      rw [fscanf, if_neg (hnone b rfl)]

theorem closes_fscanf (text : Text) : ∃ closed, Closes text closed (fscanf closingFormat text).2 := by
  suffices h : ∃ closed rest, Closes text closed rest by
    obtain ⟨closed, rest, h⟩ := h
    exact ⟨closed, h.fscanf_eq.symm ▸ h⟩
  by_cases hfirst : ∀ b ∈ (skip text).head?, b ≠ 125
  · exact ⟨_, _, .none hfirst⟩
  · push Not at hfirst
    obtain ⟨b, hb, rfl⟩ := hfirst
    obtain ⟨t, ht⟩ := List.head?_eq_some_iff.mp hb
    by_cases hsecond : ∀ b ∈ (skip t).head?, b ≠ 125
    · exact ⟨_, _, .one ht hsecond⟩
    · push Not at hsecond
      obtain ⟨b, hb, rfl⟩ := hsecond
      obtain ⟨t', ht'⟩ := List.head?_eq_some_iff.mp hb
      exact ⟨_, _, .both ht ht'⟩

theorem Closes.exact {closed : Nat} (h : Closes text closed rest') (hclose : Mark 125 text t) (hlast : Mark 125 t rest) :
    closed = 2 ∧ rest' = skip rest := by
  cases h with
  | both h h' =>
    obtain rfl := hclose.unique h
    obtain rfl := hlast.unique h'
    exact ⟨rfl, rfl⟩
  | one h hnone =>
    obtain rfl := hclose.unique h
    rw [show skip _ = _ from hlast] at hnone
    exact absurd rfl (hnone 125 rfl)
  | none hnone =>
    rw [show skip _ = _ from hclose] at hnone
    exact absurd rfl (hnone 125 rfl)

/-- What is read where a key stands as it is dumped is just that. -/
theorem Record.exact {k : DumpedKey} {w : Written} (h : Record text k rest) (h' : Reads text w rest') : w.Exact ∧ rest' = skip rest := by
  obtain ⟨hversion, hcount, hcomma, hn0inv, hcomma', hopen, hn, hlength, hclose, hcomma'', hopen', hrr, hlength', hclose', hlast⟩ := h
  obtain ⟨hopens, hhead, -, hwords, hcountWords, hmiddle, hwords', hcountWords', hcloses⟩ := h'
  obtain ⟨a, b, c, d, e, f, hlen, hb, hc, hx, he, hf, hm⟩ := headFormat_iff.mp hhead
  obtain ⟨a', b', c', ha', hb', hc', hm'⟩ := middleFormat_iff.mp hmiddle
  obtain ⟨hexact, rfl⟩ := hversion.exact hopens
  obtain ⟨len, hlen', hradix, hplus, -, hvalue⟩ := hcount.number_eq .i (by decide) (fun _ => by decide)
  obtain ⟨rfl, rfl⟩ := Prod.mk.inj (Option.some.inj (hlen'.symm.trans hlen))
  obtain rfl := hcomma.unique hb
  obtain ⟨c', m, hc', hx', hplain⟩ := hn0inv.number_eq hcomma'
  obtain rfl := (List.cons.inj (List.cons.inj (hc.symm.trans hc')).2).2
  obtain ⟨rfl, rfl⟩ := Prod.mk.inj (Option.some.inj (hx'.symm.trans hx))
  obtain rfl := hcomma'.unique he
  obtain rfl := hopen.unique hf
  obtain ⟨rfl, hplainWords⟩ := hn.plain hm hwords (by rw [hlength, hcountWords]; rfl)
  obtain rfl := hclose.unique ha'
  obtain rfl := hcomma''.unique hb'
  obtain rfl := hopen'.unique ‹Mark 123 _ _›
  obtain ⟨rfl, hplainWords'⟩ := hrr.plain hm' hwords' (by rw [hlength', hcountWords']; rfl)
  obtain ⟨hclosed, hrest⟩ := hcloses.exact hclose' hlast
  exact ⟨⟨hexact, ⟨hplus, hradix, hvalue⟩, hplain, hplainWords, hplainWords', hclosed⟩, hrest⟩

/-- The key that is written, where it is written as it is dumped. -/
def Written.dumped (w : Written) : DumpedKey :=
  ⟨w.opening.versionWritten, w.n0inv.value.toNat, w.n.map Numeral.value, w.rr.map Numeral.value⟩

theorem map_toUnsigned {ms : List Numeral} (h : ∀ m ∈ ms, PlainWord m) : ms.map Numeral.toUnsigned = (ms.map Numeral.value).map (BitVec.ofInt 32) := by
  rw [List.map_map]
  apply List.map_congr_left
  intro m hm
  obtain ⟨-, -, hlow, hhigh⟩ := h m hm
  exact toUnsigned_word hlow hhigh

/-- A key that is written as it is dumped is one, and its numbers are taken. -/
theorem Reads.record {w : Written} (h : Reads text w rest') (hexact : w.Exact) (fresh : Cert) :
    ∃ rest, Record text w.dumped rest ∧ rest' = skip rest ∧ w.certificate fresh = w.dumped.certificate := by
  obtain ⟨hopening, ⟨hplus, hradix, hvalue⟩, hn0inv, hplain, hplain', hclosed⟩ := hexact
  obtain ⟨hopens, hhead, hlenInt, hwords, hcountWords, hmiddle, hwords', hcountWords', hcloses⟩ := h
  rename_i t₀ t₁ t₂ t₃ t₄ opening len n0inv m m' ms ms' closed
  obtain ⟨a, b, c, d, e, f, hlen, hb, hc, hx, he, hf, hm⟩ := headFormat_iff.mp hhead
  obtain ⟨a', b', c', ha', hb', hc', hm'⟩ := middleFormat_iff.mp hmiddle
  let w : Written := ⟨opening, len, n0inv, m :: ms, m' :: ms', closed⟩
  obtain ⟨hversion, hhash, hexponent⟩ := version_of_opens hopens hopening fresh w.dumped rfl
  have hcount : Integer t₀ RSANUMWORDS a := hvalue ▸ count_of_number hlen hplus hradix
  have hn := integers_of_words hm hwords hplain
  have hrr := integers_of_words hm' hwords' hplain'
  have hlength : ((m :: ms).map Numeral.value).length = RSANUMWORDS := by
    rw [List.length_map, List.length_cons, hcountWords]
    rfl
  have hlength' : ((m' :: ms').map Numeral.value).length = RSANUMWORDS := by
    rw [List.length_map, List.length_cons, hcountWords']
    rfl
  have hcertificate : w.certificate fresh = w.dumped.certificate := by
    have hword : w.n0inv.toUnsigned = BitVec.ofNat 32 w.dumped.n0inv := by
      have hnonneg : 0 ≤ n0inv.value := by
        rw [Numeral.value, hn0inv.2.1]
        exact Int.natCast_nonneg _
      rw [show w.n0inv = n0inv from rfl, toUnsigned_word (Int.le_trans (by decide) hnonneg) hn0inv.2.2.2, ← BitVec.ofInt_natCast]
      exact congrArg _ (Int.toNat_of_nonneg hnonneg).symm
    rw [Written.certificate, DumpedKey.certificate, hhash, hexponent, hword]
    rw [show w.len.toInt = RSANUMWORDS from hlenInt, show w.n.map Numeral.toUnsigned = _ from map_toUnsigned hplain,
      show w.rr.map Numeral.toUnsigned = _ from map_toUnsigned hplain']
    rfl
  cases hcloses with
  | one | none => cases hclosed
  | both h h' =>
    exact ⟨_, ⟨hversion, hcount, hb, hexadecimal_of_number hc hx hn0inv, he, hf, hn, hlength, ha', hb', hc', hrr, hlength', h, h'⟩, rfl, hcertificate⟩

end Key

end Twrp.Zip.Keys
