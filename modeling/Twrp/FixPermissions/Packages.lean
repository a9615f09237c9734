import Twrp.Base.CString

/-! The list of packages that fixing permissions goes by.

The children of `packages` are gone through twice, from the first package and from the first updated one, with one loop
body: from an element that is skipped to the sibling behind it, from another one to the next package, up to an element
without a name. The string that becomes the data directory is cleared only where a package follows. -/
namespace Twrp.FixPermissions
open Base

/-- A child of the document's root, as the parser gives it. -/
structure Node where
  name : CString
  attributes : List (CString × CString)
deriving DecidableEq

/-- `first_attribute(name)`, and its value. -/
def Node.firstAttribute (n : Node) (name : CString) : Option CString := (n.attributes.find? (·.1 = name)).map Prod.snd

/-- Of a `package`; what is never assigned is `none`. -/
structure Package where
  pkgName : CString
  codePath : CString
  appDir : CString
  app : CString
  dDir : CString
  gid : Option Int
  uid : Option Int
deriving DecidableEq

def basename (path : CString) : CString :=
  let trimmed := path.bytes.reverse.dropWhile (· == 47)
  if path.bytes = [] then "." else if trimmed = [] then "/" else .ofBytes (trimmed.takeWhile (· != 47)).reverse

def dirname (path : CString) : CString :=
  let trimmed := path.bytes.reverse.dropWhile (· == 47)
  let above := trimmed.dropWhile (· != 47)
  if path.bytes = [] then "."
  else if trimmed = [] then "/"
  else if above = [] then "."
  else if above.dropWhile (· == 47) = [] then "/"
  else .ofBytes (above.dropWhile (· == 47)).reverse

def skip : List CString := ["/system/framework/framework-res.apk", "/system/framework/com.htc.resources.apk"]

/-- `name` -/
def Node.pkgName (n : Node) : Option CString := n.firstAttribute "name"

def Node.codePath (n : Node) : Option CString := n.firstAttribute "codePath"

/-- `sharedUserId`, or else `userId`. -/
def Node.userId (n : Node) : Option CString := (n.firstAttribute "sharedUserId").or (n.firstAttribute "userId")

/-- What is loaded of an element with these values of `name` and `codePath`, where the string `name` is that. -/
def load (n : Node) (pkgName codePath name : CString) : Package where
  pkgName
  codePath
  app := basename codePath
  appDir := dirname codePath
  dDir := name
  uid := n.userId.map CString.atoi
  gid := n.userId.map CString.atoi

/-- `next_sibling("package")` -/
def nextPackage (siblings : List Node) : List Node := siblings.dropWhile (·.name ≠ "package")

theorem length_nextPackage_le (siblings : List Node) : (nextPackage siblings).length ≤ siblings.length := List.length_dropWhile_le _ _

/-- The loop over the packages, and the one over the updated packages; nothing where a missing element or attribute is
followed. It leaves the string `name`. -/
def getLoop (next : List Node) (name : CString) (head : List Package) : Option (CString × List Package) :=
  match next with
  | [] => none
  | n :: siblings =>
    match n.pkgName with
    | none => some (name, head)
    | some pkgName =>
      match n.codePath with
      | none => none
      | some codePath =>
        if codePath ∈ skip then getLoop siblings name head
        else if nextPackage siblings = [] then some (name ++ pkgName, load n pkgName codePath (name ++ pkgName) :: head)
        else getLoop (nextPackage siblings) "" (load n pkgName codePath (name ++ pkgName) :: head)
termination_by next.length
decreasing_by
  · exact Nat.lt_add_one _
  · exact Nat.lt_succ_of_le (length_nextPackage_le siblings)

def firstPackage (children : List Node) : List Node := children.dropWhile (·.name ≠ "package")

def firstUpdated (children : List Node) : List Node := children.dropWhile (·.name ≠ "updated-package")

/-- `getPackages`, of the children of `packages` if that is there: what it returns, and `head`. -/
def getPackages (packages : Option (List Node)) : Option (Int × List Package) :=
  match packages with
  | none => some (-1, [])
  | some children =>
    if firstPackage children = [] then some (-1, [])
    else do
      let (name, head) ← getLoop (firstPackage children) "" []
      let (_, head) ← (if firstUpdated children = [] then some (name, head) else getLoop (firstUpdated children) name head)
      return (0, head)

/-! ### What the list is for -/

def Node.skipped (n : Node) : Bool := n.codePath.any (· ∈ skip)

/-- The elements that the list is to have entries of. -/
def elements (children : List Node) : List Node :=
  children.filter fun n => (n.name = "package" ∨ n.name = "updated-package") ∧ ¬n.skipped

/-- The entry of an element. -/
structure EntryOf (n : Node) (e : Package) : Prop where
  pkgName : n.pkgName = some e.pkgName
  codePath : n.codePath = some e.codePath
  dDir : e.dDir = e.pkgName
  user : ∃ id, n.userId = some id ∧ e.uid = some id.atoi ∧ e.gid = some id.atoi

/-- Nothing missing is followed, and the elements and the entries of the list go in pairs. -/
def Right (packages : Option (List Node)) : Prop :=
  ∃ ret head, getPackages packages = some (ret, head) ∧ ∃ order, order.Perm (elements (packages.getD [])) ∧ List.Forall₂ EntryOf order head

/-! ### The way from sibling to sibling -/

/-- The siblings from each element on that is come to, as far as they have names. -/
def way (next : List Node) : List (List Node) :=
  match next with
  | [] => []
  | n :: siblings =>
    if n.pkgName = none then [] else (n :: siblings) :: if n.skipped then way siblings else way (nextPackage siblings)
termination_by next.length
decreasing_by
  · exact Nat.lt_add_one _
  · exact Nat.lt_succ_of_le (length_nextPackage_le siblings)

/-- Each element on the way has a code path, and behind one that is skipped stands another. -/
def Passable (next : List Node) : Prop :=
  ∀ n siblings, n :: siblings ∈ way next → n.codePath ≠ none ∧ (n.skipped → siblings ≠ [])

/-- The elements on the way that are not skipped. -/
def loaded (next : List Node) : List Node := ((way next).filterMap List.head?).filter (!·.skipped)

/-- Where the way ends for want of another package, the element there has an empty name. -/
def EndsClear (next : List Node) : Prop :=
  ∀ n siblings, n :: siblings ∈ way next → n.skipped = false → nextPackage siblings = [] → n.pkgName = some ""

/-- The values that an entry is made of are the same. -/
structure Alike (n m : Node) : Prop where
  pkgName : n.pkgName = m.pkgName
  codePath : n.codePath = m.codePath
  user : n.userId.map CString.atoi = m.userId.map CString.atoi

/-- The ways from the first package and the first updated package lead over the elements. -/
structure Covered (children : List Node) : Prop where
  passable : Passable (firstPackage children)
  passableUpdated : Passable (firstUpdated children)
  user : ∀ n ∈ loaded (firstPackage children) ++ loaded (firstUpdated children), n.userId ≠ none
  pairs : ∃ order, order.Perm (elements children) ∧ List.Forall₂ Alike order (loaded (firstPackage children) ++ loaded (firstUpdated children))
  clear : loaded (firstUpdated children) = [] ∨ EndsClear (firstPackage children)

/-! ### One element of the way -/

theorem nameless {n : Node} (siblings : List Node) (h : n.pkgName = none) : way (n :: siblings) = [] := by
  rw [way, if_pos h]

theorem way_skipped {n : Node} {siblings : List Node} (h : n.pkgName ≠ none) (hskip : n.skipped = true) :
    way (n :: siblings) = (n :: siblings) :: way siblings := by
  rw [way, if_neg h, if_pos hskip]

theorem way_loaded {n : Node} {siblings : List Node} (h : n.pkgName ≠ none) (hskip : n.skipped = false) :
    way (n :: siblings) = (n :: siblings) :: way (nextPackage siblings) := by
  rw [way, if_neg h, if_neg (by rw [hskip]; exact Bool.false_ne_true)]

theorem way_named (next : List Node) : ∀ n siblings, n :: siblings ∈ way next → n.pkgName ≠ none := by
  induction next using way.induct with
  | case1 => simp [way]
  | case2 n siblings h =>
    rw [nameless siblings h]
    exact nofun
  | case3 n siblings h ih ih' =>
    intro m more hmem
    rw [way, if_neg h] at hmem
    obtain heq | hmem := List.mem_cons.mp hmem
    · obtain ⟨rfl, -⟩ := List.cons.inj heq
      exact h
    · split at hmem
      · exact ih m more hmem
      · exact ih' m more hmem

theorem skipped_of_mem {n : Node} {codePath : CString} (hcode : n.codePath = some codePath) (h : codePath ∈ skip) : n.skipped = true := by
  rw [Node.skipped, hcode]
  exact decide_eq_true h

theorem not_skipped_of_not_mem {n : Node} {codePath : CString} (hcode : n.codePath = some codePath) (h : codePath ∉ skip) : n.skipped = false := by
  rw [Node.skipped, hcode]
  exact decide_eq_false h

theorem not_skipped_of_none {n : Node} (hcode : n.codePath = none) : n.skipped = false := by
  rw [Node.skipped, hcode]
  rfl

theorem passable_skipped {n : Node} {siblings : List Node} (h : n.pkgName ≠ none) (hskip : n.skipped = true) :
    Passable (n :: siblings) ↔ siblings ≠ [] ∧ Passable siblings := by
  unfold Passable
  rw [way_skipped h hskip]
  have hcode : n.codePath ≠ none := by
    intro hnone
    rw [not_skipped_of_none hnone] at hskip
    exact Bool.false_ne_true hskip
  constructor
  · intro hall
    exact ⟨(hall n siblings List.mem_cons_self).2 hskip, fun m more hm => hall m more (List.mem_cons_of_mem _ hm)⟩
  · intro ⟨hne, hall⟩ m more hm
    obtain heq | hm := List.mem_cons.mp hm
    · obtain ⟨rfl, rfl⟩ := List.cons.inj heq
      exact ⟨hcode, fun _ => hne⟩
    · exact hall m more hm

theorem passable_loaded {n : Node} {siblings : List Node} (h : n.pkgName ≠ none) (hskip : n.skipped = false) :
    Passable (n :: siblings) ↔ n.codePath ≠ none ∧ Passable (nextPackage siblings) := by
  unfold Passable
  rw [way_loaded h hskip]
  constructor
  · intro hall
    exact ⟨(hall n siblings List.mem_cons_self).1, fun m more hm => hall m more (List.mem_cons_of_mem _ hm)⟩
  · intro ⟨hcode, hall⟩ m more hm
    obtain heq | hm := List.mem_cons.mp hm
    · obtain ⟨rfl, rfl⟩ := List.cons.inj heq
      exact ⟨hcode, fun h => absurd (hskip.symm.trans h) Bool.false_ne_true⟩
    · exact hall m more hm

theorem passable_nil : Passable [] := by
  intro n siblings h
  rw [way] at h
  exact nomatch h

theorem loaded_nil : loaded [] = [] := by
  rw [loaded, way]
  rfl

theorem loaded_nameless {n : Node} (siblings : List Node) (h : n.pkgName = none) : loaded (n :: siblings) = [] := by
  rw [loaded, nameless siblings h]
  rfl

theorem loaded_skipped {n : Node} {siblings : List Node} (h : n.pkgName ≠ none) (hskip : n.skipped = true) :
    loaded (n :: siblings) = loaded siblings := by
  simp [loaded, way_skipped h hskip, hskip]

theorem loaded_loaded {n : Node} {siblings : List Node} (h : n.pkgName ≠ none) (hskip : n.skipped = false) :
    loaded (n :: siblings) = n :: loaded (nextPackage siblings) := by
  simp [loaded, way_loaded h hskip, hskip]

theorem endsClear_skipped {n : Node} {siblings : List Node} (h : n.pkgName ≠ none) (hskip : n.skipped = true) :
    EndsClear (n :: siblings) ↔ EndsClear siblings := by
  unfold EndsClear
  rw [way_skipped h hskip]
  constructor
  · intro hall m more hm
    exact hall m more (List.mem_cons_of_mem _ hm)
  · intro hall m more hm hnot
    obtain heq | hm := List.mem_cons.mp hm
    · obtain ⟨rfl, -⟩ := List.cons.inj heq
      exact absurd (hskip.symm.trans hnot) (Bool.false_ne_true ∘ Eq.symm)
    · exact hall m more hm hnot

theorem endsClear_loaded {n : Node} {siblings : List Node} (h : n.pkgName ≠ none) (hskip : n.skipped = false) :
    EndsClear (n :: siblings) ↔ (nextPackage siblings = [] → n.pkgName = some "") ∧ EndsClear (nextPackage siblings) := by
  unfold EndsClear
  rw [way_loaded h hskip]
  constructor
  · intro hall
    exact ⟨hall n siblings List.mem_cons_self hskip, fun m more hm => hall m more (List.mem_cons_of_mem _ hm)⟩
  · intro ⟨hlast, hall⟩ m more hm
    obtain heq | hm := List.mem_cons.mp hm
    · obtain ⟨rfl, rfl⟩ := List.cons.inj heq
      exact fun _ => hlast
    · exact hall m more hm

theorem endsClear_nil : EndsClear [] := by
  intro n siblings h
  rw [way] at h
  exact nomatch h

theorem named_of_mem_loaded {next : List Node} (hpass : Passable next) {n : Node} (h : n ∈ loaded next) : n.pkgName ≠ none ∧ n.codePath ≠ none := by
  obtain ⟨hmem, -⟩ := List.mem_filter.mp h
  obtain ⟨suffix, hsuffix, hhead⟩ := List.mem_filterMap.mp hmem
  cases suffix with
  | nil => exact nomatch hhead
  | cons m siblings =>
    obtain rfl := Option.some.inj hhead
    exact ⟨way_named next m siblings hsuffix, (hpass m siblings hsuffix).1⟩

/-! ### The loop -/

/-- What an element on the way adds to the list. -/
def entry (name : CString) (n : Node) : Package := load n (n.pkgName.getD "") (n.codePath.getD "") (name ++ n.pkgName.getD "")

/-- The string is cleared behind the first. -/
def entries (name : CString) : List Node → List Package
  | [] => []
  | n :: rest => entry name n :: rest.map (entry "")

theorem entries_empty (l : List Node) : entries "" l = l.map (entry "") := by
  cases l with
  | nil => rfl
  | cons n rest => rfl

theorem empty_append (s : CString) : CString.ofString "" ++ s = s := CString.ext rfl

theorem getLoop_some (next : List Node) (name : CString) (head : List Package) (hne : next ≠ []) (hpass : Passable next) :
    ∃ left, getLoop next name head = some (left, (entries name (loaded next)).reverse ++ head) ∧ (name = "" → (left = "" ↔ EndsClear next)) := by
  induction next, name, head using getLoop.induct with
  | case1 name head => exact absurd rfl hne
  | case2 name head n siblings hname =>
    have hclear : EndsClear (n :: siblings) := by
      intro m more hm
      rw [nameless siblings hname] at hm
      exact nomatch hm
    rw [getLoop, hname, loaded_nameless siblings hname]
    exact ⟨name, rfl, fun h => iff_of_true h hclear⟩
  | case3 name head n siblings pkgName hname hcode =>
    have hnamed : n.pkgName ≠ none := by simp [hname]
    rw [passable_loaded hnamed (not_skipped_of_none hcode)] at hpass
    exact absurd hcode hpass.1
  | case4 name head n siblings pkgName hname codePath hcode hskip ih =>
    have hnamed : n.pkgName ≠ none := by simp [hname]
    have hskipped := skipped_of_mem hcode hskip
    rw [passable_skipped hnamed hskipped] at hpass
    obtain ⟨left, hloop, hleft⟩ := ih hpass.1 hpass.2
    rw [getLoop, hname, hcode, loaded_skipped hnamed hskipped, endsClear_skipped hnamed hskipped]
    exact ⟨left, by simpa only [if_pos hskip] using hloop, hleft⟩
  | case5 name head n siblings pkgName hname codePath hcode hskip hlast =>
    have hnamed : n.pkgName ≠ none := by simp [hname]
    have hskipped := not_skipped_of_not_mem hcode hskip
    rw [getLoop, hname, hcode, loaded_loaded hnamed hskipped, endsClear_loaded hnamed hskipped, hlast, loaded_nil]
    refine ⟨name ++ pkgName, ?_, ?_⟩
    · simp only [if_neg hskip, if_pos]
      simp [entries, entry, hname, hcode]
    · rintro rfl
      rw [empty_append, hname]
      exact ⟨fun h => ⟨fun _ => congrArg some h, endsClear_nil⟩, fun h => Option.some.inj (h.1 rfl)⟩
  | case6 name head n siblings pkgName hname codePath hcode hskip hmore ih =>
    have hnamed : n.pkgName ≠ none := by simp [hname]
    have hskipped := not_skipped_of_not_mem hcode hskip
    rw [passable_loaded hnamed hskipped] at hpass
    obtain ⟨left, hloop, hleft⟩ := ih hmore hpass.2
    rw [getLoop, hname, hcode, loaded_loaded hnamed hskipped, endsClear_loaded hnamed hskipped]
    refine ⟨left, ?_, ?_⟩
    · simp only [if_neg hskip, if_neg hmore]
      rw [hloop, entries_empty]
      simp [entries, entry, hname, hcode]
    · intro _
      rw [hleft rfl]
      exact ⟨fun h => ⟨fun hnil => absurd hnil hmore, h⟩, fun h => h.2⟩

theorem passable_of_getLoop {next : List Node} {name : CString} {head : List Package} {r : CString × List Package}
    (h : getLoop next name head = some r) : next ≠ [] ∧ Passable next := by
  refine ⟨?_, ?_⟩
  · rintro rfl
    rw [getLoop] at h
    exact nomatch h
  · induction next, name, head using getLoop.induct with
    | case1 name head => exact passable_nil
    | case2 name head n siblings hname =>
      intro m more hm
      rw [nameless siblings hname] at hm
      exact nomatch hm
    | case3 name head n siblings pkgName hname hcode =>
      rw [getLoop, hname, hcode] at h
      exact nomatch h
    | case4 name head n siblings pkgName hname codePath hcode hskip ih =>
      rw [getLoop, hname, hcode] at h
      simp only [if_pos hskip] at h
      refine (passable_skipped (by simp [hname]) (skipped_of_mem hcode hskip)).mpr ⟨?_, ih h⟩
      rintro rfl
      rw [getLoop] at h
      exact nomatch h
    | case5 name head n siblings pkgName hname codePath hcode hskip hlast =>
      refine (passable_loaded (by simp [hname]) (not_skipped_of_not_mem hcode hskip)).mpr ⟨by simp [hcode], ?_⟩
      rw [hlast]
      exact passable_nil
    | case6 name head n siblings pkgName hname codePath hcode hskip hmore ih =>
      rw [getLoop, hname, hcode] at h
      simp only [if_neg hskip, if_neg hmore] at h
      exact (passable_loaded (by simp [hname]) (not_skipped_of_not_mem hcode hskip)).mpr ⟨by simp [hcode], ih h⟩

/-! ### Pairs -/

theorem entryOf_entry {n m : Node} {name : CString} (hname : m.pkgName ≠ none) (hcode : m.codePath ≠ none) :
    EntryOf n (entry name m) ↔ Alike n m ∧ m.userId ≠ none ∧ name = "" := by
  obtain ⟨pkgName, hpkg⟩ := Option.ne_none_iff_exists'.mp hname
  obtain ⟨codePath, hpath⟩ := Option.ne_none_iff_exists'.mp hcode
  have hentry : entry name m = load m pkgName codePath (name ++ pkgName) := by
    rw [entry, hpkg, hpath]
    rfl
  rw [hentry]
  constructor
  · intro ⟨h₁, h₂, h₃, id, h₄, h₅, _⟩
    have hid : m.userId.map CString.atoi = some id.atoi := h₅
    refine ⟨⟨h₁.trans hpkg.symm, h₂.trans hpath.symm, by rw [h₄, hid]; rfl⟩, ?_, ?_⟩
    · intro hnone
      rw [hnone] at hid
      exact nomatch hid
    · have hbytes : (name ++ pkgName).bytes = pkgName.bytes := congrArg CString.bytes h₃
      rw [CString.bytes_append, List.append_left_eq_self] at hbytes
      exact CString.ext hbytes
  · intro ⟨⟨h₁, h₂, h₃⟩, huser, hempty⟩
    obtain ⟨id, hid⟩ := Option.ne_none_iff_exists'.mp huser
    rw [hid] at h₃
    obtain ⟨id', hid', hatoi⟩ := Option.map_eq_some_iff.mp h₃
    have hload : m.userId.map CString.atoi = some id'.atoi := by
      rw [hid, hatoi]
      rfl
    exact ⟨h₁.trans hpkg, h₂.trans hpath, by rw [hempty]; exact empty_append pkgName, id', hid', hload, hload⟩

theorem forall₂_map_entry {order l : List Node} (hl : ∀ m ∈ l, m.pkgName ≠ none ∧ m.codePath ≠ none) :
    List.Forall₂ EntryOf order (l.map (entry "")) ↔ List.Forall₂ Alike order l ∧ ∀ m ∈ l, m.userId ≠ none := by
  induction l generalizing order with
  | nil => simp
  | cons m l ih =>
    obtain ⟨hm, hrest⟩ := List.forall_mem_cons.mp hl
    cases order with
    | nil => simp
    | cons n order =>
      rw [List.map_cons, List.forall₂_cons, List.forall₂_cons, entryOf_entry hm.1 hm.2, ih hrest, List.forall_mem_cons]
      tauto

theorem forall₂_entries {order l : List Node} {name : CString} (hl : ∀ m ∈ l, m.pkgName ≠ none ∧ m.codePath ≠ none) :
    List.Forall₂ EntryOf order (entries name l) ↔ List.Forall₂ Alike order l ∧ (∀ m ∈ l, m.userId ≠ none) ∧ (l = [] ∨ name = "") := by
  cases l with
  | nil => simp [entries]
  | cons m l =>
    obtain ⟨hm, hrest⟩ := List.forall_mem_cons.mp hl
    cases order with
    | nil => simp [entries]
    | cons n order =>
      rw [entries, List.forall₂_cons, List.forall₂_cons, entryOf_entry hm.1 hm.2, forall₂_map_entry hrest, List.forall_mem_cons]
      simp only [List.cons_ne_nil, false_or]
      tauto

theorem forall₂_append_iff {α β : Type} {R : α → β → Prop} {order : List α} {l₁ l₂ : List β} :
    List.Forall₂ R order (l₁ ++ l₂) ↔ ∃ o₁ o₂, order = o₁ ++ o₂ ∧ List.Forall₂ R o₁ l₁ ∧ List.Forall₂ R o₂ l₂ := by
  constructor
  · intro h
    exact ⟨order.take l₁.length, order.drop l₁.length, (List.take_append_drop _ _).symm, List.forall₂_take_append _ _ _ h,
      List.forall₂_drop_append _ _ _ h⟩
  · intro ⟨o₁, o₂, horder, h₁, h₂⟩
    rw [horder]
    exact List.rel_append h₁ h₂

/-- Whether there are pairs does not depend on the order. -/
theorem exists_pairs_perm {α β : Type} {R : α → β → Prop} {xs : List α} {l l' : List β} (hl : l.Perm l')
    (h : ∃ order, order.Perm xs ∧ List.Forall₂ R order l) : ∃ order, order.Perm xs ∧ List.Forall₂ R order l' := by
  obtain ⟨order, hperm, hpairs⟩ := h
  obtain ⟨order', hpairs', hperm'⟩ := List.perm_comp_forall₂ hl.symm hpairs.flip
  exact ⟨order', hperm'.trans hperm, hpairs'.flip⟩

/-- The lists of the two loops have entries of the elements just where the ways lead over them, with the string clear. -/
theorem pairs_iff {children l₁ l₂ : List Node} {left : CString} (h₁ : ∀ m ∈ l₁, m.pkgName ≠ none ∧ m.codePath ≠ none)
    (h₂ : ∀ m ∈ l₂, m.pkgName ≠ none ∧ m.codePath ≠ none) :
    (∃ order, order.Perm (elements children) ∧
        List.Forall₂ EntryOf order ((entries left l₂).reverse ++ ((entries "" l₁).reverse ++ []))) ↔
      (∃ order, order.Perm (elements children) ∧ List.Forall₂ Alike order (l₁ ++ l₂)) ∧ (∀ m ∈ l₁ ++ l₂, m.userId ≠ none) ∧ (l₂ = [] ∨ left = "") := by
  have hperm : ((entries left l₂).reverse ++ ((entries "" l₁).reverse ++ [])).Perm (entries "" l₁ ++ entries left l₂) := by
    rw [List.append_nil]
    exact ((List.reverse_perm _).append (List.reverse_perm _)).trans List.perm_append_comm
  have hside (order : List Node) : List.Forall₂ EntryOf order (entries "" l₁ ++ entries left l₂) ↔
      List.Forall₂ Alike order (l₁ ++ l₂) ∧ (∀ m ∈ l₁ ++ l₂, m.userId ≠ none) ∧ (l₂ = [] ∨ left = "") := by
    rw [forall₂_append_iff, forall₂_append_iff, List.forall_mem_append]
    simp only [forall₂_entries h₁, forall₂_entries h₂]
    constructor
    · intro ⟨o₁, o₂, horder, ⟨ha₁, hu₁, _⟩, ha₂, hu₂, hleft⟩
      exact ⟨⟨o₁, o₂, horder, ha₁, ha₂⟩, ⟨hu₁, hu₂⟩, hleft⟩
    · intro ⟨⟨o₁, o₂, horder, ha₁, ha₂⟩, ⟨hu₁, hu₂⟩, hleft⟩
      exact ⟨o₁, o₂, horder, ⟨ha₁, hu₁, by simp⟩, ha₂, hu₂, hleft⟩
  constructor
  · intro h
    obtain ⟨order, horder, hpairs⟩ := exists_pairs_perm hperm h
    rw [hside] at hpairs
    exact ⟨⟨order, horder, hpairs.1⟩, hpairs.2⟩
  · intro ⟨⟨order, horder, halike⟩, hrest⟩
    exact exists_pairs_perm hperm.symm ⟨order, horder, (hside order).mpr ⟨halike, hrest⟩⟩

/-! ### The list -/

theorem right_missing : Right none := ⟨-1, [], rfl, [], by rfl, .nil⟩

theorem right_noPackage {children : List Node} (h : firstPackage children = []) : Right (some children) ↔ elements children = [] := by
  rw [Right, getPackages, if_pos h]
  constructor
  · intro ⟨ret, head, heq, order, horder, hpairs⟩
    obtain ⟨-, rfl⟩ := Prod.mk.inj (Option.some.inj heq)
    obtain rfl := List.forall₂_nil_right_iff.mp hpairs
    exact horder.symm.eq_nil
  · intro hnone
    exact ⟨-1, [], rfl, [], by rw [Option.getD_some, hnone], .nil⟩

/-- With a package there are two loops. -/
theorem right_loops {children : List Node} (h : firstPackage children ≠ []) : Right (some children) ↔ Covered children := by
  rw [Right, getPackages, if_neg h, Option.getD_some]
  constructor
  · intro ⟨ret, head, heq, hpairs⟩
    simp only [Option.bind_eq_bind, Option.bind_eq_some_iff] at heq
    obtain ⟨⟨name, head₁⟩, hloop₁, ⟨name₂, head₂⟩, hloop₂, hret⟩ := heq
    obtain ⟨-, rfl⟩ := Prod.mk.inj (Option.some.inj hret)
    have hpass₁ := (passable_of_getLoop hloop₁).2
    obtain ⟨left, hsome₁, hleft⟩ := getLoop_some _ "" [] h hpass₁
    obtain ⟨rfl, rfl⟩ := Prod.mk.inj (Option.some.inj (hsome₁.symm.trans hloop₁))
    have hhead : Passable (firstUpdated children) ∧
        head₂ = (entries left (loaded (firstUpdated children))).reverse ++ ((entries "" (loaded (firstPackage children))).reverse ++ []) := by
      split at hloop₂
      · rename_i hnil
        obtain ⟨-, rfl⟩ := Prod.mk.inj (Option.some.inj hloop₂)
        rw [hnil, loaded_nil]
        exact ⟨passable_nil, rfl⟩
      · rename_i hne
        have hpass₂ := (passable_of_getLoop hloop₂).2
        obtain ⟨left₂, hsome₂, -⟩ := getLoop_some _ left ((entries "" (loaded (firstPackage children))).reverse ++ []) hne hpass₂
        obtain ⟨-, rfl⟩ := Prod.mk.inj (Option.some.inj (hsome₂.symm.trans hloop₂))
        exact ⟨hpass₂, rfl⟩
    obtain ⟨hpass₂, rfl⟩ := hhead
    rw [pairs_iff (fun m hm => named_of_mem_loaded hpass₁ hm) (fun m hm => named_of_mem_loaded hpass₂ hm), hleft rfl] at hpairs
    exact ⟨hpass₁, hpass₂, hpairs.2.1, hpairs.1, hpairs.2.2⟩
  · intro hcovered
    obtain ⟨left, hloop₁, hleft⟩ := getLoop_some _ "" [] h hcovered.passable
    have hpairs := (pairs_iff (fun m hm => named_of_mem_loaded hcovered.passable hm)
      (fun m hm => named_of_mem_loaded hcovered.passableUpdated hm)).mpr ⟨hcovered.pairs, hcovered.user, by rw [hleft rfl]; exact hcovered.clear⟩
    rw [hloop₁]
    dsimp only [Option.bind_eq_bind, Option.bind_some]
    by_cases hnil : firstUpdated children = []
    · rw [if_pos hnil]
      rw [hnil, loaded_nil] at hpairs
      exact ⟨0, _, rfl, hpairs⟩
    · obtain ⟨left₂, hloop₂, -⟩ := getLoop_some _ left ((entries "" (loaded (firstPackage children))).reverse ++ []) hnil hcovered.passableUpdated
      rw [if_neg hnil, hloop₂]
      exact ⟨0, _, rfl, hpairs⟩

/-- The list is right just where there is nothing to list, or the two ways over the siblings lead over what there is. -/
theorem listsPackages_iff (packages : Option (List Node)) : Right packages ↔
    ∀ children ∈ packages, (firstPackage children = [] → elements children = []) ∧ (firstPackage children ≠ [] → Covered children) := by
  cases packages with
  | none => exact iff_of_true right_missing nofun
  | some children =>
    have hone : (∀ c ∈ some children, (firstPackage c = [] → elements c = []) ∧ (firstPackage c ≠ [] → Covered c)) ↔
        (firstPackage children = [] → elements children = []) ∧ (firstPackage children ≠ [] → Covered children) := by
      simp
    rw [hone]
    by_cases h : firstPackage children = []
    · rw [right_noPackage h]
      exact ⟨fun hnone => ⟨fun _ => hnone, fun hne => absurd h hne⟩, fun hboth => hboth.1 h⟩
    · rw [right_loops h]
      exact ⟨fun hcovered => ⟨fun hnil => absurd hnil h, fun _ => hcovered⟩, fun hboth => hboth.2 h⟩

/-- Without updated packages, each package complete, and behind one that is skipped another package. -/
structure Plain (children : List Node) : Prop where
  updated : ∀ n ∈ children, n.name ≠ CString.ofString "updated-package"
  complete : ∀ n ∈ children, n.name = CString.ofString "package" → n.pkgName ≠ none ∧ n.codePath ≠ none ∧ n.userId ≠ none
  followed : ∀ before n after, children = before ++ n :: after → n.name = CString.ofString "package" → n.skipped = true →
    ∃ m rest, after = m :: rest ∧ m.name = CString.ofString "package"

theorem Plain.suffix (front : List Node) {children : List Node} (h : Plain (front ++ children)) : Plain children where
  updated n hn := h.updated n (List.mem_append_right _ hn)
  complete n hn := h.complete n (List.mem_append_right _ hn)
  followed before n after hsplit := h.followed (front ++ before) n after (by rw [hsplit, List.append_assoc])

theorem plain_nextPackage {siblings : List Node} (h : Plain siblings) : Plain (nextPackage siblings) := by
  have hsplit : siblings.takeWhile (·.name ≠ CString.ofString "package") ++ nextPackage siblings = siblings := List.takeWhile_append_dropWhile
  rw [← hsplit] at h
  exact h.suffix _

theorem filter_nextPackage (siblings : List Node) :
    (nextPackage siblings).filter (fun n => n.name = CString.ofString "package" ∧ ¬n.skipped) =
      siblings.filter fun n => n.name = CString.ofString "package" ∧ ¬n.skipped := by
  conv_rhs => rw [← List.takeWhile_append_dropWhile (p := (·.name ≠ CString.ofString "package")) (l := siblings), List.filter_append]
  have hnone : (siblings.takeWhile (·.name ≠ CString.ofString "package")).filter
      (fun n => n.name = CString.ofString "package" ∧ ¬n.skipped) = [] := by
    rw [List.filter_eq_nil_iff]
    intro n hn
    have hne := List.mem_takeWhile_imp hn
    simp_all
  rw [hnone]
  rfl

theorem nextPackage_head (siblings : List Node) : ∀ n ∈ (nextPackage siblings).head?, n.name = CString.ofString "package" := by
  intro n hn
  have hnot := List.head?_dropWhile_not (fun n : Node => decide (n.name ≠ CString.ofString "package")) siblings
  rw [show (siblings.dropWhile _).head? = some n from hn] at hnot
  simpa using hnot

theorem Plain.way {next : List Node} (h : Plain next) (hhead : ∀ n ∈ next.head?, n.name = CString.ofString "package") :
    Passable next ∧ loaded next = next.filter fun n => n.name = CString.ofString "package" ∧ ¬n.skipped := by
  induction next using way.induct with
  | case1 => exact ⟨passable_nil, loaded_nil⟩
  | case2 n siblings hname => exact absurd hname (h.complete n List.mem_cons_self (hhead n rfl)).1
  | case3 n siblings hname ih ih' =>
    have hpackage := hhead n rfl
    obtain ⟨-, hcode, -⟩ := h.complete n List.mem_cons_self hpackage
    have hrest : Plain siblings := h.suffix [n]
    cases hskip : n.skipped with
    | true =>
      obtain ⟨m, rest, rfl, hm⟩ := h.followed [] n siblings rfl hpackage hskip
      obtain ⟨hpass, hloaded⟩ := ih hrest (by intro k hk; rw [← Option.some.inj hk]; exact hm)
      rw [passable_skipped hname hskip, loaded_skipped hname hskip, hloaded, List.filter_cons_of_neg (a := n) (by simp [hskip])]
      exact ⟨⟨List.cons_ne_nil _ _, hpass⟩, rfl⟩
    | false =>
      obtain ⟨hpass, hloaded⟩ := ih' (plain_nextPackage hrest) (nextPackage_head siblings)
      rw [passable_loaded hname hskip, loaded_loaded hname hskip, hloaded, filter_nextPackage, List.filter_cons_of_pos (by simp [hskip, hpackage])]
      exact ⟨⟨hcode, hpass⟩, rfl⟩

/-- What a package manager writes as long as no system package is updated is listed. -/
theorem right_of_plain {children : List Node} (h : Plain children) : Right (some children) := by
  have helements : elements children = children.filter fun n => n.name = CString.ofString "package" ∧ ¬n.skipped := by
    apply List.filter_congr
    intro n hn
    simp [h.updated n hn]
  have hupdated : firstUpdated children = [] := by
    rw [firstUpdated, List.dropWhile_eq_nil_iff]
    intro n hn
    simp [h.updated n hn]
  have hfilter : (firstPackage children).filter (fun n => n.name = CString.ofString "package" ∧ ¬n.skipped) = _ := filter_nextPackage children
  obtain ⟨hpass, hloaded⟩ := Plain.way (plain_nextPackage h) (nextPackage_head children)
  by_cases hnone : firstPackage children = []
  · rw [right_noPackage hnone, helements, ← hfilter, hnone]
    rfl
  · rw [right_loops hnone]
    have hall : loaded (firstPackage children) = elements children := by rw [helements, ← hfilter]; exact hloaded
    refine ⟨hpass, ?_, ?_, ⟨elements children, .refl _, ?_⟩, ?_⟩
    · rw [hupdated]
      exact passable_nil
    · rw [hupdated, loaded_nil, List.append_nil, hall, helements]
      intro n hn
      obtain ⟨hmem, hn⟩ := List.mem_filter.mp hn
      have hpackage : n.name = CString.ofString "package" := by simp_all
      exact (h.complete n hmem hpackage).2.2
    · rw [hupdated, loaded_nil, List.append_nil, hall]
      exact List.forall₂_same.mpr fun n _ => ⟨rfl, rfl, rfl⟩
    · rw [hupdated]
      exact .inl loaded_nil

/-- One package, and one that is updated. -/
def oneUpdated : List Node :=
  [⟨"package", [("name", "a"), ("codePath", "/data/app/a.apk"), ("userId", "10001")]⟩,
    ⟨"updated-package", [("name", "b"), ("codePath", "/system/app/b.apk"), ("userId", "10002")]⟩]

/-- The data directory of the second is `ab`. -/
theorem oneUpdated_not_right : ¬Right (some oneUpdated) := by
  have hfirst : firstPackage oneUpdated = oneUpdated := by decide
  have hupdated : firstUpdated oneUpdated = oneUpdated.drop 1 := by decide
  rw [right_loops (by rw [hfirst]; decide)]
  intro h
  have hclear := h.clear
  rw [hfirst, hupdated] at hclear
  obtain hnone | hends := hclear
  · rw [oneUpdated, List.drop_one, List.tail_cons, loaded_loaded (by decide) (by decide)] at hnone
    exact nomatch hnone
  · have hempty := hends _ _ (by rw [oneUpdated, way_loaded (by decide) (by decide)]; exact List.mem_cons_self) (by decide) (by decide)
    exact absurd hempty (by decide)

end Twrp.FixPermissions
