import Twrp.Base.CString

/-! Pages and their templates (`Page::ProcessNode`).

An object of a page may ask for a template, whose objects then take its place; a template may ask for
others. A counter stops references that are nested ten deep. What it does not stop is the search for a
template: at one without a name the loop goes on with `continue`, which does not advance it. And an object
without a type ends the loop over the objects, so that those behind it are lost. A page is expanded as its
references say exactly when neither happens on the way (`expands_iff`). -/
namespace Twrp.Gui.Template
open Base

/-! ### Documents -/

inductive Kind where
  | text | image | fill | action | console | button | checkbox | fileselector | animation | progressbar
  | slider | slidervalue | listbox | keyboard | input | partitionlist
deriving DecidableEq

namespace Kind

/-- The word for it in the attribute `type`. -/
def word : Kind → CString
  | text => "text"
  | image => "image"
  | fill => "fill"
  | action => "action"
  | console => "console"
  | button => "button"
  | checkbox => "checkbox"
  | fileselector => "fileselector"
  | animation => "animation"
  | progressbar => "progressbar"
  | slider => "slider"
  | slidervalue => "slidervalue"
  | listbox => "listbox"
  | keyboard => "keyboard"
  | input => "input"
  | partitionlist => "partitionlist"

def all : List Kind :=
  [text, image, fill, action, console, button, checkbox, fileselector, animation, progressbar,
    slider, slidervalue, listbox, keyboard, input, partitionlist]

def ofWord (type : CString) : Option Kind := all.find? fun k => k.word = type

/-- pushed to `mRenders` -/
def isRender (k : Kind) : Bool := k ≠ action

/-- pushed to `mActions` -/
def isAction (k : Kind) : Bool := k ≠ image ∧ k ≠ fill ∧ k ≠ animation

/-- pushed to `mInputs` -/
def isInput (k : Kind) : Bool := k = input

end Kind

/-- An `object` of the document: the attributes that are looked at here, and which node it is. -/
structure Object where
  type : Option CString
  name : Option CString
  node : Nat

/-- A page or a template: the color of its background, if it has one, and its objects. -/
structure Node where
  name : Option CString
  background : Option CString
  objects : List Object

/-- An object that was made, with the node that it was made from. -/
abbrev Element := Kind × Nat

structure Page where
  mBackground : Option CString
  /-- The objects in the order in which they were made; each is pushed to the lists of its kind at once. -/
  elements : List Element

namespace Page

def mRenders (p : Page) : List Element := p.elements.filter (·.1.isRender)

def mActions (p : Page) : List Element := p.elements.filter (·.1.isAction)

def mInputs (p : Page) : List Element := p.elements.filter (·.1.isInput)

def make (p : Page) (k : Kind) (child : Object) : Page := {p with elements := p.elements ++ [(k, child.node)]}

end Page

/-! ### The loops -/

section Process
variable (fuel : Nat) (templates : Option (List Node))

/-- The search for a template. The fuel counts turns, and nothing comes of a search that has no end. -/
def search (name : CString) : Nat → List Node → Option (Option Node)
  | 0, _ => none
  | _ + 1, [] => some none
  | fuel + 1, node :: rest =>
    match node.name with
    -- `continue`: the same node again
    | none => search name fuel (node :: rest)
    | some n => if name = n then some (some node) else search name fuel rest

/-- The loop over the objects of a node; `process` is what is done with a template. -/
def objectLoop (process : Node → Page → Option (Page × Bool)) : List Object → Page → Option (Page × Bool)
  | [], page => some (page, true)
  | child :: rest, page =>
    match child.type with
    | none => some (page, true)
    | some type =>
      match Kind.ofWord type with
      | some k => objectLoop process rest (page.make k child)
      | none =>
        if type = "template" then
          match templates, child.name with
          | some ts, some name =>
            match search name fuel ts with
            | none => none
            | some none => objectLoop process rest page
            | some (some node) =>
              match process node page with
              | some (page, true) => objectLoop process rest page
              | failed => failed
          -- an invalid template request
          | _, _ => objectLoop process rest page
        -- an unknown object type
        else objectLoop process rest page

/-- `ProcessNode`, with how many levels are left until `depth == 10`. -/
def processNode : Nat → Node → Page → Option (Page × Bool)
  | 0, _, page => some (page, false)
  | levels + 1, node, page =>
    objectLoop fuel templates (processNode levels) node.objects
      {page with mBackground := node.background <|> page.mBackground}

end Process

/-- The depth at which `ProcessNode` gives up. -/
def depthLimit : Nat := 10

/-! ### What is asked -/

namespace Object

def kind (o : Object) : Option Kind := o.type.bind Kind.ofWord

/-- The name that a template reference asks for. -/
def asked (o : Object) : Option CString := o.type.bind fun type => if type = "template" then o.name else none

end Object

section Meant
variable (templates : Option (List Node))

/-- The first template of a name. -/
def templateOf (name : CString) : Option Node := (templates.getD []).find? fun t => t.name = some name

/-- What takes the place of a template reference. -/
def target (o : Object) : Option Node := o.asked.bind (templateOf templates)

/-- A chain of so many template references starts at the node. -/
def Chain : Nat → Node → Prop
  | 0, _ => True
  | n + 1, node => ∃ o ∈ node.objects, ∃ t, target templates o = some t ∧ Chain n t

/-- The objects of a node, with each reference replaced in place. -/
def expansion : Nat → Node → List Element
  | 0, _ => []
  | n + 1, node => node.objects.flatMap fun o =>
    match o.kind with
    | some k => [(k, o.node)]
    | none =>
      match target templates o with
      | some t => expansion n t
      | none => []

/-- A page is processed as its references say. -/
def Expands (node : Node) : Prop :=
  ∀ page : Page, ∃ fuel after ok, processNode fuel templates depthLimit node page = some (after, ok) ∧
    (ok = false ↔ Chain templates depthLimit node) ∧
    (ok = true → after.elements = page.elements ++ expansion templates depthLimit node)

end Meant

/-! ### The way through a document

What is done for a node, in the order in which it is done, with nothing left out where a search hangs or the
limit is reached. -/

inductive Item where
  | made (e : Element)
  | sought (name : CString)
  | tooDeep
deriving DecidableEq

section Walk
variable (templates : Option (List Node)) (objectsOf : Node → List Object)

/-- What is done for one object. -/
def itemsOf (expand : Node → List Item) (o : Object) : List Item :=
  match o.kind with
  | some k => [.made (k, o.node)]
  | none =>
    match templates, o.asked with
    | some _, some name => .sought name :: ((templateOf templates name).map expand).getD []
    | _, _ => []

def walk : Nat → Node → List Item
  | 0, _ => [.tooDeep]
  | n + 1, node => (objectsOf node).flatMap (itemsOf templates (walk n))

/-- The objects that the loop comes to. -/
def reached (node : Node) : List Object := node.objects.takeWhile (·.type ≠ none)

def madeIn (items : List Item) : List Element :=
  items.filterMap fun
    | .made e => some e
    | _ => none

/-- No template without a name stands in front of the first of a name. -/
def Answered (name : CString) : Prop :=
  ∀ before t after, templates.getD [] = before ++ t :: after → t.name = none → ∃ u ∈ before, u.name = some name

/-- The documents whose page is processed as its references say. -/
structure Unhindered (node : Node) : Prop where
  /-- no search goes past a template without a name, unless a chain was too deep before it -/
  answered : ∀ before name after, walk templates reached depthLimit node = before ++ .sought name :: after →
    Answered templates name ∨ .tooDeep ∈ before
  /-- nothing that counts is hidden behind an object without a type -/
  typed : .tooDeep ∈ walk templates reached depthLimit node ∨
    (¬ Chain templates depthLimit node ∧
      madeIn (walk templates reached depthLimit node) = expansion templates depthLimit node)

end Walk

/-! ### Searches -/

def answers (name : CString) : List Node → Bool
  | [] => true
  | t :: rest =>
    match t.name with
    | none => false
    | some n => n = name || answers name rest

theorem answers_iff (templates : Option (List Node)) (name : CString) :
    answers name (templates.getD []) = true ↔ Answered templates name := by
  rw [Answered]
  generalize templates.getD [] = ts
  induction ts with
  | nil => exact iff_of_true rfl fun before t after h => absurd h (by simp)
  | cons t ts ih =>
    rw [answers]
    cases hname : t.name with
    | none => exact iff_of_false Bool.false_ne_true fun h => by simpa using h [] t ts rfl hname
    | some n =>
      by_cases hn : n = name
      · subst hn
        refine iff_of_true (by simp) fun before u after h hu => ?_
        obtain _ | ⟨b, before⟩ := before
        · obtain ⟨rfl, _⟩ := List.cons.inj h
          rw [hname] at hu
          cases hu
        · obtain ⟨rfl, _⟩ := List.cons.inj h
          exact ⟨t, List.mem_cons_self, hname⟩
      · simp only [hn, decide_false, Bool.false_or, ih]
        constructor
        · intro h before u after heq hu
          obtain _ | ⟨b, before⟩ := before
          · obtain ⟨rfl, _⟩ := List.cons.inj heq
            rw [hname] at hu
            cases hu
          · obtain ⟨rfl, hts⟩ := List.cons.inj heq
            obtain ⟨v, hv, hvname⟩ := h before u after hts hu
            exact ⟨v, List.mem_cons_of_mem t hv, hvname⟩
        · intro h before u after heq hu
          obtain ⟨v, hv, hvname⟩ := h (t :: before) u after (congrArg (t :: ·) heq) hu
          obtain rfl | hv := List.mem_cons.mp hv
          · rw [hname] at hvname
            exact absurd (Option.some.inj hvname) hn
          · exact ⟨v, hv, hvname⟩

/-- A search that passes a template without a name has no end. -/
theorem search_hangs {name : CString} {ts : List Node} (h : answers name ts = false) (fuel : Nat) :
    search name fuel ts = none := by
  induction fuel generalizing ts with
  | zero => rfl
  | succ fuel ih =>
    cases ts with
    | nil => cases h
    | cons t ts =>
      rw [answers] at h
      rw [search]
      cases hname : t.name with
      | none => exact ih (by rw [answers, hname])
      | some n =>
        rw [hname] at h
        obtain ⟨hn, hrest⟩ := Bool.or_eq_false_iff.mp h
        simp only [if_neg (Ne.symm (of_decide_eq_false hn))]
        exact ih hrest

/-- Any other finds the first template of the name. -/
theorem search_answers {name : CString} {ts : List Node} (h : answers name ts = true) (fuel : Nat) :
    search name fuel ts = some (ts.find? fun t => t.name = some name) ∨ search name fuel ts = none ∧ fuel ≤ ts.length := by
  induction fuel generalizing ts with
  | zero => exact .inr ⟨rfl, Nat.zero_le _⟩
  | succ fuel ih =>
    cases ts with
    | nil => exact .inl rfl
    | cons t ts =>
      rw [answers] at h
      rw [search]
      cases hname : t.name with
      | none =>
        rw [hname] at h
        cases h
      | some n =>
        rw [hname] at h
        by_cases hn : name = n
        · subst hn
          simp [hname]
        · have hrest : answers name ts = true := by simpa [Ne.symm hn] using h
          simp only [if_neg hn, List.find?_cons, hname, Option.some_inj, Ne.symm hn, decide_false]
          obtain hfound | ⟨hnone, hle⟩ := ih hrest
          · exact .inl hfound
          · exact .inr ⟨hnone, Nat.succ_le_succ hle⟩

/-! ### The loops along the way -/

section Items
variable {templates : Option (List Node)} {expand : Node → List Item} {o : Object}

theorem itemsOf_kind {k : Kind} (h : o.kind = some k) : itemsOf templates expand o = [.made (k, o.node)] := by
  unfold itemsOf
  rw [h]

theorem itemsOf_asked (expand : Node → List Item) (ts : List Node) {name : CString} (hkind : o.kind = none) (hasked : o.asked = some name) :
    itemsOf (some ts) expand o = .sought name :: ((templateOf (some ts) name).map expand).getD [] := by
  unfold itemsOf
  rw [hkind, hasked]

theorem itemsOf_nothing (hkind : o.kind = none) (h : templates = none ∨ o.asked = none) : itemsOf templates expand o = [] := by
  unfold itemsOf
  rw [hkind]
  obtain rfl | hasked := h
  · rfl
  · rw [hasked]
    cases templates <;> rfl

end Items

section Along
variable (templates : Option (List Node))

/-- Where the way ends: nothing when a search hangs, else whether all of it was gone. -/
def verdict : List Item → Option Bool
  | [] => some true
  | .made _ :: rest => verdict rest
  | .sought name :: rest => if answers name (templates.getD []) then verdict rest else none
  | .tooDeep :: _ => some false

theorem verdict_append (a b : List Item) :
    verdict templates (a ++ b) = if verdict templates a = some true then verdict templates b else verdict templates a := by
  induction a with
  | nil => rfl
  | cons i a ih =>
    cases i with
    | made e => exact ih
    | sought name =>
      rw [List.cons_append, verdict, verdict, ih]
      by_cases hname : answers name (templates.getD []) = true
      · rw [if_pos hname, if_pos hname]
      · rw [if_neg hname, if_neg hname]
        rfl
    | tooDeep => rfl

/-- What a loop comes to that has these items in front of it. -/
structure Tells (fuel : Nat) (items : List Item) (page : Page) (r : Option (Page × Bool)) : Prop where
  hangs : verdict templates items = none → r = none
  ends : ∀ ok, verdict templates items = some ok →
    (∃ after, r = some (after, ok) ∧ (ok = true → after.elements = page.elements ++ madeIn items)) ∨
      r = none ∧ fuel ≤ (templates.getD []).length

variable {templates} {fuel : Nat}

theorem tells_end (page : Page) : Tells templates fuel [] page (some (page, true)) where
  hangs h := absurd h (by simp [verdict])
  ends ok h := by
    obtain rfl := Option.some.inj h
    exact .inl ⟨page, rfl, fun _ => (List.append_nil _).symm⟩

theorem tells_made (page : Page) (k : Kind) (o : Object) :
    Tells templates fuel [.made (k, o.node)] page (some (page.make k o, true)) where
  hangs h := absurd h (by simp [verdict])
  ends ok h := by
    obtain rfl := Option.some.inj h
    exact .inl ⟨page.make k o, rfl, fun _ => rfl⟩

/-- The loop goes on where what it did for an object did not fail. -/
def next (r : Option (Page × Bool)) (rest : Page → Option (Page × Bool)) : Option (Page × Bool) :=
  match r with
  | some (page, true) => rest page
  | failed => failed

theorem Tells.next {a b : List Item} {page : Page} {r : Option (Page × Bool)} {rest : Page → Option (Page × Bool)}
    (hr : Tells templates fuel a page r) (hrest : ∀ page, Tells templates fuel b page (rest page)) :
    Tells templates fuel (a ++ b) page (next r rest) := by
  have hverdict := verdict_append templates a b
  cases ha : verdict templates a with
  | none =>
    rw [ha, if_neg nofun] at hverdict
    exact ⟨fun _ => by rw [hr.hangs ha]; rfl, fun ok h => absurd (hverdict.symm.trans h) nofun⟩
  | some go =>
    obtain ⟨after, rfl, hafter⟩ | ⟨rfl, hfuel⟩ := hr.ends go ha
    · cases go with
      | false =>
        rw [ha, if_neg (by simp)] at hverdict
        refine ⟨fun h => absurd (hverdict.symm.trans h) nofun, fun ok h => ?_⟩
        obtain rfl : false = ok := Option.some.inj (hverdict.symm.trans h)
        exact .inl ⟨after, rfl, nofun⟩
      | true =>
        rw [ha, if_pos rfl] at hverdict
        refine ⟨fun h => (hrest after).hangs (hverdict.symm.trans h), fun ok h => ?_⟩
        obtain ⟨last, hlast, helements⟩ | hnone := (hrest after).ends ok (hverdict.symm.trans h)
        · refine .inl ⟨last, hlast, fun hok => ?_⟩
          rw [helements hok, hafter rfl, madeIn, madeIn, madeIn, List.filterMap_append, List.append_assoc]
        · exact .inr hnone
    · refine ⟨fun _ => rfl, fun _ _ => .inr ⟨rfl, hfuel⟩⟩

theorem tells_search {levels : Nat} {process : Node → Page → Option (Page × Bool)}
    (hprocess : ∀ node page, Tells templates fuel (walk templates reached levels node) page (process node page))
    (name : CString) (page : Page) :
    Tells templates fuel (.sought name :: ((templateOf templates name).map (walk templates reached levels)).getD []) page
      (match search name fuel (templates.getD []) with
      | none => none
      | some none => some (page, true)
      | some (some node) => process node page) := by
  cases hname : answers name (templates.getD []) with
  | false =>
    rw [search_hangs hname]
    exact ⟨fun _ => rfl, fun ok h => absurd h (by simp [verdict, hname])⟩
  | true =>
    obtain hfound | ⟨hnone, hfuel⟩ := search_answers hname fuel
    · rw [hfound]
      have hskip (items : List Item) (r : Option (Page × Bool)) (h : Tells templates fuel items page r) :
          Tells templates fuel (.sought name :: items) page r := by
        have hverdict : verdict templates (.sought name :: items) = verdict templates items := by
          rw [verdict, if_pos hname]
        exact ⟨fun hv => h.hangs (hverdict ▸ hv), fun ok hv => h.ends ok (hverdict ▸ hv)⟩
      apply hskip
      rw [templateOf]
      cases (templates.getD []).find? fun t => t.name = some name with
      | none => exact tells_end page
      | some node => exact hprocess node page
    · rw [hnone]
      exact ⟨fun _ => rfl, fun _ _ => .inr ⟨rfl, hfuel⟩⟩

theorem objectLoop_tells {levels : Nat} {process : Node → Page → Option (Page × Bool)}
    (hprocess : ∀ node page, Tells templates fuel (walk templates reached levels node) page (process node page))
    (objects : List Object) (page : Page) :
    Tells templates fuel ((objects.takeWhile (·.type ≠ none)).flatMap (itemsOf templates (walk templates reached levels)))
      page (objectLoop fuel templates process objects page) := by
  induction objects generalizing page with
  | nil => exact tells_end page
  | cons child rest ih =>
    unfold objectLoop
    cases htype : child.type with
    | none =>
      rw [List.takeWhile_cons_of_neg (by simp [htype])]
      exact tells_end page
    | some type =>
      rw [List.takeWhile_cons_of_pos (by simp [htype]), List.flatMap_cons]
      have hkind : child.kind = Kind.ofWord type := by rw [Object.kind, htype, Option.bind_some]
      dsimp only
      cases hword : Kind.ofWord type with
      | some k =>
        rw [itemsOf_kind (hkind.trans hword)]
        exact (tells_made page k child).next ih
      | none =>
        have hnothing (h : templates = none ∨ child.asked = none) :
            Tells templates fuel
              (itemsOf templates (walk templates reached levels) child ++ (rest.takeWhile (·.type ≠ none)).flatMap
                (itemsOf templates (walk templates reached levels)))
              page (objectLoop fuel templates process rest page) := by
          rw [itemsOf_nothing (hkind.trans hword) h]
          exact ih page
        by_cases htemplate : type = "template"
        · have hasked : child.asked = child.name := by rw [Object.asked, htype, Option.bind_some, if_pos htemplate]
          rw [if_pos htemplate]
          cases templates with
          | none => exact hnothing (.inl rfl)
          | some ts =>
            cases hname : child.name with
            | none => exact hnothing (.inr (hasked.trans hname))
            | some name =>
              rw [itemsOf_asked _ ts (hkind.trans hword) (hasked.trans hname)]
              have htells := (tells_search hprocess name page).next ih
              rw [Option.getD_some] at htells
              dsimp only
              cases hsearch : search name fuel ts with
              | none =>
                rw [hsearch] at htells
                exact htells
              | some found =>
                rw [hsearch] at htells
                cases found with
                | none => exact htells
                | some node => exact htells
        · have hasked : child.asked = none := by rw [Object.asked, htype, Option.bind_some, if_neg htemplate]
          rw [if_neg htemplate]
          exact hnothing (.inr hasked)

theorem processNode_tells (levels : Nat) (node : Node) (page : Page) :
    Tells templates fuel (walk templates reached levels node) page (processNode fuel templates levels node page) := by
  induction levels generalizing node page with
  | zero =>
    refine ⟨fun h => absurd h (by simp [walk, verdict]), fun ok h => ?_⟩
    obtain rfl : false = ok := Option.some.inj h
    exact .inl ⟨page, rfl, nofun⟩
  | succ levels ih =>
    rw [processNode, walk]
    have := objectLoop_tells ih node.objects {page with mBackground := node.background <|> page.mBackground}
    exact ⟨this.hangs, this.ends⟩

end Along

/-! ### When a page is processed as it says -/

section Chains
variable (templates : Option (List Node))

theorem asked_kind {o : Object} {name : CString} (h : o.asked = some name) : o.kind = none := by
  rw [Object.asked, Option.bind_eq_some_iff] at h
  obtain ⟨type, htype, hname⟩ := h
  split_ifs at hname with htemplate
  rw [Object.kind, htype, Option.bind_some, htemplate]
  decide

/-- What is done for an object, by its kind and what it is replaced by. -/
theorem itemsOf_cases (expand : Node → List Item) (o : Object) :
    (∃ k, o.kind = some k ∧ target templates o = none ∧ itemsOf templates expand o = [.made (k, o.node)]) ∨
    (o.kind = none ∧ target templates o = none ∧
      (itemsOf templates expand o = [] ∨ ∃ name, itemsOf templates expand o = [.sought name])) ∨
    (o.kind = none ∧ ∃ t name, target templates o = some t ∧ itemsOf templates expand o = .sought name :: expand t) := by
  cases hasked : o.asked with
  | none =>
    have htarget : target templates o = none := by rw [target, hasked, Option.bind_none]
    cases hkind : o.kind with
    | some k => exact .inl ⟨k, rfl, htarget, itemsOf_kind hkind⟩
    | none => exact .inr (.inl ⟨rfl, htarget, .inl (itemsOf_nothing hkind (.inr hasked))⟩)
  | some name =>
    have hkind := asked_kind hasked
    have htarget : target templates o = templateOf templates name := by rw [target, hasked, Option.bind_some]
    cases templates with
    | none => exact .inr (.inl ⟨hkind, htarget, .inl (itemsOf_nothing hkind (.inl rfl))⟩)
    | some ts =>
      have hitems := itemsOf_asked expand ts hkind hasked
      cases hfound : templateOf (some ts) name with
      | none =>
        rw [hfound] at hitems htarget
        exact .inr (.inl ⟨hkind, htarget, .inr ⟨name, hitems⟩⟩)
      | some t =>
        rw [hfound] at hitems htarget
        exact .inr (.inr ⟨hkind, t, name, htarget, hitems⟩)

theorem tooDeep_iff_chain (n : Nat) (node : Node) : .tooDeep ∈ walk templates Node.objects n node ↔ Chain templates n node := by
  induction n generalizing node with
  | zero => exact iff_of_true (List.mem_singleton.mpr rfl) trivial
  | succ n ih =>
    rw [walk, Chain, List.mem_flatMap]
    refine exists_congr fun o => and_congr_right fun _ => ?_
    obtain ⟨k, _, htarget, hitems⟩ | ⟨_, htarget, hitems | ⟨name, hitems⟩⟩ | ⟨_, t, name, htarget, hitems⟩ :=
      itemsOf_cases templates (walk templates Node.objects n) o
    · simp [htarget, hitems]
    · simp [htarget, hitems]
    · simp [htarget, hitems]
    · simp [htarget, hitems, ih t]

theorem madeIn_expansion (n : Nat) (node : Node) : madeIn (walk templates Node.objects n node) = expansion templates n node := by
  induction n generalizing node with
  | zero => rfl
  | succ n ih =>
    rw [walk, expansion, madeIn, List.filterMap_flatMap]
    congr 1
    funext o
    obtain ⟨k, hkind, _, hitems⟩ | ⟨hkind, htarget, hitems | ⟨name, hitems⟩⟩ | ⟨hkind, t, name, htarget, hitems⟩ :=
      itemsOf_cases templates (walk templates Node.objects n) o
    · rw [hitems, hkind]
      rfl
    · rw [hitems, hkind, htarget]
      rfl
    · rw [hitems, hkind, htarget]
      rfl
    · rw [hitems, hkind, htarget]
      exact ih t

theorem itemsOf_subset {expand expand' : Node → List Item} (h : ∀ t, expand t ⊆ expand' t) (o : Object) :
    itemsOf templates expand o ⊆ itemsOf templates expand' o := by
  unfold itemsOf
  cases o.kind with
  | some k => exact fun _ hi => hi
  | none =>
    cases templates with
    | none => exact fun _ hi => hi
    | some ts =>
      cases o.asked with
      | none => exact fun _ hi => hi
      | some name =>
        dsimp only
        cases templateOf (some ts) name with
        | none => exact fun _ hi => hi
        | some t => exact List.cons_subset_cons _ (h t)

/-- What the loop comes to is part of what there is. -/
theorem walk_reached_subset (n : Nat) (node : Node) : walk templates reached n node ⊆ walk templates Node.objects n node := by
  induction n generalizing node with
  | zero => exact fun _ h => h
  | succ n ih =>
    intro i hi
    rw [walk, List.mem_flatMap] at hi ⊢
    obtain ⟨o, ho, hi⟩ := hi
    exact ⟨o, (List.takeWhile_sublist _).subset ho, itemsOf_subset templates ih o hi⟩

/-- The way ends in a search without an end exactly when one stands in front of any chain too deep. -/
theorem verdict_none_iff (items : List Item) : verdict templates items = none ↔
    ∃ before name after, items = before ++ .sought name :: after ∧ ¬ Answered templates name ∧ .tooDeep ∉ before := by
  induction items with
  | nil => exact iff_of_false nofun fun ⟨before, name, after, h, _⟩ => by simp at h
  | cons i items ih =>
    -- an item that the way goes on behind
    have hpass (hdeep : i ≠ .tooDeep) (hgo : ∀ name, i = .sought name → Answered templates name) :
        (∃ before name after, items = before ++ .sought name :: after ∧ ¬ Answered templates name ∧ .tooDeep ∉ before) ↔
          ∃ before name after, i :: items = before ++ .sought name :: after ∧ ¬ Answered templates name ∧ .tooDeep ∉ before := by
      constructor
      · intro ⟨before, name, after, hitems, hname, hbefore⟩
        exact ⟨i :: before, name, after, congrArg (i :: ·) hitems, hname, by simp [hdeep.symm, hbefore]⟩
      · intro ⟨before, name, after, hitems, hname, hbefore⟩
        obtain _ | ⟨b, before⟩ := before
        · exact absurd (hgo name (List.cons.inj hitems).1) hname
        · exact ⟨before, name, after, (List.cons.inj hitems).2, hname, List.not_mem_of_not_mem_cons hbefore⟩
    cases i with
    | made e => exact ih.trans (hpass nofun nofun)
    | tooDeep =>
      refine iff_of_false nofun fun ⟨before, name, after, hitems, _, hbefore⟩ => ?_
      obtain _ | ⟨b, before⟩ := before
      · exact nomatch (List.cons.inj hitems).1
      · exact hbefore ((List.cons.inj hitems).1 ▸ List.mem_cons_self)
    | sought name =>
      rw [verdict]
      by_cases hname : answers name (templates.getD []) = true
      · have hanswered := (answers_iff templates name).mp hname
        rw [if_pos hname]
        refine ih.trans (hpass nofun fun n hn => ?_)
        obtain rfl := Item.sought.inj hn
        exact hanswered
      · rw [if_neg hname]
        exact iff_of_true rfl ⟨[], name, items, rfl, fun h => hname ((answers_iff templates name).mpr h), List.not_mem_nil⟩

theorem verdict_false_iff {items : List Item} (h : verdict templates items ≠ none) :
    verdict templates items = some false ↔ .tooDeep ∈ items := by
  induction items with
  | nil => exact iff_of_false nofun List.not_mem_nil
  | cons i items ih =>
    cases i with
    | made e =>
      rw [verdict] at h ⊢
      simpa using ih h
    | tooDeep => exact iff_of_true rfl List.mem_cons_self
    | sought name =>
      rw [verdict] at h ⊢
      split_ifs at h ⊢ with hname
      · simpa using ih h
      · exact absurd rfl h

end Chains

section Document
variable {templates : Option (List Node)} {node : Node}

theorem Expands.unhindered (h : Expands templates node) : Unhindered templates node := by
  obtain ⟨fuel, after, ok, hresult, hdeep, hmade⟩ := h ⟨none, []⟩
  have htells : Tells templates fuel (walk templates reached depthLimit node) ⟨none, []⟩ (some (after, ok)) :=
    hresult ▸ processNode_tells depthLimit node ⟨none, []⟩
  have hgo : verdict templates (walk templates reached depthLimit node) ≠ none := fun hnone => nomatch htells.hangs hnone
  have hfalse := verdict_false_iff templates hgo
  constructor
  · intro before name later hwalk
    by_contra hnot
    rw [not_or] at hnot
    exact hgo ((verdict_none_iff templates _).mpr ⟨before, name, later, hwalk, hnot⟩)
  · by_cases hmem : .tooDeep ∈ walk templates reached depthLimit node
    · exact .inl hmem
    · obtain ⟨go, hverdict⟩ := Option.ne_none_iff_exists'.mp hgo
      obtain ⟨after', hafter, helements⟩ | ⟨hnone, _⟩ := htells.ends go hverdict
      · obtain ⟨rfl, rfl⟩ : after = after' ∧ ok = go := Prod.mk.inj (Option.some.inj hafter)
        have hok : ok = true := by
          rw [← Bool.not_eq_false]
          intro hfailed
          exact hmem (hfalse.mp (hfailed ▸ hverdict))
        have hchain : ¬ Chain templates depthLimit node := fun hc => absurd (hdeep.mpr hc) (by simp [hok])
        exact .inr ⟨hchain, List.append_cancel_left ((helements hok).symm.trans (hmade hok))⟩
      · exact nomatch hnone

theorem Unhindered.expands (h : Unhindered templates node) : Expands templates node := by
  intro page
  have hgo : verdict templates (walk templates reached depthLimit node) ≠ none := by
    intro hnone
    obtain ⟨before, name, after, hwalk, hname, hbefore⟩ := (verdict_none_iff templates _).mp hnone
    exact (h.answered before name after hwalk).elim hname hbefore
  have hfalse := verdict_false_iff templates hgo
  have hdeep (hmem : .tooDeep ∈ walk templates reached depthLimit node) : Chain templates depthLimit node :=
    (tooDeep_iff_chain templates depthLimit node).mp (walk_reached_subset templates depthLimit node hmem)
  obtain ⟨ok, hverdict⟩ := Option.ne_none_iff_exists'.mp hgo
  -- more turns than there are templates
  let fuel := (templates.getD []).length + 1
  have htells : Tells templates fuel _ page (processNode fuel templates depthLimit node page) :=
    processNode_tells depthLimit node page
  obtain ⟨after, hafter, helements⟩ | ⟨_, hfuel⟩ := htells.ends ok hverdict
  · refine ⟨fuel, after, ok, hafter, ⟨fun hok => hdeep (hfalse.mp (hok ▸ hverdict)), fun hc => ?_⟩, fun hok => ?_⟩
    · obtain hmem | ⟨hnot, _⟩ := h.typed
      · exact Option.some.inj (hverdict.symm.trans (hfalse.mpr hmem))
      · exact absurd hc hnot
    · obtain hmem | ⟨_, hmade⟩ := h.typed
      · exact absurd (hverdict.symm.trans (hfalse.mpr hmem)) (by simp [hok])
      · rw [helements hok, hmade]
  · exact absurd hfuel (Nat.not_succ_le_self _)

end Document

/-- A page is processed as its references say exactly on the documents where no search hangs and nothing is
hidden. -/
theorem expands_iff (templates : Option (List Node)) (node : Node) : Expands templates node ↔ Unhindered templates node :=
  ⟨Expands.unhindered, Unhindered.expands⟩

/-! ### Plain themes -/

section Plain
variable {templates : Option (List Node)} {node : Node}

theorem itemsOf_congr {expand expand' : Node → List Item} (h : ∀ t ∈ templates.getD [], expand t = expand' t) (o : Object) :
    itemsOf templates expand o = itemsOf templates expand' o := by
  unfold itemsOf
  cases o.kind with
  | some k => rfl
  | none =>
    cases templates with
    | none => rfl
    | some ts =>
      cases o.asked with
      | none => rfl
      | some name =>
        dsimp only
        cases hfound : templateOf (some ts) name with
        | none => rfl
        | some t => rw [Option.map_some, Option.map_some, h t (List.mem_of_find?_eq_some hfound)]

/-- In a theme whose templates all have names and whose objects all have types, every page is processed as it says. -/
theorem expands_plain (hnames : ∀ t ∈ templates.getD [], t.name ≠ none)
    (htypes : ∀ t ∈ node :: templates.getD [], ∀ o ∈ t.objects, o.type ≠ none) : Expands templates node := by
  have hwalk (n : Nat) (t : Node) (ht : t ∈ node :: templates.getD []) :
      walk templates reached n t = walk templates Node.objects n t := by
    induction n generalizing t with
    | zero => rfl
    | succ n ih =>
      have hreached : reached t = t.objects := by
        rw [reached, List.takeWhile_eq_self_iff]
        exact fun o ho => decide_eq_true (htypes t ht o ho)
      rw [walk, walk, hreached]
      congr 1
      funext o
      exact itemsOf_congr (fun u hu => ih u (List.mem_cons_of_mem node hu)) o
  have hpage := hwalk depthLimit node List.mem_cons_self
  apply Unhindered.expands
  constructor
  · exact fun _ _ _ _ => .inl fun before t after hts ht => absurd ht (hnames t (hts ▸ by simp))
  · by_cases hc : Chain templates depthLimit node
    · exact .inl (hpage ▸ (tooDeep_iff_chain templates depthLimit node).mpr hc)
    · exact .inr ⟨hc, by rw [hpage, madeIn_expansion]⟩

end Plain

def header : CString := "header"

/-- A page that asks for a template, behind one without a name: the search does not end. -/
theorem nameless_not_expanded :
    ¬ Expands (some [⟨none, none, []⟩, ⟨some header, none, []⟩])
      ⟨some (CString.ofString "main"), none, [⟨some (CString.ofString "template"), some header, 0⟩]⟩ := by
  intro h
  obtain hanswered | hdeep := h.unhindered.answered [] header [] (by decide)
  · obtain ⟨u, hu, _⟩ := hanswered [] _ _ rfl rfl
    exact List.not_mem_nil hu
  · exact List.not_mem_nil hdeep

end Twrp.Gui.Template
