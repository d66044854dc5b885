import Mathlib
import ValueGraph.Proofs.TypeEquality
import ValueGraph.Types.Rendering

namespace ValueGraph

open List

/-!
# Reading texts of types back

The text of a type is some `const`s, the text of the layer at the start of its spine, and
one suffix for each pointer and function layer above it.  A text is read from the left: the
character behind each part tells that the part is over, so two types with one text have
the same spine, and differ at most in the layers that their `const`s qualify.
-/

variable {u v sep : List Char} {m n : Nat} {c : Char} {s : TypeTree}

/-! ### Runs of characters -/

/-- A text that does not go on with a character of a class. -/
def Stops (inClass : Char → Bool) (rest : List Char) : Prop :=
  ∀ c ∈ rest.head?, inClass c = false

/-- Where a class of characters stops, what is of that class is known. -/
theorem append_inj_of_stops {inClass : Char → Bool} {x y : List Char}
    (hx : ∀ c ∈ x, inClass c = true) (hy : ∀ c ∈ y, inClass c = true) (hu : Stops inClass u)
    (hv : Stops inClass v) (eq : x ++ u = y ++ v) : x = y ∧ u = v := by
  have done : ∀ {word : List Char}, Stops inClass word → word.takeWhile inClass = [] := by
    intro word stops
    cases word with
    | nil => rfl
    | cons c rest => exact takeWhile_cons_of_neg (by simp [stops c rfl])
  have heads := congrArg (takeWhile inClass) eq
  rw [takeWhile_append_of_pos hx, takeWhile_append_of_pos hy, done hu, done hv,
    append_nil, append_nil] at heads
  exact ⟨heads, append_cancel_left (heads ▸ eq)⟩

theorem toDigits_append_inj (hu : Stops Char.isDigit u) (hv : Stops Char.isDigit v)
    (eq : Nat.toDigits 10 m ++ u = Nat.toDigits 10 n ++ v) : m = n ∧ u = v := by
  have digit : ∀ (k : Nat), ∀ c ∈ Nat.toDigits 10 k, c.isDigit = true := fun _ _ mem =>
    Nat.isDigit_of_mem_toDigits (by decide) (by decide) mem
  obtain ⟨digits, rests⟩ := append_inj_of_stops (digit m) (digit n) hu hv eq
  exact ⟨Nat.repr_inj.mp (String.toList_inj.mp (by rw [Nat.toList_repr, Nat.toList_repr, digits])),
    rests⟩

/-! ### Texts of trees -/

namespace TypeTree

/-- The qualifier in front of a layer. -/
def qualifier (isConst : Bool) : String :=
  if isConst then "const " else ""

/-- The text of a tree. -/
def text : TypeTree → String
  | .void isConst => qualifier isConst ++ "void"
  | .label isConst => qualifier isConst ++ "label"
  | .int isConst bits signed => qualifier isConst ++ Shape.intText bits signed
  | .float isConst exponent fraction radix =>
    qualifier isConst ++ Shape.floatText exponent fraction radix
  | .array isConst element length =>
    qualifier isConst ++ ("[" ++ toString length.toNat ++ " x " ++ element.text ++ "]")
  | .pointer isConst pointee => qualifier isConst ++ (pointee.text ++ "*")
  | .function isConst result params variadic => qualifier isConst ++
    Shape.functionText result.text (params.attach.map fun param => param.1.text) variadic
decreasing_by
  all_goals simp_wf
  all_goals try have smaller := List.sizeOf_lt_of_mem param.2
  all_goals omega

/-- A member of a list of parameters; the last may stand for any more of them. -/
def itemText : Option TypeTree → String
  | some param => param.text
  | none => "..."

/-- The members of a list of parameters. -/
def items (params : List TypeTree) (variadic : Bool) : List (Option TypeTree) :=
  params.map some ++ if variadic then [none] else []

/-- The members of a list of parameters, the first of them behind a separator, and its end. -/
def listText (separator : List Char) : List (Option TypeTree) → List Char
  | [] => [')']
  | item :: rest => separator ++ ((itemText item).toList ++ listText [',', ' '] rest)

/-- What a pointer or a function layer adds to the text of what is below it. -/
inductive Suffix where
  | pointer
  | function (params : List TypeTree) (variadic : Bool)

namespace Suffix

def chars : Suffix → List Char
  | .pointer => ['*']
  | .function params variadic => ' ' :: '(' :: listText [] (items params variadic)

def params : Suffix → List TypeTree
  | .pointer => []
  | .function params _ => params

/-- Put a layer around a tree, const left out. -/
def wrap (below : TypeTree) : Suffix → TypeTree
  | .pointer => .pointer false below
  | .function params variadic =>
    .function false below (params.map (erase .plain)) variadic

end Suffix

/-- The first character of the layer at the start of a spine. -/
def mark : TypeTree → Char
  | .void _ => 'v'
  | .label _ => 'l'
  | .int _ _ signed => if signed then 'i' else 'u'
  | .float _ _ _ _ => 'f'
  | .array _ _ _ => '['
  | .pointer _ _ | .function _ _ _ _ => '*'

/-- The text of the layer at the start of a spine behind its first character. -/
def stem : TypeTree → List Char
  | .void _ => ['o', 'i', 'd']
  | .label _ => ['a', 'b', 'e', 'l']
  | .int _ bits _ => Nat.toDigits 10 bits.toNat
  | .float _ exponent fraction radix => (Shape.floatText exponent fraction radix).toList.tail
  | .array _ element length =>
    Nat.toDigits 10 length.toNat ++ ' ' :: 'x' :: ' ' :: (element.text.toList ++ [']'])
  | .pointer _ _ | .function _ _ _ _ => []

/-- Some qualifiers. -/
def qualifiers : Nat → List Char
  | 0 => []
  | count + 1 => 'c' :: 'o' :: 'n' :: 's' :: 't' :: ' ' :: qualifiers count

theorem qualifiers_add (m n : Nat) : qualifiers (m + n) = qualifiers m ++ qualifiers n := by
  induction m with
  | zero => rw [Nat.zero_add, qualifiers, nil_append]
  | succ m ih => rw [Nat.succ_add, qualifiers, qualifiers, ih]; rfl

theorem toList_qualifier (isConst : Bool) :
    (qualifier isConst).toList = qualifiers isConst.toNat := by
  cases isConst <;> rfl

theorem erase_function (detail : Detail) (isConst : Bool) (result : TypeTree)
    (params : List TypeTree) (variadic : Bool) :
    (TypeTree.function isConst result params variadic).erase detail =
      .function (detail.qualifiers && isConst) (result.erase detail) (params.map (erase detail))
        variadic := by
  simp [erase]

theorem intercalate_items (items : List (Option TypeTree)) :
    [',', ' '].intercalate (items.map fun item => (itemText item).toList) ++ [')'] =
      listText [] items := by
  cases items with
  | nil => rfl
  | cons item rest =>
    rw [listText, nil_append]
    induction rest generalizing item with
    | nil => simp [listText]
    | cons next rest ih =>
      rw [listText, ← ih next]
      simp [List.intercalate]

theorem toList_functionText (result : TypeTree) (params : List TypeTree) (variadic : Bool) :
    (Shape.functionText result.text (params.attach.map fun param => param.1.text) variadic).toList =
      result.text.toList ++ (Suffix.function params variadic).chars := by
  have texts : (params.attach.map fun param => param.1.text) ++ (if variadic then ["..."] else []) =
      (items params variadic).map itemText := by
    cases variadic <;> simp [items, itemText, Function.comp_def]
  rw [Shape.functionText, texts, Suffix.chars, ← intercalate_items]
  simp [String.toList_intercalate, Function.comp_def]

/-- The standard floats have names; other floats are spelled out. -/
theorem floatText_cases (e f r : UInt32) :
    (e = 8 ∧ f = 23 ∧ r = 2) ∧ (Shape.floatText e f r).toList = ['f', '3', '2'] ∨
    (e = 11 ∧ f = 52 ∧ r = 2) ∧ (Shape.floatText e f r).toList = ['f', '6', '4'] ∨
    (Shape.floatText e f r).toList = 'f' :: 'l' :: 'o' :: 'a' :: 't' :: '<' ::
      (Nat.toDigits 10 e.toNat ++ ',' :: ' ' :: (Nat.toDigits 10 f.toNat ++ ',' :: ' ' ::
        (Nat.toDigits 10 r.toNat ++ ['>']))) := by
  unfold Shape.floatText
  split
  next single => exact .inl ⟨single, by simp⟩
  next =>
    split
    next double => exact .inr (.inl ⟨double, by simp⟩)
    next => exact .inr (.inr (by simp))

theorem floatText_eq_cons (e f r : UInt32) :
    'f' :: (Shape.floatText e f r).toList.tail = (Shape.floatText e f r).toList := by
  obtain ⟨-, text⟩ | ⟨-, text⟩ | text := floatText_cases e f r <;> rw [text, tail_cons]

/-- A tree as the layer at the start of its spine and the layers around that. -/
structure Spine (tree : TypeTree) where
  consts : Nat
  start : TypeTree
  suffixes : List Suffix
  starts : start.isPointer = false ∧ start.signature? = none
  text_eq : tree.text.toList =
    qualifiers consts ++ start.mark :: (start.stem ++ suffixes.flatMap Suffix.chars)
  erase_eq : tree.erase .plain = suffixes.foldl Suffix.wrap (start.erase .plain)
  start_le : sizeOf start ≤ sizeOf tree
  params_lt : ∀ suffix ∈ suffixes, ∀ param ∈ suffix.params, sizeOf param < sizeOf tree

namespace Spine

/-- A tree that is the start of its own spine. -/
def ofStart (tree : TypeTree) (isConst : Bool)
    (starts : tree.isPointer = false ∧ tree.signature? = none)
    (text_eq : tree.text.toList = (qualifier isConst).toList ++ tree.mark :: tree.stem) :
    Spine tree where
  consts := isConst.toNat
  start := tree
  suffixes := []
  starts := starts
  text_eq := by rw [text_eq, toList_qualifier, List.flatMap_nil, List.append_nil]
  erase_eq := rfl
  start_le := Nat.le_refl _
  params_lt := nofun

/-- A spine with one more layer around it. -/
def extend {below tree : TypeTree} (spine : Spine below) (isConst : Bool) (suffix : Suffix)
    (text_eq : tree.text.toList =
      (qualifier isConst).toList ++ (below.text.toList ++ suffix.chars))
    (erase_eq : tree.erase .plain = suffix.wrap (below.erase .plain))
    (below_lt : sizeOf below < sizeOf tree)
    (params_lt : ∀ param ∈ suffix.params, sizeOf param < sizeOf tree) : Spine tree where
  consts := isConst.toNat + spine.consts
  start := spine.start
  suffixes := spine.suffixes ++ [suffix]
  starts := spine.starts
  text_eq := by
    rw [text_eq, toList_qualifier, spine.text_eq, qualifiers_add]
    simp
  erase_eq := by rw [erase_eq, spine.erase_eq, List.foldl_append]; rfl
  start_le := spine.start_le.trans below_lt.le
  params_lt other mem param isParam := by
    rcases List.mem_append.mp mem with inner | outer
    · exact (spine.params_lt other inner param isParam).trans below_lt
    · exact params_lt param (List.mem_singleton.mp outer ▸ isParam)

end Spine

/-- The spine of a tree. -/
def spine : (tree : TypeTree) → Spine tree
  | .void isConst => .ofStart _ isConst ⟨rfl, rfl⟩ (by simp [text, mark, stem])
  | .label isConst => .ofStart _ isConst ⟨rfl, rfl⟩ (by simp [text, mark, stem])
  | .int isConst bits signed => .ofStart _ isConst ⟨rfl, rfl⟩ (by
      cases signed <;> simp [text, mark, stem, Shape.intText])
  | .float isConst _ _ _ => .ofStart _ isConst ⟨rfl, rfl⟩ (by
      rw [text, String.toList_append, mark, stem, floatText_eq_cons])
  | .array isConst _ _ => .ofStart _ isConst ⟨rfl, rfl⟩ (by simp [text, mark, stem])
  | .pointer isConst pointee => pointee.spine.extend isConst .pointer
      (by simp [text, Suffix.chars]) (by simp [erase, Suffix.wrap, Detail.plain]) (by simp)
      nofun
  | .function isConst result params variadic =>
    result.spine.extend isConst (.function params variadic)
      (by rw [text, String.toList_append, toList_functionText])
      (by rw [erase_function]; rfl) (by simp; omega) fun param mem => by
        have smaller : sizeOf param < sizeOf params := List.sizeOf_lt_of_mem mem
        simp
        omega

/-! ### Reading -/

/-- What may stand behind a type: nothing, or the end of a part that it is in. -/
def Closes (rest : List Char) : Prop :=
  ∀ c ∈ rest.head?, c ∈ [',', ')', ']']

/-- What may stand behind the start of a spine. -/
def Follows (rest : List Char) : Prop :=
  ∀ c ∈ rest.head?, c ∈ ['*', ' ', ',', ')', ']']

/-- Whether the text of a tree tells, up to const, which tree it is and where it ends. -/
def Readable (tree : TypeTree) : Prop :=
  ∀ ⦃other : TypeTree⦄ ⦃u v : List Char⦄, Closes u → Closes v →
    tree.text.toList ++ u = other.text.toList ++ v → tree.erase .plain = other.erase .plain ∧ u = v

theorem Closes.follows (closes : Closes u) : Follows u := by
  intro c mem
  have mem := closes c mem
  simp only [mem_cons, not_mem_nil] at mem ⊢
  tauto

theorem Follows.stops (follows : Follows u) : Stops Char.isDigit u := by
  intro c mem
  have mem := follows c mem
  simp only [mem_cons, not_mem_nil, or_false] at mem
  obtain rfl | rfl | rfl | rfl | rfl := mem <;> rfl

theorem stops_cons (h : c.isDigit = false) : Stops Char.isDigit (c :: u) := by
  rintro d ⟨⟩
  exact h

theorem floatText_inj {e f r e' f' r' : UInt32}
    (eq : (Shape.floatText e f r).toList ++ u = (Shape.floatText e' f' r').toList ++ v) :
    (e = e' ∧ f = f' ∧ r = r') ∧ u = v := by
  rcases floatText_cases e f r with ⟨single, text⟩ | ⟨double, text⟩ | text <;>
    rcases floatText_cases e' f' r' with ⟨single', text'⟩ | ⟨double', text'⟩ | text' <;>
    simp [text, text'] at eq
  · simp [single, single', eq]
  · simp [double, double', eq]
  · obtain ⟨first, eq⟩ := toDigits_append_inj (stops_cons rfl) (stops_cons rfl) eq
    simp only [cons.injEq, true_and] at eq
    obtain ⟨second, eq⟩ := toDigits_append_inj (stops_cons rfl) (stops_cons rfl) eq
    simp only [cons.injEq, true_and] at eq
    obtain ⟨third, eq⟩ := toDigits_append_inj (stops_cons rfl) (stops_cons rfl) eq
    exact ⟨⟨UInt32.toNat_inj.mp first, UInt32.toNat_inj.mp second, UInt32.toNat_inj.mp third⟩,
      (cons.inj eq).2⟩

/-- The start of a spine is read. -/
theorem stem_inj {t : TypeTree} (hs : s.isPointer = false ∧ s.signature? = none)
    (element : ∀ c e n, s = .array c e n → Readable e) (hu : Follows u) (hv : Follows v)
    (eq : s.mark :: (s.stem ++ u) = t.mark :: (t.stem ++ v)) :
    s.erase .plain = t.erase .plain ∧ u = v := by
  obtain ⟨marks, eq⟩ := cons.inj eq
  cases s with
  | pointer => exact absurd hs.1 (by simp [isPointer])
  | function => exact absurd hs.2 (by simp [signature?])
  | void c =>
    cases t with
    | void => simpa [stem, erase, Detail.plain] using eq
    | int _ _ signed => cases signed <;> cases marks
    | _ => cases marks
  | label c =>
    cases t with
    | label => simpa [stem, erase, Detail.plain] using eq
    | int _ _ signed => cases signed <;> cases marks
    | _ => cases marks
  | int c bits signed =>
    cases t with
    | int c' bits' signed' =>
      obtain ⟨same, rests⟩ := toDigits_append_inj hu.stops hv.stops eq
      have signs : signed = signed' := by cases signed <;> cases signed' <;> simp [mark] at marks ⊢
      simp [erase, Detail.plain, UInt32.toNat_inj.mp same, signs, rests]
    | _ => cases signed <;> cases marks
  | float c e f r =>
    cases t with
    | float c' e' f' r' =>
      have eq := congrArg ('f' :: ·) eq
      simp only [stem, ← cons_append, floatText_eq_cons] at eq
      obtain ⟨⟨rfl, rfl, rfl⟩, rests⟩ := floatText_inj eq
      exact ⟨by simp [erase, Detail.plain], rests⟩
    | int _ _ signed => cases signed <;> cases marks
    | _ => cases marks
  | array c e n =>
    cases t with
    | array c' e' n' =>
      simp only [stem, append_assoc, cons_append] at eq
      obtain ⟨lengths, eq⟩ := toDigits_append_inj (stops_cons rfl) (stops_cons rfl) eq
      simp only [cons.injEq, true_and] at eq
      obtain ⟨same, eq⟩ := element c e n rfl (by rintro _ ⟨⟩; simp) (by rintro _ ⟨⟩; simp) eq
      exact ⟨by rw [erase, erase, same, UInt64.toNat_inj.mp lengths]; rfl, (cons.inj eq).2⟩
    | int _ _ signed => cases signed <;> cases marks
    | _ => cases marks

theorem mark_mem (hs : s.isPointer = false ∧ s.signature? = none) :
    s.mark ∈ ['v', 'l', 'i', 'u', 'f', '['] := by
  cases s with
  | pointer => exact absurd hs.1 (by simp [isPointer])
  | function => exact absurd hs.2 (by simp [signature?])
  | int _ _ signed => cases signed <;> simp [mark]
  | _ => simp [mark]

/-- A text starts with a letter or a bracket. -/
theorem text_eq_cons (tree : TypeTree) :
    ∃ c rest, tree.text.toList = c :: rest ∧ c ∈ ['c', 'v', 'l', 'i', 'u', 'f', '['] := by
  obtain ⟨consts, start, suffixes, starts, text_eq, -, -, -⟩ := tree.spine
  cases consts with
  | zero => exact ⟨_, _, text_eq, List.mem_cons_of_mem _ (mark_mem starts)⟩
  | succ consts => exact ⟨_, _, text_eq, List.mem_cons_self⟩

/-- Qualifiers are read: what follows them does not start like one. -/
theorem qualifiers_inj {d : Char} (hc : c ≠ 'c') (hd : d ≠ 'c')
    (eq : qualifiers m ++ c :: u = qualifiers n ++ d :: v) : c :: u = d :: v := by
  induction m generalizing n with
  | zero =>
    cases n with
    | zero => exact eq
    | succ n => exact absurd (cons.inj eq).1 hc
  | succ m ih =>
    cases n with
    | zero => exact absurd (cons.inj eq).1 hd.symm
    | succ n => exact ih (by simpa [qualifiers] using eq)

/-- A member of a list of parameters, const left out. -/
def plainItem (item : Option TypeTree) : Option TypeTree :=
  item.map (erase .plain)

/-- The text of a member starts neither like the end of a list nor, for a type, with a dot. -/
theorem itemText_eq_cons (item : Option TypeTree) :
    ∃ c rest, (itemText item).toList = c :: rest ∧ c ≠ ')' ∧ (c = '.' ↔ item = none) := by
  cases item with
  | none => exact ⟨'.', ['.', '.'], by simp [itemText], by decide, by simp⟩
  | some tree =>
    obtain ⟨c, rest, text, mem⟩ := tree.text_eq_cons
    refine ⟨c, rest, text, ?_, iff_of_false ?_ (by simp)⟩ <;> rintro rfl <;> simp at mem

theorem itemText_inj {i j : Option TypeTree} (readable : ∀ tree ∈ i, Readable tree)
    (hu : Closes u) (hv : Closes v) (eq : (itemText i).toList ++ u = (itemText j).toList ++ v) :
    plainItem i = plainItem j ∧ u = v := by
  obtain ⟨c, rest, text, -, dots⟩ := itemText_eq_cons i
  obtain ⟨c', rest', text', -, dots'⟩ := itemText_eq_cons j
  have alike : i = none ↔ j = none := by
    rw [text, text'] at eq
    rw [← dots, ← dots', (cons.inj eq).1]
  cases i with
  | none =>
    obtain rfl := alike.mp rfl
    exact ⟨rfl, append_cancel_left eq⟩
  | some s =>
    cases j with
    | none => cases alike.mpr rfl
    | some t =>
      obtain ⟨same, rests⟩ := readable s rfl hu hv eq
      exact ⟨congrArg some same, rests⟩

theorem closes_listText (items : List (Option TypeTree)) :
    Closes (listText [',', ' '] items ++ u) := by
  cases items <;> rintro _ ⟨⟩ <;> simp

/-- A list with a member does not start like the end of a list. -/
theorem listText_cons_ne (seps : sep = [] ∨ sep = [',', ' '])
    (i : Option TypeTree) (is : List (Option TypeTree)) :
    listText sep (i :: is) ++ u ≠ ')' :: v := by
  obtain ⟨c, rest, text, ne, -⟩ := itemText_eq_cons i
  rcases seps with rfl | rfl <;> simp [listText, text, ne]

theorem listText_inj (seps : sep = [] ∨ sep = [',', ' ']) {is js : List (Option TypeTree)}
    (readable : ∀ i ∈ is, ∀ tree ∈ i, Readable tree)
    (eq : listText sep is ++ u = listText sep js ++ v) :
    is.map plainItem = js.map plainItem ∧ u = v := by
  induction is generalizing js sep with
  | nil =>
    cases js with
    | nil => exact ⟨rfl, (cons.inj eq).2⟩
    | cons j js => exact absurd eq.symm (listText_cons_ne seps j js)
  | cons i is ih =>
    cases js with
    | nil => exact absurd eq (listText_cons_ne seps i is)
    | cons j js =>
      simp only [listText, append_assoc, append_cancel_left_eq] at eq
      obtain ⟨first, eq⟩ := itemText_inj (readable i (by simp)) (closes_listText is)
        (closes_listText js) eq
      obtain ⟨others, rests⟩ := ih (.inr rfl) (fun i mem => readable i (by simp [mem])) eq
      exact ⟨by rw [map_cons, map_cons, first, others], rests⟩

/-- A list of parameters is known by its members. -/
theorem items_inj {params params' : List TypeTree} {variadic variadic' : Bool}
    (eq : (items params variadic).map plainItem = (items params' variadic').map plainItem) :
    params.map (erase .plain) = params'.map (erase .plain) ∧ variadic = variadic' := by
  have kept := congrArg (filterMap id) eq
  have trees : params.map (erase .plain) = params'.map (erase .plain) := by
    cases variadic <;> cases variadic' <;>
      simpa [items, plainItem, filterMap_map, Function.comp_def] using kept
  have lengths := congrArg length eq
  have sizes := congrArg length trees
  refine ⟨trees, ?_⟩
  cases variadic <;> cases variadic' <;> simp [items] at lengths sizes ⊢ <;> omega

theorem Suffix.chars_inj {x y : Suffix} (readable : ∀ param ∈ x.params, Readable param)
    (eq : x.chars ++ u = y.chars ++ v) : (∀ below, x.wrap below = y.wrap below) ∧ u = v := by
  cases x with
  | pointer =>
    cases y with
    | pointer => exact ⟨fun _ => rfl, (cons.inj eq).2⟩
    | function => simp [Suffix.chars] at eq
  | function params variadic =>
    cases y with
    | pointer => simp [Suffix.chars] at eq
    | function params' variadic' =>
      have ofItems : ∀ i ∈ items params variadic, ∀ tree ∈ i, Readable tree := by
        rintro i mem tree rfl
        refine readable tree ?_
        cases variadic <;> simpa [items, Suffix.params] using mem
      simp only [Suffix.chars, cons_append, cons.injEq, true_and] at eq
      obtain ⟨members, rests⟩ := listText_inj (.inl rfl) ofItems eq
      obtain ⟨same, rfl⟩ := items_inj members
      exact ⟨fun below => by rw [Suffix.wrap, Suffix.wrap, same], rests⟩

/-- Suffixes follow a start, and close nothing. -/
theorem Suffix.head?_chars (x : Suffix) : ∃ c rest, x.chars = c :: rest ∧ c ∈ ['*', ' '] := by
  cases x with
  | pointer => exact ⟨_, _, rfl, by simp⟩
  | function => exact ⟨_, _, rfl, by simp⟩

/-- Suffixes are read one by one until something else follows. -/
theorem suffixes_inj {xs ys : List Suffix}
    (readable : ∀ x ∈ xs, ∀ param ∈ x.params, Readable param) (hu : Closes u) (hv : Closes v)
    (eq : xs.flatMap Suffix.chars ++ u = ys.flatMap Suffix.chars ++ v) :
    (∀ below, xs.foldl Suffix.wrap below = ys.foldl Suffix.wrap below) ∧ u = v := by
  have clash : ∀ {x : Suffix} {rest word : List Char}, Closes word → word ≠ x.chars ++ rest := by
    rintro x rest word closes rfl
    obtain ⟨c, more, chars, mem⟩ := x.head?_chars
    have closed := closes c (by rw [chars]; rfl)
    simp only [mem_cons, not_mem_nil, or_false] at mem closed
    rcases mem with rfl | rfl <;> simp at closed
  induction xs generalizing ys with
  | nil =>
    cases ys with
    | nil => exact ⟨fun _ => rfl, eq⟩
    | cons y ys => exact absurd (by simpa using eq) (clash (x := y) hu)
  | cons x xs ih =>
    cases ys with
    | nil => exact absurd (by simpa using eq.symm) (clash (x := x) hv)
    | cons y ys =>
      simp only [flatMap_cons, append_assoc] at eq
      obtain ⟨first, eq⟩ := Suffix.chars_inj (readable x (by simp)) eq
      obtain ⟨others, rests⟩ := ih (fun x mem => readable x (by simp [mem])) eq
      exact ⟨fun below => by rw [foldl_cons, foldl_cons, first, others], rests⟩

/-- Every text is readable. -/
theorem readable (tree : TypeTree) : Readable tree := by
  induction size : sizeOf tree using Nat.strong_induction_on generalizing tree with
  | _ n ih =>
    subst size
    intro other u v hu hv eq
    have s := tree.spine
    have t := other.spine
    have follows : ∀ (suffixes : List Suffix) {word : List Char}, Closes word →
        Follows (suffixes.flatMap Suffix.chars ++ word) := by
      intro suffixes word closes
      cases suffixes with
      | nil => exact closes.follows
      | cons x xs =>
        obtain ⟨c, rest, chars, mem⟩ := x.head?_chars
        rw [flatMap_cons, chars]
        rintro _ ⟨⟩
        simp only [mem_cons, not_mem_nil, or_false] at mem ⊢
        tauto
    have plainly : ∀ {c : Char}, c ∈ ['v', 'l', 'i', 'u', 'f', '['] → c ≠ 'c' := by
      rintro c mem rfl
      simp at mem
    rw [s.text_eq, t.text_eq] at eq
    simp only [append_assoc, cons_append] at eq
    have eq := qualifiers_inj (plainly (mark_mem s.starts)) (plainly (mark_mem t.starts)) eq
    obtain ⟨starts, eq⟩ := stem_inj s.starts (fun c e n isArray => ih _ (by
      have smaller := s.start_le
      rw [isArray] at smaller
      simp at smaller
      omega) e rfl) (follows _ hu) (follows _ hv) eq
    obtain ⟨wraps, rests⟩ := suffixes_inj
      (fun x mem param isParam => ih _ (s.params_lt x mem param isParam) param rfl) hu hv eq
    exact ⟨by rw [s.erase_eq, t.erase_eq, starts, wraps], rests⟩

end TypeTree

/-! ### Texts of types -/

theorem TypeTable.Layered.textWithin_eq {t : TypeTable} {ty : TypeId} {fuel : Nat}
    (lay : t.Layered) (reg : t.Registered ty) (enough : ty.index < fuel) :
    t.textWithin fuel ty = .ok (t.tree .full ty).text := by
  induction fuel generalizing ty with
  | zero => omega
  | succ fuel ih =>
    obtain ⟨⟨shape, isConst⟩, found⟩ := reg.exists_entry
    have below : ∀ part ∈ shape.children,
        t.textWithin fuel part = .ok (t.tree .full part).text := fun part mem =>
      ih (lay.registered found mem) (by have := lay.parts _ _ found part mem; omega)
    rw [TypeTable.textWithin, TypeTable.entry_eq_ok.mpr found, lay.tree_eq found, TypeEntry.tree]
    cases shape with
    | void | label | int _ _ | float _ _ _ =>
      rw [TypeTree.text]
      rfl
    | array part _ | pointer part =>
      rw [TypeTree.text]
      simp only [bind, Except.bind, below part (by simp [Shape.children])]
      rfl
    | function sig =>
      have params : sig.params.mapM (t.textWithin fuel) =
          .ok (sig.params.map fun param => (t.tree .full param).text) := by
        rw [mapM_eq_ok, forall₂_map_right_iff, forall₂_same]
        exact fun param mem => below param (by simp [Shape.children, mem])
      have attached : (sig.params.map (t.tree .full)).attach.map (fun param => param.1.text) =
          sig.params.map fun param => (t.tree .full param).text := by
        simp [Function.comp_def]
      rw [TypeTree.text, attached]
      simp only [bind, Except.bind, below sig.result (by simp [Shape.children]), params]
      rfl

/-- Types with the same text are equal up to const: the text tells every layer, and so the shape,
widths, signs, lengths and parameters. -/
theorem equal_of_same_text (bits : UInt32) {requests : List TypeRequest} {types : List TypeId}
    {table : TypeTable}
    (run : (TypeTable.ofPointerBits bits).answerAll requests = .ok (types, table))
    {first second : TypeId} (registered : table.Registered first) (reg' : table.Registered second) :
    (∃ text, table.text first = .ok text) ∧
    (table.text first = table.text second → table.equal first second = .ok true ∧
      (table.tree .full first).erase .plain = (table.tree .full second).erase .plain) := by
  have layered := (TypeTable.answerAll_spec (TypeTable.layered_ofPointerBits bits) run).1.layered
    (TypeTable.layered_ofPointerBits bits)
  have text := layered.textWithin_eq registered (Nat.lt_succ_self _)
  have textSecond := layered.textWithin_eq reg' (Nat.lt_succ_self _)
  refine ⟨⟨_, text⟩, fun same => ?_⟩
  rw [TypeTable.text, TypeTable.text, text, textSecond, Except.ok.injEq] at same
  have trees := ((table.tree .full first).readable (by simp [TypeTree.Closes])
    (by simp [TypeTree.Closes]) (congrArg (·.toList ++ []) same)).1
  refine ⟨(layered.equal_iff registered reg').mpr ?_, trees⟩
  rw [← TypeTable.erase_tree layered .full registered rfl rfl, trees,
    TypeTable.erase_tree layered .full reg' rfl rfl]

/-- A pointer to a const byte and a const pointer to a byte have one text, and are equal. -/
theorem const_pointer_reads_as_pointer_to_const :
    ∃ table, (TypeTable.ofPointerBits 64).answerAll
        [.withConst ⟨3⟩ true, .pointer ⟨13⟩, .pointer ⟨3⟩, .withConst ⟨15⟩ true] =
          .ok ([⟨13⟩, ⟨14⟩, ⟨15⟩, ⟨16⟩], table) ∧
      table.text ⟨14⟩ = .ok "const i8*" ∧ table.text ⟨16⟩ = .ok "const i8*" ∧
      table.equal ⟨14⟩ ⟨16⟩ = .ok true := by
  let requests : List TypeRequest :=
    [.withConst ⟨3⟩ true, .pointer ⟨13⟩, .pointer ⟨3⟩, .withConst ⟨15⟩ true]
  obtain ⟨table, run⟩ : ∃ table, (TypeTable.ofPointerBits 64).answerAll requests =
    .ok ([⟨13⟩, ⟨14⟩, ⟨15⟩, ⟨16⟩], table) := ⟨_, rfl⟩
  have written : ((TypeTable.ofPointerBits 64).answerAll requests).map
      (fun answer => (answer.2.text ⟨14⟩, answer.2.text ⟨16⟩, answer.2.size)) =
        .ok (.ok "const i8*", .ok "const i8*", 17) := by decide +kernel
  rw [run] at written
  obtain ⟨text, textAgain, size⟩ : table.text ⟨14⟩ = .ok "const i8*" ∧
      table.text ⟨16⟩ = .ok "const i8*" ∧ table.size = 17 := by
    simpa [Except.map] using written
  have registered : ∀ index < 17, table.Registered ⟨index⟩ := fun index small => by
    rwa [TypeTable.Registered, ← TypeTable.size, size]
  exact ⟨table, run, text, textAgain, ((equal_of_same_text 64 run (registered 14 (by decide))
    (registered 16 (by decide))).2 (text.trans textAgain.symm)).1⟩

end ValueGraph
