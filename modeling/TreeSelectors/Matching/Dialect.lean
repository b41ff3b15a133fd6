import TreeSelectors.Matching.Condition
import TreeSelectors.Selector.Parens

/-!
  The conditions of a part. Pseudo-classes go by the names of a vocabulary: a name may be defined
  again and the last time counts, and a caller may give a name to a pseudo-class of its own. A name
  that the vocabulary does not have asks for nothing. The argument of `:not` is a selector in
  itself, of which the first part counts; `negand` ends because arguments have fewer parentheses
  than the text they stand in.
-/

namespace TreeSelectors

/-! ## Pseudo-classes -/

inductive PseudoClass
  | firstChild
  | lastChild
  | onlyChild
  | empty
  | checked
  | contains
  | not
  | nthChild
deriving DecidableEq, Repr

namespace PseudoClass

def all : List PseudoClass :=
  [.firstChild, .lastChild, .onlyChild, .empty, .checked, .contains, .not, .nthChild]

def name : PseudoClass → String
  | .firstChild => "first-child"
  | .lastChild => "last-child"
  | .onlyChild => "only-child"
  | .empty => "empty"
  | .checked => "checked"
  | .contains => "contains"
  | .not => "not"
  | .nthChild => "nth-child"

end PseudoClass

/-- What makes a condition out of the argument of a pseudo-class. -/
inductive Factory
  | standard (pseudoClass : PseudoClass)
  /-- One of a caller: the condition may be anything, by whether tags are compared as written and by
      the argument. It may read a selector in the argument with the vocabulary that it stands in:
      that is in `build`, for a vocabulary in use does not change. -/
  | custom (build : Bool → Option String → Condition)

/-- The latest definition first. -/
structure Vocabulary where
  entries : List (String × Factory) := []

namespace Vocabulary

def find? (vocabulary : Vocabulary) (name : String) : Option Factory :=
  vocabulary.entries.lookup name

def contains (vocabulary : Vocabulary) (name : String) : Bool := (vocabulary.find? name).isSome

def define (vocabulary : Vocabulary) (name : String) (factory : Factory) : Vocabulary :=
  ⟨(name, factory) :: vocabulary.entries⟩

/-- Defines names for standard pseudo-classes, one after the other. -/
def defineAll (vocabulary : Vocabulary) (entries : List (String × PseudoClass)) : Vocabulary :=
  entries.foldl (fun known (name, pseudoClass) => known.define name (.standard pseudoClass))
    vocabulary

/-- Every pseudo-class under its own name. -/
def standard : Vocabulary :=
  ({} : Vocabulary).defineAll
    (PseudoClass.all.map fun pseudoClass => (pseudoClass.name, pseudoClass))

theorem find?_standard (pseudoClass : PseudoClass) :
    standard.find? pseudoClass.name = some (.standard pseudoClass) := by
  cases pseudoClass <;> rfl

/-- No name is defined by a caller's own pseudo-class. -/
def IsStandard (vocabulary : Vocabulary) : Prop :=
  ∀ name factory, vocabulary.find? name = some factory →
    ∃ pseudoClass, factory = .standard pseudoClass

theorem isStandard_empty : IsStandard {} := by simp [IsStandard, find?]

theorem IsStandard.define {vocabulary : Vocabulary} (only : vocabulary.IsStandard) (name : String)
    (pseudoClass : PseudoClass) : (vocabulary.define name (.standard pseudoClass)).IsStandard := by
  intro other factory found
  rw [find?, Vocabulary.define, List.lookup_cons] at found
  split at found
  · exact ⟨pseudoClass, (Option.some.inj found).symm⟩
  · exact only other factory found

theorem IsStandard.defineAll {vocabulary : Vocabulary} (only : vocabulary.IsStandard)
    (entries : List (String × PseudoClass)) : (vocabulary.defineAll entries).IsStandard := by
  induction entries generalizing vocabulary with
  | nil => exact only
  | cons entry entries ih => exact ih (only.define entry.1 entry.2)

theorem isStandard_standard : standard.IsStandard := isStandard_empty.defineAll _

end Vocabulary

/-! ## Parts -/

/-- How parts are understood. -/
structure Dialect where
  vocabulary : Vocabulary := Vocabulary.standard
  /-- Tags are compared as written. -/
  exactTags : Bool := false

/-- What is known of a node before conditions are put on it. -/
structure Known where
  element : Bool := false
  tag : Bool := false
  id : Bool := false
  classes : Bool := false
deriving DecidableEq, Repr

/-- The text without one pair of equal quotes around it. -/
def stripQuotes (arg : String) : String :=
  match arg.toList with
  | [] => arg
  | quote :: text =>
    if (quote = '"' ∨ quote = '\'') ∧ text.getLast? = some quote then String.ofList text.dropLast
    else arg

namespace Dialect

/-- What a standard pseudo-class with an argument asks for; `negand` gives the conditions in an
    argument. -/
def condition (pseudoClass : PseudoClass) (arg : Option String)
    (negand : (text : String) → arg = some text → Conditions) : Condition :=
  match pseudoClass with
  | .firstChild => .firstChild
  | .lastChild => .lastChild
  | .onlyChild => .onlyChild
  | .empty => .empty
  | .checked => .checked
  | .contains => .contains (stripQuotes (arg.getD ""))
  | .not =>
    match arg, negand with
    | none, _ => .not []
    | some text, negand => .not (negand text rfl)
  | .nthChild => .nthChild (arg.bind Nth.parse?)

/-- What a pseudo-class asks for. -/
def build (dialect : Dialect) (factory : Factory) (arg : Option String)
    (negand : (text : String) → arg = some text → Conditions) : Condition :=
  match factory with
  | .standard pseudoClass => condition pseudoClass arg negand
  | .custom build => build dialect.exactTags arg

/-- Cheap conditions come first. -/
def conditionsWith (dialect : Dialect) (known : Known) (part : Part)
    (negand : (text : String) → text ∈ part.arguments → Conditions) : Conditions :=
  (if known.element then [] else [.element]) ++
    (if known.tag then [] else part.tag.toList.map (.tag · dialect.exactTags)) ++
    (if known.classes then [] else part.classes.map .className) ++
    part.attrs.map .attr ++
    part.pseudos.attach.filterMap (fun ⟨pseudo, member⟩ =>
      (dialect.vocabulary.find? pseudo.name).map fun factory =>
        dialect.build factory pseudo.arg fun text present =>
          negand text (List.mem_filterMap.mpr ⟨pseudo, member, present⟩)) ++
    (if known.id then [] else part.id.toList.map .id)

/-- The conditions of the first part of a text, for a node that is known to be an element. -/
def negand (dialect : Dialect) (text : String) : Conditions :=
  match _parsed : parse text with
  | [] => []
  | part :: _ => dialect.conditionsWith { element := true } part fun arg _ => negand dialect arg
termination_by parens text
decreasing_by exact parens_argument_lt (_parsed ▸ List.mem_cons_self) (by assumption)

/-- The conditions of a part, but those that are known to hold. -/
def conditions (dialect : Dialect) (known : Known) (part : Part) : Conditions :=
  dialect.conditionsWith known part fun arg _ => dialect.negand arg

theorem negand_eq (dialect : Dialect) (text : String) :
    dialect.negand text =
      match parse text with
      | [] => []
      | part :: _ => dialect.conditions { element := true } part := by
  rw [negand]
  split <;> next parsed => simp [parsed, conditions]

end Dialect

end TreeSelectors
