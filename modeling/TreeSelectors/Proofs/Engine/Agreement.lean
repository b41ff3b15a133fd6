import TreeSelectors.Proofs.Document.Selection
import TreeSelectors.Proofs.Engine.Interpreter
import TreeSelectors.Proofs.Engine.Runs
import TreeSelectors.Proofs.Selector.Completion

/-!
  A document that answers selectors itself answers as the interpreter does. What it understands in a
  part is what the part asks of a node (`accepts_iff_of_isPlain`), a chain that may start anywhere
  starts below the root, and the text it is asked has the parts of the group.
-/

namespace TreeSelectors

/-! ## Parts -/

theorem condition_of_isPlain {pseudo : Pseudo} (d : Document) (n : NodeId)
    (plain : pseudo.name = "first-child" ∨ pseudo.name = "last-child")
    (negand : (text : String) → pseudo.arg = some text → Conditions) :
    ∃ pseudoClass, Vocabulary.standard.find? pseudo.name = some (.standard pseudoClass) ∧
      (Dialect.condition pseudoClass pseudo.arg negand).accepts d n = d.passesPseudo n pseudo := by
  rcases plain with name | name
  · exact ⟨.firstChild, name ▸ Vocabulary.find?_standard .firstChild, by
      simp [Dialect.condition, Condition.accepts, Document.passesPseudo, name]⟩
  · exact ⟨.lastChild, name ▸ Vocabulary.find?_standard .lastChild, by
      simp [Dialect.condition, Condition.accepts, Document.passesPseudo, name]⟩

/-- The operators on which the interpreter and a document differ are not understood. -/
theorem passes_eq_passesAttr {test : AttrTest} (d : Document) (n : NodeId)
    (plain : test.op = .present ∨ test.op = .equals) : d.passes test n = d.passesAttr n test := by
  rcases plain with op | op <;> cases value : d.attr? n test.attr <;>
    simp [Document.passes, Document.passesAttr, AttrTest.accepts, op, value]

theorem all_attrs_of_isPlain {part : Part} (d : Document) (n : NodeId) (plain : part.IsPlain) :
    part.attrs.all (d.passes · n) = part.attrs.all (d.passesAttr n) := by
  rw [Bool.eq_iff_iff, List.all_eq_true, List.all_eq_true]
  exact forall₂_congr fun test member => by rw [passes_eq_passesAttr d n (plain.attrs test member)]

/-- The conditions for the pseudo-classes are those that a document puts on a node itself. -/
theorem all_pseudos_of_isPlain {part : Part} (d : Document) (n : NodeId) (plain : part.IsPlain)
    (negand : (text : String) → text ∈ part.arguments → Conditions) :
    (part.pseudos.attach.filterMap fun entry =>
      (Vocabulary.standard.find? entry.1.name).map fun factory =>
        (⟨.standard, false⟩ : Dialect).build factory entry.1.arg fun text present =>
          negand text (List.mem_filterMap.mpr ⟨entry.1, entry.2, present⟩)).all (·.accepts d n) =
      part.pseudos.all (d.passesPseudo n) := by
  rw [List.all_filterMap, Bool.eq_iff_iff, List.all_eq_true, List.all_eq_true]
  have one (pseudo : Pseudo) (member : pseudo ∈ part.pseudos) := condition_of_isPlain d n
    (plain.pseudos pseudo member).2 fun text present =>
      negand text (List.mem_filterMap.mpr ⟨pseudo, member, present⟩)
  constructor
  · intro all pseudo member
    obtain ⟨pseudoClass, found, same⟩ := one pseudo member
    have held := all ⟨pseudo, member⟩ (List.mem_attach _ _)
    rw [← same]
    simpa [found, Dialect.build] using held
  · rintro all ⟨pseudo, member⟩ -
    obtain ⟨pseudoClass, found, same⟩ := one pseudo member
    have held := all pseudo member
    rw [← same] at held
    simpa [found, Dialect.build] using held

/-- A plain part asks the same of a node when it is interpreted, where the id comes last, as when a
    document answers. -/
theorem accepts_iff_of_isPlain {d : Document} {part : Part} {n : NodeId} (plain : part.IsPlain) :
    (⟨.standard, false⟩ : Dialect).Accepts d part n ↔ d.isElement n = true ∧ d.Meets part n := by
  have same := all_pseudos_of_isPlain d n plain fun arg _ => Dialect.negand ⟨.standard, false⟩ arg
  have attrs := all_attrs_of_isPlain d n plain
  rw [← Document.satisfies_iff plain, Dialect.Accepts, Conditions.accepts_eq_all]
  simp only [Dialect.conditions, Dialect.conditionsWith, Bool.false_eq_true, if_false,
    List.all_append, all_tag, all_id, Bool.and_eq_true, Document.satisfies]
  simp only [List.all_cons, List.all_nil, List.all_map, Function.comp_def, Condition.accepts,
    Bool.and_true, attrs]
  constructor
  · rintro ⟨⟨⟨⟨⟨element, tag⟩, classes⟩, attrs⟩, pseudos⟩, id⟩
    exact ⟨⟨⟨⟨⟨element, tag⟩, id⟩, classes⟩, attrs⟩, same.symm.trans pseudos⟩
  · rintro ⟨⟨⟨⟨⟨element, tag⟩, id⟩, classes⟩, attrs⟩, pseudos⟩
    exact ⟨⟨⟨⟨⟨element, tag⟩, classes⟩, attrs⟩, same.trans pseudos⟩, id⟩

/-! ## Chains -/

theorem step_iff_of_isPlain {d : Document} {part : Part} (plain : part.IsPlain)
    (context n : NodeId) :
    d.Step ((⟨.standard, false⟩ : Dialect).Accepts d) part context n ↔
      d.Step d.Meets part context n := by
  simp only [Document.Step, accepts_iff_of_isPlain plain]
  tauto

/-- From the root, or for one part from anywhere, a chain is one that may start anywhere. The first
    step from the root asks only for an element. -/
theorem chain_iff_endsAnywhere {d : Document} {parts : List Part} {root n : NodeId}
    (absolute : parts.head?.any (·.operator = .descendant) = true)
    (plain : ∀ part ∈ parts, part.IsPlain)
    (within : parts.length = 1 ∨ root = Document.root) :
    Chain (d.Step ((⟨.standard, false⟩ : Dialect).Accepts d)) root parts n ↔
      d.isElement n = true ∧ d.isBelow n root = true ∧ d.EndsAnywhere d.Meets parts n := by
  rw [chain_congr fun part member => step_iff_of_isPlain (plain part member)]
  cases parts with
  | nil => simp at absolute
  | cons first rest =>
    have descends : first.operator = .descendant := by simpa using absolute
    constructor
    · rw [chain_cons]
      rintro ⟨start, ⟨element, below, met⟩, chain⟩
      rw [descends] at below
      have ends : d.EndsAnywhere d.Meets (first :: rest) n :=
        ⟨first, rest, start, rfl, element, met, chain⟩
      refine ⟨ends.isElement, ?_, ends⟩
      rcases within with one | rfl
      · obtain rfl : rest = [] := by simpa using one
        obtain rfl := chain_nil.mp chain
        exact below
      · exact Document.isBelow_root_of_isElement ends.isElement
    · rintro ⟨-, below, _, _, start, same, element, met, chain⟩
      obtain ⟨rfl, rfl⟩ := List.cons.inj same
      refine .cons ⟨element, ?_, met⟩ chain
      rw [descends]
      rcases within with one | rfl
      · obtain rfl : rest = [] := by simpa using one
        obtain rfl := chain_nil.mp chain
        exact below
      · exact Document.isBelow_root_of_isElement element

/-! ## Groups -/

/-- What a document finds for a group is what the chains for the group end at. -/
theorem Document.lists_elementsBySelector {d : Document} {group : String} {root : NodeId}
    {nodes : List NodeId} (known : IsGroup group.toList) (plain : ¬ EndsEscaped group)
    (absolute : (parse group).head?.any (·.operator = .descendant) = true)
    (within : (parse group).length = 1 ∨ root = Document.root)
    (found : d.elementsBySelector root (completeGroup group) = .ok nodes) :
    d.Lists nodes fun n => parse group ≠ [] ∧
      Chain (d.Step ((⟨.standard, false⟩ : Dialect).Accepts d)) root (parse group) n := by
  cases read : understood (completeGroup group) with
  | error refusal =>
    simp [elementsBySelector, groupsOf_completeGroup known, read, bind, Except.bind] at found
  | ok parts =>
    obtain ⟨wellFormed, supported⟩ := understood_eq_ok_iff.mp read
    have same := parse_completeGroup known plain wellFormed
    obtain ⟨first, rest, rfl, -, isPlain⟩ := unsupported?_eq_none_iff.mp supported
    rw [same] at absolute within ⊢
    have answered : nodes = (d.elementDescendants root).filter fun n =>
        d.endsChain (first :: rest).reverse n := by
      simpa [elementsBySelector, groupsOf_completeGroup known, read, bind, Except.bind, pure,
        Except.pure, eq_comm] using found
    rw [answered]
    refine ((lists_elementDescendants root).filter _).congr fun n => ?_
    rw [chain_iff_endsAnywhere absolute isPlain within, endsChain_iff_of_understood read,
      (parseWellFormed_eq_ok_iff.mp wellFormed).2]
    constructor
    · rintro ⟨⟨below, element⟩, ends⟩
      exact ⟨List.cons_ne_nil _ _, element, below, ends⟩
    · rintro ⟨-, element, below, ends⟩
      exact ⟨⟨below, element⟩, ends⟩

/-! ## Queries -/

theorem Retrieval.useClassLookup_of_byClasses {part : Part} {useClassLookup : Bool}
    {names : List String} (classes : ofPart part useClassLookup = .byClasses names) :
    useClassLookup = true := by
  cases useClassLookup with
  | true => rfl
  | false =>
    unfold ofPart at classes
    split at classes
    · cases classes
    · cases classes
    · cases classes
    · cases classes
    · simp only [Bool.false_and, Bool.false_eq_true, if_false] at classes
      split at classes <;> cases classes

/-- Nothing in a selector on which a document and the interpreter go different ways: an id that
    several elements carry, an escaped tag `*` and a group that ends in an escaped combinator. -/
structure Document.Agrees (d : Document) (useClassLookup : Bool) (selector : String) : Prop where
  ids : ∀ group ∈ groupsOf selector, ∀ part ∈ parse group, ∀ id,
    Retrieval.ofPart part useClassLookup = .byId id → d.IsUniqueId id
  tags : ∀ group ∈ groupsOf selector, ∀ part ∈ parse group,
    Retrieval.ofPart part useClassLookup ≠ .byTag ⟨"*"⟩
  ends : ∀ group ∈ groupsOf selector, ¬ EndsEscaped group

/-- An engine for a document that offers its lookups. -/
def Settings.ofDocument (d : Document) (config : Config) : Settings where
  config := config
  abilities := d.abilities

namespace Document

variable {d : Document} {config : Config} {selector : String}

theorem Agrees.isExact (agrees : d.Agrees (Settings.ofDocument d config).useClassLookup selector)
    (offers : d.offersLookups = true) (ignoresCase : config.exactTags = false) {group : String}
    (member : group ∈ groupsOf selector) {part : Part} (among : part ∈ parse group) :
    (Retrieval.ofPart part (Settings.ofDocument d config).useClassLookup).IsExact (d.host .full)
      config.exactTags := by
  cases same : Retrieval.ofPart part (Settings.ofDocument d config).useClassLookup with
  | byId id => exact Retrieval.isExact_byId (agrees.ids group member part among id same) .full _
  | byClasses names =>
    have used := Retrieval.useClassLookup_of_byClasses same
    simp only [Settings.useClassLookup, Settings.ofDocument, abilities, Bool.and_eq_true,
      Bool.not_eq_true'] at used
    exact Retrieval.isExact_byClasses offers used.2 names _
  | byTag name =>
    rw [ignoresCase]
    refine Retrieval.isExact_byTag offers ?_
    rintro rfl
    exact agrees.tags group member part among same
  | _ => trivial

/-- One group gives the same nodes either way. -/
theorem Agrees.elementsBySelector_eq
    (agrees : d.Agrees (Settings.ofDocument d config).useClassLookup selector)
    (offers : d.offersLookups = true)
    (askable : (Settings.ofDocument d config).isAskable selector = true) {group : String}
    (member : group ∈ groupsOf selector) {root : NodeId}
    (within : (parse group).length = 1 ∨ root = Document.root) {nodes : List NodeId}
    (found : d.elementsBySelector root (completeGroup group) = .ok nodes) :
    nodes = (d.host .full).runParts config.exactTags
      ((Settings.ofDocument d config).groupPlan group).parts root := by
  simp only [Settings.isAskable, Settings.asksHost, TreeSelectors.isAskable, Bool.and_eq_true,
    Bool.not_eq_true', List.all_map, List.all_eq_true, Function.comp_apply,
    isAskableGroup] at askable
  have ignoresCase : config.exactTags = false := askable.1.2
  have absolute := (askable.2.2 group member).1
  have dialect : (Settings.ofDocument d config).dialect = ⟨.standard, false⟩ := by
    rw [Settings.dialect, Settings.ofDocument, ignoresCase]
  have asked := lists_elementsBySelector (isGroup_of_mem_groupsOf member)
    (agrees.ends group member) absolute within found
  have exact (part : Part) (among : part ∈ parse group) :
      (Retrieval.ofPart part (Settings.ofDocument d config).useClassLookup).IsExact (d.host .full)
        (⟨.standard, false⟩ : Dialect).exactTags :=
    ignoresCase ▸ agrees.isExact offers ignoresCase member among
  have run := lists_runParts exact root
  rw [ignoresCase, Settings.groupPlan, dialect]
  exact asked.unique run

end Document

theorem Request.scopable_of_ask {host : Host} {request : Request} {root : NodeId}
    {nodes : List NodeId} (answered : request.ask host root = .ok nodes) :
    request.scopable = true ∨ root = Document.root := by
  unfold ask at answered
  split at answered
  · cases answered
  · next scope =>
    rw [Bool.and_eq_true, not_and_or] at scope
    exact scope.imp (by simp) (by simp)

section

variable {d : Document} {config : Config} {selector : String} {root : NodeId}

/-- The answer of a document to a request is what the interpreter finds. -/
theorem eq_interpret_of_ask
    (agrees : d.Agrees (Settings.ofDocument d config).useClassLookup selector)
    (offers : d.offersLookups = true)
    (askable : (Settings.ofDocument d config).isAskable selector = true) {nodes : List NodeId}
    (answered : ((Settings.ofDocument d config).selectorPlan selector).request.ask
      (d.host .full) root = .ok nodes) :
    nodes = (Settings.ofDocument d config).interpret (d.host .full)
      ((Settings.ofDocument d config).selectorPlan selector) root := by
  have within (group : String) (member : group ∈ groupsOf selector) :
      (parse group).length = 1 ∨ root = Document.root := by
    refine (Request.scopable_of_ask answered).imp_left fun scopable => ?_
    have single : ∀ group ∈ groupsOf selector, (parse group).length = 1 := by
      simpa [SelectorPlan.request, Settings.selectorPlan, Request.ofGroups, Settings.groupPlan]
        using scopable
    exact single group member
  obtain ⟨lookups, offered, found, rfl, each⟩ :=
    Request.eq_distinct_of_ask (Document.selectsBelow_host d .full) answered
  have same : lookups = d.lookups := by
    simpa [Document.host, offers, eq_comm] using offered
  rw [Settings.groups_request] at each ⊢
  rw [Settings.interpret_eq_distinct _ (Document.isOrdered_host d .full), List.flatMap_map]
  refine congrArg distinct (List.flatMap_congr fun group member => ?_)
  have answer := each _ (List.mem_map_of_mem member)
  rw [same] at answer
  exact agrees.elementsBySelector_eq offers askable member (within group member) answer

/-- Without asking, the nodes are what the interpreter finds. -/
theorem nodes_answer_of_not_asking (host : Host) :
    ((Settings.ofDocument d { config with askHost := false }).answer host selector root).nodes =
      (Settings.ofDocument d config).interpret host
        ((Settings.ofDocument d config).selectorPlan selector) root := by
  rfl

theorem nodes_answer_of_agrees (offers : d.offersLookups = true)
    (agrees : ((Settings.ofDocument d config).answer (d.host .full) selector root).route = .host →
      d.Agrees (Settings.ofDocument d config).useClassLookup selector) :
    ((Settings.ofDocument d config).answer (d.host .full) selector root).nodes =
      (Settings.ofDocument d config).interpret (d.host .full)
        ((Settings.ofDocument d config).selectorPlan selector) root := by
  unfold Settings.answer at agrees ⊢
  simp only at agrees ⊢
  split at agrees
  · next askable =>
    rw [if_pos askable]
    cases answered : ((Settings.ofDocument d config).selectorPlan selector).request.ask
        (d.host .full) root with
    | ok nodes =>
      rw [answered] at agrees
      exact eq_interpret_of_ask (agrees rfl) offers askable answered
    | error refusal => rfl
  · next refused => rw [if_neg refused]

theorem nodes_answer_askHost (offers : d.offersLookups = true)
    (agrees : ((Settings.ofDocument d { config with askHost := true }).answer (d.host .full)
      selector root).route = .host → d.Agrees (Settings.ofDocument d config).useClassLookup selector) :
    ((Settings.ofDocument d { config with askHost := true }).answer (d.host .full) selector
        root).nodes =
      ((Settings.ofDocument d { config with askHost := false }).answer (d.host .full) selector
        root).nodes :=
  (nodes_answer_of_agrees offers agrees).trans (nodes_answer_of_not_asking (d.host .full)).symm

end

/-- An engine for a document knows what the lookups of that document can do. -/
theorem Engine.ofHost_document {d : Document} (offers : d.offersLookups = true) (config : Config) :
    ofHost config (d.host .full) = { settings := Settings.ofDocument d config } := by
  have abilities : (d.host .full).abilities = d.abilities := by
    simp [Document.host, offers, Host.abilities, Document.lookups]
  rw [ofHost, abilities, Settings.ofDocument]

/-- An engine that asks a document gives the nodes that one gives that does not. -/
theorem Engine.query_askHost {d : Document} (offers : d.offersLookups = true) (config : Config)
    (history history' : List (Host × Call)) {selector : String} (root : NodeId)
    (agrees : ∀ nodes, (((ofHost { config with askHost := true } (d.host .full)).after history).call
        (d.host .full) (.query selector root)).1 = .answer ⟨nodes, .host⟩ →
      d.Agrees (ofHost config (d.host .full)).settings.useClassLookup selector) :
    ∃ nodes route route',
      (((ofHost { config with askHost := true } (d.host .full)).after history).call
        (d.host .full) (.query selector root)).1 = .answer ⟨nodes, route⟩ ∧
      (((ofHost { config with askHost := false } (d.host .full)).after history').call
        (d.host .full) (.query selector root)).1 = .answer ⟨nodes, route'⟩ := by
  simp only [ofHost_document offers, reply_after] at agrees ⊢
  refine ⟨((Settings.ofDocument d { config with askHost := true }).answer (d.host .full) selector
    root).nodes, _, ((Settings.ofDocument d { config with askHost := false }).answer
      (d.host .full) selector root).route, rfl, ?_⟩
  rw [nodes_answer_askHost offers fun answered => agrees _ (by rw [← answered]; rfl)]
  rfl

/-- The document answers two groups, one of which the interpreter looks up by class. -/
theorem Engine.query_askHost_list :
    let d := Document.ofEdits [.element 0 "ul" [], .element 1 "li" [("id", "a")],
      .element 1 "li" [], .element 1 "LI" [("class", "b")]]
    let asking := ofHost { askHost := true } (d.host .full)
    let interpreting := ofHost { askHost := false } (d.host .full)
    let query := Call.query "#a + *, .b" 0
    (asking.call (d.host .full) query).1 = .answer ⟨[3, 4], .host⟩ ∧
      (interpreting.call (d.host .full) query).1 = .answer ⟨[3, 4], .interpreted⟩ := by
  intro d asking interpreting query
  have offers : d.offersLookups = true := by decide +kernel
  have distinct : d.HasDistinctIds := by decide +kernel
  have agrees : d.Agrees asking.settings.useClassLookup "#a + *, .b" :=
    { ids := fun _ _ _ _ id _ => distinct id
      tags := by decide +kernel
      ends := by decide +kernel }
  have found : (asking.call (d.host .full) query).1 = .answer ⟨[3, 4], .host⟩ :=
    (reply_after _ [] _ _).trans (by decide +kernel)
  have interpreted : (interpreting.settings.answer (d.host .full) "#a + *, .b" 0).route =
      .interpreted := by decide +kernel
  obtain ⟨nodes, route, route', answer, answer'⟩ :=
    query_askHost offers {} [] [] 0 fun _ _ => agrees
  obtain ⟨rfl, rfl⟩ := Answer.mk.inj (Reply.answer.inj (answer.symm.trans found))
  have same := Reply.answer.inj (answer'.symm.trans (reply_after _ [] _ _))
  obtain rfl : route' = .interpreted := (congrArg Answer.route same).trans interpreted
  exact ⟨found, answer'⟩

/-- The document finds every holder of an id, the interpreter the first one. -/
theorem Engine.query_repeated_id :
    let d := Document.ofEdits [.element 0 "a" [("id", "x")], .element 0 "b" [("id", "x")]]
    let query := Call.query "#x, c" 0
    d.offersLookups = true ∧
      ((ofHost { askHost := true } (d.host .full)).call (d.host .full) query).1 =
        .answer ⟨[1, 2], .host⟩ ∧
      ((ofHost { askHost := false } (d.host .full)).call (d.host .full) query).1 =
        .answer ⟨[1], .interpreted⟩ := by
  intro d query
  rw [Document.host_full]
  refine ⟨by decide +kernel, (reply_after _ [] _ _).trans ?_, (reply_after _ [] _ _).trans ?_⟩
  · decide +kernel
  · decide +kernel

end TreeSelectors
