import TreeSelectors.Proofs.Selector.Writing

/-!
  Parts read back from their canonical text. The canonical text of a part is a row of tokens
  (`Part.write_eq`); a draft takes the row in without a complaint and ends up as the part
  (`Draft.takes_row`). Every part of a parsed selector consists of writable tokens
  (`isWritable_of_mem_parse`), however malformed the selector was. Main statement:
  `parseWellFormed_intercalate_canonical`.
-/

namespace TreeSelectors

/-! ## The tokens of a part -/

theorem Token.isNameless_eq_false {token : Token} (writable : token.IsWritable) :
    token.isNameless = false := by
  cases token with
  | attr test => simpa [isNameless] using writable.1
  | pseudo named => simpa [isNameless] using writable.named
  | _ => simp_all [IsWritable, isNameless]

namespace Part

/-- Class, attribute and pseudo-class tokens. -/
def testTokens (part : Part) : List Token :=
  part.classes.map .className ++ (part.attrs.map .attr ++ part.pseudos.map .pseudo)

def components (part : Part) : List Token :=
  part.tag.toList.map (Token.tag ·.written) ++ (part.id.toList.map .id ++ part.testTokens)

/-- A part that asks for nothing is written as `*`. -/
def body (part : Part) : List Token :=
  if part.components = [] then [.universal] else part.components

def lead (operator : Combinator) : List Token :=
  if operator = .descendant then [] else [.combinator operator, .blank]

def row (part : Part) : List Token := lead part.operator ++ part.body

def IsWritable (part : Part) : Prop := ∀ token ∈ part.components, token.IsWritable

theorem writeConditions_eq (part : Part) :
    part.writeConditions = part.components.flatMap Token.write := by
  obtain ⟨tag, id, classes, attrs, pseudos, operator⟩ := part
  cases tag <;> cases id <;>
    simp [writeConditions, components, testTokens, Token.write, List.flatMap_map]

theorem write_eq_nil_of_isWritable {token : Token} (writable : token.IsWritable) :
    token.write ≠ [] := by
  have stops : ∀ c ∈ ([] : List Char).head?, token.StopsAt c := by simp
  obtain ⟨c, text, first, -⟩ := readLexeme_write writable stops
  rw [List.append_nil] at first
  simp [first]

theorem write_eq {part : Part} (writable : part.IsWritable) :
    part.write = part.row.flatMap Token.write := by
  have leading : part.operator.write = (lead part.operator).flatMap Token.write := by
    cases part.operator <;> rfl
  have conditions : (if part.writeConditions = [] then ['*'] else part.writeConditions) =
      part.body.flatMap Token.write := by
    rw [writeConditions_eq, body]
    cases same : part.components with
    | nil => rfl
    | cons token tokens =>
      have written := write_eq_nil_of_isWritable (writable token (by simp [same]))
      simp [written]
  rw [write, row, List.flatMap_append, leading, conditions]

theorem isWritable_row {part : Part} (writable : part.IsWritable) :
    ∀ token ∈ part.row, token.IsWritable := by
  intro token member
  rcases List.mem_append.mp member with leading | rest
  · unfold lead at leading
    split at leading
    · simp at leading
    · next other =>
      simp only [List.mem_cons, List.not_mem_nil, or_false] at leading
      rcases leading with rfl | rfl
      · exact other
      · trivial
  · unfold body at rest
    split at rest
    · rw [List.mem_singleton.mp rest]
      trivial
    · exact writable token rest

theorem body_ne_blank {part : Part} {token : Token} (member : token ∈ part.body) :
    token ≠ .blank := by
  unfold body at member
  split at member
  · simp_all
  · simp only [components, testTokens, List.mem_append, List.mem_map] at member
    rcases member with ⟨_, _, rfl⟩ | ⟨_, _, rfl⟩ | ⟨_, _, rfl⟩ | ⟨_, _, rfl⟩ | ⟨_, _, rfl⟩ <;>
      exact Token.noConfusion

/-- Only the first token of a body can be a tag. -/
theorem isChain_body (part : Part) : (.blank :: part.body).IsChain Token.Precedes := by
  have inner (before : Token) (row : List Token)
      (plain : ∀ after ∈ row, ∀ other : Token, other.Precedes after) :
      (before :: row).IsChain Token.Precedes := by
    induction row generalizing before with
    | nil => exact .singleton before
    | cons after row ih =>
      exact .cons_cons (plain after (.head _) before)
        (ih after fun token later => plain token (.tail _ later))
  have tests : ∀ after ∈ part.id.toList.map .id ++ part.testTokens, ∀ other : Token,
      other.Precedes after := by
    intro after member other
    simp only [testTokens, List.mem_append, List.mem_map] at member
    rcases member with ⟨_, _, rfl⟩ | ⟨_, _, rfl⟩ | ⟨_, _, rfl⟩ | ⟨_, _, rfl⟩ <;> trivial
  unfold body
  split
  · exact .cons_cons trivial (.singleton _)
  · rw [components]
    cases part.tag with
    | none => exact inner .blank _ tests
    | some name => exact .cons_cons rfl (inner (.tag name.written) _ tests)

theorem isChain_row (part : Part) : (.blank :: part.row).IsChain Token.Precedes := by
  unfold row lead
  split
  · exact isChain_body part
  · exact .cons_cons trivial (.cons_cons Token.noConfusion (isChain_body part))

theorem body_ne_nil (part : Part) : part.body ≠ [] := by
  unfold body
  split
  · exact List.cons_ne_nil _ _
  · assumption

/-- A blank can be written after a row. -/
theorem getLast?_row_ne_blank (part : Part) :
    ∀ token ∈ (Token.blank :: part.row).getLast?, token ≠ .blank := by
  intro token last
  rw [row, ← List.cons_append, List.getLast?_append_of_ne_nil _ part.body_ne_nil] at last
  exact body_ne_blank (List.mem_of_getLast? last)

end Part

/-! ## Reading a row -/

/-- Neither completes a part nor is stray. -/
def Token.isComponent : Token → Bool
  | .blank | .combinator _ | .stray => false
  | _ => true

namespace Draft

/-- Reading a row of tokens nobody complains about: the parts it completes and the draft after
    it. -/
inductive Takes : Draft → List Token → List Part → Draft → Prop
  | nil {draft : Draft} : Takes draft [] [] draft
  | cons {draft final : Draft} {token : Token} {row : List Token} {built : List Part} :
      draft.complaint? token = none → Takes (draft.step token).2 row built final →
      Takes draft (token :: row) ((draft.step token).1.toList ++ built) final

theorem Takes.append {draft middle final : Draft} {row more : List Token}
    {built others : List Part} (first : Takes draft row built middle)
    (second : Takes middle more others final) :
    Takes draft (row ++ more) (built ++ others) final := by
  induction first with
  | nil => exact second
  | cons quiet _ ih =>
    rw [List.append_assoc]
    exact .cons quiet (ih second)

theorem Takes.parts {draft final : Draft} {row : List Token} {built : List Part}
    (takes : Takes draft row built final) : draft.parts row = built ++ final.parts [] := by
  induction takes with
  | nil => rfl
  | @cons draft final token row built _ _ ih =>
    show (draft.step token).1.toList ++ (draft.step token).2.parts row = _
    rw [ih, List.append_assoc]

/-- Rows that always build the same do so after any other row. -/
theorem parts_append_congr {one two : List Token}
    (same : ∀ draft : Draft, draft.parts one = draft.parts two) (draft : Draft)
    (row : List Token) : draft.parts (row ++ one) = draft.parts (row ++ two) := by
  induction row generalizing draft with
  | nil => exact same draft
  | cons token row ih => simp only [List.cons_append, parts, ih]

theorem Takes.faults {draft final : Draft} {built : List Part} {lexemes : List Lexeme}
    (takes : Takes draft (lexemes.map Lexeme.token) built final)
    (clean : ∀ lexeme ∈ lexemes, lexeme.faults = []) : draft.faults lexemes = [] := by
  induction lexemes generalizing draft built with
  | nil => rfl
  | cons lexeme lexemes ih =>
    cases takes with
    | cons quiet later =>
      have rest := ih later fun other member => clean other (.tail _ member)
      simp [Draft.faults, quiet, clean lexeme (.head _), rest]

theorem takes_lead (operator : Combinator) :
    Takes {} (Part.lead operator) [] { part.operator := operator } := by
  cases operator with
  | descendant => exact .nil
  | _ => exact .cons rfl (.cons rfl .nil)

theorem step_of_isComponent {token : Token} (kind : token.isComponent = true)
    (named : token.isNameless = false) (draft : Draft) :
    draft.step token = (none, draft.add token) := by
  cases token with
  | blank => exact absurd kind Bool.noConfusion
  | combinator => exact absurd kind Bool.noConfusion
  | _ => simp [step, named]

theorem takes_component {token : Token} {draft : Draft} (kind : token.isComponent = true)
    (named : token.isNameless = false) (quiet : draft.complaint? token = none) :
    Takes draft [token] [] (draft.add token) := by
  have stepped := step_of_isComponent kind named draft
  have taken : Takes (draft.step token).2 [] [] (draft.add token) := by
    rw [stepped]
    exact .nil
  simpa [stepped] using Takes.cons quiet taken

/-- No draft complains about a class, an attribute test or a pseudo-class. -/
theorem takes_tests {part : Part} (named : ∀ token ∈ part.testTokens, token.isNameless = false)
    (draft : Draft) : Takes draft part.testTokens [] (part.testTokens.foldl add draft) := by
  have quiet : ∀ token ∈ part.testTokens, token.isComponent = true ∧
      ∀ draft : Draft, draft.complaint? token = none := by
    intro token member
    simp only [Part.testTokens, List.mem_append, List.mem_map] at member
    rcases member with ⟨_, _, rfl⟩ | ⟨_, _, rfl⟩ | ⟨_, _, rfl⟩ <;> exact ⟨rfl, fun _ => rfl⟩
  generalize part.testTokens = tests at named quiet
  induction tests generalizing draft with
  | nil => exact .nil
  | cons token tests ih =>
    obtain ⟨kind, calm⟩ := quiet token (.head _)
    have first := takes_component kind (named token (.head _)) (calm draft)
    exact first.append (ih _ (fun other later => named other (.tail _ later))
      fun other later => quiet other (.tail _ later))

theorem foldl_add_classes (draft : Draft) (names : List String) :
    (names.map Token.className).foldl add draft =
      { draft with part.classes := draft.part.classes ++ names } := by
  induction names generalizing draft with
  | nil => simp
  | cons name names ih => simp [ih, add]

theorem foldl_add_attrs (draft : Draft) (tests : List AttrTest) :
    (tests.map Token.attr).foldl add draft =
      { draft with part.attrs := draft.part.attrs ++ tests } := by
  induction tests generalizing draft with
  | nil => simp
  | cons test tests ih => simp [ih, add]

theorem foldl_add_pseudos (draft : Draft) (pseudos : List Pseudo) :
    (pseudos.map Token.pseudo).foldl add draft =
      { draft with part.pseudos := draft.part.pseudos ++ pseudos } := by
  induction pseudos generalizing draft with
  | nil => simp
  | cons pseudo pseudos ih => simp [ih, add]

theorem foldl_add_testTokens (part : Part) (tag : Option TagName) (id : Option String) :
    part.testTokens.foldl add { part := { tag, id, operator := part.operator } } =
      { part := { part with tag, id } } := by
  rw [Part.testTokens, List.foldl_append, List.foldl_append, foldl_add_classes, foldl_add_attrs,
    foldl_add_pseudos]
  simp

theorem takes_components {part : Part} (named : ∀ token ∈ part.components,
    token.isNameless = false) :
    Takes { part.operator := part.operator } part.components [] { part } := by
  have tag : Takes { part.operator := part.operator } (part.tag.toList.map (Token.tag ·.written)) []
      { part.tag := part.tag, part.operator := part.operator } := by
    cases tag : part.tag with
    | none => exact .nil
    | some name =>
      have ok := named (.tag name.written) (by simp [Part.components, tag])
      exact takes_component rfl ok (by simp [complaint?, isEmpty, Part.anyTag, Part.hasTests])
  have id : Takes { part.tag := part.tag, part.operator := part.operator }
      (part.id.toList.map .id) []
      { part.tag := part.tag, part.id := part.id, part.operator := part.operator } := by
    cases id : part.id with
    | none => exact .nil
    | some name =>
      have ok := named (.id name) (by simp [Part.components, id])
      exact takes_component rfl ok (by simp [complaint?])
  have named' : ∀ token ∈ part.testTokens, token.isNameless = false :=
    fun token member => named token (by simp [Part.components, member])
  have tests := takes_tests named'
    { part := { tag := part.tag, id := part.id, operator := part.operator } }
  rw [foldl_add_testTokens] at tests
  exact tag.append (id.append tests)

theorem isEmpty_eq_false {part : Part} (some : part.components ≠ []) (starred : Bool) :
    Draft.isEmpty { part, starred } = false := by
  by_contra empty
  rw [Bool.not_eq_false] at empty
  obtain ⟨tag, id, classes, attrs, pseudos, operator⟩ := part
  simp [isEmpty, Part.anyTag, Part.hasTests] at empty
  simp [Part.components, Part.testTokens, empty] at some

/-- A row builds its part. -/
theorem takes_row {part : Part} (named : ∀ token ∈ part.components, token.isNameless = false) :
    ∃ starred, Takes {} part.row [] { part, starred } ∧ Draft.isEmpty { part, starred } = false := by
  have lead := takes_lead part.operator
  unfold Part.row Part.body
  split
  · next bare =>
    refine ⟨true, lead.append ?_, rfl⟩
    have star : Takes { part.operator := part.operator } [.universal] []
        { part.operator := part.operator, starred := true } :=
      takes_component rfl rfl (by simp [complaint?, isEmpty, Part.anyTag, Part.hasTests])
    obtain ⟨tag, id, classes, attrs, pseudos, operator⟩ := part
    simp only [Part.components, Part.testTokens, List.append_eq_nil_iff, List.map_eq_nil_iff,
      Option.toList_eq_nil_iff] at bare
    obtain ⟨rfl, rfl, rfl, rfl, rfl⟩ := bare
    exact star
  · next some => exact ⟨false, lead.append (takes_components named), isEmpty_eq_false some false⟩

end Draft

/-! ## Rows joined by blanks -/

def rowsOf : List Part → List Token
  | [] => []
  | [part] => part.row
  | part :: parts => part.row ++ .blank :: rowsOf parts

theorem toList_intercalate_canonical {parts : List Part}
    (writable : ∀ part ∈ parts, part.IsWritable) :
    (" ".intercalate (parts.map Part.canonical)).toList = (rowsOf parts).flatMap Token.write := by
  fun_induction rowsOf parts with
  | case1 => rfl
  | case2 part => simp [Part.canonical, Part.write_eq (writable part (.head _))]
  | case3 part parts several ih =>
    cases parts with
    | nil => exact absurd rfl several
    | cons next parts =>
      have rest := ih fun other later => writable other (.tail _ later)
      rw [List.map_cons] at rest
      rw [List.map_cons, List.map_cons, String.intercalate_cons_cons, String.toList_append, rest]
      simp [Part.canonical, Part.write_eq (writable part (.head _)), Token.write]

theorem isWritable_rowsOf {parts : List Part} (writable : ∀ part ∈ parts, part.IsWritable) :
    ∀ token ∈ rowsOf parts, token.IsWritable := by
  fun_induction rowsOf parts with
  | case1 => simp
  | case2 part => exact Part.isWritable_row (writable part (.head _))
  | case3 part parts _ ih =>
    intro token member
    rcases List.mem_append.mp member with here | later
    · exact Part.isWritable_row (writable part (.head _)) token here
    · rcases List.mem_cons.mp later with rfl | later
      · trivial
      · exact ih (fun other among => writable other (.tail _ among)) token later

theorem isChain_rowsOf (parts : List Part) :
    (.blank :: rowsOf parts).IsChain Token.Precedes := by
  fun_induction rowsOf parts with
  | case1 => exact .singleton _
  | case2 part => exact part.isChain_row
  | case3 part parts _ ih =>
    rw [← List.cons_append]
    refine List.isChain_append.mpr ⟨part.isChain_row, ih, ?_⟩
    intro token last next first
    obtain rfl := Option.some.inj first
    exact part.getLast?_row_ne_blank token last

/-- The rows build the parts. The blank after a row completes the part that the draft holds. -/
theorem takes_rowsOf {parts : List Part} (writable : ∀ part ∈ parts, part.IsWritable) :
    ∃ built final, Draft.Takes {} (rowsOf parts) built final ∧
      built ++ final.parts [] = parts := by
  have named (part : Part) (member : part ∈ parts) :
      ∀ token ∈ part.components, token.isNameless = false :=
    fun token among => Token.isNameless_eq_false (writable part member token among)
  clear writable
  fun_induction rowsOf parts with
  | case1 => exact ⟨[], {}, .nil, rfl⟩
  | case2 part =>
    obtain ⟨starred, takes, full⟩ := Draft.takes_row (named part (.head _))
    exact ⟨[], _, takes, by simp [Draft.parts, full]⟩
  | case3 part parts _ ih =>
    obtain ⟨starred, takes, full⟩ := Draft.takes_row (named part (.head _))
    obtain ⟨built, final, rest, whole⟩ := ih fun other later => named other (.tail _ later)
    have stepped : Draft.step { part, starred } .blank = (some part, {}) := by simp [Draft.step, full]
    have blank : Draft.Takes { part, starred } (.blank :: rowsOf parts) (part :: built) final := by
      have taken : Draft.Takes (Draft.step { part, starred } .blank).2 (rowsOf parts) built final := by
        rw [stepped]
        exact rest
      simpa [stepped] using Draft.Takes.cons rfl taken
    exact ⟨part :: built, final, takes.append blank, by rw [List.cons_append, whole]⟩

theorem parseWellFormed_eq_ok_iff {selector : String} {parts : List Part} :
    parseWellFormed selector = .ok parts ↔ flaws selector = [] ∧ parse selector = parts := by
  unfold parseWellFormed
  cases flaws selector <;> simp

theorem parseWellFormed_join (parts : List Part) (writable : ∀ part ∈ parts, part.IsWritable) :
    parseWellFormed (" ".intercalate (parts.map Part.canonical)) = .ok parts := by
  obtain ⟨built, final, takes, whole⟩ := takes_rowsOf writable
  have chain := (isChain_rowsOf parts).tail
  obtain ⟨read, clean⟩ := reads_write (isWritable_rowsOf writable) chain
  rw [← toList_intercalate_canonical writable] at read clean
  generalize " ".intercalate (parts.map Part.canonical) = text at read clean
  have sound : flaws text = [] := by
    rw [flaws, Draft.Takes.faults (read.symm ▸ takes) clean]
    rfl
  have built : parse text = parts := by
    rw [parse, tokens, read, takes.parts, whole]
  exact parseWellFormed_eq_ok_iff.mpr ⟨sound, built⟩

/-! ## Parsed parts are writable -/

namespace Draft

theorem mem_components_add {draft : Draft} {token added : Token}
    (member : token ∈ (draft.add added).part.components) :
    token ∈ draft.part.components ∨ token = added := by
  cases added with
  | tag name =>
    cases same : draft.part.tag with
    | none =>
      simp_all [add, Part.components, Part.testTokens]
      grind
    | some first =>
      simp_all [add, Part.components, Part.testTokens]
  | _ =>
    simp_all [add, Part.components, Part.testTokens] <;> grind

theorem mem_components_step {draft : Draft} {token read : Token}
    (member : token ∈ (draft.step read).2.part.components) :
    token ∈ draft.part.components ∨ (token = read ∧ read.isNameless = false) := by
  unfold step at member
  split at member
  · split at member
    · exact .inl member
    · simp [Part.components, Part.testTokens] at member
  · simp [Part.components, Part.testTokens] at member
  · cases named : read.isNameless with
    | true => exact .inl (by simpa [named] using member)
    | false =>
      rcases mem_components_add (by simpa [named] using member) with before | here
      · exact .inl before
      · exact .inr ⟨here, rfl⟩

theorem mem_components_parts {draft : Draft} {tokens : List Token} {part : Part} {token : Token}
    (built : part ∈ draft.parts tokens) (member : token ∈ part.components) :
    token ∈ draft.part.components ∨ (token ∈ tokens ∧ token.isNameless = false) := by
  induction tokens generalizing draft with
  | nil =>
    unfold parts at built
    split at built
    · simp at built
    · exact .inl (List.mem_singleton.mp built ▸ member)
  | cons read tokens ih =>
    simp only [parts, List.mem_append, Option.mem_toList] at built
    rcases built with now | later
    · exact .inl (step_completes now ▸ member)
    · rcases ih later with held | ⟨found, named⟩
      · rcases mem_components_step held with before | ⟨rfl, named⟩
        · exact .inl before
        · exact .inr ⟨.head _, named⟩
      · exact .inr ⟨.tail _ found, named⟩

end Draft

/-- Whatever the selector was, its parts have canonical texts without flaws. -/
theorem isWritable_of_mem_parse {selector : String} {part : Part} (parsed : part ∈ parse selector) :
    part.IsWritable := by
  intro token member
  rcases Draft.mem_components_parts parsed member with held | ⟨read, named⟩
  · simp [Part.components, Part.testTokens] at held
  · refine isWritable_of_mem_tokens read named ?_
    rintro rfl
    simp [Part.components, Part.testTokens] at member

/-- Reading back is a left inverse of writing. -/
theorem eq_of_canonical_eq {part other : Part} (writable : part.IsWritable)
    (also : other.IsWritable) (same : part.canonical = other.canonical) : part = other := by
  have first := parseWellFormed_join [part] (by simpa using writable)
  have second := parseWellFormed_join [other] (by simpa using also)
  simp only [List.map_cons, List.map_nil, same] at first second
  simpa using first.symm.trans second

/-- Neighbouring parts of a selector, each in its canonical text, read back without a flaw as those
    parts. In particular the canonical text of one part does, so that no two parts share it. -/
theorem parseWellFormed_intercalate_canonical (selector : String) :
    (∀ run, run <:+: parse selector →
      parseWellFormed (" ".intercalate (run.map Part.canonical)) = .ok run) ∧
    (∀ part ∈ parse selector, parseWellFormed part.canonical = .ok [part]) ∧
    ∀ another : String, ∀ part ∈ parse selector, ∀ other ∈ parse another,
      part.canonical = other.canonical → part = other := by
  refine ⟨fun run among => ?_, fun part parsed => ?_, fun another part parsed other also same => ?_⟩
  · exact parseWellFormed_join run fun part member => isWritable_of_mem_parse (among.subset member)
  · have alone := parseWellFormed_join [part] (by simpa using isWritable_of_mem_parse parsed)
    simpa using alone
  · exact eq_of_canonical_eq (isWritable_of_mem_parse parsed) (isWritable_of_mem_parse also) same

/-- An argument cut off inside brackets is closed and reads back. -/
theorem parseWellFormed_canonical_of_cut_argument :
    let parts : List Part := [{ tag := some ⟨"li"⟩ },
      { classes := ["x"], pseudos := [⟨"not", some "[a b]"⟩], operator := .child }]
    parse "li >.x:not([a b" = parts ∧ parseWellFormed "li > .x:not([a b])" = .ok parts := by
  intro parts
  have read : parse "li >.x:not([a b" = parts := by decide +kernel
  have written : " ".intercalate (parts.map Part.canonical) = "li > .x:not([a b])" := by
    decide +kernel
  have back := (parseWellFormed_intercalate_canonical "li >.x:not([a b").1 parts
    (read ▸ List.infix_refl parts)
  exact ⟨read, written ▸ back⟩

end TreeSelectors
