import TreeSelectors.Proofs.Selector.Ends
import TreeSelectors.Proofs.Selector.RoundTrip
import TreeSelectors.Query.Run
import TreeSelectors.Selector.Parse

/-!
  A group that ends in a combinator is asked with an explicit `*` after it. If the completed text is
  well formed and no backslash makes the combinator part of a name, it has the same parts as the
  group: what comes before the combinator is read the same before either end. Main statement:
  `parse_completeGroup`.
-/

namespace TreeSelectors

/-! ## Groups -/

theorem head?_trim (text : List Char) :
    ∀ c ∈ (Text.trim text).head?, Text.isWhite c = false := by
  intro c member
  obtain ⟨tail, whole⟩ := Text.trimEnd_prefix (Text.trimStart text)
  refine head?_trimStart text c ?_
  rw [Text.trim] at member
  rw [← whole, List.head?_append, member]
  rfl

theorem trim_trim (text : List Char) : Text.trim (Text.trim text) = Text.trim text := by
  have last := getLast?_trimEnd (Text.trimStart text)
  rw [Text.trim, trimStart_eq_self (head?_trim text), Text.trim, trimEnd_eq_self last]

theorem not_mem_of_mem_splitOn {separator : Char} {text piece : List Char}
    (member : piece ∈ text.splitOn separator) : separator ∉ piece := by
  induction text generalizing piece with
  | nil => simp_all
  | cons c text ih =>
    rw [List.splitOn_cons_eq_if_modifyHead] at member
    split at member
    · rcases List.mem_cons.mp member with rfl | later
      · exact List.not_mem_nil
      · exact ih later
    · next other =>
      cases pieces : text.splitOn separator with
      | nil => simp [pieces] at member
      | cons first rest =>
        rw [pieces, List.modifyHead_cons] at member
        rcases List.mem_cons.mp member with rfl | later
        · have apart := ih (pieces ▸ List.mem_cons_self)
          intro within
          rcases List.mem_cons.mp within with rfl | within
          · exact other (beq_self_eq_true _)
          · exact apart within
        · exact ih (pieces ▸ List.mem_cons_of_mem first later)

/-- What groups are: trimmed, not empty and without a comma. -/
structure IsGroup (text : List Char) : Prop where
  comma : ',' ∉ text
  trimmed : Text.trim text = text
  nonempty : text ≠ []

theorem isGroup_of_mem_groupsOf {selector group : String} (member : group ∈ groupsOf selector) :
    IsGroup group.toList := by
  simp only [groupsOf, List.mem_map, List.mem_filter, decide_eq_true_eq] at member
  obtain ⟨_, ⟨⟨piece, among, rfl⟩, nonempty⟩, rfl⟩ := member
  rw [String.toList_ofList]
  refine ⟨fun comma => ?_, trim_trim piece, nonempty⟩
  have within : Text.trim piece ⊆ piece :=
    List.Subset.trans (Text.trimEnd_prefix _).subset (Text.trimStart_suffix piece).subset
  exact not_mem_of_mem_splitOn among (within comma)

theorem IsGroup.groupsOf_eq {text : List Char} (group : IsGroup text) :
    groupsOf (String.ofList text) = [String.ofList text] := by
  simp [groupsOf, List.splitOn_eq_singleton group.comma, group.trimmed, group.nonempty]

/-! ## Symbols -/

def IsSymbol (c : Char) : Prop := c = '>' ∨ c = '+' ∨ c = '~'

instance (c : Char) : Decidable (IsSymbol c) := inferInstanceAs (Decidable (_ ∨ _))

def long (c : Char) : List Char := [c, ' ', '*']

def operatorOf (c : Char) : Combinator :=
  if c = '>' then .child else if c = '+' then .nextSibling else .followingSiblings

variable {c : Char}

theorem IsSymbol.isBlank (symbol : IsSymbol c) : Text.isBlank c = false := by
  rcases symbol with rfl | rfl | rfl <;> rfl

theorem IsSymbol.ne_backslash (symbol : IsSymbol c) : c ≠ '\\' := by
  rcases symbol with rfl | rfl | rfl <;> decide

theorem IsSymbol.isEnd (symbol : IsSymbol c) : IsEnd [c] := by
  rcases symbol with rfl | rfl | rfl <;> exact ⟨by simp [isNameChar]; decide, by decide, by decide⟩

theorem IsSymbol.isEnd_long (symbol : IsSymbol c) : IsEnd (long c) := by
  rcases symbol with rfl | rfl | rfl <;>
    exact ⟨by simp [long, isNameChar]; decide, by decide, by decide⟩

theorem IsSymbol.lexemes_eq (symbol : IsSymbol c) :
    (lexemes [c]).map Lexeme.token = [.combinator (operatorOf c)] := by
  rcases symbol with rfl | rfl | rfl <;> decide +kernel

theorem IsSymbol.lexemes_long (symbol : IsSymbol c) :
    (lexemes (long c)).map Lexeme.token = [.combinator (operatorOf c), .blank, .universal] ∧
      ∀ lexeme ∈ lexemes (long c), lexeme.faults = [] := by
  rcases symbol with rfl | rfl | rfl <;> decide +kernel

/-- A combinator at the end has the same part with a `*` and without. -/
theorem parts_star (symbol : IsSymbol c) (draft : Draft) (row : List Token) :
    draft.parts (row ++ [.combinator (operatorOf c), .blank, .universal]) =
      draft.parts (row ++ [.combinator (operatorOf c)]) := by
  refine Draft.parts_append_congr (fun draft => ?_) draft row
  rcases symbol with rfl | rfl | rfl <;> rfl

theorem faults_of_faults_eq_nil {draft : Draft} {read : List Lexeme}
    (clean : draft.faults read = []) : ∀ lexeme ∈ read, lexeme.faults = [] := by
  induction read generalizing draft with
  | nil => simp
  | cons lexeme read ih =>
    simp only [Draft.faults, List.append_eq_nil_iff] at clean
    exact List.forall_mem_cons.mpr ⟨clean.1.2, ih clean.2⟩

/-! ## Completed groups -/

/-- The last character is a symbol that a backslash makes part of a name. -/
def EndsEscaped (group : String) : Prop :=
  ∃ front c, group.toList = front ++ [c] ∧ IsSymbol c ∧ endsEscaping front = true

theorem endsEscaped_iff {group : String} : EndsEscaped group ↔
    group.toList.getLast?.any (decide <| IsSymbol ·) = true ∧
      endsEscaping group.toList.dropLast = true := by
  unfold EndsEscaped
  generalize group.toList = chars
  induction chars using List.reverseRecOn with
  | nil => simp
  | append_singleton front last _ =>
    rw [List.getLast?_concat, List.dropLast_concat]
    constructor
    · rintro ⟨front', c, same, symbol, escaping⟩
      obtain ⟨rfl, rfl⟩ := List.append_singleton_inj.mp same
      exact ⟨by simpa using symbol, escaping⟩
    · rintro ⟨symbol, escaping⟩
      exact ⟨front, last, rfl, by simpa using symbol, escaping⟩

instance (group : String) : Decidable (EndsEscaped group) :=
  decidable_of_iff _ endsEscaped_iff.symm

theorem completeGroup_eq {group : String} (trimmed : Text.trim group.toList = group.toList) :
    (completeGroup group = group ∧ ¬ EndsEscaped group) ∨
      ∃ front c, group.toList = front ++ [c] ∧ IsSymbol c ∧
        completeGroup group = String.ofList (front ++ long c) := by
  have unfolded : completeGroup group = String.ofList
      (if (group.toList.getLast?.any fun c => c == '>' || c == '+' || c == '~') = true
        then group.toList ++ [' ', '*'] else group.toList) := by
    rw [completeGroup, trimmed]
  rw [unfolded]
  split
  · next ends =>
    rcases List.eq_nil_or_concat group.toList with empty | ⟨front, c, whole⟩
    · simp [empty] at ends
    · rw [List.concat_eq_append] at whole
      refine .inr ⟨front, c, whole, ?_, by simp [whole, long]⟩
      simpa [whole, IsSymbol, or_assoc] using ends
  · next other =>
    refine .inl ⟨String.ofList_toList, ?_⟩
    rintro ⟨front, c, whole, symbol, -⟩
    refine other ?_
    simpa [whole, IsSymbol, or_assoc] using symbol

/-- The text that is asked has the parts of the group. -/
theorem parse_completeGroup {group : String} (known : IsGroup group.toList)
    (plain : ¬ EndsEscaped group) {parts : List Part}
    (read : parseWellFormed (completeGroup group) = .ok parts) : parse group = parts := by
  obtain ⟨sound, parsed⟩ := parseWellFormed_eq_ok_iff.mp read
  rcases completeGroup_eq known.trimmed with ⟨same, -⟩ | ⟨front, c, whole, symbol, completed⟩
  · rwa [same] at parsed
  · have complete : endsEscaping front = false := by
      by_contra escaping
      exact plain ⟨front, c, whole, symbol, by simpa using escaping⟩
    have clean : ∀ lexeme ∈ lexemes (front ++ long c), lexeme.faults = [] := by
      rw [flaws, List.map_eq_nil_iff, completed, String.toList_ofList] at sound
      exact faults_of_faults_eq_nil sound
    obtain ⟨row, longer, shorter, -⟩ := lexemes_swap symbol.isEnd_long symbol.isEnd complete
      (fun _ => symbol.isBlank) (fun _ => symbol.isBlank) clean
    rw [symbol.lexemes_long.1] at longer
    rw [symbol.lexemes_eq] at shorter
    rw [← parsed, completed, parse, parse, tokens, tokens, whole, String.toList_ofList, longer,
      parts_star symbol, ← shorter]

theorem IsGroup.completed {front : List Char} {c : Char} (known : IsGroup (front ++ [c])) :
    IsGroup (front ++ long c) := by
  have whole : front ++ long c = (front ++ [c]) ++ [' ', '*'] := by simp [long]
  refine ⟨?_, ?_, by simp [long]⟩
  · rw [whole, List.mem_append, not_or]
    exact ⟨known.comma, by decide⟩
  · have first : ∀ x ∈ (front ++ long c).head?, Text.isWhite x = false := by
      have start := head?_trim (front ++ [c])
      rw [known.trimmed] at start
      cases front <;> exact start
    rw [Text.trim, trimStart_eq_self first, trimEnd_eq_self (by simp [long]; decide)]

/-- A completed group is still one group. -/
theorem groupsOf_completeGroup {group : String} (known : IsGroup group.toList) :
    groupsOf (completeGroup group) = [completeGroup group] := by
  rcases completeGroup_eq known.trimmed with ⟨same, -⟩ | ⟨front, c, whole, -, completed⟩
  · rw [same]
    simpa using known.groupsOf_eq
  · rw [completed]
    exact (IsGroup.completed (whole ▸ known)).groupsOf_eq

end TreeSelectors
