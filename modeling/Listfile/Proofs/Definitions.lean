import Listfile.Definitions
import Listfile.Proofs.Nesting

/-! The definitions that a formatted text lists. They are those of the source as
long as the name of each definition can be written as an unquoted argument, which
is how every name is written. A name that cannot is read back as something else
even where it stands alone: its text would have to be read as a quoted argument
or as a bracket argument with that same text between its ends, and no text that
is written behind a parenthesis is (`standsUnquoted_of_woven`). -/

namespace Listfile

open Parse Token Layout

/-! ### Definitions and rows -/

namespace Definition

/-- The names and kinds of the definitions in a statement list. -/
def signatures (list : List Statement) : List (Text × DefinitionKind) :=
  (ofStatements list).map fun d => (d.name, d.kind)

mutual

theorem ofStatement_plain (f : Text → Text) : ∀ s : Statement,
    (ofStatement (s.plain f)).map (fun d => (d.name, d.kind)) =
      (ofStatement s).map fun d => (d.name, d.kind)
  | .lineBreak _ | .lineComment _ _ _ | .bracketComment _ _ _ _ | .bracket _ _ _ | .command _ _ _
  | .definition _ _ _ _ _ | .loop _ _ _ _ | .unknown => rfl
  | .conditional head elseifs none => by
    simp only [Statement.plain, ofStatement, List.map_append, ofBranch_plain f head,
      ofBranches_plainAll f elseifs]
  | .conditional head elseifs (some arm) => by
    simp only [Statement.plain, ofStatement, List.map_append, ofBranch_plain f head,
      ofBranches_plainAll f elseifs, ofBranch_plain f arm]

/-- A list and its essence define the same. -/
theorem signatures_essence (f : Text → Text) : ∀ list : List Statement,
    signatures (Statement.essence f list) = signatures list
  | [] => rfl
  | s :: rest => by
    have ih := signatures_essence f rest
    simp only [signatures] at ih ⊢
    rw [Statement.essence]
    split
    · next h =>
      have hs : ofStatement s = [] := by cases s <;> first | rfl | contradiction
      simp only [ofStatements, hs, List.nil_append, ih]
    · simp only [ofStatements, List.map_append, ofStatement_plain f s, ih]

theorem ofBranch_plain (f : Text → Text) : ∀ b : Branch,
    (ofBranch (b.plain f)).map (fun d => (d.name, d.kind)) =
      (ofBranch b).map fun d => (d.name, d.kind)
  | .mk _ body _ => signatures_essence f body

theorem ofBranches_plainAll (f : Text → Text) : ∀ list : List Branch,
    (ofBranches (Branch.plainAll f list)).map (fun d => (d.name, d.kind)) =
      (ofBranches list).map fun d => (d.name, d.kind)
  | [] => rfl
  | b :: rest => by
    simp only [Branch.plainAll, ofBranches, List.map_append, ofBranch_plain f b,
      ofBranches_plainAll f rest]

end

/-- Among the rows there is the command that opens a definition. -/
def OpensIn (rows : List Row) (d : Definition) : Prop :=
  ∃ list, .keyword (.opening (.definition d.kind)) (.unquoted d.name :: list) ∈ rows

theorem OpensIn.mono {rows more : List Row} {d : Definition} (h : OpensIn rows d)
    (hm : rows ⊆ more) : OpensIn more d := by
  obtain ⟨list, hlist⟩ := h
  exact ⟨list, hm hlist⟩

mutual

theorem opensIn_rows : ∀ s : Statement, ∀ d ∈ ofStatement s, OpensIn s.rows d
  | .lineBreak _ | .lineComment _ _ _ | .bracketComment _ _ _ _ | .bracket _ _ _ | .command _ _ _
  | .loop _ _ _ _ | .unknown => by simp [ofStatement]
  | .definition kind name list body _ => by
    simp only [ofStatement, List.mem_singleton, forall_eq]
    exact ⟨list, List.mem_cons_self ..⟩
  | .conditional head elseifs none => by
    intro d hd
    rcases List.mem_append.mp hd with hd | hd
    · exact (opensIn_branch (.opening .conditional) head d hd).mono (by simp [Statement.rows])
    · exact (opensIn_branches elseifs d hd).mono (by simp [Statement.rows])
  | .conditional head elseifs (some arm) => by
    intro d hd
    rw [ofStatement, List.mem_append, List.mem_append] at hd
    rcases hd with (hd | hd) | hd
    · exact (opensIn_branch (.opening .conditional) head d hd).mono (by simp [Statement.rows])
    · exact (opensIn_branches elseifs d hd).mono (by simp [Statement.rows])
    · exact (opensIn_branch (.dividing .elseArm) arm d hd).mono fun r hr => by
        simp [Statement.rows, hr]

/-- Each definition of a list is opened by one of its rows. -/
theorem opensIn_rowsAll : ∀ list : List Statement, ∀ d ∈ ofStatements list,
    OpensIn (Statement.rowsAll list) d
  | [] => by simp [ofStatements]
  | s :: rest => by
    intro d hd
    rcases List.mem_append.mp hd with hd | hd
    · exact (opensIn_rows s d hd).mono (by simp [Statement.rowsAll])
    · exact (opensIn_rowsAll rest d hd).mono (by simp [Statement.rowsAll])

theorem opensIn_branch (k : Keyword) : ∀ b : Branch, ∀ d ∈ ofBranch b, OpensIn (b.rows k) d
  | .mk _ body _ => by
    intro d hd
    exact (opensIn_rowsAll body d hd).mono (by simp [Branch.rows])

theorem opensIn_branches : ∀ list : List Branch, ∀ d ∈ ofBranches list,
    OpensIn (Branch.rowsAll list) d
  | [] => by simp [ofBranches]
  | b :: rest => by
    intro d hd
    rcases List.mem_append.mp hd with hd | hd
    · exact (opensIn_branch (.dividing .elseifArm) b d hd).mono (by simp [Branch.rowsAll])
    · exact (opensIn_branches rest d hd).mono (by simp [Branch.rowsAll])

end

end Definition

/-! ### Copies of a name -/

/-- The characters that take no part in the ends of a quoted or bracket argument. -/
def isClear (c : Char) : Bool := c ≠ '"' && c ≠ '\\' && c ≠ ']' && c ≠ '='

/-- Copies of a name, each behind at least one clear character. -/
inductive Woven (name : Text) : Text → Prop
  | clear {a : Text} (h : ∀ c ∈ a, isClear c = true) : Woven name a
  | copy {a rest : Text} (ha : ∀ c ∈ a, isClear c = true) (hne : a ≠ []) (h : Woven name rest) :
      Woven name (a ++ (name ++ rest))

theorem Woven.append {name a text : Text} (ha : ∀ c ∈ a, isClear c = true)
    (h : Woven name text) : Woven name (a ++ text) := by
  cases h with
  | clear h => exact .clear (List.forall_mem_append.mpr ⟨ha, h⟩)
  | @copy b rest hb hne h =>
    rw [← List.append_assoc]
    exact .copy (List.forall_mem_append.mpr ⟨ha, hb⟩) (by simp [hne]) h

/-- A character that is not clear lies in a copy, before which a clear one stands. -/
theorem Woven.exists_copy {name text : Text} (h : Woven name text) {u v : Text} {c : Char}
    (hc : isClear c = false) (heq : text = u ++ c :: v) :
    ∃ a d front back, u = a ++ d :: front ∧ isClear d = true ∧ name = front ++ c :: back := by
  induction h generalizing u with
  | clear h =>
    have hclear := h c (by simp [heq])
    simp [hc] at hclear
  | @copy a rest ha hne _ ih =>
    obtain ⟨u', rfl, hu⟩ : ∃ u', u = a ++ u' ∧ name ++ rest = u' ++ c :: v := by
      rcases List.append_eq_append_iff.mp heq with h | ⟨_ | ⟨c', a'⟩, rfl, ha'⟩
      · exact h
      · exact ⟨[], by simp, ha'.symm⟩
      · obtain ⟨rfl, -⟩ := List.cons.inj ha'
        have hclear := ha c (by simp)
        simp [hc] at hclear
    rcases List.append_eq_append_iff.mp hu with ⟨u'', rfl, hrest⟩ | ⟨_ | ⟨c', back⟩, rfl, hback⟩
    · obtain ⟨b, d, front, back, rfl, hd, hname⟩ := ih hrest
      exact ⟨a ++ (name ++ b), d, front, back, by simp, hd, hname⟩
    · -- what follows a copy starts with a clear character
      obtain ⟨b, d, front, back, hnil, -⟩ := ih (u := []) hback.symm
      simp at hnil
    · obtain ⟨rfl, -⟩ := List.cons.inj hback
      have hlast := List.dropLast_append_getLast hne
      refine ⟨a.dropLast, a.getLast hne, u', back, ?_, ha _ (List.getLast_mem hne), rfl⟩
      rw [← List.singleton_append, ← List.append_assoc, hlast]

/-- No quoted argument in such a text has the name between its quotes. -/
theorem Woven.quoted_not_infix {name text : Text} (h : Woven name text)
    (hq : QuotesEscaped name) : ¬ '"' :: (name ++ ['"']) <:+: text := by
  rintro ⟨x, y, heq⟩
  have hsplit : text = (x ++ '"' :: name) ++ '"' :: y := by simp [← heq]
  obtain ⟨a, d, front, back, hu, hd, hname⟩ := h.exists_copy (by decide) hsplit
  have hd' : d ≠ '\\' := by
    rintro rfl
    contradiction
  -- the closing quote follows the name, and it also follows `front` in a copy of the name
  have hodd := hq.2 front back hname
  have hcount := congrArg trailingBackslashes hu
  rw [trailingBackslashes_append_cons x (by decide),
    trailingBackslashes_append_cons a hd'] at hcount
  have heven := hq.1
  omega

/-- A run without clear characters that ends a text lies behind its last clear character. -/
theorem suffix_of_clear {w run a front : Text} {d : Char} (hd : isClear d = true)
    (hrun : ∀ c ∈ run, isClear c = false) (h : w ++ run = a ++ d :: front) : run <:+ front := by
  rw [← List.singleton_append, ← List.append_assoc] at h
  rcases List.append_eq_append_iff.mp h with ⟨b, hb, rfl⟩ | ⟨b, -, rfl⟩
  · rcases List.eq_nil_or_concat b with rfl | ⟨b, e, rfl⟩
    · exact List.suffix_rfl
    · obtain rfl : d = e := by simpa using congrArg List.getLast? hb
      have hclear := hrun d (by simp)
      simp [hd] at hclear
  · exact List.suffix_append b run

/-- No bracket argument in such a text has the name between its brackets. -/
theorem Woven.bracket_not_infix {name text : Text} (h : Woven name text) {n : Nat}
    (hn : ¬ closer n <:+: name) : ¬ opener n ++ name ++ closer n <:+: text := by
  rintro ⟨x, y, heq⟩
  have hsplit : text = (x ++ opener n ++ name ++ ']' :: List.replicate n '=') ++ ']' :: y := by
    simp [← heq, closer]
  obtain ⟨a, d, front, back, hu, hd, hname⟩ := h.exists_copy (by decide) hsplit
  have hrun : ∀ c ∈ ']' :: List.replicate n '=', isClear c = false := by
    simp only [List.mem_cons, List.mem_replicate]
    rintro c (rfl | ⟨-, rfl⟩) <;> rfl
  obtain ⟨b, rfl⟩ := suffix_of_clear hd hrun hu
  exact hn ⟨b, back, by simp [hname, closer]⟩

/-! ### Where a name is read from -/

/-- The text of a literal is a lexeme itself, or it stands between quotes or brackets. -/
theorem literal_of_argument? {lines : LineIndex} {t : Token} {a : Argument} {name : Text}
    (h : argument? lines t = some a) (ha : a.literal? = some name) (ht : Lexeme t.kind t.text) :
    Lexeme .unquoted name ∨ (t.text = '"' :: (name ++ ['"']) ∧ QuotesEscaped name) ∨
      ∃ n, t.text = opener n ++ name ++ closer n ∧ ¬ closer n <:+: name := by
  simp only [argument?] at h
  split at h
  · next hk =>
    rw [hk] at ht
    cases h
    obtain rfl : t.text = name := Option.some.inj ha
    exact .inl ht
  · next hk =>
    rw [hk] at ht
    cases h
    obtain ⟨body, htext, hescaped⟩ := ht.quoted_eq
    obtain rfl : body = name := by
      rw [htext, quotedBody_of_quotesEscaped hescaped] at ha
      exact Option.some.inj ha
    exact .inr (.inl ⟨htext, hescaped⟩)
  · next hk =>
    rw [hk] at ht
    cases h
    have hname : bracketBody (fenceOf t.text) t.text = name := Option.some.inj ha
    have htext := bracketText_of_lexeme ht
    rw [hname, bracketText] at htext
    rw [← htext] at ht ⊢
    exact .inr (.inr ⟨_, rfl, ht.closer_not_infix⟩)
  all_goals
    cases h
  all_goals
    contradiction

theorem exists_token_of_reads {lines : LineIndex} {tokens : List Token} {list : List Argument}
    (h : Reads lines tokens list) {a : Argument} (ha : a ∈ list) {name : Text}
    (hname : a.literal? = some name) : ∃ t ∈ tokens, argument? lines t = some a := by
  induction h with
  | nil => simp at ha
  | lineBreak _ _ ih =>
    obtain ⟨t, ht, harg⟩ := ih ha
    exact ⟨t, List.mem_cons_of_mem _ ht, harg⟩
  | leaf harg _ ih =>
    rcases List.mem_cons.mp ha with rfl | ha
    · exact ⟨_, List.mem_cons_self .., harg⟩
    · obtain ⟨t, ht, harg⟩ := ih ha
      exact ⟨t, List.mem_cons_of_mem _ ht, harg⟩
  | group _ _ _ _ _ ih =>
    rcases List.mem_cons.mp ha with rfl | ha
    · contradiction
    · obtain ⟨t, ht, harg⟩ := ih ha
      exact ⟨t, by simp [ht], harg⟩

/-- The item behind the row that opens a definition. -/
theorem exists_command_of_agrees {r : Row} {content : Content} (h : Agrees r content)
    (hl : content.Legible) {kind : DefinitionKind} {name : Text} {list : List Argument}
    (hr : r = .keyword (.opening (.definition kind)) (.unquoted name :: list)) :
    ∃ c, content = .command c ∧ takeName c.arguments = some (name, list) := by
  cases h with
  | @statement s _ h =>
    cases s <;> first | contradiction | skip
    all_goals
      rw [hr] at h
      cases h
  | definition _ hname =>
    simp only [Row.keyword, Row.call.injEq, List.cons.injEq, Argument.unquoted.injEq] at hr
    obtain ⟨-, -, rfl, rfl⟩ := hr
    exact ⟨_, rfl, hname⟩
  | opening _ hb =>
    obtain ⟨hblock, -⟩ := Row.call.inj hr
    exact absurd (by simpa using hblock) (hb kind)
  | plain | dividing | closing => simp [Row.keyword] at hr

/-- The name of a definition that a text without faults lists is read from a token of it. -/
theorem exists_token_of_signature {text name : Text} {kind : DefinitionKind}
    (h : (Source.parse text).diagnostics = [])
    (hd : (name, kind) ∈ Definition.signatures (Source.parse text).statements) :
    ∃ t ∈ scan text, ∃ a, argument? (.ofText text) t = some a ∧ a.literal? = some name ∧
      Lexeme t.kind t.text := by
  obtain ⟨d, hmem, heq⟩ := List.mem_map.mp hd
  obtain ⟨rfl, rfl⟩ := Prod.mk.inj heq
  obtain ⟨list, hrow⟩ := Definition.opensIn_rowsAll _ d hmem
  obtain ⟨content, hcontent, hagrees⟩ := exists_of_mem_forall₂ (agrees_of_clean h) hrow
  obtain ⟨i, hi, rfl⟩ := List.mem_map.mp hcontent
  obtain ⟨c, hc, hname⟩ := exists_command_of_agrees hagrees (legible_of_clean h i hi) rfl
  obtain ⟨a, ha, hliteral⟩ := find?_of_takeName hname
  obtain ⟨inner, hreads, hinner⟩ := reads_of_spanned (spanned_of_clean h) (fit_of_clean h) hi hc
  obtain ⟨t, ht, harg⟩ := exists_token_of_reads hreads (List.mem_of_find?_eq_some ha) hliteral
  obtain ⟨hsignificant, hlexeme⟩ := hinner t ht
  refine ⟨t, List.mem_of_mem_filter hsignificant, a, harg, hliteral, hlexeme fun hk => ?_⟩
  simp [argument?, hk] at harg

/-- In a text without faults that is woven of copies of the name of a definition which it lists,
that name can be written as an unquoted argument. -/
theorem standsUnquoted_of_woven {text name : Text} {kind : DefinitionKind}
    (h : (Source.parse text).diagnostics = [])
    (hd : (name, kind) ∈ Definition.signatures (Source.parse text).statements)
    (hw : Woven name text) : standsUnquoted name = true := by
  obtain ⟨t, ht, a, harg, hliteral, hlexeme⟩ := exists_token_of_signature h hd
  have hinfix := text_infix_of_mem_scan ht
  rcases literal_of_argument? harg hliteral hlexeme with
    hlex | ⟨htext, hescaped⟩ | ⟨n, htext, hcloser⟩
  · exact (standsUnquoted_iff name).mpr hlex
  · exact absurd (htext ▸ hinfix) (hw.quoted_not_infix hescaped)
  · exact absurd (htext ▸ hinfix) (hw.bracket_not_infix hcloser)

/-! ### A definition by itself -/

/-- The kind and name of a definition without parameters that holds nothing, where nothing else
stands in the list. -/
def Statement.loneDefinition? (list : List Statement) : Option (DefinitionKind × Text) :=
  match Statement.essence id list with
  | [.definition kind name [] [] _] => some (kind, name)
  | _ => none

theorem Statement.essence_of_loneDefinition? {list : List Statement} {kind : DefinitionKind}
    {name : Text} (h : Statement.loneDefinition? list = some (kind, name)) :
    ∃ location, Statement.essence id list = [.definition kind name [] [] location] := by
  unfold Statement.loneDefinition? at h
  split at h
  · next heq =>
    cases h
    exact ⟨_, heq⟩
  · contradiction

theorem arguments_unquoted (s : Style) (column hanging closing : Int) (name : Text) :
    arguments s column hanging closing [.unquoted name] = name := by
  simp only [arguments]
  split
  · simp [inlineAll, inline?, Text.unwords, Text.join]
  · simp [wrapFrom, wrapOne, inline?, Gap.before, Gap.text, isLineComment]

theorem isClear_spelling (k : Keyword) : ∀ c ∈ k.spelling, isClear c = true := by
  have hall : ∀ k : Keyword, k.spelling.all isClear = true := by decide
  exact List.all_eq_true.mp (hall k)

theorem isClear_rowLead (indentation : Nat) (b : Bool) (r : Row) :
    ∀ c ∈ rowLead indentation b r, isClear c = true := by
  intro c hc
  obtain rfl : c = ' ' := by
    unfold rowLead at hc
    split at hc
    · simp at hc
    · simp at hc
    · split at hc
      · exact List.eq_of_mem_replicate hc
      · exact List.mem_singleton.mp hc
  rfl

/-- Commands of blocks with one argument are written as copies of that argument. -/
theorem woven_verbatim (s : Style) {name : Text} {rows : List Row}
    (h : ∀ r ∈ rows, r = .lineBreak ∨ ∃ k, r = .keyword k [.unquoted name]) (levels : List Nat)
    (b : Bool) : Woven name (verbatim s levels b rows) := by
  induction rows generalizing levels b with
  | nil => exact .clear (by simp [verbatim])
  | cons r rest ih =>
    obtain ⟨hr, hrest⟩ := List.forall_mem_cons.mp h
    rw [verbatim, List.append_assoc]
    refine .append (isClear_rowLead _ _ _) ?_
    rcases hr with rfl | ⟨k, rfl⟩
    · exact .append (by simp [rowText, isClear]) (ih hrest _ _)
    · rw [Row.keyword, rowText, callText, arguments_unquoted, List.append_assoc, List.append_assoc]
      refine .copy ?_ (by simp) (.append (by simp [isClear]) (ih hrest _ _))
      exact List.forall_mem_append.mpr ⟨isClear_spelling k, by simp [isClear]⟩

/-- The rows of a definition that holds nothing and stands alone. -/
theorem rows_of_loneDefinition? {list : List Statement} {kind : DefinitionKind} {name : Text}
    (h : Statement.loneDefinition? list = some (kind, name)) :
    ∀ r ∈ Statement.rowsAll list, r = .lineBreak ∨ ∃ k, r = .keyword k [.unquoted name] := by
  obtain ⟨location, hessence⟩ := Statement.essence_of_loneDefinition? h
  have hrows := congrArg Statement.rowsAll hessence
  rw [Statement.rowsAll_essence] at hrows
  intro r hr
  cases hb : r.isLineBreak with
  | true =>
    cases r <;> first | contradiction | skip
    exact .inl rfl
  | false =>
    have hmem : r.plain id ∈ Row.essence id (Statement.rowsAll list) :=
      List.mem_map_of_mem (List.mem_filter.mpr ⟨hr, by simp [hb]⟩)
    obtain ⟨k, hk⟩ : ∃ k, r.plain id = .keyword k [.unquoted name] := by
      rw [hrows] at hmem
      simp only [Statement.rowsAll, Statement.rows, List.nil_append, List.append_nil,
        List.mem_cons, List.not_mem_nil, or_false] at hmem
      rcases hmem with heq | heq <;> exact ⟨_, heq⟩
    cases r with
    | call role title arguments =>
      obtain ⟨rfl, rfl, harguments⟩ := Row.call.inj hk
      obtain ⟨rest, rfl, hrest⟩ := exists_of_plainAll harguments
      rw [Argument.plainAll_eq_map, List.map_eq_nil_iff] at hrest
      exact .inr ⟨k, by rw [hrest]; rfl⟩
    | _ => simp [Row.plain, Row.keyword] at hk

/-- Where the name of a lone definition can be written as an unquoted argument, all names can. -/
theorem namesStand_of_loneDefinition? {text : Text} (h : (Source.parse text).diagnostics = [])
    {kind : DefinitionKind} {name : Text}
    (ha : Statement.loneDefinition? (Source.parse text).statements = some (kind, name))
    (hn : standsUnquoted name = true) : NamesStand text := by
  intro i hi
  obtain ⟨r, hr, hagrees⟩ :=
    exists_of_mem_forall₂ (agrees_of_clean h).flip (List.mem_map_of_mem hi)
  have hrow := rows_of_loneDefinition? ha r hr
  generalize i.content = content at hagrees
  cases hagrees with
  | @definition c kind' name' list hk hname =>
    obtain rfl : name' = name := by
      rcases hrow with hrow | ⟨k, hrow⟩ <;> simp [Row.keyword] at hrow
      exact hrow.2.2.1
    simp only [Content.nameStands, hk, hname, hn]
  | statement => rfl
  | plain h => simp [Content.nameStands, h]
  | @opening c block h hb =>
    cases block with
    | definition kind => exact absurd rfl (hb kind)
    | _ => simp [Content.nameStands, h]
  | dividing h => simp [Content.nameStands, h]
  | closing h => simp [Content.nameStands, h]

/-! ### What formatting keeps of the definitions -/

/-- The formatted text is read, without a report, and it lists the definitions of the source. -/
def KeepsDefinitions (s : Style) (limit : Nat) (source : Source) : Prop :=
  ∃ again, Source.parseWithin limit (source.format s) = some again ∧ again.diagnostics = [] ∧
    Definition.signatures again.statements = Definition.signatures source.statements

theorem keepsDefinitions_of_namesStand {text : Text} (h : (Source.parse text).diagnostics = [])
    {limit : Nat} (hdepth : (Source.parse text).depth ≤ limit) (hn : NamesStand text) (s : Style) :
    KeepsDefinitions s limit (Source.parse text) := by
  obtain ⟨hclean, hessence⟩ := essence_format h hn s
  refine ⟨_, parseWithin_format h hn s hdepth, hclean, ?_⟩
  rw [← Definition.signatures_essence id, hessence, Definition.signatures_essence]

/-- Formatting keeps the definitions of a text without faults as long as their names can be written
as unquoted arguments. For a definition that stands alone and holds nothing, it keeps them under no
other condition. -/
theorem format_keeps_definitions (s : Style) (limit : Nat) (text : Text) (source : Source)
    (hread : Source.parseWithin limit text = some source) (h : source.diagnostics = []) :
    (NamesStand text → KeepsDefinitions s limit source) ∧
      ∀ kind name, Statement.loneDefinition? source.statements = some (kind, name) →
        (KeepsDefinitions s limit source ↔ standsUnquoted name = true) := by
  obtain ⟨rfl, hdepth⟩ := Source.parseWithin_eq_some_iff.mp hread
  refine ⟨fun hn => keepsDefinitions_of_namesStand h hdepth hn s, fun kind name ha => ⟨?_, ?_⟩⟩
  · rintro ⟨again, hagain, hclean, hsame⟩
    obtain ⟨rfl, -⟩ := Source.parseWithin_eq_some_iff.mp hagain
    have hlisted : (name, kind) ∈ Definition.signatures
        (Source.parse ((Source.parse text).format s)).statements := by
      obtain ⟨location, hessence⟩ := Statement.essence_of_loneDefinition? ha
      rw [hsame, ← Definition.signatures_essence id, hessence]
      exact List.mem_singleton.mpr rfl
    apply standsUnquoted_of_woven hclean hlisted
    rw [format_eq_verbatim h]
    refine woven_verbatim s (fun r hr => ?_) [] true
    rcases mem_of_mem_settle hr with rfl | hr
    · exact .inl rfl
    · exact rows_of_loneDefinition? ha r hr
  · intro hn
    exact keepsDefinitions_of_namesStand h hdepth (namesStand_of_loneDefinition? h ha hn) s

/-- A macro whose quoted name could do without its quotes. -/
def quotedName : Text := "if(x)\nmacro(#c\n \"m\" a)\nendmacro()\nendif()\n".toList

/-- A function whose name is two words. -/
def spacedName : Text := "function(\"a b\")\nendfunction()\n".toList

theorem format_keeps_definitions_sample :
    KeepsDefinitions .standard 2 (Source.parse quotedName) ∧
      ¬ KeepsDefinitions .standard 2 (Source.parse spacedName) := by
  have hq : Source.parseWithin 2 quotedName = some (Source.parse quotedName) :=
    Source.parseWithin_eq_some_iff.mpr ⟨rfl, by decide +kernel⟩
  have hs : Source.parseWithin 2 spacedName = some (Source.parse spacedName) :=
    Source.parseWithin_eq_some_iff.mpr ⟨rfl, by decide +kernel⟩
  have hn : NamesStand quotedName := by
    unfold NamesStand
    decide +kernel
  have ha : Statement.loneDefinition? (Source.parse spacedName).statements =
      some (.functionDef, "a b".toList) := by decide +kernel
  refine ⟨(format_keeps_definitions .standard 2 _ _ hq (by decide +kernel)).1 hn, ?_⟩
  rw [(format_keeps_definitions .standard 2 _ _ hs (by decide +kernel)).2 _ _ ha]
  decide +kernel

end Listfile
