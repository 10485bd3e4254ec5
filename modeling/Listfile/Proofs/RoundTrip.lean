import Listfile.Format
import Listfile.Proofs.Alike
import Listfile.Proofs.Lists
import Listfile.Proofs.Written

/-! Formatting a text without faults and reading it again. The rows of the text
are legible as long as the name of every definition can be written without
quotes (`NamesStand`), for a definition keeps the text of its name only, and it
is written as an unquoted argument. Then what is written is read back without a
report, as a tree with the same essence (`essence_format`) and with the rows that
were written (`rowsAll_format`). -/

namespace Listfile

open Parse Token Layout

/-! ### A text without faults -/

theorem Source.diagnostics_eq_nil_iff (text : Text) :
    (Source.parse text).diagnostics = [] ↔
      faults (scan text) = [] ∧ (read [] (itemsOf text)).faults = [] := by
  have hsort (ds : List Diagnostic) : Diagnostic.sortByStart ds = [] ↔ ds = [] := by
    rw [← List.length_eq_zero_iff, ← List.length_eq_zero_iff, Diagnostic.sortByStart,
      List.length_mergeSort]
  rw [Source.parse, hsort, List.append_eq_nil_iff]

theorem Source.format_of_clean {text : Text} (h : (Source.parse text).diagnostics = [])
    (s : Style) :
    (Source.parse text).format s = Layout.statements s (Source.parse text).statements := by
  have herrors : (Source.parse text).hasErrors = false := by
    simp [Source.hasErrors, h, Diagnostic.hasErrors]
  rw [Source.format, herrors]
  rfl

/-- Where nothing is reported, no item has a report. -/
theorem Parse.item_faults {items : List Item} {st : State}
    (h : (items.foldl State.take st).faults = []) : ∀ i ∈ items, i.faults = [] := by
  induction items generalizing st with
  | nil => simp
  | cons i rest ih =>
    rw [List.foldl_cons] at h
    have htake : (st.take i).faults = [] :=
      List.prefix_nil.mp (h ▸ (st.take i).faults_foldl_take rest)
    have hi := htake ▸ st.faults_take i
    rw [List.prefix_nil, List.append_eq_nil_iff] at hi
    exact List.forall_mem_cons.mpr ⟨hi.2, ih h⟩

section Clean
variable {text : Text} (h : (Source.parse text).diagnostics = [])
include h

theorem fit_of_clean : Fit true (significant text) :=
  fit_significant ((Source.diagnostics_eq_nil_iff text).mp h).1

theorem spanned_of_clean : Spanned (.ofText text) (significant text) (itemsOf text) := by
  have hread := ((Source.diagnostics_eq_nil_iff text).mp h).2
  rw [read_nil_eq, State.finish_faults_eq_nil_iff] at hread
  exact spanned_items (fit_of_clean h) (item_faults hread.1)

theorem legible_of_clean : ∀ i ∈ itemsOf text, i.content.Legible :=
  legible_of_spanned (spanned_of_clean h) (fit_of_clean h)

theorem agrees_of_clean :
    List.Forall₂ Agrees (Statement.rowsAll (Source.parse text).statements)
      ((itemsOf text).map (·.content)) :=
  forall₂_agrees (fun i hi => (legible_of_clean h i hi).isPlain)
    ((Source.diagnostics_eq_nil_iff text).mp h).2

theorem anchored_of_clean : Anchored true (Statement.rowsAll (Source.parse text).statements) :=
  anchored_of_spanned (spanned_of_clean h) (fit_of_clean h) (agrees_of_clean h)

end Clean

/-! ### Legible rows -/

/-- Whether a command defines nothing, or something whose name can be written without quotes. -/
def Parse.Content.nameStands : Content → Bool
  | .command c =>
    match Keyword.ofName? c.name, takeName c.arguments with
    | some (.opening (.definition _)), some (name, _) => standsUnquoted name
    | _, _ => true
  | _ => true

/-- The name of every definition of a text can be written as an unquoted argument. -/
def NamesStand (text : Text) : Prop := ∀ i ∈ itemsOf text, i.content.nameStands = true

theorem isIdentifier_spelling : ∀ k : Keyword, isIdentifier k.spelling = true := by decide

/-- The name of a definition is the first literal among the arguments. -/
theorem find?_of_takeName {list : List Argument} {name : Text} {rest : List Argument}
    (h : takeName list = some (name, rest)) :
    ∃ a, list.find? (·.literal?.isSome) = some a ∧ a.literal? = some name := by
  induction list generalizing rest with
  | nil => simp [takeName] at h
  | cons a list ih =>
    rw [takeName] at h
    split at h
    · next name' ha =>
      obtain ⟨rfl, -⟩ := Prod.mk.inj (Option.some.inj h)
      exact ⟨a, by simp [ha], ha⟩
    · next ha =>
      obtain ⟨⟨name', rest'⟩, hrest, heq⟩ := Option.map_eq_some_iff.mp h
      cases heq
      obtain ⟨b, hb, hname⟩ := ih hrest
      exact ⟨b, by simp [ha, hb], hname⟩

theorem legibleAll_takeName {list : List Argument} (h : Argument.LegibleAll list) {name : Text}
    {rest : List Argument} (hn : takeName list = some (name, rest)) :
    Argument.LegibleAll rest := by
  induction list generalizing rest with
  | nil => simp [takeName] at hn
  | cons a list ih =>
    rw [takeName] at hn
    split at hn
    · cases hn
      exact h.2
    · obtain ⟨⟨name', rest'⟩, hrest, heq⟩ := Option.map_eq_some_iff.mp hn
      cases heq
      exact ⟨h.1, ih h.2 hrest⟩

/-- The name of the definition that an item opens. -/
def Parse.Content.definedName? : Content → Option Text
  | .command c =>
    match Keyword.ofName? c.name, takeName c.arguments with
    | some (.opening (.definition _)), some (name, _) => some name
    | _, _ => none
  | _ => none

theorem standsUnquoted_of_nameStands {content : Content} (h : content.nameStands = true) :
    ∀ name ∈ content.definedName?, standsUnquoted name = true := by
  intro name hname
  cases content with
  | command c =>
    simp only [Content.definedName?] at hname
    split at hname
    · next hk hn =>
      obtain rfl := Option.some.inj hname
      simpa [Content.nameStands, hk, hn] using h
    · contradiction
  | _ => contradiction

/-- Legible arguments, behind a name that has some property. -/
def Argument.NamedAll (property : Text → Prop) (list : List Argument) : Prop :=
  ∃ name rest, list = .unquoted name :: rest ∧ property name ∧ Argument.LegibleAll rest

/-- The parts of a row are legible, the name of a definition apart. -/
def RowNamed (property : Text → Prop) : Row → Prop
  | .call _ name list => isIdentifier name = true ∧
      (Argument.LegibleAll list ∨ Argument.NamedAll property list)
  | r => RowLegible r

theorem RowNamed.legible {r : Row} (h : RowNamed (Lexeme .unquoted) r) : RowLegible r := by
  cases r with
  | call role name list =>
    obtain ⟨hname, hlist | ⟨first, rest, rfl, hfirst, hrest⟩⟩ := h
    · exact ⟨hname, hlist⟩
    · exact ⟨hname, hfirst, hrest⟩
  | _ => exact h

section Named
variable {property : Text → Prop}

/-- The rows of items, those that close a block apart. -/
theorem rowNamed_of_agrees {r : Row} {content : Content} (h : Agrees r content)
    (hl : content.Legible) (hn : ∀ name ∈ content.definedName?, property name)
    (hc : ∀ block name list, r = .call (some (.closing block)) name list →
      Argument.LegibleAll list ∨ Argument.NamedAll property list) : RowNamed property r := by
  cases h with
  | @statement s r h =>
    cases s <;> first | contradiction | skip
    all_goals
      cases h
      exact hl
  | plain h => exact ⟨hl.1, .inl hl.2⟩
  | @definition c kind name list h hname =>
    have hproperty : property name := hn name (by simp [Content.definedName?, h, hname])
    exact ⟨isIdentifier_spelling _, .inr ⟨_, _, rfl, hproperty, legibleAll_takeName hl.2 hname⟩⟩
  | opening => exact ⟨isIdentifier_spelling _, .inl hl.2⟩
  | dividing => exact ⟨isIdentifier_spelling _, .inl hl.2⟩
  | closing => exact ⟨isIdentifier_spelling _, hc _ _ _ rfl⟩

/-- The rows of a text without faults are legible, the names of definitions apart. -/
theorem rowNamed_of_clean {text : Text} (h : (Source.parse text).diagnostics = [])
    (hn : ∀ i ∈ itemsOf text, ∀ name ∈ i.content.definedName?, property name) :
    ∀ r ∈ Statement.rowsAll (Source.parse text).statements, RowNamed property r := by
  have hrow : ∀ r ∈ Statement.rowsAll (Source.parse text).statements,
      (∀ block name list, r = .call (some (.closing block)) name list →
        Argument.LegibleAll list ∨ Argument.NamedAll property list) → RowNamed property r := by
    intro r hr hc
    obtain ⟨content, hmem, hagrees⟩ := exists_of_mem_forall₂ (agrees_of_clean h) hr
    obtain ⟨i, hi, rfl⟩ := List.mem_map.mp hmem
    exact rowNamed_of_agrees hagrees (legible_of_clean h i hi) (hn i hi) hc
  intro r hr
  refine hrow r hr ?_
  rintro block name list rfl
  -- a closing command repeats the name of the command that opens its block
  rcases Statement.closesNamed_rowsAll _ block name list hr with rfl | ⟨name', rest, rfl, hopen⟩
  · exact .inl trivial
  · obtain ⟨-, hlegible | ⟨_, _, heq, hproperty, -⟩⟩ := hrow _ hopen (by simp [Row.keyword])
    · exact .inl ⟨hlegible.1, trivial⟩
    · cases heq
      exact .inr ⟨_, _, rfl, hproperty, trivial⟩

end Named

/-- The rows of a text without faults whose names can be written are legible. -/
theorem rowLegible_of_clean {text : Text} (h : (Source.parse text).diagnostics = [])
    (hn : NamesStand text) :
    ∀ r ∈ Statement.rowsAll (Source.parse text).statements, RowLegible r := fun r hr =>
  (rowNamed_of_clean h (fun i hi name hname =>
    (standsUnquoted_iff name).mp (standsUnquoted_of_nameStands (hn i hi) name hname)) r hr).legible

/-! ### Reading what is written -/

/-- The text that a clean source is formatted to, as settled rows. -/
theorem format_eq_verbatim {text : Text} (h : (Source.parse text).diagnostics = []) (s : Style) :
    (Source.parse text).format s = verbatim s [] true
      (settle s .start (Statement.rowsAll (Source.parse text).statements)) := by
  rw [Source.format_of_clean h, statements_eq_verbatim]

theorem rowLegible_settle {s : Style} {σ : Pace} {rows : List Row}
    (h : ∀ r ∈ rows, RowLegible r) : ∀ r ∈ settle s σ rows, RowLegible r := by
  intro r hr
  rcases mem_of_mem_settle hr with rfl | hr
  · trivial
  · exact h r hr

/-- A list whose plain form starts with an unquoted argument starts with that argument. -/
theorem exists_of_plainAll {list rest : List Argument} {name : Text}
    (h : Argument.plainAll id list = .unquoted name :: rest) :
    ∃ rest', list = .unquoted name :: rest' ∧ Argument.plainAll id rest' = rest := by
  cases list with
  | nil => simp [Argument.plainAll] at h
  | cons a list =>
    obtain ⟨ha, hrest⟩ := List.cons.inj h
    cases a <;> simp [Argument.plain] at ha
    exact ⟨list, by rw [ha], hrest⟩

/-- An item that echoes the row of a keyword is a command with that keyword. -/
theorem exists_command_of_echoes {f : Text → Text} {k : Keyword} {list : List Argument}
    {content : Content} (h : Echoes ((Row.keyword k list).plain f) content) :
    ∃ d, content = .command d ∧ Keyword.ofName? d.name = some k ∧
      Argument.plainAll id d.arguments = Argument.plainAll f list := by
  cases h with
  | @call _ _ _ d hname hlist =>
    refine ⟨d, rfl, ?_, hlist⟩
    rw [Command.name, hname, Keyword.lower_spelling, Keyword.ofName?_spelling]

/-- An item and an item that echoes its row do the same to the open blocks. -/
theorem alike_of_agrees {f : Text → Text} {r : Row} {content content' : Content}
    (h : Agrees r content) (hl : content.Legible) (he : Echoes (r.plain f) content') :
    content.Alike f id content' := by
  cases h with
  | @statement s r h =>
    cases s <;> first | contradiction | skip
    all_goals
      cases h
      cases he
      exact .statement rfl rfl
  | plain h =>
    cases he with
    | call hname hlist =>
      refine .command ⟨?_, ?_⟩
      · rw [Command.name, Command.name, hname]
      · simpa [h, hname] using hlist.symm
  | @definition c kind name list h hn =>
    obtain ⟨d, rfl, hk, hlist⟩ := exists_command_of_echoes he
    obtain ⟨rest, hlist', hrest⟩ := exists_of_plainAll hlist
    have hn' : takeName d.arguments = some (name, rest) := by
      rw [hlist']
      rfl
    refine .command ⟨h.trans hk.symm, ?_⟩
    simp [h, hn, hn', hrest]
  | @opening c block h hb =>
    obtain ⟨d, rfl, hk, hlist⟩ := exists_command_of_echoes he
    refine .command ⟨h.trans hk.symm, ?_⟩
    rw [h]
    cases block with
    | definition kind => exact absurd rfl (hb kind)
    | conditional => exact hlist.symm
    | loop kind => exact hlist.symm
  | dividing h =>
    obtain ⟨d, rfl, hk, hlist⟩ := exists_command_of_echoes he
    refine .command ⟨h.trans hk.symm, ?_⟩
    rw [h]
    exact hlist.symm
  | closing h =>
    obtain ⟨d, rfl, hk, -⟩ := exists_command_of_echoes he
    refine .command ⟨h.trans hk.symm, ?_⟩
    rw [h]
    trivial

theorem isLineBreak_of_agrees {r : Row} {content : Content} (h : Agrees r content)
    (hl : content.Legible) : r.isLineBreak = content.isLineBreak := by
  cases h with
  | @statement s r h =>
    cases s <;> first | contradiction | skip
    all_goals
      cases h
      rfl
  | _ => rfl

theorem isLineBreak_of_echoes {r : Row} {content : Content} (h : Echoes r content) :
    r.isLineBreak = content.isLineBreak := by
  cases h <;> rfl

/-- Rows with line breaks at the same places and the same rows between them are the same. -/
theorem eq_of_filter_eq {rows rows' : List Row}
    (h : List.Forall₂ (fun r r' : Row => r.isLineBreak = r'.isLineBreak) rows rows')
    (hf : rows.filter (!·.isLineBreak) = rows'.filter (!·.isLineBreak)) : rows = rows' := by
  induction h with
  | nil => rfl
  | @cons r r' rows rows' hr _ ih =>
    cases hb : r.isLineBreak with
    | true =>
      have hb' := hr.symm.trans hb
      obtain rfl : r = .lineBreak := by cases r <;> simp_all [Row.isLineBreak]
      obtain rfl : r' = .lineBreak := by cases r' <;> simp_all [Row.isLineBreak]
      rw [ih (by simpa [Row.isLineBreak] using hf)]
    | false =>
      have hb' := hr.symm.trans hb
      simp only [List.filter_cons, hb, hb', Bool.not_false, if_true, List.cons.injEq] at hf
      rw [hf.1, ih hf.2]

section Format
variable {text : Text} (h : (Source.parse text).diagnostics = []) (hn : NamesStand text)
  (s : Style)
include h hn

/-- The items of the formatted text echo the settled rows. -/
theorem echoes_format :
    List.Forall₂ (fun r i => Echoes (r.plain (settleText s)) i.content ∧ i.faults = [])
      (settle s .start (Statement.rowsAll (Source.parse text).statements))
      (itemsOf ((Source.parse text).format s)) ∧
    faults (scan ((Source.parse text).format s)) = [] := by
  have hlegible : ∀ r ∈ settle s .start (Statement.rowsAll (Source.parse text).statements),
      RowLegible r := rowLegible_settle (rowLegible_of_clean h hn)
  have hanchored : Anchored Pace.start.atStart
      (settle s .start (Statement.rowsAll (Source.parse text).statements)) :=
    anchored_settle (anchored_of_clean h) (by simp)
  rw [format_eq_verbatim h s]
  obtain ⟨hitems, hclosed⟩ := items_verbatim s hlegible hanchored (.ofText _) (.point _) [] 0
  refine ⟨hitems, ?_⟩
  rw [← faults_filter]
  refine List.filterMap_eq_nil_iff.mpr fun t ht => ?_
  rw [fault?, if_pos (hclosed t ht)]

/-- The items of the formatted text are read as those of the source are. -/
theorem read_format :
    (read [] (itemsOf ((Source.parse text).format s))).faults = [] ∧
      Statement.essence id (read [] (itemsOf ((Source.parse text).format s))).statements =
        Statement.essence (settleText s) (read [] (itemsOf text)).statements ∧
      (read [] (itemsOf ((Source.parse text).format s))).depth =
        (read [] (itemsOf text)).depth := by
  have hechoes := (echoes_format h hn s).1
  have hagrees : List.Forall₂ (fun (i : Item) r => i.content.Legible ∧ Agrees r i.content)
      (itemsOf text) (Statement.rowsAll (Source.parse text).statements) :=
    (List.forall₂_and_left _ _).mpr
      ⟨legible_of_clean h, (List.forall₂_map_right_iff.mp (agrees_of_clean h)).flip⟩
  have hsource := List.rel_filter (p := fun i : Item => !i.content.isLineBreak)
    (q := fun r : Row => !r.isLineBreak)
    (fun i r hr => by simp [isLineBreak_of_agrees hr.2 hr.1]) hagrees
  have hwritten := List.rel_filter (p := fun r : Row => !r.isLineBreak)
    (q := fun i : Item => !i.content.isLineBreak)
    (fun r i hr => by simp [← isLineBreak_of_echoes hr.1]) hechoes
  rw [filter_settle] at hwritten
  have halike : List.Forall₂ (fun i j : Item => i.content.Alike (settleText s) id j.content) _ _ :=
    forall₂_trans (fun i r j hr he => alike_of_agrees hr.2 hr.1 he.1) hsource hwritten
  have hplain : ∀ i ∈ itemsOf text, i.content.IsPlain := fun i hi =>
    (legible_of_clean h i hi).isPlain
  have hnone : ∀ i ∈ itemsOf ((Source.parse text).format s), i.faults = [] := fun i hi => by
    obtain ⟨r, -, -, hi⟩ := exists_of_mem_forall₂ hechoes.flip hi
    exact hi
  exact read_of_alike hplain ((Source.diagnostics_eq_nil_iff text).mp h).2 hnone halike

/-- The formatted text is read without a report, and to the same essence. -/
theorem essence_format :
    (Source.parse ((Source.parse text).format s)).diagnostics = [] ∧
      Statement.essence id (Source.parse ((Source.parse text).format s)).statements =
        Statement.essence (settleText s) (Source.parse text).statements := by
  obtain ⟨hread, hessence, -⟩ := read_format h hn s
  exact ⟨(Source.diagnostics_eq_nil_iff _).mpr ⟨(echoes_format h hn s).2, hread⟩, hessence⟩

/-- The tree of the formatted text has the rows that were written. -/
theorem rowsAll_format :
    (Statement.rowsAll (Source.parse ((Source.parse text).format s)).statements).map
        (Row.plain id) =
      (settle s .start (Statement.rowsAll (Source.parse text).statements)).map
        (Row.plain (settleText s)) := by
  obtain ⟨hclean, hessence⟩ := essence_format h hn s
  have hagrees : List.Forall₂ (fun (i : Item) r => i.content.Legible ∧ Agrees r i.content) _ _ :=
    (List.forall₂_and_left _ _).mpr
      ⟨legible_of_clean hclean, (List.forall₂_map_right_iff.mp (agrees_of_clean hclean)).flip⟩
  have hbreaks : List.Forall₂ (fun r r' : Row => r.isLineBreak = r'.isLineBreak) _ _ :=
    forall₂_trans (fun r i r' he hr => by
      rw [isLineBreak_of_agrees hr.2 hr.1, ← isLineBreak_of_echoes he.1, Row.isLineBreak_plain])
      (echoes_format h hn s).1 hagrees
  refine eq_of_filter_eq ?_ ?_
  · rw [List.forall₂_map_left_iff, List.forall₂_map_right_iff]
    simpa only [Row.isLineBreak_plain, eq_comm] using hbreaks.flip
  · have hrows := congrArg Statement.rowsAll hessence
    rw [Statement.rowsAll_essence, Statement.rowsAll_essence, Row.essence, Row.essence] at hrows
    simpa [List.filter_map, Function.comp_def, filter_settle] using hrows

/-- The second round writes the rows that the first has written. -/
theorem format_format :
    (Source.parse ((Source.parse text).format s)).format s = (Source.parse text).format s := by
  have hrows := rowsAll_format h hn s
  have hsettled : ∀ rows : List Row, (rows.map (Row.plain id)).map (Row.plain (settleText s)) =
      rows.map (Row.plain (settleText s)) := fun rows => by
    simp [Function.comp_def, Row.plain_plain]
  have htwice : ∀ rows : List Row, (rows.map (Row.plain (settleText s))).map
      (Row.plain (settleText s)) = rows.map (Row.plain (settleText s)) := fun rows => by
    simp [Function.comp_def, Row.plain_plain, settleText_settleText]
  have hplain := congrArg (List.map (Row.plain (settleText s))) hrows
  rw [hsettled, htwice] at hplain
  rw [format_eq_verbatim (essence_format h hn s).1, ← verbatim_map_plain, ← settle_map_plain,
    hplain, settle_map_plain, verbatim_map_plain, settle_settle, ← format_eq_verbatim h]

end Format

end Listfile
