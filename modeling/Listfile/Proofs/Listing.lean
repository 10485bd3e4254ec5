import Listfile.Definitions
import Listfile.Proofs.Grammar
import Listfile.Proofs.Lines
import Listfile.Proofs.Retained

/-! The listed definitions, told from the commands of a text one after the other. A
stack of open blocks is kept along the commands, and a command that starts a
definition is listed where no open block is other than a conditional (`listed`).
The reader of statements keeps the same stack in its frames. The definitions
in what it has read so far, open blocks included, grow by those that a command lists
(`Moves.definitions_eq`), so that a walk through the tree of a text finds just these
(`definitions_listed`). -/

namespace Listfile

namespace Parse

/-! ### Commands that are listed -/

/-- The open blocks behind a command, innermost first. -/
def openBehind (blocks : List BlockKind) (name : Text) : List BlockKind :=
  match Keyword.ofName? name with
  | some (.opening block) => block :: blocks
  | some (.closing _) => blocks.tail
  | _ => blocks

/-- Whether no block is other than a conditional. -/
def areConditionals (blocks : List BlockKind) : Bool := blocks.all (· = .conditional)

theorem areConditionals_cons (block : BlockKind) (blocks : List BlockKind) :
    areConditionals (block :: blocks) = (decide (block = .conditional) && areConditionals blocks) :=
  rfl

/-- The kind of the definition that a command starts, if it is listed. -/
def listedKind? (blocks : List BlockKind) (name : Text) : Option DefinitionKind :=
  match Keyword.ofName? name with
  | some (.opening (.definition kind)) => if areConditionals blocks then some kind else none
  | _ => none

/-- The commands that are listed, each with the kind of the definition that it starts. -/
def listed {α : Type} (name : α → Text) (blocks : List BlockKind) : List α →
    List (DefinitionKind × α)
  | [] => []
  | c :: rest => ((listedKind? blocks (name c)).map (·, c)).toList ++
      listed name (openBehind blocks (name c)) rest

/-- What is listed depends on the names of commands only. -/
theorem forall₂_listed {α β : Type} {R : α → β → Prop} {name : α → Text} {name' : β → Text}
    (hname : ∀ a b, R a b → name a = name' b) {as : List α} {bs : List β}
    (h : List.Forall₂ R as bs) (blocks : List BlockKind) :
    List.Forall₂ (fun p q => p.1 = q.1 ∧ R p.2 q.2) (listed name blocks as)
      (listed name' blocks bs) := by
  induction h generalizing blocks with
  | nil => exact .nil
  | @cons a b as bs hab _ ih =>
    rw [listed, listed, hname a b hab]
    refine List.rel_append ?_ (ih _)
    cases listedKind? blocks (name' b) with
    | none => exact .nil
    | some kind => exact .cons ⟨rfl, hab⟩ .nil

theorem sublist_listed {α : Type} (name : α → Text) (blocks : List BlockKind) (cs : List α) :
    ((listed name blocks cs).map Prod.snd).Sublist cs := by
  induction cs generalizing blocks with
  | nil => exact .slnil
  | cons c rest ih =>
    rw [listed]
    cases listedKind? blocks (name c) with
    | none => exact (ih _).cons c
    | some kind => exact (ih _).cons_cons c

end Parse

/-! ### Definitions in trees -/

namespace Definition

theorem ofStatements_append (s t : List Statement) :
    ofStatements (s ++ t) = ofStatements s ++ ofStatements t := by
  induction s with
  | nil => rfl
  | cons a s ih => simp [ofStatements, ih]

theorem ofBranches_append (s t : List Branch) :
    ofBranches (s ++ t) = ofBranches s ++ ofBranches t := by
  induction s with
  | nil => rfl
  | cons a s ih => simp [ofBranches, ih]

theorem ofStatement_conditional (head : Branch) (elseifs : List Branch)
    (otherwise : Option Branch) :
    ofStatement (.conditional head elseifs otherwise) =
      ofBranch head ++ ofBranches elseifs ++ (otherwise.map ofBranch).getD [] := by
  cases otherwise <;> simp [ofStatement]

/-- What is a row by itself defines nothing. -/
theorem ofStatement_of_rows {s : Statement} {r : Row} (h : s.rows = [r]) : ofStatement s = [] := by
  cases s with
  | definition => simp [Statement.rows] at h
  | conditional head elseifs otherwise =>
    obtain ⟨predicate, body, location⟩ := head
    cases otherwise <;> simp [Statement.rows, Branch.rows] at h
  | _ => rfl

end Definition

namespace Parse

open Definition

/-! ### Definitions in open blocks -/

/-- A statement counts in the block that it goes into, if that is a conditional. -/
theorem Frame.definitions_body_cons {f : Frame} (h : f.Ordered) (s : Statement) :
    ofStatement { f with body := s :: f.body }.statement =
      ofStatement f.statement ++ if f.block = .conditional then ofStatement s else [] := by
  obtain ⟨c, opened, body⟩ := f
  have hbody : ofStatements (s :: body).reverse = ofStatements body.reverse ++ ofStatement s := by
    simp [ofStatements_append, ofStatements]
  cases opened with
  | definition kind name arguments => simp [statement, block, ofStatement]
  | loop kind => simp [statement, block, ofStatement]
  | conditional arm =>
    cases arm with
    | first =>
      simp only [statement, block, Arm.close, Command.branch, ofStatement_conditional, ofBranch,
        hbody]
      simp [ofBranches]
    | later before divider d =>
      have hbefore := h before divider d rfl
      cases divider with
      | elseifArm =>
        simp only [statement, block, Arm.close, Command.branch, ofStatement_conditional,
          ofBranches_append, ofBranches, ofBranch, hbody, hbefore]
        simp
      | elseArm =>
        simp only [statement, block, Arm.close, Command.branch, ofStatement_conditional, ofBranch,
          Option.map_some, Option.getD_some, hbody]
        simp

/-- The definitions in open blocks, innermost first, up to where they have been read. -/
def definitionsIn : List Frame → List Definition
  | [] => []
  | f :: outer => definitionsIn outer ++
      if areConditionals (outer.map Frame.block) then ofStatement f.statement else []

namespace State

def blocks (st : State) : List BlockKind := st.frames.map Frame.block

/-- The definitions in all that has been read. -/
def definitions (st : State) : List Definition :=
  ofStatements st.top.reverse ++ definitionsIn st.frames

theorem definitions_add {st : State} (h : st.Ordered) (s : Statement) :
    (st.add s).definitions =
      st.definitions ++ if areConditionals st.blocks then ofStatement s else [] := by
  unfold add
  split
  · next hf =>
    simp [definitions, blocks, hf, definitionsIn, areConditionals, ofStatements_append,
      ofStatements]
  · next f outer hf =>
    have hbody := Frame.definitions_body_cons (h f (by simp [hf])) s
    simp only [definitions, blocks, hf, definitionsIn, hbody, List.map_cons, areConditionals_cons,
      List.append_assoc]
    cases areConditionals (outer.map Frame.block) <;> by_cases hblock : f.block = .conditional <;>
      simp [hblock]

theorem definitions_enter (f : Frame) (st : State) :
    (st.enter f).definitions =
      st.definitions ++ if areConditionals st.blocks then ofStatement f.statement else [] :=
  (List.append_assoc ..).symm

theorem blocks_eq (st : State) : st.blocks = st.levels.map Level.block := by
  simp [blocks, levels, Function.comp_def, Frame.level]

end State

theorem openBehind_of_follow {stack stack' : List Level} {name : Text}
    (h : follow stack name = some stack') :
    openBehind (stack.map Level.block) name = stack'.map Level.block := by
  rcases follow_cases h with ⟨hname, rfl⟩ | ⟨b, rfl, rfl⟩ | ⟨d, outer, rfl, rfl, rfl⟩ |
    ⟨level, rfl, rfl⟩
  · rw [openBehind, (ofName?_eq_none_iff name).mpr hname]
  · rw [openBehind, show Keyword.ofName? b.keyword = some (.opening b) from
      Keyword.ofName?_spelling (.opening b)]
    rfl
  · rw [openBehind, show Keyword.ofName? d.keyword = some (.dividing d) from
      Keyword.ofName?_spelling (.dividing d)]
    rfl
  · rw [openBehind, show Keyword.ofName? level.block.endKeyword = some (.closing level.block) from
      Keyword.ofName?_spelling (.closing level.block)]
    rfl

/-! ### Reading -/

/-- A definition as the command that starts it tells it. -/
structure Tells (d : Definition) (p : DefinitionKind × Command) : Prop where
  kind_eq : d.kind = p.1
  name_eq : ∃ arguments, takeName p.2.arguments = some (d.name, arguments)
  line_eq : d.line = some (p.2.location.line : Int)

theorem listed_singleton {c : Command} {blocks : List BlockKind}
    (h : ∀ kind, Keyword.ofName? c.name ≠ some (.opening (.definition kind))) :
    listed Command.name blocks [c] = [] := by
  have hnone : listedKind? blocks c.name = none := by
    unfold listedKind?
    split
    · next kind hk => exact absurd hk (h kind)
    · rfl
  rw [listed, hnone]
  rfl

/-- The next arm of a conditional defines nothing yet. -/
theorem ofStatement_close_later {chain : Chain} (h : chain.otherwise = none) (opener : Command)
    (divider : Divider) (c : Command) {later : Chain}
    (hlater : (Arm.later chain divider c).close opener [] = later) :
    ofStatement (.conditional later.head later.elseifs later.otherwise) =
      ofStatement (.conditional chain.head chain.elseifs chain.otherwise) := by
  have hempty : ofBranch (c.branch []) = [] := rfl
  subst hlater
  cases divider <;>
    simp [Arm.close, ofStatement_conditional, ofBranches_append, ofBranches, hempty, h]

theorem ofStatement_divide {f : Frame} {arm : Arm} (ho : f.opened = .conditional arm)
    (he : (arm.close f.command f.body.reverse).otherwise = none) (divider : Divider)
    (c : Command) :
    ofStatement (Frame.statement ⟨f.command, .conditional
      (.later (arm.close f.command f.body.reverse) divider c), []⟩) = ofStatement f.statement := by
  rw [Frame.statement, Frame.statement, ho]
  exact ofStatement_close_later he f.command divider c rfl

/-- A move adds the definitions that its command lists. -/
theorem Moves.definitions_eq {st st' : State} {content : Content} (h : Moves st content st')
    (ho : st.Ordered) : ∃ ds, st'.definitions = st.definitions ++ ds ∧
      List.Forall₂ Tells ds (listed Command.name st.blocks content.command?.toList) := by
  cases h with
  | statement h =>
    refine ⟨[], ?_, .nil⟩
    rw [State.definitions_add ho, ofStatement_of_rows h, ite_self]
  | @plain c h =>
    refine ⟨[], ?_, ?_⟩
    · rw [State.definitions_add ho]
      exact congrArg _ (ite_self _)
    · exact listed_singleton (c := c) (by simp [h]) ▸ .nil
  | @definition c kind name arguments h hn =>
    refine ⟨_, State.definitions_enter _ st, ?_⟩
    have hlisted : listed Command.name st.blocks [c] =
        if areConditionals st.blocks then [(kind, c)] else [] := by
      rw [listed, listedKind?, h]
      cases areConditionals st.blocks <;> rfl
    change List.Forall₂ Tells _ (listed Command.name st.blocks [c])
    rw [hlisted]
    split
    · exact .cons ⟨rfl, ⟨arguments, hn⟩, rfl⟩ .nil
    · exact .nil
  | @conditional c h =>
    refine ⟨[], ?_, listed_singleton (c := c) (by simp [h]) ▸ .nil⟩
    rw [State.definitions_enter]
    exact congrArg _ (ite_self _)
  | @loop c kind h =>
    refine ⟨[], ?_, listed_singleton (c := c) (by simp [h]) ▸ .nil⟩
    rw [State.definitions_enter]
    exact congrArg _ (ite_self _)
  | @divide c divider f outer arm h hf hopened he =>
    refine ⟨[], ?_, listed_singleton (c := c) (by simp [h]) ▸ .nil⟩
    -- The arm that is closed here is one of those that come before the next.
    simp only [State.definitions, hf, definitionsIn, ofStatement_divide hopened he, List.append_nil]
  | @close c f outer h hf =>
    refine ⟨[], ?_, listed_singleton (c := c) (by simp [h]) ▸ .nil⟩
    have houter : State.Ordered { st with frames := outer } := fun g hg => ho g (by simp [hf, hg])
    -- The block counts as a statement of the blocks around it, as it did while it was open.
    rw [State.definitions_add houter, List.append_nil]
    simp only [State.definitions, State.blocks, hf, definitionsIn, List.append_assoc]
    rfl

theorem Moves.blocks_eq {st st' : State} {c : Command} (h : Moves st (.command c) st') :
    st'.blocks = openBehind st.blocks c.name := by
  rw [State.blocks_eq, State.blocks_eq, openBehind_of_follow h.follow.1]

theorem State.blocks_add (st : State) (s : Statement) : (st.add s).blocks = st.blocks := by
  rw [State.blocks_eq, State.blocks_eq, State.levels_add]

/-- The definitions in what a run without a report reads are those that its commands list. -/
theorem definitions_foldl_take {items : List Item} (hp : ∀ i ∈ items, i.content.IsPlain)
    {st : State} (ho : st.Ordered) (h : (items.foldl State.take st).faults = []) :
    ∃ ds, (items.foldl State.take st).definitions = st.definitions ++ ds ∧
      List.Forall₂ Tells ds
        (listed Command.name st.blocks (items.filterMap (·.content.command?))) := by
  induction items generalizing st with
  | nil => exact ⟨[], by simp, .nil⟩
  | cons i rest ih =>
    rw [List.foldl_cons] at h ⊢
    have hfaults : (st.take i).faults = [] :=
      List.prefix_nil.mp (h ▸ (st.take i).faults_foldl_take rest)
    have hmove := moves_of_take (hp i (by simp)) hfaults
    obtain ⟨ds, hds, htells⟩ := hmove.definitions_eq ho
    obtain ⟨more, hmore, hrest⟩ := ih (fun j hj => hp j (by simp [hj])) (hmove.ordered ho) h
    refine ⟨ds ++ more, by rw [hmore, hds, List.append_assoc], ?_⟩
    generalize hcontent : i.content = content at hmove htells
    cases content with
    | statement s =>
      have hblocks : (st.take i).blocks = st.blocks := by
        generalize st.take i = st' at hmove ⊢
        cases hmove
        exact st.blocks_add s
      rw [hblocks] at hrest
      rw [List.filterMap_cons_none (by rw [hcontent]; rfl)]
      exact List.rel_append htells hrest
    | command c =>
      rw [hmove.blocks_eq] at hrest
      rw [List.filterMap_cons_some (by rw [hcontent]; rfl), listed]
      rw [Content.command?, Option.toList_some, listed, listed, List.append_nil] at htells
      exact List.rel_append htells hrest
    | skipped => cases hmove

theorem forall₂_tells {items : List Item} (hp : ∀ i ∈ items, i.content.IsPlain)
    (h : (read [] items).faults = []) :
    List.Forall₂ Tells (ofStatements (read [] items).statements)
      (listed Command.name [] (items.filterMap (·.content.command?))) := by
  rw [read_nil_eq, State.finish_faults_eq_nil_iff] at h
  obtain ⟨hfaults, hframes⟩ := h
  have hstart : State.start.Ordered := by simp [State.Ordered, State.start]
  obtain ⟨ds, heq, htells⟩ := definitions_foldl_take hp hstart hfaults
  rw [read_nil_eq, State.finish_statements hframes]
  rw [State.definitions, hframes, definitionsIn, List.append_nil] at heq
  rw [heq]
  exact htells

/-! ### Commands and their tokens -/

theorem Phrase.sublist_names (ps : List Phrase) :
    ((ps.filterMap Phrase.call?).map Call.name).Sublist (ps.flatMap Phrase.tokens) := by
  induction ps with
  | nil => exact .slnil
  | cons p ps ih =>
    rw [List.flatMap_cons]
    cases p with
    | lone t h => exact ih.cons t
    | command c => exact (ih.trans (List.sublist_append_right ..)).cons_cons c.name

theorem Phrase.mem_flatMap_of_mem_inner {ps : List Phrase} {call : Call} {t : Token}
    (h : call ∈ ps.filterMap Phrase.call?) (ht : t ∈ call.inner) :
    t ∈ ps.flatMap Phrase.tokens := by
  obtain ⟨p, hp, hcall⟩ := List.mem_filterMap.mp h
  refine List.mem_flatMap.mpr ⟨p, hp, ?_⟩
  cases p with
  | lone => cases hcall
  | command c =>
    cases hcall
    simp [Phrase.tokens, Call.tokens, ht]

end Parse

/-! ### Order -/

/-- Tokens without gaps come in the order of their starts. -/
theorem Token.Contiguous.pairwise {start stop : Nat} {tokens : List Token}
    (h : Contiguous start stop tokens) :
    (∀ t ∈ tokens, start ≤ t.span.start) ∧
      tokens.Pairwise fun t u => t.span.start ≤ u.span.start := by
  induction tokens generalizing start with
  | nil => exact ⟨nofun, .nil⟩
  | cons t rest ih =>
    obtain ⟨rfl, hrest⟩ := h
    obtain ⟨hbound, hpairs⟩ := ih hrest
    have hle : ∀ u ∈ rest, t.span.start ≤ u.span.start := fun u hu =>
      t.span.start_le_stop.trans (hbound u hu)
    exact ⟨List.forall_mem_cons.mpr ⟨Nat.le_refl _, hle⟩, .cons hle hpairs⟩

theorem Token.pairwise_significant (text : Text) :
    (Parse.significant text).Pairwise fun t u => t.span.start ≤ u.span.start :=
  ((Reader.within_start text).contiguous_tokens.pairwise.2).filter _

/-! ### The definitions of a text -/

open Parse Token

/-- A definition as the tokens of the command that starts it tell it. -/
structure Definition.ToldBy (text : Text) (d : Definition) (p : DefinitionKind × Call) : Prop where
  kind_eq : d.kind = p.1
  /-- The name is the text of the first literal outside of all groups. -/
  name_eq : ∃ t others, takeLiteral 0 p.2.inner = some (t, others) ∧ d.name = t.bareText
  /-- The line is that of the name of the command. -/
  line_eq : d.line = some ((text.take p.2.name.span.start).count '\n' + 1 : Int)

theorem Definition.toldBy_of_tells {text : Text} {d : Definition} {kind : DefinitionKind}
    {call : Call} {c : Command} (h : Tells d (kind, c)) (hc : call.ReadAs (.ofText text) c)
    (ht : ∀ t ∈ call.inner, t.kind ≠ .lineBreak → Lexeme t.kind t.text) :
    d.ToldBy text (kind, call) := by
  obtain ⟨arguments, hname⟩ := h.name_eq
  obtain ⟨t, others, htake, hbare, -⟩ := takeLiteral_of_takeName hc.reads ht hname
  refine ⟨h.kind_eq, ⟨t, others, htake, hbare.symm⟩, ?_⟩
  rw [h.line_eq, hc.location_eq, LineIndex.line_location]
  simp

/-- Lines do not go back where the names of the commands do not. -/
theorem Definition.ToldBy.line_mono {text : Text} {d e : Definition} {p q : DefinitionKind × Call}
    (hd : d.ToldBy text p) (he : e.ToldBy text q) (h : p.2.name.span.start ≤ q.2.name.span.start) :
    ∀ m ∈ d.line, ∀ n ∈ e.line, m ≤ n := by
  rw [hd.line_eq, he.line_eq]
  rintro _ ⟨⟩ _ ⟨⟩
  have hle := LineIndex.line_location_mono text h
  rw [LineIndex.line_location, LineIndex.line_location] at hle
  omega

/-- The definitions that are found in the tree of a text without faults are those that are listed
along its commands, in their order, and their lines do not go back. -/
theorem definitions_listed (text : Text) (h : (Source.parse text).diagnostics = []) :
    ∃ phrases : List Phrase,
      (∀ others : List Phrase,
        significant text = others.flatMap Phrase.tokens ↔ others = phrases) ∧
      List.Forall₂ (Definition.ToldBy text)
        (Definition.ofStatements (Source.parse text).statements)
        (listed Call.key [] (phrases.filterMap Phrase.call?)) ∧
      (Definition.ofStatements (Source.parse text).statements).Pairwise fun d e =>
        ∀ m ∈ d.line, ∀ n ∈ e.line, m ≤ n := by
  have hfit := fit_of_clean h
  obtain ⟨phrases, heq, hcalls⟩ := (spanned_of_clean h).exists_calls
  have htells := forall₂_tells (fun i hi => (legible_of_clean h i hi).isPlain)
    ((Source.diagnostics_eq_nil_iff text).mp h).2
  have hlisted := forall₂_listed (fun call c hc => hc.key_eq) hcalls []
  have htold : List.Forall₂ (Definition.ToldBy text)
      (Definition.ofStatements (Source.parse text).statements)
      (listed Call.key [] (phrases.filterMap Phrase.call?)) := by
    rw [heq] at hfit
    have hlexemes := hfit.lexeme_of_getLast? (Phrase.getLast?_flatMap_tokens phrases)
    have hinner : ∀ p ∈ listed Call.key [] (phrases.filterMap Phrase.call?),
        ∀ t ∈ p.2.inner, t.kind ≠ .lineBreak → Lexeme t.kind t.text := fun p hp t ht =>
      hlexemes t (Phrase.mem_flatMap_of_mem_inner
        ((sublist_listed _ _ _).subset (List.mem_map_of_mem hp)) ht)
    refine forall₂_trans ?_ htells ((List.forall₂_and_left _ _).mpr ⟨hinner, hlisted⟩).flip
    rintro d ⟨kind, c⟩ ⟨kind', call⟩ hd ⟨ht, rfl, hc⟩
    exact Definition.toldBy_of_tells hd hc ht
  refine ⟨phrases, fun others => ?_, htold, ?_⟩
  · constructor
    · exact fun hothers => Phrase.flatMap_tokens_injective (hothers.symm.trans heq)
    · rintro rfl
      exact heq
  · -- the names of the commands that are listed start in the order of the tokens
    have hnames : (((listed Call.key [] (phrases.filterMap Phrase.call?)).map Prod.snd).map
        Call.name).Sublist (significant text) :=
      heq ▸ ((sublist_listed _ _ _).map Call.name).trans (Phrase.sublist_names phrases)
    have hpairs := (Token.pairwise_significant text).sublist hnames
    rw [List.pairwise_map, List.pairwise_map] at hpairs
    exact pairwise_of_forall₂ (fun d p e q hd he hpq => hd.line_mono he hpq) htold hpairs

/-- Definitions in all arms of conditionals, and some that a macro or a loop hides. -/
def nestedText : Text :=
  "macro(a)\nFunction(b)\nendfunction()\nendmacro()\n".toList ++
  "if(u)\nelseif(v)\nIF(w)\nmacro((g) \"c\" d)\nendmacro()\nENDIF()\n".toList ++
  "else()\nforeach(i)\nfunction(e)\nendfunction()\nendforeach()\n".toList ++
  "function([[f]])\nendfunction()\nendif()".toList

theorem definitions_listed_nested :
    (Source.parse nestedText).diagnostics = [] ∧
    Definition.ofStatements (Source.parse nestedText).statements =
      [⟨['a'], .macroDef, some 1⟩, ⟨['c'], .macroDef, some 8⟩, ⟨['f'], .functionDef, some 16⟩] ∧
    ∃ phrases : List Phrase, significant nestedText = phrases.flatMap Phrase.tokens ∧
      (listed Call.key [] (phrases.filterMap Phrase.call?)).map Prod.fst =
        [.macroDef, .macroDef, .functionDef] := by
  have h : (Source.parse nestedText).diagnostics = [] := by decide +kernel
  have hds : Definition.ofStatements (Source.parse nestedText).statements =
      [⟨['a'], .macroDef, some 1⟩, ⟨['c'], .macroDef, some 8⟩, ⟨['f'], .functionDef, some 16⟩] := by
    decide +kernel
  obtain ⟨phrases, hphrases, htold, -⟩ := definitions_listed nestedText h
  refine ⟨h, hds, phrases, (hphrases phrases).mpr rfl, ?_⟩
  have hkinds : (Definition.ofStatements (Source.parse nestedText).statements).map
      Definition.kind = (listed Call.key [] (phrases.filterMap Phrase.call?)).map Prod.fst := by
    rw [← List.forall₂_eq_eq_eq, List.forall₂_map_left_iff, List.forall₂_map_right_iff]
    exact htold.imp fun d p hd => hd.kind_eq
  rw [← hkinds, hds]
  rfl

end Listfile
