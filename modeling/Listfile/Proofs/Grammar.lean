import Listfile.Proofs.Phrase
import Listfile.Proofs.RoundTrip

/-! The grammar of listfiles. The names of the commands of a listfile are a word of
a grammar of nested blocks (`Derives`). Such words are read by keeping a stack of
the open blocks (`follow`), which accepts exactly them (`foldlM_follow_iff`), and
the reader of statements keeps that stack in its frames and reports nothing as
long as it can go on. Hence a text is read without a report exactly if its tokens
are complete and make up phrases, the names of its commands are such a word, and
every definition has a name (`diagnostics_eq_nil_iff_grammar`). -/

namespace Listfile.Parse

open Token

/-! ### Words of nested blocks -/

/-- What the grammar derives: the names of a statement list, or of the arms of a conditional behind
its first. -/
inductive Nonterminal
  | statements
  | arms

/-- The command names of well-nested blocks. A conditional may have any number of `elseif` arms, and
behind them one `else`. -/
inductive Derives : Nonterminal → List Text → Prop
  | nil : Derives .statements []
  | plain {name : Text} {rest : List Text} (hname : ∀ k : Keyword, name ≠ k.spelling)
      (h : Derives .statements rest) : Derives .statements (name :: rest)
  | block {b : BlockKind} {body rest : List Text} (hb : b ≠ .conditional)
      (hbody : Derives .statements body) (h : Derives .statements rest) :
      Derives .statements (b.keyword :: (body ++ b.endKeyword :: rest))
  | conditional {body arms rest : List Text} (hbody : Derives .statements body)
      (harms : Derives .arms arms) (h : Derives .statements rest) :
      Derives .statements (BlockKind.conditional.keyword ::
        (body ++ (arms ++ BlockKind.conditional.endKeyword :: rest)))
  | noArm : Derives .arms []
  | elseifArm {body arms : List Text} (hbody : Derives .statements body)
      (h : Derives .arms arms) : Derives .arms (Divider.elseifArm.keyword :: (body ++ arms))
  | elseArm {body : List Text} (hbody : Derives .statements body) :
      Derives .arms (Divider.elseArm.keyword :: body)

theorem Derives.append {names more : List Text} (h : Derives .statements names)
    (hmore : Derives .statements more) : Derives .statements (names ++ more) := by
  generalize hn : Nonterminal.statements = n at h
  induction h with
  | nil => exact hmore
  | plain hname _ ih => exact .plain hname (ih hn)
  | block hb hbody _ _ ih => simpa using Derives.block hb hbody (ih hn)
  | conditional hbody harms _ _ _ ih => simpa using Derives.conditional hbody harms (ih hn)
  | noArm => contradiction
  | elseifArm => contradiction
  | elseArm => contradiction

/-! ### A stack of open blocks -/

/-- An open block, as far as it matters for what may follow. -/
structure Level where
  block : BlockKind
  /-- The block is a conditional that has come to its `else`. -/
  pastElse : Bool

/-- The open blocks, innermost first, behind one more command. -/
def follow (stack : List Level) (name : Text) : Option (List Level) :=
  match Keyword.ofName? name, stack with
  | none, _ => some stack
  | some (.opening block), _ => some (⟨block, false⟩ :: stack)
  | some (.dividing divider), ⟨.conditional, false⟩ :: outer =>
    some (⟨.conditional, divider = .elseArm⟩ :: outer)
  | some (.closing block), level :: outer => if block = level.block then some outer else none
  | _, _ => none

theorem ofName?_eq_none_iff (name : Text) :
    Keyword.ofName? name = none ↔ ∀ k : Keyword, name ≠ k.spelling := by
  constructor
  · rintro h k rfl
    simp [Keyword.ofName?_spelling] at h
  · intro h
    refine List.find?_eq_none.mpr fun k _ => ?_
    simpa using (h k).symm

/-- What a command can do to the stack. -/
theorem follow_cases {stack stack' : List Level} {name : Text}
    (h : follow stack name = some stack') :
    ((∀ k : Keyword, name ≠ k.spelling) ∧ stack' = stack) ∨
    (∃ b : BlockKind, name = b.keyword ∧ stack' = ⟨b, false⟩ :: stack) ∨
    (∃ (d : Divider) (outer : List Level), name = d.keyword ∧
      stack = ⟨.conditional, false⟩ :: outer ∧
      stack' = ⟨.conditional, d = .elseArm⟩ :: outer) ∨
    (∃ level : Level, name = level.block.endKeyword ∧ stack = level :: stack') := by
  unfold follow at h
  split at h
  · next hn => exact .inl ⟨(ofName?_eq_none_iff name).mp hn, (Option.some.inj h).symm⟩
  · next b hn => exact .inr (.inl ⟨b, spelling_of_ofName? hn, (Option.some.inj h).symm⟩)
  · next d outer hn =>
    exact .inr (.inr (.inl ⟨d, outer, spelling_of_ofName? hn, rfl, (Option.some.inj h).symm⟩))
  · next b level outer hn =>
    split at h
    · next hb =>
      obtain rfl := Option.some.inj h
      exact .inr (.inr (.inr ⟨level, hb ▸ spelling_of_ofName? hn, rfl⟩))
    · contradiction
  · contradiction

/-! ### Words are accepted -/

theorem follow_keyword (b : BlockKind) (stack : List Level) :
    follow stack b.keyword = some (⟨b, false⟩ :: stack) := by
  have hname : Keyword.ofName? b.keyword = some (.opening b) :=
    Keyword.ofName?_spelling (.opening b)
  simp [follow, hname]

theorem follow_endKeyword (b : BlockKind) (e : Bool) (outer : List Level) :
    follow (⟨b, e⟩ :: outer) b.endKeyword = some outer := by
  have hname : Keyword.ofName? b.endKeyword = some (.closing b) :=
    Keyword.ofName?_spelling (.closing b)
  simp [follow, hname]

theorem follow_divider (d : Divider) (outer : List Level) :
    follow (⟨.conditional, false⟩ :: outer) d.keyword =
      some (⟨.conditional, d = .elseArm⟩ :: outer) := by
  have hname : Keyword.ofName? d.keyword = some (.dividing d) :=
    Keyword.ofName?_spelling (.dividing d)
  simp [follow, hname]

theorem follow_plain {name : Text} (h : ∀ k : Keyword, name ≠ k.spelling) (stack : List Level) :
    follow stack name = some stack := by
  simp [follow, (ofName?_eq_none_iff name).mpr h]

/-- A statement list leaves the stack as it is, and arms leave the conditional they belong to
open. -/
def Nonterminal.Passes (names : List Text) : Nonterminal → Prop
  | .statements => ∀ stack, names.foldlM follow stack = some stack
  | .arms => ∀ outer, ∃ e, names.foldlM follow (⟨.conditional, false⟩ :: outer) =
      some (⟨.conditional, e⟩ :: outer)

theorem Derives.passes {n : Nonterminal} {names : List Text} (h : Derives n names) :
    n.Passes names := by
  induction h with
  | nil => exact fun _ => rfl
  | plain hname _ ih =>
    intro stack
    rw [List.foldlM_cons, follow_plain hname]
    exact ih stack
  | block _ _ _ ihbody ih =>
    intro stack
    simp only [List.foldlM_cons, List.foldlM_append, follow_keyword, follow_endKeyword, ihbody _,
      ih _, Option.bind_eq_bind, Option.bind_some]
  | conditional _ _ _ ihbody iharms ih =>
    intro stack
    obtain ⟨e, harms⟩ := iharms stack
    simp only [List.foldlM_cons, List.foldlM_append, follow_keyword, follow_endKeyword, ihbody _,
      harms, ih _, Option.bind_eq_bind, Option.bind_some]
  | noArm => exact fun outer => ⟨false, rfl⟩
  | elseifArm _ _ ihbody ih =>
    intro outer
    obtain ⟨e, harms⟩ := ih outer
    refine ⟨e, ?_⟩
    simpa [List.foldlM_cons, List.foldlM_append, follow_divider, ihbody _] using harms
  | elseArm _ ihbody =>
    intro outer
    refine ⟨true, ?_⟩
    simp [List.foldlM_cons, follow_divider, ihbody _]

/-! ### What is accepted is a word -/

/-- The names of an open block up to the command behind which its current arm starts. -/
inductive Opens : Level → List Text → Prop
  | opening (b : BlockKind) : Opens ⟨b, false⟩ [b.keyword]
  | dividing {names body : List Text} (d : Divider) (h : Opens ⟨.conditional, false⟩ names)
      (hbody : Derives .statements body) :
      Opens ⟨.conditional, d = .elseArm⟩ (names ++ (body ++ [d.keyword]))

/-- The names read while blocks are open, outermost first: those before the block, those of the
block up to its current arm, and those of the arm. -/
def Pushed : List Level → List Text → Prop
  | [], names => Derives .statements names
  | level :: outer, names => ∃ before header inner, names = before ++ (header ++ inner) ∧
      Pushed outer before ∧ Opens level header ∧ Derives .statements inner

theorem Pushed.append {stack : List Level} {names more : List Text} (h : Pushed stack names)
    (hmore : Derives .statements more) : Pushed stack (names ++ more) := by
  cases stack with
  | nil => exact Derives.append h hmore
  | cons level outer =>
    obtain ⟨before, header, inner, rfl, hbefore, hopens, hinner⟩ := h
    exact ⟨before, header, inner ++ more, by simp, hbefore, hopens, hinner.append hmore⟩

/-- A conditional, closed behind the arms that may still follow. -/
theorem Opens.derives_conditional {level : Level} {header : List Text} (h : Opens level header)
    (hblock : level.block = .conditional) {inner arms : List Text}
    (hinner : Derives .statements inner) (harms : Derives .arms arms)
    (hlast : level.pastElse = true → arms = []) :
    Derives .statements (header ++ (inner ++ (arms ++ [BlockKind.conditional.endKeyword]))) := by
  induction h generalizing inner arms with
  | opening b =>
    obtain rfl : b = .conditional := hblock
    exact .conditional hinner harms .nil
  | @dividing names body d _ hbody ih =>
    have hnext : Derives .arms (d.keyword :: (inner ++ arms)) := by
      cases d with
      | elseifArm => exact .elseifArm hinner harms
      | elseArm =>
        rw [hlast rfl, List.append_nil]
        exact .elseArm hinner
    simpa using ih rfl hbody hnext (by simp)

/-- A block, closed. -/
theorem Opens.derives {level : Level} {header : List Text} (h : Opens level header)
    {inner : List Text} (hinner : Derives .statements inner) :
    Derives .statements (header ++ (inner ++ [level.block.endKeyword])) := by
  by_cases hblock : level.block = .conditional
  · rw [hblock]
    exact h.derives_conditional hblock hinner .noArm fun _ => rfl
  · cases h with
    | opening b => exact .block hblock hinner .nil
    | dividing => exact absurd rfl hblock

theorem Pushed.follow {stack stack' : List Level} {names : List Text} {name : Text}
    (h : Pushed stack names) (hfollow : follow stack name = some stack') :
    Pushed stack' (names ++ [name]) := by
  rcases follow_cases hfollow with ⟨hname, rfl⟩ | ⟨b, rfl, rfl⟩ | ⟨d, outer, rfl, rfl, rfl⟩ |
    ⟨level, rfl, rfl⟩
  · exact h.append (.plain hname .nil)
  · exact ⟨names, [b.keyword], [], rfl, h, .opening b, .nil⟩
  · obtain ⟨before, header, inner, rfl, hbefore, hopens, hinner⟩ := h
    exact ⟨before, _, [], by simp, hbefore, .dividing d hopens hinner, .nil⟩
  · obtain ⟨before, header, inner, rfl, hbefore, hopens, hinner⟩ := h
    simpa using hbefore.append (hopens.derives hinner)

theorem Pushed.foldlM {stack stack' : List Level} {names more : List Text} (h : Pushed stack names)
    (hfollow : more.foldlM Parse.follow stack = some stack') : Pushed stack' (names ++ more) := by
  induction more generalizing stack names with
  | nil =>
    obtain rfl : stack = stack' := Option.some.inj hfollow
    simpa using h
  | cons name more ih =>
    rw [List.foldlM_cons] at hfollow
    obtain ⟨next, hnext, hrest⟩ := Option.bind_eq_some_iff.mp hfollow
    simpa using ih (h.follow hnext) hrest

/-- The stack is empty again behind the words of nested blocks, and behind no others. -/
theorem foldlM_follow_iff (names : List Text) :
    names.foldlM follow [] = some [] ↔ Derives .statements names := by
  constructor
  · intro h
    have hstart : Pushed [] [] := Derives.nil
    exact hstart.foldlM h
  · exact fun h => h.passes []

/-! ### Frames as levels -/

/-- Whether an arm of a conditional is its `else`, or stands behind it. -/
def Arm.pastElse : Arm → Bool
  | .first => false
  | .later before divider _ => before.otherwise.isSome || divider = .elseArm

theorem Arm.isSome_otherwise_close (arm : Arm) (opener : Command) (body : List Statement) :
    (arm.close opener body).otherwise.isSome = arm.pastElse := by
  obtain _ | ⟨before, divider, c⟩ := arm
  · rfl
  · cases divider <;> simp [Arm.close, Arm.pastElse]

def Frame.level (f : Frame) : Level :=
  ⟨f.block, match f.opened with
    | .conditional arm => arm.pastElse
    | _ => false⟩

def State.levels (st : State) : List Level := st.frames.map Frame.level

@[simp] theorem State.levels_add (st : State) (s : Statement) : (st.add s).levels = st.levels := by
  unfold State.add
  split
  · rfl
  · next hf => simp [State.levels, hf, Frame.level, Frame.block]

/-- A definition has a name. -/
def Command.Named (c : Command) : Prop :=
  ∀ kind, Keyword.ofName? c.name = some (.opening (.definition kind)) →
    (takeName c.arguments).isSome = true

theorem Moves.faults_eq {st st' : State} {content : Content} (h : Moves st content st') :
    st'.faults = st.faults := by
  cases h <;> simp

theorem State.levels_of_frames {st : State} {f : Frame} {outer : List Frame}
    (h : st.frames = f :: outer) : st.levels = f.level :: outer.map Frame.level := by
  rw [State.levels, h, List.map_cons]

/-- A command that is not reported goes on with the stack. -/
theorem Moves.follow {st st' : State} {c : Command} (h : Moves st (.command c) st') :
    follow st.levels c.name = some st'.levels ∧ c.Named := by
  cases h with
  | plain h =>
    refine ⟨?_, by simp [Command.Named, h]⟩
    rw [follow_plain ((ofName?_eq_none_iff _).mp h), State.levels_add]
  | @definition c kind name arguments h hn =>
    refine ⟨?_, fun _ _ => by simp [hn]⟩
    rw [spelling_of_ofName? h]
    exact follow_keyword (.definition kind) st.levels
  | conditional h =>
    refine ⟨?_, by simp [Command.Named, h]⟩
    rw [spelling_of_ofName? h]
    exact follow_keyword .conditional st.levels
  | @loop c kind h =>
    refine ⟨?_, by simp [Command.Named, h]⟩
    rw [spelling_of_ofName? h]
    exact follow_keyword (.loop kind) st.levels
  | @divide c divider f outer arm h hf ho he =>
    refine ⟨?_, by simp [Command.Named, h]⟩
    have hlevel : f.level = ⟨.conditional, false⟩ := by
      have hpast := arm.isSome_otherwise_close f.command f.body.reverse
      simpa [he, Frame.level, Frame.block, ho] using hpast.symm
    rw [spelling_of_ofName? h, State.levels_of_frames hf, hlevel]
    refine (follow_divider divider _).trans ?_
    simp [State.levels, Frame.level, Frame.block, Arm.pastElse, he]
  | @close c f outer h hf =>
    refine ⟨?_, by simp [Command.Named, h]⟩
    rw [spelling_of_ofName? h, State.levels_of_frames hf, State.levels_add]
    exact follow_endKeyword _ _ _

/-- As long as the stack can go on, a command is not reported. -/
theorem exists_moves_of_follow {st : State} {c : Command} {levels : List Level}
    (h : follow st.levels c.name = some levels) (hn : c.Named) :
    ∃ st', Moves st (.command c) st' := by
  unfold follow at h
  split at h
  · next hk => exact ⟨_, .plain hk⟩
  · next b hk =>
    cases b with
    | definition kind =>
      obtain ⟨⟨name, rest⟩, hname⟩ := Option.isSome_iff_exists.mp (hn kind hk)
      exact ⟨_, .definition hk hname⟩
    | conditional => exact ⟨_, .conditional hk⟩
    | loop kind => exact ⟨_, .loop hk⟩
  · next d outer hk hlevels =>
    obtain ⟨f, frames, hf, hlevel, -⟩ := List.map_eq_cons_iff.mp hlevels
    obtain ⟨arm, harm⟩ : ∃ arm, f.opened = .conditional arm := by
      have hblock := congrArg Level.block hlevel
      unfold Frame.level Frame.block at hblock
      cases ho : f.opened with
      | conditional arm => exact ⟨arm, rfl⟩
      | definition => simp [ho] at hblock
      | loop => simp [ho] at hblock
    have hpast : arm.pastElse = false := by
      simpa [Frame.level, harm] using congrArg Level.pastElse hlevel
    refine ⟨_, .divide hk hf harm ?_⟩
    rwa [← Option.not_isSome_iff_eq_none, Arm.isSome_otherwise_close, Bool.not_eq_true]
  · next b level outer hk hlevels =>
    split at h
    · next hb =>
      obtain ⟨f, frames, hf, hlevel, -⟩ := List.map_eq_cons_iff.mp hlevels
      refine ⟨_, .close ?_ hf⟩
      rw [hk, hb, ← hlevel]
      rfl
    · contradiction
  · contradiction

/-! ### Runs without a report -/

/-- Items are read without a report exactly if the stack can go on with the names of their commands
and every definition has a name. The open blocks are then those of the stack. -/
theorem foldl_take_iff {items : List Item} (hf : ∀ i ∈ items, i.faults = [])
    (hp : ∀ i ∈ items, i.content.IsPlain) {st : State} (hst : st.faults = [])
    (levels : List Level) :
    ((items.foldl State.take st).faults = [] ∧ (items.foldl State.take st).levels = levels) ↔
      ((items.filterMap (·.content.command?)).map Command.name).foldlM follow st.levels =
          some levels ∧
        ∀ c ∈ items.filterMap (·.content.command?), c.Named := by
  induction items generalizing st with
  | nil => simp [hst]
  | cons i items ih =>
    rw [List.forall_mem_cons] at hf hp
    cases hi : i.content with
    | statement s =>
      have htake : st.take i = st.add s := by simp [State.take, hi, hf.1, State.report_nil]
      have hcommands : (i :: items).filterMap (·.content.command?) =
          items.filterMap (·.content.command?) := List.filterMap_cons_none (by rw [hi]; rfl)
      rw [hcommands, List.foldl_cons, htake, ← st.levels_add s]
      exact ih hf.2 hp.2 ((State.faults_add s st).trans hst)
    | skipped =>
      rw [hi] at hp
      exact absurd hp.1 (by simp [Content.IsPlain])
    | command c =>
      have htake : st.take i = st.command c := by simp [State.take, hi, hf.1, State.report_nil]
      have hcommands : (i :: items).filterMap (·.content.command?) =
          c :: items.filterMap (·.content.command?) := List.filterMap_cons_some (by rw [hi]; rfl)
      rw [hcommands, List.foldl_cons, htake, List.map_cons, List.foldlM_cons, List.forall_mem_cons]
      constructor
      · intro h
        have hnone : (st.command c).faults = [] :=
          List.prefix_nil.mp (h.1 ▸ (st.command c).faults_foldl_take items)
        obtain ⟨hfollow, hnamed⟩ := (moves_of_command hnone).follow
        obtain ⟨hrest, hall⟩ := (ih hf.2 hp.2 hnone).mp h
        rw [hfollow]
        exact ⟨hrest, hnamed, hall⟩
      · rintro ⟨hfold, hnamed, hall⟩
        obtain ⟨next, hfollow, hrest⟩ := Option.bind_eq_some_iff.mp hfold
        obtain ⟨st', hmoves⟩ := exists_moves_of_follow hfollow hnamed
        obtain rfl := command_of_moves hmoves
        obtain rfl := Option.some.inj (hfollow.symm.trans hmoves.follow.1)
        exact (ih hf.2 hp.2 (hmoves.faults_eq.trans hst)).mpr ⟨hrest, hall⟩

/-- Plain items are read without a report exactly if the names of their commands are a word of
nested blocks and every definition has a name. -/
theorem read_faults_eq_nil_iff {items : List Item} (hf : ∀ i ∈ items, i.faults = [])
    (hp : ∀ i ∈ items, i.content.IsPlain) :
    (read [] items).faults = [] ↔
      Derives .statements ((items.filterMap (·.content.command?)).map Command.name) ∧
        ∀ c ∈ items.filterMap (·.content.command?), c.Named := by
  have hlevels : ∀ st : State, st.frames = [] ↔ st.levels = [] := fun st => by
    rw [State.levels, List.map_eq_nil_iff]
  rw [read_nil_eq, State.finish_faults_eq_nil_iff, hlevels, foldl_take_iff hf hp rfl,
    ← foldlM_follow_iff]
  rfl

/-! ### Phrases and the commands they are read as -/

theorem Phrase.ReadAs.isPlain {lines : LineIndex} {p : Phrase} {content : Content}
    (h : p.ReadAs lines content) : content.IsPlain := by
  cases h with
  | lineBreak => exact ⟨_, rfl⟩
  | lineComment => exact ⟨_, rfl⟩
  | bracketComment => exact ⟨_, rfl⟩
  | command => trivial

/-- Line breaks are no commands. -/
theorem Phrase.filterMap_dropEndings (behind : Bool) (ps : List Phrase) :
    (Phrase.dropEndings behind ps).filterMap Phrase.call? = ps.filterMap Phrase.call? := by
  induction ps generalizing behind with
  | nil => rfl
  | cons p ps ih =>
    rw [Phrase.dropEndings]
    split
    · next hend =>
      cases p with
      | lone t h => exact ih false
      | command c => simp [Phrase.isLineBreak] at hend
    · rw [List.filterMap_cons, List.filterMap_cons, ih]

theorem forall₂_call {lines : LineIndex} {ps : List Phrase} {items : List Item}
    (h : List.Forall₂ (fun (p : Phrase) (i : Item) => p.ReadAs lines i.content ∧ i.faults = [])
      ps items) :
    List.Forall₂ (fun (call : Call) (c : Command) =>
        c.identifier = call.name.text ∧ Reads lines call.inner c.arguments)
      (ps.filterMap Phrase.call?) (items.filterMap (·.content.command?)) := by
  induction h with
  | nil => exact .nil
  | @cons p i ps items hpi _ ih =>
    obtain ⟨hread, -⟩ := hpi
    generalize hcontent : i.content = content at hread
    cases hread with
    | command hc hi =>
      rw [List.filterMap_cons_some (f := Phrase.call?) rfl,
        List.filterMap_cons_some (by rw [hcontent]; rfl)]
      exact .cons ⟨hc, hi⟩ ih
    | _ =>
      rw [List.filterMap_cons_none rfl, List.filterMap_cons_none (by rw [hcontent]; rfl)]
      exact ih

/-- A command that defines a function or a macro has a literal in its list to name it by. -/
def Call.Named (call : Call) : Prop :=
  (∃ kind : DefinitionKind, call.key = kind.keyword) → HasLiteral call.inner

theorem named_iff {lines : LineIndex} {call : Call} {c : Command}
    (hname : c.identifier = call.name.text) (hi : Reads lines call.inner c.arguments) :
    call.Named ↔ c.Named := by
  have hkey : c.name = call.key := by rw [Command.name, hname, Call.key]
  have hdefines (kind : DefinitionKind) :
      Keyword.ofName? c.name = some (.opening (.definition kind)) ↔ call.key = kind.keyword := by
    rw [hkey]
    refine ⟨fun h => spelling_of_ofName? h, fun h => ?_⟩
    rw [h]
    exact Keyword.ofName?_spelling (.opening (.definition kind))
  simp only [Call.Named, Command.Named, hdefines, isSome_takeName_iff hi, forall_exists_index]

/-- Phrases are read without a report exactly if the names of their commands are a word of nested
blocks and every definition has a name. -/
theorem read_phrases_iff (lines : LineIndex) (stop : Span) {phrases : List Phrase}
    (hs : ∀ t ∈ phrases.flatMap Phrase.tokens, isSignificant t = true) :
    (read [] (items lines stop (phrases.flatMap Phrase.tokens))).faults = [] ↔
      Derives .statements ((phrases.filterMap Phrase.call?).map Call.key) ∧
        ∀ call ∈ phrases.filterMap Phrase.call?, call.Named := by
  have hread := forall₂_readAs lines stop hs false
  simp only [Bool.false_eq_true, if_false] at hread
  have hitems : ∀ i ∈ items lines stop (phrases.flatMap Phrase.tokens),
      i.content.IsPlain ∧ i.faults = [] := by
    intro i hi
    obtain ⟨p, -, hp, hf⟩ := exists_of_mem_forall₂ hread.flip hi
    exact ⟨hp.isPlain, hf⟩
  have hcalls := forall₂_call hread
  rw [Phrase.filterMap_dropEndings] at hcalls
  have hnames : (phrases.filterMap Phrase.call?).map Call.key =
      ((items lines stop (phrases.flatMap Phrase.tokens)).filterMap
        (·.content.command?)).map Command.name := by
    rw [← List.forall₂_eq_eq_eq, List.forall₂_map_left_iff, List.forall₂_map_right_iff]
    exact hcalls.imp fun call c h => by rw [Call.key, ← h.1, Command.name]
  have hnamed := forall_mem_iff_of_forall₂ (P := Call.Named) (Q := Command.Named)
    (hcalls.imp fun call c h => named_iff h.1 h.2)
  rw [read_faults_eq_nil_iff (fun i hi => (hitems i hi).2) (fun i hi => (hitems i hi).1),
    hnames, hnamed]

end Listfile.Parse

namespace Listfile

open Parse Token

/-- A text is read without a report exactly if no token lacks its terminator, its tokens are those
of a sequence of line breaks, comments and commands, the names of the commands are a word of the
grammar of nested blocks, and every command that defines a function or macro has a literal to name
it by. -/
theorem diagnostics_eq_nil_iff_grammar (text : Text) :
    (Source.parse text).diagnostics = [] ↔
      faults (scan text) = [] ∧
      ∃ phrases : List Phrase, significant text = phrases.flatMap Phrase.tokens ∧
        Derives .statements ((phrases.filterMap Phrase.call?).map Call.key) ∧
        ∀ call ∈ phrases.filterMap Phrase.call?, call.Named := by
  rw [Source.diagnostics_eq_nil_iff]
  refine and_congr_right fun hfaults => ?_
  have hs := Fit.isSignificant (fit_significant hfaults)
  constructor
  · intro hread
    have hclean := (Source.diagnostics_eq_nil_iff text).mpr ⟨hfaults, hread⟩
    obtain ⟨phrases, heq⟩ := (spanned_of_clean hclean).exists_phrases
    rw [itemsOf, heq] at hread
    exact ⟨phrases, heq, (read_phrases_iff _ _ (heq ▸ hs)).mp hread⟩
  · rintro ⟨phrases, heq, hgrammar⟩
    rw [itemsOf, heq]
    exact (read_phrases_iff _ _ (heq ▸ hs)).mpr hgrammar

end Listfile
