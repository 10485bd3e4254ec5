import Listfile.Proofs.Blocks

/-! Two item lists that differ only in line breaks, in places and in the texts of
line comments are folded in lockstep. Their states stay alike: the same blocks
are open, with the same names and arguments, and they hold the same statements
but for line breaks. So if the one list is read without a report, then so is the
other, and their trees have one essence and one depth (`read_of_alike`). The
functions `f` and `g` are applied to the texts of line comments on the two sides. -/

namespace Listfile.Parse

variable (f g : Text → Text)

/-! ### States that are alike -/

def Chain.Alike (a b : Chain) : Prop :=
  a.head.plain f = b.head.plain g ∧ Branch.plainAll f a.elseifs = Branch.plainAll g b.elseifs ∧
    a.otherwise.map (·.plain f) = b.otherwise.map (·.plain g)

inductive Arm.Alike : Arm → Arm → Prop
  | first : Arm.Alike .first .first
  | later {a b : Chain} {divider : Divider} {c d : Command} (hchain : a.Alike f g b)
      (hargs : Argument.plainAll f c.arguments = Argument.plainAll g d.arguments) :
      Arm.Alike (.later a divider c) (.later b divider d)

/-- Open blocks that are alike. What a definition keeps of its command is told by its name and
arguments. -/
inductive Frame.Alike : Frame → Frame → Prop
  | definition {c d : Command} {kind : DefinitionKind} {name : Text} {as bs : List Argument}
      {body body' : List Statement}
      (hargs : Argument.plainAll f as = Argument.plainAll g bs)
      (hbody : Statement.essence f body = Statement.essence g body') :
      Frame.Alike ⟨c, .definition kind name as, body⟩ ⟨d, .definition kind name bs, body'⟩
  | conditional {c d : Command} {arm arm' : Arm} {body body' : List Statement}
      (hargs : Argument.plainAll f c.arguments = Argument.plainAll g d.arguments)
      (harm : arm.Alike f g arm')
      (hbody : Statement.essence f body = Statement.essence g body') :
      Frame.Alike ⟨c, .conditional arm, body⟩ ⟨d, .conditional arm', body'⟩
  | loop {c d : Command} {kind : LoopKind} {body body' : List Statement}
      (hargs : Argument.plainAll f c.arguments = Argument.plainAll g d.arguments)
      (hbody : Statement.essence f body = Statement.essence g body') :
      Frame.Alike ⟨c, .loop kind, body⟩ ⟨d, .loop kind, body'⟩

structure State.Alike (st st' : State) : Prop where
  frames : List.Forall₂ (Frame.Alike f g) st.frames st'.frames
  top : Statement.essence f st.top = Statement.essence g st'.top
  faults : st.faults = st'.faults
  depth : st.depth = st'.depth

/-- Commands that do the same to the open blocks. -/
def Command.Alike (c d : Command) : Prop :=
  Keyword.ofName? c.name = Keyword.ofName? d.name ∧
    match Keyword.ofName? c.name with
    | none => c.identifier = d.identifier ∧
        Argument.plainAll f c.arguments = Argument.plainAll g d.arguments
    | some (.opening (.definition _)) =>
      (takeName c.arguments).map (fun p => (p.1, Argument.plainAll f p.2)) =
        (takeName d.arguments).map (fun p => (p.1, Argument.plainAll g p.2))
    | some (.closing _) => True
    | _ => Argument.plainAll f c.arguments = Argument.plainAll g d.arguments

inductive Content.Alike : Content → Content → Prop
  | statement {s t : Statement} {r : Row} (h : Statement.essence f [s] = Statement.essence g [t])
      (hr : t.rows = [r]) : Content.Alike (.statement s) (.statement t)
  | command {c d : Command} (h : c.Alike f g d) : Content.Alike (.command c) (.command d)

variable {f g}

theorem Branch.plain_branch {c d : Command}
    (hargs : Argument.plainAll f c.arguments = Argument.plainAll g d.arguments)
    {body body' : List Statement} (hbody : Statement.essence f body = Statement.essence g body') :
    (c.branch body).plain f = (d.branch body').plain g := by
  simp [Command.branch, Branch.plain, hargs, hbody]

/-- Complete arms that are alike, once the current arm is complete as well. -/
theorem Arm.Alike.close {arm arm' : Arm} (h : arm.Alike f g arm') {c d : Command}
    (hargs : Argument.plainAll f c.arguments = Argument.plainAll g d.arguments)
    {body body' : List Statement} (hbody : Statement.essence f body = Statement.essence g body') :
    (arm.close c body).Alike f g (arm'.close d body') := by
  cases h with
  | first => simp [Arm.close, Chain.Alike, Branch.plain_branch hargs hbody, Branch.plainAll]
  | later hchain hargs' =>
    next a b divider c' d' =>
    obtain ⟨hhead, helseifs, hother⟩ := hchain
    have hbranch := Branch.plain_branch hargs' hbody
    cases divider with
    | elseifArm =>
      simp only [Branch.plainAll_eq_map] at helseifs
      simp [Arm.close, Chain.Alike, hhead, helseifs, hother, hbranch, Branch.plainAll_eq_map]
    | elseArm => simp [Arm.close, Chain.Alike, hhead, helseifs, hbranch]

theorem Chain.Alike.plain_conditional {a b : Chain} (h : a.Alike f g b) :
    (Statement.conditional a.head a.elseifs a.otherwise).plain f =
      (Statement.conditional b.head b.elseifs b.otherwise).plain g := by
  obtain ⟨head, elseifs, otherwise⟩ := a
  obtain ⟨head', elseifs', otherwise'⟩ := b
  obtain ⟨hhead, helseifs, hother⟩ := h
  cases otherwise <;> cases otherwise' <;> simp_all [Statement.plain]

theorem Statement.essence_reverse_congr {body body' : List Statement}
    (h : Statement.essence f body = Statement.essence g body') :
    Statement.essence f body.reverse = Statement.essence g body'.reverse := by
  rw [Statement.essence_reverse, Statement.essence_reverse, h]

theorem Frame.Alike.block {a b : Frame} (h : a.Alike f g b) : a.block = b.block := by
  cases h <;> rfl

/-- Blocks that are alike become the same statement. -/
theorem Frame.Alike.statement {a b : Frame} (h : a.Alike f g b) :
    Statement.essence f [a.statement] = Statement.essence g [b.statement] := by
  cases h with
  | definition hargs hbody =>
    simp [Frame.statement, Statement.essence, Statement.isLineBreak, Statement.plain, hargs,
      Statement.essence_reverse, hbody]
  | conditional hargs harm hbody =>
    have := (harm.close hargs (Statement.essence_reverse_congr hbody)).plain_conditional
    simpa [Frame.statement, Statement.essence, Statement.isLineBreak] using this
  | loop hargs hbody =>
    simp [Frame.statement, Statement.essence, Statement.isLineBreak, Statement.plain, hargs,
      Statement.essence_reverse, hbody]

theorem Frame.Alike.essence_body {a b : Frame} (h : a.Alike f g b) :
    Statement.essence f a.body = Statement.essence g b.body := by
  cases h <;> assumption

theorem Frame.Alike.withBody {a b : Frame} (h : a.Alike f g b) {body body' : List Statement}
    (hbody : Statement.essence f body = Statement.essence g body') :
    Frame.Alike f g { a with body := body } { b with body := body' } := by
  cases h with
  | definition hargs _ => exact .definition hargs hbody
  | conditional hargs harm _ => exact .conditional hargs harm hbody
  | loop hargs _ => exact .loop hargs hbody

/-- Statements that are alike go to the end of the innermost blocks. -/
theorem State.Alike.add {st st' : State} (h : st.Alike f g st') {s t : Statement}
    (hs : Statement.essence f [s] = Statement.essence g [t]) :
    (st.add s).Alike f g (st'.add t) := by
  obtain ⟨frames, top, faults, depth⟩ := st
  obtain ⟨frames', top', faults', depth'⟩ := st'
  obtain ⟨hframes, htop, hfaults, hdepth⟩ := h
  cases hframes with
  | nil =>
    refine ⟨.nil, ?_, hfaults, hdepth⟩
    rw [State.add, State.add, Statement.essence_cons f s, Statement.essence_cons g t, hs, htop]
  | cons hfirst hrest =>
    refine ⟨.cons (hfirst.withBody ?_) hrest, htop, hfaults, hdepth⟩
    rw [Statement.essence_cons f s, Statement.essence_cons g t, hs, hfirst.essence_body]

theorem Statement.essence_lineBreak_cons {s : Statement} (hs : s.isLineBreak = true)
    (list : List Statement) : Statement.essence f (s :: list) = Statement.essence f list := by
  simp [Statement.essence, hs]

/-- A line break leaves no trace. -/
theorem State.Alike.add_lineBreak {st st' : State} (h : st.Alike f g st') {s : Statement}
    (hs : s.isLineBreak = true) : (st.add s).Alike f g st' := by
  obtain ⟨frames, top, faults, depth⟩ := st
  obtain ⟨frames', top', faults', depth'⟩ := st'
  obtain ⟨hframes, htop, hfaults, hdepth⟩ := h
  cases hframes with
  | nil => exact ⟨.nil, (Statement.essence_lineBreak_cons hs _).trans htop, hfaults, hdepth⟩
  | cons hfirst hrest =>
    have hbody := (Statement.essence_lineBreak_cons hs _).trans hfirst.essence_body
    exact ⟨.cons (hfirst.withBody hbody) hrest, htop, hfaults, hdepth⟩

theorem State.Alike.lineBreak_add {st st' : State} (h : st.Alike f g st') {t : Statement}
    (ht : t.isLineBreak = true) : st.Alike f g (st'.add t) := by
  obtain ⟨frames, top, faults, depth⟩ := st
  obtain ⟨frames', top', faults', depth'⟩ := st'
  obtain ⟨hframes, htop, hfaults, hdepth⟩ := h
  cases hframes with
  | nil => exact ⟨.nil, htop.trans (Statement.essence_lineBreak_cons ht _).symm, hfaults, hdepth⟩
  | cons hfirst hrest =>
    have hbody := hfirst.essence_body.trans (Statement.essence_lineBreak_cons ht _).symm
    exact ⟨.cons (hfirst.withBody hbody) hrest, htop, hfaults, hdepth⟩

theorem State.Alike.enter {st st' : State} (h : st.Alike f g st') {a b : Frame}
    (hab : a.Alike f g b) : (st.enter a).Alike f g (st'.enter b) := by
  refine ⟨.cons hab h.frames, h.top, h.faults, ?_⟩
  rw [State.enter, State.enter, h.depth, h.frames.length_eq]

/-- Where one state can move, the other can as well, and the next states are alike. -/
theorem State.Alike.move {st st' next : State} (h : st.Alike f g st') {content content' : Content}
    (hm : Moves st content next) (hc : content.Alike f g content') :
    ∃ next', Moves st' content' next' ∧ next.Alike f g next' := by
  cases hc with
  | statement hs hr =>
    cases hm
    exact ⟨_, .statement hr, h.add hs⟩
  | command hcommand =>
    next c d =>
    obtain ⟨hname, hcommand⟩ := hcommand
    cases hm with
    | plain hk =>
      simp only [hk] at hcommand
      refine ⟨_, .plain (hname ▸ hk), h.add ?_⟩
      simp [Statement.essence, Statement.isLineBreak, Statement.plain, hcommand]
    | definition hk hn =>
      simp only [hk, hn, Option.map_some] at hcommand
      obtain ⟨⟨name, bs⟩, hn', heq⟩ := Option.map_eq_some_iff.mp hcommand.symm
      obtain ⟨rfl, hargs⟩ := Prod.mk.inj heq
      exact ⟨_, .definition (hname ▸ hk) hn', h.enter (.definition hargs.symm rfl)⟩
    | conditional hk =>
      simp only [hk] at hcommand
      exact ⟨_, .conditional (hname ▸ hk), h.enter (.conditional hcommand .first rfl)⟩
    | loop hk =>
      simp only [hk] at hcommand
      exact ⟨_, .loop (hname ▸ hk), h.enter (.loop hcommand rfl)⟩
    | divide hk hf ho he =>
      simp only [hk] at hcommand
      obtain ⟨b, outer', hfirst, hrest, hf'⟩ := List.forall₂_cons_left_iff.mp (hf ▸ h.frames)
      cases hfirst with
      | definition => cases ho
      | loop => cases ho
      | conditional hargs harm hbody =>
        cases ho
        have hreverse := Statement.essence_reverse_congr hbody
        have hchain := harm.close hargs hreverse
        have hother := hchain.2.2
        rw [he, Option.map_none, eq_comm, Option.map_eq_none_iff] at hother
        refine ⟨_, .divide (hname ▸ hk) hf' rfl hother, ?_, h.top, h.faults, h.depth⟩
        exact .cons (.conditional hargs (.later hchain hcommand) rfl) hrest
    | close hk hf =>
      obtain ⟨b, outer', hfirst, hrest, hf'⟩ := List.forall₂_cons_left_iff.mp (hf ▸ h.frames)
      rw [hname, hfirst.block] at hk
      have houter : State.Alike f g { st with frames := _ } { st' with frames := outer' } :=
        ⟨hrest, h.top, h.faults, h.depth⟩
      exact ⟨_, .close hk hf', houter.add hfirst.statement⟩

/-! ### Runs -/

def Content.isLineBreak : Content → Bool
  | .statement s => s.isLineBreak
  | _ => false

theorem take_lineBreak {i : Item} (hi : i.faults = []) (hb : i.content.isLineBreak = true)
    (st : State) : ∃ s : Statement, s.isLineBreak = true ∧ st.take i = st.add s := by
  cases hc : i.content with
  | statement s => exact ⟨s, by simpa [hc, Content.isLineBreak] using hb, by
      simp [State.take, hc, hi, State.report_nil]⟩
  | command c => simp [hc, Content.isLineBreak] at hb
  | skipped => simp [hc, Content.isLineBreak] at hb

/-- Line breaks on one side alone. -/
theorem State.Alike.foldl_lineBreaks {st st' : State} (h : st.Alike f g st') {items : List Item}
    (hi : ∀ i ∈ items, i.faults = []) (hb : ∀ i ∈ items, i.content.isLineBreak = true) :
    st.Alike f g (items.foldl State.take st') := by
  induction items generalizing st' with
  | nil => exact h
  | cons i rest ih =>
    obtain ⟨s, hs, htake⟩ := take_lineBreak (hi i (by simp)) (hb i (by simp)) st'
    rw [List.foldl_cons, htake]
    exact ih (h.lineBreak_add hs) (fun j hj => hi j (by simp [hj])) fun j hj => hb j (by simp [hj])

/-- Items that are alike but for line breaks lead to states that are alike. -/
theorem State.Alike.foldl {items items' : List Item} {st st' : State} (h : st.Alike f g st')
    (hp : ∀ i ∈ items, i.content.IsPlain) (hfaults : (items.foldl State.take st).faults = [])
    (hi' : ∀ i ∈ items', i.faults = [])
    (hitems : List.Forall₂ (fun i j => i.content.Alike f g j.content)
      (items.filter (!·.content.isLineBreak)) (items'.filter (!·.content.isLineBreak))) :
    (items.foldl State.take st).Alike f g (items'.foldl State.take st') := by
  induction items generalizing st st' items' with
  | nil =>
    refine h.foldl_lineBreaks hi' fun i hi => ?_
    have hnil := List.filter_eq_nil_iff.mp (List.forall₂_nil_left_iff.mp hitems) i hi
    simpa using hnil
  | cons i rest ih =>
    rw [List.foldl_cons] at hfaults ⊢
    have hprest : ∀ j ∈ rest, j.content.IsPlain := fun j hj => hp j (by simp [hj])
    have htake : (st.take i).faults = [] :=
      List.prefix_nil.mp (hfaults ▸ (st.take i).faults_foldl_take rest)
    have hi : i.faults = [] := by
      have := htake ▸ st.faults_take i
      rw [List.prefix_nil, List.append_eq_nil_iff] at this
      exact this.2
    cases hb : i.content.isLineBreak with
    | true =>
      obtain ⟨s, hs, hadd⟩ := take_lineBreak hi hb st
      rw [List.filter_cons_of_neg (by simp [hb])] at hitems
      exact ih (hadd ▸ h.add_lineBreak hs) hprest hfaults hi' hitems
    | false =>
      rw [List.filter_cons_of_pos (by simp [hb])] at hitems
      obtain ⟨j, more, hij, hrest, heq⟩ := List.forall₂_cons_left_iff.mp hitems
      -- the partner of `i` stands behind line breaks
      obtain ⟨breaks, rest', rfl, hbreaks, hj, hmore⟩ := List.filter_eq_cons_iff.mp heq
      have hmove := moves_of_take (hp i (by simp)) htake
      have halike : st.Alike f g (breaks.foldl State.take st') :=
        h.foldl_lineBreaks (fun k hk => hi' k (by simp [hk])) fun k hk => by
          simpa using hbreaks k hk
      obtain ⟨next', hmove', hnext⟩ := halike.move hmove hij
      rw [List.foldl_append, List.foldl_cons, take_of_moves (hi' j (by simp)) hmove']
      exact ih hnext hprest hfaults (fun k hk => hi' k (by simp [hk])) (hmore ▸ hrest)

/-- Where one of two such item lists is read without a report, the other is as well, and to a tree
of the same essence and depth. -/
theorem read_of_alike {items items' : List Item} (hp : ∀ i ∈ items, i.content.IsPlain)
    (hfaults : (read [] items).faults = []) (hi' : ∀ i ∈ items', i.faults = [])
    (hitems : List.Forall₂ (fun i j => i.content.Alike f g j.content)
      (items.filter (!·.content.isLineBreak)) (items'.filter (!·.content.isLineBreak))) :
    (read [] items').faults = [] ∧
      Statement.essence g (read [] items').statements =
        Statement.essence f (read [] items).statements ∧
      (read [] items').depth = (read [] items).depth := by
  have hstart : State.start.Alike f g State.start := ⟨.nil, rfl, rfl, rfl⟩
  rw [read_nil_eq, State.finish_faults_eq_nil_iff] at hfaults
  obtain ⟨hnone, hframes⟩ := hfaults
  have h := hstart.foldl hp hnone hi' hitems
  have hframes' := List.forall₂_nil_left_iff.mp (hframes ▸ h.frames)
  rw [read_nil_eq, read_nil_eq, State.finish_faults_eq_nil_iff, State.finish_statements hframes,
    State.finish_statements hframes']
  exact ⟨⟨h.faults ▸ hnone, hframes'⟩, (Statement.essence_reverse_congr h.top).symm, h.depth.symm⟩

end Listfile.Parse
