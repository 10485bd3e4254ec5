import Listfile.Proofs.RoundTrip

/-! How deeply a formatted text nests. The parentheses of a text without faults
nest as deeply as the groups in its commands do (`parenDepth_le_iff`), and
formatting adds neither groups nor blocks. So a formatted text nests no deeper
than its source, and if the source is not too deep to be read, then neither is
the formatted text, whatever the limit (`parseWithin_format`). -/

namespace Listfile

open Parse Token Layout

/-! ### Groups -/

mutual

/-- The deepest nesting of groups in an argument. -/
def Argument.depth : Argument → Nat
  | .group arguments => Argument.depthAll arguments + 1
  | _ => 0

def Argument.depthAll : List Argument → Nat
  | [] => 0
  | a :: rest => max a.depth (Argument.depthAll rest)

end

mutual

theorem Argument.depth_plain (f : Text → Text) : ∀ a : Argument, (a.plain f).depth = a.depth
  | .unquoted _ | .quoted _ | .bracket _ _ _ | .lineComment _ _ | .bracketComment _ _ _
  | .unknown => rfl
  | .group arguments => by
    rw [Argument.plain, Argument.depth, Argument.depth, Argument.depthAll_plainAll f arguments]

theorem Argument.depthAll_plainAll (f : Text → Text) :
    ∀ list : List Argument, Argument.depthAll (Argument.plainAll f list) = Argument.depthAll list
  | [] => rfl
  | a :: rest => by
    rw [Argument.plainAll, Argument.depthAll, Argument.depthAll, Argument.depth_plain f a,
      Argument.depthAll_plainAll f rest]

end

/-- The name of a definition is no group. -/
theorem depthAll_takeName {list rest : List Argument} {name : Text}
    (h : takeName list = some (name, rest)) : Argument.depthAll rest ≤ Argument.depthAll list := by
  induction list generalizing rest with
  | nil => simp [takeName] at h
  | cons a list ih =>
    rw [takeName] at h
    split at h
    · cases h
      exact Nat.le_max_right ..
    · obtain ⟨⟨name', rest'⟩, hrest, heq⟩ := Option.map_eq_some_iff.mp h
      cases heq
      have hle := ih hrest
      simp only [Argument.depthAll]
      omega

/-- The deepest nesting of the parentheses of an item. -/
def Parse.Content.depth : Content → Nat
  | .command c => Argument.depthAll c.arguments + 1
  | _ => 0

/-! ### Parentheses -/

theorem le_parenDepth (level : Nat) (tokens : List Token) : level ≤ parenDepth level tokens := by
  cases tokens with
  | nil => exact Nat.le_refl level
  | cons t rest => exact Nat.le_max_left ..

/-- A token that is no parenthesis. -/
theorem parenLevel_of_ne {t : Token} (ho : t.kind ≠ .openParen) (hc : t.kind ≠ .closeParen)
    (level : Nat) : parenLevel level t = level := by
  unfold parenLevel
  split <;> first | contradiction | rfl

theorem parenDepth_cons {t : Token} (ho : t.kind ≠ .openParen) (hc : t.kind ≠ .closeParen)
    (level : Nat) (rest : List Token) :
    parenDepth level (t :: rest) = parenDepth level rest := by
  rw [parenDepth, parenLevel_of_ne ho hc]
  exact Nat.max_eq_right (le_parenDepth level rest)

theorem parenDepth_open {t : Token} (h : t.kind = .openParen) (level : Nat) (rest : List Token) :
    parenDepth level (t :: rest) = parenDepth (level + 1) rest := by
  have hle := le_parenDepth (level + 1) rest
  simp only [parenDepth, parenLevel, h]
  omega

theorem parenDepth_close {t : Token} (h : t.kind = .closeParen) (level : Nat)
    (rest : List Token) :
    parenDepth (level + 1) (t :: rest) = max (level + 1) (parenDepth level rest) := by
  simp only [parenDepth, parenLevel, h, Nat.add_sub_cancel]

/-- The tokens of arguments go as deep as the arguments, and come back. -/
theorem parenDepth_of_reads {lines : LineIndex} {tokens : List Token} {list : List Argument}
    (h : Reads lines tokens list) (level : Nat) (rest : List Token) :
    parenDepth level (tokens ++ rest) =
      max (level + Argument.depthAll list) (parenDepth level rest) := by
  induction h generalizing level rest with
  | nil => exact (Nat.max_eq_right (le_parenDepth level rest)).symm
  | lineBreak hk _ ih =>
    rw [List.cons_append, parenDepth_cons (by simp [hk]) (by simp [hk]), ih]
  | @leaf t a ts as ha _ ih =>
    obtain ⟨ho, hc⟩ := kind_of_argument? ha
    have hdepth : a.depth = 0 := by
      cases a with
      | group arguments =>
        simp only [argument?] at ha
        split at ha <;> cases ha
      | _ => rfl
    rw [List.cons_append, parenDepth_cons ho hc, ih, Argument.depthAll, hdepth, Nat.zero_max]
  | @group o c inner ts xs as ho hc _ _ ihi ih =>
    have hle := le_parenDepth level rest
    rw [List.cons_append, List.append_assoc, List.cons_append, parenDepth_open ho, ihi,
      parenDepth_close hc, ih, Argument.depthAll, Argument.depth]
    omega

theorem parenDepth_of_spans {lines : LineIndex} {tokens : List Token} {content : Content}
    (h : Spans lines tokens content) (rest : List Token) :
    parenDepth 0 (tokens ++ rest) = max content.depth (parenDepth 0 rest) := by
  cases h with
  | lineBreak hk =>
    rw [List.singleton_append, parenDepth_cons (by simp [hk]) (by simp [hk])]
    exact (Nat.zero_max _).symm
  | lineComment hk hu =>
    rw [List.cons_append, List.singleton_append, parenDepth_cons (by simp [hk]) (by simp [hk]),
      parenDepth_cons (by simp [hu]) (by simp [hu])]
    exact (Nat.zero_max _).symm
  | bracketComment hk =>
    rw [List.singleton_append, parenDepth_cons (by simp [hk]) (by simp [hk])]
    exact (Nat.zero_max _).symm
  | @command t p q inner list span hk _ hp hq hi =>
    have hle := le_parenDepth 0 rest
    rw [List.cons_append, List.cons_append, List.append_assoc, List.singleton_append,
      parenDepth_cons (by simp [hk]) (by simp [hk]), parenDepth_open hp, parenDepth_of_reads hi,
      parenDepth_close hq]
    simp only [Content.depth]
    omega

/-- The parentheses of a text without faults nest as deeply as those of its items. -/
theorem parenDepth_le_iff {lines : LineIndex} {tokens : List Token} {items : List Item}
    (h : Spanned lines tokens items) (n : Nat) :
    parenDepth 0 tokens ≤ n ↔ ∀ i ∈ items, i.content.depth ≤ n := by
  induction h with
  | nil => simp [parenDepth]
  | last hk hc _ =>
    rw [List.forall_mem_singleton, hc, parenDepth_cons (by simp [hk]) (by simp [hk])]
    exact Iff.rfl
  | cons hc _ _ ih =>
    rw [parenDepth_of_spans hc, List.forall_mem_cons, ← ih, Nat.max_le]

/-! ### The depth of a formatted text -/

/-- What is read back from a row goes no deeper than the item that the row was read from. -/
theorem depth_of_agrees {f : Text → Text} {r : Row} {content content' : Content}
    (h : Agrees r content) (hl : content.Legible)
    (hc : ∀ block name list, r = .call (some (.closing block)) name list →
      Argument.depthAll list = 0)
    (he : Echoes (r.plain f) content') : content'.depth ≤ content.depth := by
  have hcall : ∀ role name list, r = .call role name list →
      content'.depth = Argument.depthAll list + 1 := by
    rintro role name list rfl
    cases he with
    | call _ hlist =>
      have hdepth := congrArg Argument.depthAll hlist
      rw [Argument.depthAll_plainAll, Argument.depthAll_plainAll] at hdepth
      rw [Content.depth, hdepth]
  cases h with
  | @statement s r h =>
    cases s <;> first | contradiction | skip
    all_goals
      cases h
      cases he
      exact Nat.le_refl 0
  | plain => exact (hcall _ _ _ rfl).le
  | definition _ hn =>
    have hle := depthAll_takeName hn
    rw [hcall _ _ _ rfl]
    simp only [Content.depth, Argument.depthAll, Argument.depth]
    omega
  | opening => exact (hcall _ _ _ rfl).le
  | dividing => exact (hcall _ _ _ rfl).le
  | closing =>
    rw [hcall _ _ _ rfl, hc _ _ _ rfl, Content.depth]
    omega

section Format
variable {text : Text} (h : (Source.parse text).diagnostics = []) (hn : NamesStand text)
  (s : Style)
include h hn

/-- Formatting adds no nesting. -/
theorem depth_format :
    (Source.parse ((Source.parse text).format s)).depth ≤ (Source.parse text).depth := by
  have hclean := (essence_format h hn s).1
  have hparens : parenDepth 0 (significant ((Source.parse text).format s)) ≤
      parenDepth 0 (significant text) := by
    rw [parenDepth_le_iff (spanned_of_clean hclean)]
    intro j hj
    obtain ⟨r, hr, hechoes, -⟩ := exists_of_mem_forall₂ (echoes_format h hn s).1.flip hj
    rcases mem_of_mem_settle hr with rfl | hr
    · generalize j.content = content at hechoes
      cases hechoes
      exact Nat.zero_le _
    · obtain ⟨content, hmem, hagrees⟩ := exists_of_mem_forall₂ (agrees_of_clean h) hr
      obtain ⟨i, hi, rfl⟩ := List.mem_map.mp hmem
      have hi' := (parenDepth_le_iff (spanned_of_clean h) _).mp (Nat.le_refl _) i hi
      refine (depth_of_agrees hagrees (legible_of_clean h i hi) ?_ hechoes).trans hi'
      rintro block name list rfl
      rcases Statement.closesNamed_rowsAll _ block name list hr with rfl | ⟨_, _, rfl, -⟩ <;> rfl
  have hblocks := (read_format h hn s).2.2
  simp only [Source.parse] at hparens hblocks ⊢
  omega

/-- A source that is read is formatted to a text that is read. -/
theorem parseWithin_format {limit : Nat} (hdepth : (Source.parse text).depth ≤ limit) :
    Source.parseWithin limit ((Source.parse text).format s) =
      some (Source.parse ((Source.parse text).format s)) :=
  if_pos ((depth_format h hn s).trans hdepth)

end Format

theorem Source.parseWithin_eq_some_iff {limit : Nat} {text : Text} {source : Source} :
    Source.parseWithin limit text = some source ↔
      source = Source.parse text ∧ (Source.parse text).depth ≤ limit := by
  simp only [Source.parseWithin]
  split
  · next h => simp [h, eq_comm]
  · next h => simp [h]

end Listfile
