import Listfile.Proofs.Nesting

/-! What formatting keeps. A text without faults in which the definitions are
named by unquoted arguments is formatted to a text without faults that has the
same tree but for line breaks, places and the blanks around comments
(`format_preserves_tree`), and formatting that text again changes nothing
(`format_idempotent`). Both hold for every style, and for every limit that there may
be to the nesting of what is read. -/

namespace Listfile

open Parse Token Layout

/-! ### Names -/

/-- Whether a command defines nothing, or something whose name is an unquoted argument. The name is
the first literal among the arguments. -/
def Parse.Content.nameUnquoted : Content → Bool
  | .command c =>
    match Keyword.ofName? c.name, c.arguments.find? (·.literal?.isSome) with
    | some (.opening (.definition _)), some (.unquoted _) => true
    | some (.opening (.definition _)), some _ => false
    | _, _ => true
  | _ => true

/-- The definitions of a text are named by unquoted arguments. -/
def NamesUnquoted (text : Text) : Prop := ∀ i ∈ itemsOf text, i.content.nameUnquoted = true

/-- A name that is an unquoted argument can be written as one. -/
theorem nameStands_of_nameUnquoted {content : Content} (hl : content.Legible)
    (h : content.nameUnquoted = true) : content.nameStands = true := by
  cases content with
  | command c =>
    simp only [Content.nameStands]
    split
    · next kind name rest hk hn =>
      obtain ⟨a, ha, hname⟩ := find?_of_takeName hn
      have hlegible := (Argument.legibleAll_iff _).mp hl.2 a (List.mem_of_find?_eq_some ha)
      simp only [Content.nameUnquoted, hk, ha] at h
      cases a with
      | unquoted text =>
        obtain rfl : text = name := Option.some.inj hname
        exact (standsUnquoted_iff text).mpr hlegible
      | _ => simp at h
    · rfl
  | _ => rfl

theorem namesStand_of_namesUnquoted {text : Text} (h : (Source.parse text).diagnostics = [])
    (hn : NamesUnquoted text) : NamesStand text := fun i hi =>
  nameStands_of_nameUnquoted (legible_of_clean h i hi) (hn i hi)

/-! ### The tree -/

/-- Formatting keeps the program: the formatted text is read, without a report, to the same tree but
for line breaks, places and trimmed comments. -/
theorem format_preserves_tree (s : Style) (limit : Nat) (text : Text) (source : Source)
    (hread : Source.parseWithin limit text = some source) (h : source.diagnostics = [])
    (hn : NamesUnquoted text) :
    ∃ again, Source.parseWithin limit (source.format s) = some again ∧ again.diagnostics = [] ∧
      Statement.essence (commentForm s) again.statements =
        Statement.essence (commentForm s) source.statements := by
  obtain ⟨rfl, hdepth⟩ := Source.parseWithin_eq_some_iff.mp hread
  have hstand := namesStand_of_namesUnquoted h hn
  obtain ⟨hclean, hessence⟩ := essence_format h hstand s
  refine ⟨_, parseWithin_format h hstand s hdepth, hclean, ?_⟩
  have hform : commentForm s ∘ settleText s = commentForm s := funext (commentForm_settleText s)
  have hcomposed := congrArg (Statement.essence (commentForm s)) hessence
  rw [Statement.essence_essence, Statement.essence_essence, hform] at hcomposed
  exact hcomposed

/-- A text with blocks, comments and nested groups. -/
def sampleText : Text :=
  "function(f a)\nif(x)#c\nset(a\n#d\n(b \"c\"))\nendif()\nendfunction(f)\n".toList

theorem parseWithin_sampleText :
    Source.parseWithin 2 sampleText = some (Source.parse sampleText) :=
  Source.parseWithin_eq_some_iff.mpr ⟨rfl, by decide +kernel⟩

theorem diagnostics_sampleText : (Source.parse sampleText).diagnostics = [] := by decide +kernel

theorem namesUnquoted_sampleText : NamesUnquoted sampleText := by
  unfold NamesUnquoted
  decide +kernel

theorem format_preserves_tree_sample :
    NamesUnquoted sampleText ∧
      ∃ again, Source.parseWithin 2 ((Source.parse sampleText).format .standard) = some again ∧
        again.diagnostics = [] ∧
        Statement.essence (commentForm .standard) again.statements =
          Statement.essence (commentForm .standard) (Source.parse sampleText).statements :=
  ⟨namesUnquoted_sampleText, format_preserves_tree .standard 2 sampleText _ parseWithin_sampleText
    diagnostics_sampleText namesUnquoted_sampleText⟩

/-! ### The second round -/

/-- Formatting a formatted text gives that text, and reports no change. -/
theorem format_idempotent (s : Style) (limit : Nat) (text : Text) (source : Source)
    (hread : Source.parseWithin limit text = some source) (h : source.diagnostics = [])
    (hn : NamesUnquoted text) :
    ∃ again, Source.parseWithin limit (source.format s) = some again ∧
      again.format s = source.format s ∧ again.changes s = false := by
  obtain ⟨rfl, hdepth⟩ := Source.parseWithin_eq_some_iff.mp hread
  have hstand := namesStand_of_namesUnquoted h hn
  have hsame := format_format h hstand s
  refine ⟨_, parseWithin_format h hstand s hdepth, hsame, ?_⟩
  simp only [Source.changes, hsame]
  simp [Source.parse]

theorem format_idempotent_sample :
    (Source.parse sampleText).changes .standard = true ∧
      ∃ again, Source.parseWithin 2 ((Source.parse sampleText).format .standard) = some again ∧
        again.format .standard = (Source.parse sampleText).format .standard ∧
        again.changes .standard = false :=
  ⟨by decide +kernel, format_idempotent .standard 2 sampleText _ parseWithin_sampleText
    diagnostics_sampleText namesUnquoted_sampleText⟩

end Listfile
