import Listfile.Command.Format
import Listfile.Proofs.Indentation
import Listfile.Proofs.Wording

/-! Files one by one. What a file comes to is told by `Treated`, with the texts
themselves: a file that can be read, does not nest too deeply and has no errors
gives a block of output, and any other file gives no output and one report. It
depends on the file alone, whatever the other files of the run are. A run prints and
logs what its files do, in the order in which they are named, up to the first file
at which it breaks off, if there is one (`files_treated_apart`). A report takes one
line, unless the path holds a line feed or the report quotes a token that does. -/

namespace Listfile

theorem Diagnostic.firstError?_eq_some {ds : List Diagnostic} (hds : Ordered ds) {d : Diagnostic}
    (h : firstError? ds = some d) :
    d ∈ ds ∧ d.isError = true ∧ ∀ e ∈ ds, e.isError = true → d.span.start ≤ e.span.start := by
  obtain ⟨herror, front, back, rfl, hfront⟩ := List.find?_eq_some_iff_append.mp h
  refine ⟨by simp, herror, fun e he herror' => ?_⟩
  have hback := (List.pairwise_append.mp hds).2.1
  rcases List.mem_append.mp he with hmem | hmem
  · have := hfront e hmem
    simp [herror'] at this
  · rcases List.mem_cons.mp hmem with rfl | hmem
    · exact Nat.le_refl _
    · exact List.rel_of_pairwise_cons hback hmem

theorem Diagnostic.firstError?_eq_none {ds : List Diagnostic} :
    firstError? ds = none ↔ ∀ d ∈ ds, d.isError = false := by
  simp [firstError?]

/-- A source without errors is laid out. -/
theorem Source.yields_format? (style : Style) {s : Source}
    (h : ∀ d ∈ s.diagnostics, d.isError = false) :
    Layout.Yields (s.format? style)
      (Layout.Fits style 0 (Layout.placed style .start [] (Statement.rowsAll s.statements))
        (Statement.rowsAllWithin 0 s.statements))
      (s.format style) := by
  have hclean : s.hasErrors = false := by
    simpa [Source.hasErrors, Diagnostic.hasErrors] using h
  simp only [format?, format, hclean, Bool.false_eq_true, if_false]
  exact Layout.yields_statements? style s.statements

/-- A column is the distance from the last line feed. -/
theorem LineIndex.column_eq_length (t : Text) {offset : Nat} (h : offset ≤ t.length) :
    ((ofText t).location offset).column =
      ((t.take offset).reverse.takeWhile (· ≠ '\n')).length := by
  have hlength : (t.take offset).length = offset := by
    rw [List.length_take, Nat.min_eq_left h]
  by_cases hmem : '\n' ∈ (t.take offset).reverse
  · obtain ⟨back, front, hsplit, hback⟩ := List.eq_append_cons_of_mem hmem
    have htake : t.take offset = front.reverse ++ '\n' :: back.reverse := by
      simpa using congrArg List.reverse hsplit
    have hcolumn := column_of_append htake (by simpa using hback)
    have hwhile : (back ++ '\n' :: front).takeWhile (· ≠ '\n') = back := by
      rw [List.takeWhile_append_of_pos fun c hc => by
        simpa using (ne_of_mem_of_not_mem hc hback : c ≠ '\n')]
      simp
    rw [hsplit, hwhile]
    rw [htake] at hlength
    simp only [List.length_append, List.length_reverse, List.length_cons] at hlength hcolumn
    omega
  · rw [column_of_not_mem (by simpa using hmem), List.takeWhile_eq_self_iff.mpr,
      List.length_reverse, hlength]
    intro c hc
    simpa using (ne_of_mem_of_not_mem hc hmem : c ≠ '\n')

namespace Command.Format

/-! ### One file -/

/-- A report: the path, the code, the line and the column of its place, and its wording. -/
def reportText (path : Text) (code : String) (line column : Nat) (message : String) : Text :=
  path ++ ": ".toList ++ code.toList ++ " line ".toList ++ (toString line).toList ++
    ", ".toList ++ (toString column).toList ++ ": ".toList ++ message.toList ++ ['\n']

/-- A definition: its name, and its line or a question mark. -/
def definitionText (d : Definition) : Text :=
  "- ".toList ++ d.name ++ " : line:".toList ++
    (match d.line with
      | some n => (toString n).toList
      | none => ['?']) ++ ['\n']

/-- The last line of the log. -/
def summaryText (failures files : Nat) : Text :=
  if failures = 0 then []
  else (toString failures).toList ++ " of ".toList ++ (toString files).toList ++
    " file(s) failed\n".toList

/-- Whether what reading a file gives can be formatted. -/
def Succeeds (fits : Source → Bool) : Except ReadFault Text → Prop
  | .error _ => False
  | .ok text =>
    fits (Source.parse text) = true ∧ ∀ d ∈ (Source.parse text).diagnostics, d.isError = false

instance (fits : Source → Bool) : DecidablePred (Succeeds fits)
  | .error _ => isFalse id
  | .ok _ => inferInstanceAs (Decidable (_ ∧ _))

/-- What reading a file gives, and then what is printed for it, what is logged, and what the log
quotes from the file as it stands. -/
inductive Treated (fits : Source → Bool) (style : Style) (listDefinitions verbose : Bool)
    (path : Path) : Except ReadFault Text → Text → Text → Text → Prop
  /-- The formatted text, which ends its last line, the path and, if asked for, the definitions. -/
  | formatted {text formatted : Text} (hfits : fits (Source.parse text) = true)
      (herrors : ∀ d ∈ (Source.parse text).diagnostics, d.isError = false)
      (hformatted : formatted = (Source.parse text).format style) :
      Treated fits style listDefinitions verbose path (.ok text)
        (formatted ++ (if formatted = [] ∨ formatted.getLast? = some '\n' then [] else ['\n']) ++
          ("# ".toList ++ path.text ++ ['\n']) ++
          if listDefinitions then
            (Definition.ofStatements (Source.parse text).statements).flatMap definitionText
          else [])
        (if verbose then
          path.text ++
            (if formatted = text then ": already formatted\n" else ": reformatted\n").toList
        else []) []
  /-- The file could not be read or decoded. -/
  | unread (fault : ReadFault) :
      Treated fits style listDefinitions verbose path (.error fault) []
        (reportText path.text "IO_READ_FAILED" 1 0
          ("Could not read input file: " ++ fault.message path)) []
  | tooDeep {text : Text} (hdeep : fits (Source.parse text) = false) :
      Treated fits style listDefinitions verbose path (.ok text) []
        (reportText path.text "FORMAT_NESTING_TOO_DEEP" 1 0
          "Input nests too deeply to be formatted") []
  /-- An error that starts before all others is reported, at its place. -/
  | faulty {text : Text} {d : Diagnostic} (hfits : fits (Source.parse text) = true)
      (hd : d ∈ (Source.parse text).diagnostics) (herror : d.isError = true)
      (hfirst : ∀ e ∈ (Source.parse text).diagnostics, e.isError = true →
        d.span.start ≤ e.span.start) :
      Treated fits style listDefinitions verbose path (.ok text) []
        (reportText path.text d.code.name ((text.take d.span.start).count '\n' + 1)
          ((text.take d.span.start).reverse.takeWhile (· ≠ '\n')).length d.message)
        (d.quoted text)

section File
variable (fits : Source → Bool) (style : Style) (listDefinitions verbose : Bool) (path : Path)
  (content : Except ReadFault Text)

theorem endLine_eq (t : Text) :
    endLine t = t ++ if t = [] ∨ t.getLast? = some '\n' then [] else ['\n'] := by
  unfold endLine
  cases t with
  | nil => rfl
  | cons c t => split <;> simp_all

theorem listing_eq (ds : List Definition) : Definition.listing ds = ds.flatMap definitionText := by
  refine List.flatMap_congr fun d _ => ?_
  unfold Definition.listingLine definitionText
  cases d.line <;> rfl

/-- The line of the log for a report. -/
theorem line_append (d : Diagnostic) (text : Text) :
    (d.line path.string text).toList ++ ['\n'] =
      reportText path.text d.code.name ((text.take d.span.start).count '\n' + 1)
        ((text.take d.span.start).reverse.takeWhile (· ≠ '\n')).length d.message := by
  have htake : text.take (min d.span.start text.length) = text.take d.span.start := by
    rw [← List.take_take, List.take_length]
  have hline := LineIndex.line_location text (min d.span.start text.length)
  have hcolumn := LineIndex.column_eq_length text (Nat.min_le_right d.span.start text.length)
  rw [htake] at hline hcolumn
  have hshown : d.line path.string text = path.string ++ ": " ++ d.code.name ++ " line " ++
      toString ((text.take d.span.start).count '\n' + 1) ++ ", " ++
      toString ((text.take d.span.start).reverse.takeWhile (· ≠ '\n')).length ++ ": " ++
      d.message := by
    rw [Diagnostic.line, hline, hcolumn]
    rfl
  rw [hshown]
  simp only [reportText, String.toList_append, Path.string, String.toList_ofList]

/-- The line feeds in a report are those of the path and of the wording, and the one at its end. -/
theorem count_reportText {code : String} (hcode : OneLine code) (line column : Nat)
    (message : String) :
    (reportText path.text code line column message).count '\n' =
      path.text.count '\n' + message.toList.count '\n' + 1 := by
  have hcolon : OneLine ": " := .ofList (by decide)
  have hline : OneLine " line " := .ofList (by decide)
  have hcomma : OneLine ", " := .ofList (by decide)
  simp only [reportText, List.count_append, List.count_eq_zero.mpr hcode,
    List.count_eq_zero.mpr hcolon, List.count_eq_zero.mpr hline, List.count_eq_zero.mpr hcomma,
    List.count_eq_zero.mpr (OneLine.numeral line), List.count_eq_zero.mpr (OneLine.numeral column)]
  simp

/-- What a file comes to if the run does not break off there. -/
def resultOf : Result :=
  match content with
  | .error fault =>
    .failure (.worded .readFailed
      (Diagnostic.Code.summary .readFailed ++ ": " ++ fault.message path) (.point 0)) []
  | .ok text =>
    let s := Source.parse text
    if fits s then
      match Diagnostic.firstError? s.diagnostics with
      | some fault => .failure fault text
      | none => .block (block (s.format style) listDefinitions path s) (s.changes style)
    else .failure (.ofCode .nestingTooDeep (.point 0)) text

/-- What a file comes to: the three ways to fail, and the one to succeed. -/
inductive ComesTo : Except ReadFault Text → Result → Prop
  | unread (fault : ReadFault) :
      ComesTo (.error fault)
        (.failure (.worded .readFailed
          (Diagnostic.Code.summary .readFailed ++ ": " ++ fault.message path) (.point 0)) [])
  | tooDeep {text : Text} (hdeep : fits (Source.parse text) = false) :
      ComesTo (.ok text) (.failure (.ofCode .nestingTooDeep (.point 0)) text)
  | faulty {text : Text} {d : Diagnostic} (hfits : fits (Source.parse text) = true)
      (hfirst : Diagnostic.firstError? (Source.parse text).diagnostics = some d) :
      ComesTo (.ok text) (.failure d text)
  | formatted {text : Text} (hfits : fits (Source.parse text) = true)
      (herrors : ∀ d ∈ (Source.parse text).diagnostics, d.isError = false) :
      ComesTo (.ok text)
        (.block (block ((Source.parse text).format style) listDefinitions path (Source.parse text))
          ((Source.parse text).changes style))

theorem comesTo_resultOf :
    ComesTo fits style listDefinitions path content
      (resultOf fits style listDefinitions path content) := by
  cases content with
  | error fault => exact .unread fault
  | ok text =>
    unfold resultOf
    dsimp only
    split
    · next hfits =>
      split
      · next d hfirst => exact .faulty hfits hfirst
      · next hnone => exact .formatted hfits (Diagnostic.firstError?_eq_none.mp hnone)
    · next hdeep => exact .tooDeep (by simpa using hdeep)

section Result
variable {fits style listDefinitions path content} {result : Result}

/-- The texts that `Treated` gives are those of the result, and a report takes a line more than
there are line feeds in the path and in what it quotes. -/
theorem ComesTo.treated (h : ComesTo fits style listDefinitions path content result) :
    ∃ quoted, Treated fits style listDefinitions verbose path content result.output
        (result.log verbose path) quoted ∧
      (¬ Succeeds fits content →
        (result.log verbose path).count '\n' = path.text.count '\n' + quoted.count '\n' + 1) := by
  cases h with
  | unread fault =>
    refine ⟨[], ?_⟩
    simp only [Result.output, Result.log, line_append]
    refine ⟨.unread fault, fun _ => ?_⟩
    have hwording : OneLine (Diagnostic.Code.summary .readFailed ++ ": " ++ fault.message path) :=
      ((Diagnostic.Code.oneLine_summary _).append (.ofList (by decide))).append
        (fault.oneLine_message path)
    rw [count_reportText _ (Diagnostic.Code.oneLine_name _), Diagnostic.worded,
      List.count_eq_zero.mpr hwording, List.count_nil]
  | tooDeep hdeep =>
    refine ⟨[], ?_⟩
    simp only [Result.output, Result.log, line_append]
    refine ⟨.tooDeep hdeep, fun _ => ?_⟩
    have hwording : OneLine (Diagnostic.ofCode .nestingTooDeep (.point 0)).message :=
      Diagnostic.Code.oneLine_summary _
    rw [count_reportText _ (Diagnostic.Code.oneLine_name _), List.count_eq_zero.mpr hwording,
      List.count_nil]
  | @faulty text d hfits hfirst =>
    obtain ⟨hd, herror, hmin⟩ :=
      Diagnostic.firstError?_eq_some (Diagnostic.ordered_sortByStart _) hfirst
    refine ⟨d.quoted text, ?_⟩
    simp only [Result.output, Result.log, line_append]
    refine ⟨.faulty hfits hd herror hmin, fun _ => ?_⟩
    rw [count_reportText _ (Diagnostic.Code.oneLine_name _), Source.plain_of_mem_diagnostics hd]
  | @formatted text hfits herrors =>
    refine ⟨[], ?_, fun hfails => absurd ⟨hfits, herrors⟩ hfails⟩
    have htreated : Treated fits style listDefinitions verbose path (.ok text) _ _ _ :=
      .formatted hfits herrors rfl
    have htext : (Source.parse text).text = text := rfl
    have hlog : Result.log verbose path (.block (block ((Source.parse text).format style)
          listDefinitions path (Source.parse text)) ((Source.parse text).changes style)) =
        if verbose then path.text ++ (if (Source.parse text).format style = text then
          ": already formatted\n" else ": reformatted\n").toList
        else [] := by
      by_cases hsame : (Source.parse text).format style = text <;>
        simp [Result.log, Source.changes, htext, hsame]
    rw [← endLine_eq, ← listing_eq, ← hlog] at htreated
    simpa only [Result.output, block, List.append_assoc] using htreated

theorem ComesTo.isFailure_iff (h : ComesTo fits style listDefinitions path content result) :
    result.isFailure = true ↔ ¬ Succeeds fits content := by
  cases h with
  | unread fault => simp [Result.isFailure, Succeeds]
  | tooDeep hdeep => simp [Result.isFailure, Succeeds, hdeep]
  | faulty hfits hfirst =>
    obtain ⟨hd, herror, -⟩ :=
      Diagnostic.firstError?_eq_some (Diagnostic.ordered_sortByStart _) hfirst
    refine iff_of_true rfl fun hsucceeds => ?_
    simp [hsucceeds.2 _ hd] at herror
  | formatted hfits herrors =>
    exact iff_of_false Bool.false_ne_true fun hfails => hfails ⟨hfits, herrors⟩

end Result

/-- Whether the layout of a file would need a run of one character that is too long. -/
def TooWide : Except ReadFault Text → Prop
  | .error _ => False
  | .ok text =>
    Succeeds fits (.ok text) ∧
      ¬ Layout.Fits style 0
        (Layout.placed style .start [] (Statement.rowsAll (Source.parse text).statements))
        (Statement.rowsAllWithin 0 (Source.parse text).statements)

theorem formatFile_eq_error (h : TooWide fits style content) :
    formatFile fits style listDefinitions path (content.mapError (·.message path)) =
      .error .tooWide := by
  cases content with
  | error fault => exact h.elim
  | ok text =>
    obtain ⟨⟨hfits, herrors⟩, hwide⟩ := h
    have hfirst := Diagnostic.firstError?_eq_none.mpr herrors
    have hformat := (Source.yields_format? style herrors).tooWide hwide
    simp [formatFile, Except.mapError, hfits, hfirst, hformat]

theorem formatFile_eq_ok (h : ¬ TooWide fits style content) :
    formatFile fits style listDefinitions path (content.mapError (·.message path)) =
      .ok (resultOf fits style listDefinitions path content) := by
  have hcomes := comesTo_resultOf fits style listDefinitions path content
  generalize resultOf fits style listDefinitions path content = result at hcomes ⊢
  cases hcomes with
  | unread fault => rfl
  | tooDeep hdeep => simp [formatFile, Except.mapError, hdeep]
  | faulty hfits hfirst => simp [formatFile, Except.mapError, hfits, hfirst]
  | @formatted text hfits herrors =>
    have hfirst := Diagnostic.firstError?_eq_none.mpr herrors
    have hfit := by_contra fun hfit => h ⟨⟨hfits, herrors⟩, hfit⟩
    have hformat := (Source.yields_format? style herrors).ok hfit
    have htext : (Source.parse text).text = text := rfl
    simp [formatFile, Except.mapError, hfits, hfirst, hformat, Source.changes, htext]

end File

/-! ### A run -/

/-- Why a run breaks off at a file. -/
inductive Breaks (fits : Source → Bool) (style : Style) (read : ReadFile) (path : Path) :
    Abort → Prop
  /-- No file can have such a name. -/
  | unnamable {part : Text} (hpart : part ∈ path.parts) (hnul : '\x00' ∈ part) :
      Breaks fits style read path .nulInPath
  | tooWide (hparts : ∀ part ∈ path.parts, '\x00' ∉ part)
      (hwide : TooWide fits style (read path)) : Breaks fits style read path .tooWide

section Run
variable {fits : Source → Bool} {style : Style} {read : ReadFile} {listDefinitions : Bool}
  {path : Path}

theorem treat_eq_error {reason : Abort} (h : Breaks fits style read path reason) :
    treat fits read style listDefinitions path = .error reason := by
  cases h with
  | unnamable hpart hnul =>
    have hname : path.hasNul = true := List.any_eq_true.mpr ⟨_, hpart, by simpa using hnul⟩
    simp only [treat, load, hname, if_true]
    rfl
  | tooWide hparts hwide =>
    have hname : path.hasNul = false := by simpa [Path.hasNul] using hparts
    simp only [treat, load, hname, Bool.false_eq_true, if_false]
    exact formatFile_eq_error fits style listDefinitions path (read path) hwide

theorem treat_eq_ok (h : ∀ reason, ¬ Breaks fits style read path reason) :
    treat fits read style listDefinitions path =
      .ok (resultOf fits style listDefinitions path (read path)) := by
  have hparts : ∀ part ∈ path.parts, '\x00' ∉ part := fun part hpart hnul =>
    h _ (.unnamable hpart hnul)
  have hname : path.hasNul = false := by simpa [Path.hasNul] using hparts
  simp only [treat, load, hname, Bool.false_eq_true, if_false]
  exact formatFile_eq_ok fits style listDefinitions path (read path) fun hwide =>
    h _ (.tooWide hparts hwide)

end Run

section Files
variable {treat : Path → Except Abort Result} {result : Path → Result}

theorem treatAll_eq_none {files : List Path} (h : ∀ path ∈ files, treat path = .ok (result path)) :
    treatAll treat files = (files.map fun path => (path, result path), none) := by
  induction files with
  | nil => rfl
  | cons path rest ih =>
    obtain ⟨hpath, hrest⟩ := List.forall_mem_cons.mp h
    simp only [treatAll, hpath, ih hrest, List.map_cons]

/-- The files behind the one at which a run breaks off do not matter. -/
theorem treatAll_eq_some {front : List Path} {path : Path} {reason : Abort}
    (hfront : ∀ path ∈ front, treat path = .ok (result path)) (h : treat path = .error reason)
    (back : List Path) :
    treatAll treat (front ++ path :: back) =
      (front.map fun path => (path, result path), some reason) := by
  induction front with
  | nil => simp only [List.nil_append, treatAll, h, List.map_nil]
  | cons first rest ih =>
    obtain ⟨hfirst, hrest⟩ := List.forall_mem_cons.mp hfront
    simp only [List.cons_append, treatAll, hfirst, ih hrest, List.map_cons]

theorem tally_eq (results : List Result) :
    tally results = summaryText (results.countP (·.isFailure)) results.length := by
  simp only [tally, summaryText, ← List.countP_eq_length_filter]
  split <;> simp [ToString.toString]

end Files

/-- How a run over some files ends, if a rule says for each file, from its path and from what
reading it gives, what it prints and what it logs. -/
inductive Ran (fits : Source → Bool) (style : Style) (read : ReadFile)
    (printed logged : Path → Except ReadFault Text → Text) (files : List Path) :
    Except Broken Outcome → Prop
  /-- All files have their turn. -/
  | finished (hnone : ∀ path ∈ files, ∀ reason, ¬ Breaks fits style read path reason)
      {failures : Nat}
      (hfailures : failures = files.countP fun path => ¬ Succeeds fits (read path)) :
      Ran fits style read printed logged files (.ok
        { exit := if failures = 0 then 0 else 1
          output := files.flatMap fun path => printed path (read path)
          log := files.flatMap (fun path => logged path (read path)) ++
            summaryText failures files.length })
  /-- A file breaks the run off, with the output and the log of the files in front of it. -/
  | brokenOff {front back : List Path} {path : Path} {reason : Abort}
      (hfiles : files = front ++ path :: back)
      (hfront : ∀ path ∈ front, ∀ reason, ¬ Breaks fits style read path reason)
      (hbreaks : Breaks fits style read path reason) :
      Ran fits style read printed logged files (.error
        { reason
          output := front.flatMap fun path => printed path (read path)
          log := front.flatMap fun path => logged path (read path) })

theorem exists_breaks_or_forall (fits : Source → Bool) (style : Style) (read : ReadFile) :
    ∀ files : List Path, (∀ path ∈ files, ∀ reason, ¬ Breaks fits style read path reason) ∨
      ∃ front path back reason, files = front ++ path :: back ∧
        (∀ path ∈ front, ∀ reason, ¬ Breaks fits style read path reason) ∧
        Breaks fits style read path reason
  | [] => .inl (by simp)
  | path :: rest => by
    by_cases hpath : ∃ reason, Breaks fits style read path reason
    · obtain ⟨reason, hreason⟩ := hpath
      exact .inr ⟨[], path, rest, reason, rfl, by simp, hreason⟩
    · have hnone := not_exists.mp hpath
      rcases exists_breaks_or_forall fits style read rest with hrest | hrest
      · exact .inl (List.forall_mem_cons.mpr ⟨hnone, hrest⟩)
      · obtain ⟨front, first, back, reason, rfl, hfront, hbreaks⟩ := hrest
        exact .inr ⟨path :: front, first, back, reason, rfl,
          List.forall_mem_cons.mpr ⟨hnone, hfront⟩, hbreaks⟩

/-- A run is put together from what its files come to. -/
theorem ran_formatFiles (fits : Source → Bool) (style : Style) (read : ReadFile) (s : Settings) :
    Ran fits style read
      (fun path content => (resultOf fits style s.listDefinitions path content).output)
      (fun path content => (resultOf fits style s.listDefinitions path content).log s.verbose path)
      s.files (formatFiles (treat fits read style s.listDefinitions) s) := by
  have hok (files : List Path)
      (hnone : ∀ path ∈ files, ∀ reason, ¬ Breaks fits style read path reason) :
      ∀ path ∈ files, treat fits read style s.listDefinitions path =
        .ok (resultOf fits style s.listDefinitions path (read path)) := fun path hpath =>
    treat_eq_ok (hnone path hpath)
  rcases exists_breaks_or_forall fits style read s.files with hnone | hbroken
  · have hall := treatAll_eq_none (hok s.files hnone)
    have hcount : (s.files.map fun path =>
        resultOf fits style s.listDefinitions path (read path)).countP (·.isFailure) =
          s.files.countP fun path => ¬ Succeeds fits (read path) := by
      rw [List.countP_map]
      refine List.countP_congr fun path _ => ?_
      simp only [Function.comp_apply, (comesTo_resultOf ..).isFailure_iff, decide_eq_true_eq]
    have hexit : (if s.files.any fun path =>
        (resultOf fits style s.listDefinitions path (read path)).isFailure then 1 else 0) =
          if (s.files.countP fun path => ¬ Succeeds fits (read path)) = 0 then 0 else 1 := by
      simp only [← hcount, List.countP_map, List.countP_eq_zero, Function.comp_apply,
        List.any_eq_true]
      split <;> simp_all
    simp only [formatFiles, hall, List.flatMap_map, List.any_map, Function.comp_def, hexit,
      List.map_map, tally_eq, hcount, List.length_map]
    exact .finished hnone rfl
  · obtain ⟨front, path, back, reason, hfiles, hfront, hbreaks⟩ := hbroken
    have hall := treatAll_eq_some (hok front hfront) (treat_eq_error hbreaks) back
    simp only [formatFiles, hfiles, hall, List.flatMap_map]
    exact .brokenOff rfl hfront hbreaks

/-- The files of a run are treated one by one: there is one rule for what a file prints and logs,
fixed by the settings before any file is named or read, and every run is put together by it. -/
theorem files_treated_apart (fits : Source → Bool) (style : Style) (s : Settings) :
    ∃ printed logged : Path → Except ReadFault Text → Text,
      (∀ path content, ∃ quoted,
        Treated fits style s.listDefinitions s.verbose path content
          (printed path content) (logged path content) quoted ∧
        (¬ Succeeds fits content → (logged path content).count '\n' =
          path.text.count '\n' + quoted.count '\n' + 1)) ∧
      ∀ (read : ReadFile) (files : List Path), styleOf read s = .ok style →
        Ran fits style read printed logged files
          (perform fits read { s with files := files }) := by
  refine ⟨_, _, fun path content => (comesTo_resultOf ..).treated s.verbose,
    fun read files hstyle => ?_⟩
  have hperform : perform fits read { s with files := files } =
      formatFiles (treat fits read style s.listDefinitions) { s with files := files } := by
    have hsame : styleOf read { s with files := files } = styleOf read s := rfl
    simp only [perform, hsame, hstyle]
  rw [hperform]
  exact ran_formatFiles fits style read { s with files := files }

/-- A disk with a file that can be formatted, one whose report quotes a line feed, and one whose
block is not closed. -/
def mixedFiles : ReadFile := fun path =>
  if path = .ofText ['a'] then .ok "function(f)\nx( y )\nendfunction()".toList
  else if path = .ofText ['b'] then .ok "\"b\nb\"".toList
  else if path = .ofText ['c'] then .ok "if(c)\n".toList
  else .error .missing

/-- A run over some of these files, with the definitions that they list. -/
def mixedRun (files : List Path) : Except Broken Outcome :=
  perform Source.fits mixedFiles { files, listDefinitions := true }

/-- A run over four files, and one that breaks off at the second of three. -/
theorem files_treated_apart_mixed :
    (∃ printed logged : Path → Except ReadFault Text → Text,
      ∀ files, Ran Source.fits .standard mixedFiles printed logged files (mixedRun files)) ∧
    mixedRun [.ofText ['c'], .ofText ['a'], .ofText ['b'], .ofText ['d']] =
      .ok
        { exit := 1
          output := "function(f)\n    x(y)\nendfunction(f)\n# a\n- f : line:1\n".toList
          log :=
            ["c: PARSER_UNTERMINATED_BLOCK line 1, 0: ",
              "Block is missing its terminating command: \x60if\x60 has no \x60endif\x60\n",
              "b: PARSER_EXPECTED_COMMAND line 1, 0: ",
              "Expected a command invocation, got \x60\"b\nb\"\x60\n",
              "d: IO_READ_FAILED line 1, 0: ",
              "Could not read input file: [Errno 2] No such file or directory: 'd'\n",
              "3 of 4 file(s) failed\n"].flatMap String.toList } ∧
    mixedRun [.ofText ['a'], .ofText ['\x00'], .ofText ['b']] =
      .error
        { reason := .nulInPath
          output := "function(f)\n    x(y)\nendfunction(f)\n# a\n- f : line:1\n".toList
          log := [] } := by
  obtain ⟨printed, logged, -, hran⟩ :=
    files_treated_apart Source.fits .standard { listDefinitions := true }
  refine ⟨⟨printed, logged, fun files => hran mixedFiles files rfl⟩, ?_, ?_⟩
  · decide +kernel
  · decide +kernel

end Command.Format

end Listfile
