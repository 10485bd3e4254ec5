import Listfile.Files.Disk
import Listfile.Proofs.Lookup
import Listfile.Proofs.Reports

/-! Line feeds in the wording of reports. Numerals, identifiers and the names of files
as literals hold none, and neither does the standard wording of a report. All that
brings a line feed into a report is a token that is quoted as it stands in the
source, in the report that no command starts with it
(`Source.plain_of_mem_diagnostics`). -/

namespace Listfile

/-! ### Wordings without line feeds -/

theorem Text.not_mem_toDigits {b : Nat} (hb : 1 < b) (hle : b ≤ 16) (n : Nat) :
    '\n' ∉ Nat.toDigits b n := by
  have hdigit : ∀ d < 16, '\n' ≠ Nat.digitChar d := by decide
  induction n using Nat.strong_induction_on with
  | _ n ih =>
    rw [Nat.toDigits_eq_if hb]
    split
    · next hlt => exact fun h => hdigit n (by omega) (List.mem_singleton.mp h)
    · next hge =>
      have hlast := hdigit (n % b) ((Nat.mod_lt n (by omega)).trans_le hle)
      have hfront := ih (n / b) (Nat.div_lt_self (by omega) hb)
      simp [hfront, hlast]

theorem Text.not_mem_hex (width n : Nat) : '\n' ∉ hex width n := by
  simp [hex, not_mem_toDigits]

theorem Text.not_mem_escape {delimiter : Char} (h : '\n' ≠ delimiter) (c : Char) :
    '\n' ∉ escape delimiter c := by
  unfold escape
  split
  · next hc =>
    have : '\n' ≠ c := by
      rintro rfl
      simp [h] at hc
    simp [this]
  · split
    · decide
    · split
      · decide
      · next hc =>
        split
        · decide
        · split
          · unfold escapeByNumber
            dsimp only
            split
            · simp [not_mem_hex]
            · split <;> simp [not_mem_hex]
          · simpa using Ne.symm hc

/-- A literal holds no line feed, whatever the text that it stands for. -/
theorem Text.not_mem_quote (t : Text) : '\n' ∉ quote t := by
  have hdelimiter : '\n' ≠ delimiterFor t := by
    unfold delimiterFor
    split <;> decide
  simp only [quote, List.mem_cons, List.mem_append, List.mem_flatMap, List.not_mem_nil, or_false,
    not_or, not_exists, not_and]
  exact ⟨hdelimiter, fun c _ => not_mem_escape hdelimiter c, hdelimiter⟩

/-- A wording that does not break the line. -/
def OneLine (s : String) : Prop := '\n' ∉ s.toList

namespace OneLine

theorem ofList {t : Text} (h : '\n' ∉ t) : OneLine (String.ofList t) := by
  rwa [OneLine, String.toList_ofList]

theorem append {s t : String} (hs : OneLine s) (ht : OneLine t) : OneLine (s ++ t) := by
  simp only [OneLine, String.toList_append, List.mem_append, not_or]
  exact ⟨hs, ht⟩

theorem numeral (n : Nat) : OneLine (toString n) := by
  have hrepr : (toString n).toList = Nat.toDigits 10 n := Nat.toList_repr
  rw [OneLine, hrepr]
  exact Text.not_mem_toDigits (by decide) (by decide) n

end OneLine

/-- The wording of a fault in some bytes. -/
theorem Utf8.Fault.oneLine_message (f : Utf8.Fault) : OneLine f.message := by
  have hstart : OneLine "'utf-8' codec can't decode byte" := .ofList (by decide)
  have hposition : OneLine " in position " := .ofList (by decide)
  have hcolon : OneLine ": " := .ofList (by decide)
  have hreason : OneLine f.reason.message := by
    cases f.reason <;> exact .ofList (by decide)
  have hbyte (b : UInt8) : OneLine (byteText b) := by
    refine OneLine.append (.ofList (by decide)) (.ofList ?_)
    simp [Text.not_mem_toDigits]
  unfold Utf8.Fault.message
  dsimp only
  split
  · next b _ =>
    exact hstart.append ((((((OneLine.ofList (by decide)).append (hbyte b)).append
      hposition).append (.numeral _)).append hcolon).append hreason)
  · exact hstart.append ((((((OneLine.ofList (by decide)).append (.numeral _)).append
      (.ofList (by decide))).append (.numeral _)).append hcolon).append hreason)

/-- The wording of a fault met at a path. -/
theorem ReadFault.oneLine_message (path : Path) (f : ReadFault) : OneLine (f.message path) := by
  have hquote : OneLine (Text.quoteString path.string) := .ofList (Text.not_mem_quote _)
  cases f with
  | encoding fault => exact fault.oneLine_message
  | _ => exact .append (.ofList (by decide)) hquote

/-! ### Reports on a source -/

theorem Diagnostic.Code.oneLine_summary (code : Code) : OneLine code.summary := by
  cases code <;> exact .ofList (by decide)

theorem Diagnostic.Code.oneLine_name (code : Code) : OneLine code.name := by
  cases code <;> exact .ofList (by decide)

/-- The part of a source that a report quotes as it stands. -/
def Diagnostic.quoted (source : Text) (d : Diagnostic) : Text :=
  if d.code = .expectedCommand then d.span.slice source else []

/-- The line feeds in the wording of a report are those of what it quotes. -/
def Diagnostic.Plain (source : Text) (d : Diagnostic) : Prop :=
  d.message.toList.count '\n' = (d.quoted source).count '\n'

namespace Diagnostic

variable {source : Text}

theorem plain_of_oneLine {d : Diagnostic} (hcode : d.code ≠ .expectedCommand)
    (h : OneLine d.message) : d.Plain source := by
  rw [Plain, quoted, if_neg hcode, List.count_eq_zero.mpr h, List.count_nil]

theorem plain_ofCode {code : Code} (h : code ≠ .expectedCommand) (span : Span) :
    (ofCode code span).Plain source :=
  plain_of_oneLine h code.oneLine_summary

end Diagnostic

namespace Parse

open Diagnostic Token

theorem plain_unexpected {source : Text} {t : Token} (h : t ∈ scan source) :
    (unexpected t).Plain source := by
  have hlead : OneLine (Code.summary .expectedCommand ++ ", got `") :=
    (Code.oneLine_summary _).append (.ofList (by decide))
  have hquoted : (unexpected t).quoted source = t.text := (if_pos rfl).trans (slice_of_mem_scan h)
  rw [Plain, hquoted, unexpected, worded, String.toList_append, String.toList_append,
    List.count_append, List.count_append, String.toList_ofList, List.count_eq_zero.mpr hlead]
  simp

theorem not_mem_of_isIdentifier {t : Text} (h : isIdentifier t = true) : '\n' ∉ t := by
  cases t with
  | nil => simp
  | cons c t =>
    simp only [isIdentifier, Bool.and_eq_true, List.all_eq_true] at h
    have hfirst : '\n' ≠ c := by
      rintro rfl
      exact absurd h.1 (by decide)
    have hrest : '\n' ∉ t := fun hmem => absurd (h.2 _ hmem) (by decide)
    simp [hfirst, hrest]

/-- The wording of a report on a command names it, and the command that would close it. -/
theorem tells_plain (source : Text) :
    Command.Tells (Plain source) fun c => isIdentifier c.identifier = true where
  ofCode := fun _ _ hcode => plain_ofCode hcode _
  unmatched := fun hc => plain_of_oneLine (Code.noConfusion : Code.unmatchedBlockEnd ≠ _)
    ((((Code.oneLine_summary _).append (.ofList (by decide))).append
      (.ofList (not_mem_of_isIdentifier hc))).append (.ofList (by decide)))
  unterminated := fun {b} hb => by
    have hspelling : ∀ k : Keyword, '\n' ∉ k.spelling := by decide
    have hclosing : OneLine (String.ofList b.block.endKeyword) := .ofList (hspelling (.closing _))
    refine plain_of_oneLine (Code.noConfusion : Code.unterminatedBlock ≠ _) ?_
    exact (((((Code.oneLine_summary _).append (.ofList (by decide))).append
      (.ofList (not_mem_of_isIdentifier hb))).append (.ofList (by decide))).append
        hclosing).append (.ofList (by decide))

theorem isIdentifier_of_step {lines : LineIndex} {stop : Span} {t : Token} {rest : List Token}
    {c : Command} (h : (step lines stop t rest).content = .command c) :
    isIdentifier c.identifier = true := by
  unfold step at h
  split at h
  · simp at h
  · simp [lineComment] at h
  · simp [bracketComment] at h
  · unfold commandStep at h
    split at h
    · next hname =>
      split at h
      · simp [Step.skip] at h
      · split at h
        · cases h
          exact hname
        · simp [Step.skip] at h
    · simp [Step.skip] at h
  · simp [Step.skip] at h

theorem plain_of_mem_skip {source : Text} {fault d : Diagnostic} {tokens : List Token}
    (hfault : fault.Plain source) (h : d ∈ (Step.skip fault tokens).faults) : d.Plain source := by
  have hcons : d ∈ fault :: (skipLine [] tokens).2 := h
  rcases List.mem_cons.mp hcons with rfl | hmem
  · exact hfault
  · obtain ⟨u, -, rfl⟩ := mem_skipLine_faults hmem
    exact plain_ofCode (by decide) _

/-- A report on an item quotes at most the token with which the item starts. -/
theorem plain_of_mem_step {source : Text} {lines : LineIndex} {stop : Span} {t : Token}
    {rest : List Token} (ht : t ∈ scan source) {d : Diagnostic}
    (h : d ∈ (step lines stop t rest).faults) : d.Plain source := by
  have hopen : (Diagnostic.ofCode .expectedOpenParen t.span).Plain source :=
    plain_ofCode (by decide) _
  unfold step at h
  split at h
  · simp at h
  · simp at h
  · simp at h
  · unfold commandStep at h
    split at h
    · split at h
      · exact plain_of_mem_skip hopen h
      · split at h
        · obtain ⟨u, -, rfl⟩ := mem_enclosed_faults h
          exact plain_ofCode (by decide) _
        · exact plain_of_mem_skip hopen h
    · exact plain_of_mem_skip (plain_unexpected ht) h
  · exact plain_of_mem_skip (plain_unexpected ht) h

theorem plain_items {source : Text} {lines : LineIndex} {stop : Span} {tokens : List Token}
    (h : ∀ t ∈ tokens, t ∈ scan source) :
    ∀ i ∈ items lines stop tokens,
      i.Reports (Plain source) fun c => isIdentifier c.identifier = true := by
  fun_induction items lines stop tokens with
  | case1 => simp
  | case2 t rest s ih =>
    have hrest : ∀ u ∈ s.rest, u ∈ scan source := fun u hu =>
      h u ((step_rest_suffix lines stop t rest).subset hu)
    refine List.forall_mem_cons.mpr ⟨⟨fun d hd => ?_, fun c hc => ?_⟩, ih hrest⟩
    · exact plain_of_mem_step (h t (List.mem_cons_self ..)) hd
    · exact isIdentifier_of_step hc

end Parse

/-- The line feeds in the wording of a report are those of the token that it quotes, if it is the
report that no command starts there. -/
theorem Source.plain_of_mem_diagnostics {text : Text} {d : Diagnostic}
    (h : d ∈ (Source.parse text).diagnostics) : d.Plain text := by
  rcases Source.mem_diagnostics.mp h with hscan | hread
  · obtain ⟨t, -, hd⟩ := List.mem_filterMap.mp hscan
    unfold Token.fault? at hd
    split at hd
    · contradiction
    · split at hd
      · exact Option.some.inj hd ▸ Diagnostic.plain_ofCode (by decide) _
      · exact Option.some.inj hd ▸ Diagnostic.plain_ofCode (by decide) _
      · exact Option.some.inj hd ▸ Diagnostic.plain_ofCode (by decide) _
      · exact Option.some.inj hd ▸ Diagnostic.plain_ofCode (by decide) _
      · contradiction
  · exact Parse.forall_mem_faults_read (Parse.tells_plain text)
      (Parse.plain_items fun t ht => (List.mem_filter.mp ht).1) d hread

end Listfile
