import Listfile.Proofs.Delimited

/-! Delimiters, as they are found and as they are taken off. A scanner goes through a
quoted text from the left and takes escapes in pairs; the parser looks at the last
character and at the number of backslashes in front of it. In a text that goes on to
the end of the source, every quote is escaped, hence behind an odd number of
backslashes (`Inside.odd_of_quote`), so both see the same closing quote. An unclosed
bracket holds no closer, so none is taken off. Each literal and each bracket comment
thus loses its last delimiter exactly if it is not reported, and is then written as
it was (`literals_stripped_as_scanned`). -/

namespace Listfile

open Token

/-! ### What is taken off -/

/-- What the text of a token leaves between its delimiters: the first always goes, the last exactly
if it was found. What is read from the token is then written as the token. -/
structure Stripped (style : Style) (text front body back : Text) (a : Argument) (found : Prop) :
    Prop where
  both : found ↔ text = front ++ body ++ back
  first : ¬ found ↔ text = front ++ body
  written : found → Layout.inline? style a = some text

theorem stripped_of_eq {style : Style} {text front body back : Text} {a : Argument}
    {closed : Bool} (hback : back ≠ [])
    (htext : text = front ++ body ++ if closed then back else [])
    (ha : Layout.inline? style a = some (front ++ body ++ back)) :
    Stripped style text front body back a (closed = true) := by
  cases closed with
  | true =>
    rw [if_pos rfl] at htext
    exact ⟨by simp [htext], by simp [htext, hback], fun _ => htext ▸ ha⟩
  | false =>
    rw [if_neg (by decide), List.append_nil] at htext
    exact ⟨by simp [htext, hback], by simp [htext], fun h => absurd h (by decide)⟩

namespace Token

/-! ### Quoted texts -/

/-- Every quote inside of a quoted text stands behind an odd number of backslashes. -/
theorem Inside.odd_of_quote {rest t : Text} (h : Inside rest t) {front back : Text}
    (heq : t = front ++ '"' :: back) : Parse.trailingBackslashes front % 2 = 1 := by
  induction h generalizing front with
  | nil => simp at heq
  | @char c t hquote hescape _ ih =>
    cases front with
    | nil => exact absurd (List.cons.inj heq).1 hquote
    | cons d front =>
      obtain ⟨rfl, htail⟩ := List.cons.inj heq
      rw [← List.nil_append (c :: front), trailingBackslashes_append_cons [] hescape]
      exact ih htail
  | @pair c t _ ih =>
    obtain _ | ⟨d, _ | ⟨e, front⟩⟩ := front
    · simp at heq
    · obtain ⟨rfl, -⟩ := List.cons.inj heq
      rfl
    · simp only [List.cons_append, List.cons.injEq] at heq
      obtain ⟨rfl, rfl, htail⟩ := heq
      exact (trailingBackslashes_append (trailingBackslashes_pair c) front).trans (ih htail)
  | lone => cases front <;> simp at heq

/-- A text that goes on to the end of the source has no closing quote to take off. -/
theorem quotedBody_of_unclosed {t : Text} (h : Inside [] t) : Parse.quotedBody ('"' :: t) = t := by
  unfold Parse.quotedBody
  dsimp only
  rw [List.tail_cons, if_neg]
  intro hlast
  obtain ⟨hquote, heven⟩ : t.getLast? = some '"' ∧
      Parse.trailingBackslashes t.dropLast % 2 = 0 := by simpa using hlast
  obtain ⟨front, rfl⟩ := List.getLast?_eq_some_iff.mp hquote
  rw [List.dropLast_concat, h.odd_of_quote rfl] at heven
  contradiction

theorem eq_of_quotedTail {rest t : Text} {closed : Bool} (h : QuotedTail rest closed t) :
    '"' :: t = ['"'] ++ Parse.quotedBody ('"' :: t) ++ if closed then ['"'] else [] := by
  cases h with
  | @closed body h => rw [quotedBody_of_quotesEscaped h.quotesEscaped, if_pos rfl]; rfl
  | unclosed hrest h =>
    subst hrest
    rw [quotedBody_of_unclosed h, if_neg (by decide), List.append_nil]
    rfl

/-! ### Brackets -/

theorem eq_of_through {n : Nat} {rest t : Text} {closed : Bool}
    (h : Through (closer n) rest closed t) :
    opener n ++ t =
      opener n ++ Parse.bracketBody n (opener n ++ t) ++ if closed then closer n else [] := by
  cases h with
  | @closed body _ => rw [← List.append_assoc, bracketBody_append, if_pos rfl]
  | unclosed _ h =>
    have hnot : ¬ (closer n).isSuffixOf t = true := by
      intro hsuffix
      exact h (List.isSuffixOf_iff_suffix.mp hsuffix).isInfix
    rw [Parse.bracketBody, drop_opener_append, Parse.dropSuffix, if_neg hnot,
      if_neg (by decide), List.append_nil]

theorem fenceOf_opener_append (n : Nat) (t : Text) : Parse.fenceOf (opener n ++ t) = n := by
  rw [Parse.fenceOf, fence?_opener_append, Option.getD_some]

/-! ### Tokens of a source -/

theorem Form.quoted_eq {rest w : Text} {closed : Bool} (h : Form rest .quoted closed w) :
    ∃ t, w = '"' :: t ∧ QuotedTail rest closed t := by
  cases h with
  | quoted h => exact ⟨_, rfl, h⟩

theorem Form.bracket_eq {rest w : Text} {closed : Bool} (h : Form rest .bracket closed w) :
    ∃ n t, w = opener n ++ t ∧ Through (closer n) rest closed t := by
  cases h with
  | bracket h => exact ⟨_, _, rfl, h⟩

theorem Form.bracketComment_eq {rest w : Text} {closed : Bool}
    (h : Form rest .bracketComment closed w) :
    ∃ n t, w = '#' :: (opener n ++ t) ∧ Through (closer n) rest closed t := by
  cases h with
  | bracketComment h => exact ⟨_, _, rfl, h⟩

/-- It is reported that a token lacks its terminator. -/
def Reported (source : Text) (code : Diagnostic.Code) (t : Token) : Prop :=
  ∃ d ∈ faults (scan source), d.code = code ∧ d.span = t.span

section Scanned

variable {source : Text} {t : Token} (ht : t ∈ scan source)
include ht

theorem drop_start_of_mem_scan : source.drop t.span.start = t.text ++ source.drop t.span.stop := by
  rw [← t.span.slice_append_drop source, slice_of_mem_scan ht]

variable {kind : Kind} (hk : t.kind = kind)
include hk

theorem form_of_mem_scan (hend : kind ≠ .endOfFile) :
    Form (source.drop t.span.stop) kind t.closed t.text := by
  subst hk
  obtain ⟨r, hr, rfl⟩ := (Reader.within_start source).exists_reader ht
  rw [hr.drop_stop]
  exact Reader.form_next (mt r.next_kind_eq_endOfFile_iff.mpr hend)

/-- One form stands at the start of a span, so that tokens on the same span both have or both lack
their terminator. -/
theorem closed_eq_of_span_eq (hend : kind ≠ .endOfFile) {u : Token} (hu : u ∈ scan source)
    (huend : u.kind ≠ .endOfFile) (hspan : u.span = t.span) : u.closed = t.closed := by
  have hform := form_of_mem_scan hu rfl huend
  have htext : u.text = t.text := by
    rw [← slice_of_mem_scan hu, ← slice_of_mem_scan ht, hspan]
  rw [htext, hspan] at hform
  exact (hform.unique (form_of_mem_scan ht hk hend) rfl).2.2

/-- A report on the span of a token is on that token. -/
theorem not_reported_iff (hend : kind ≠ .endOfFile) :
    ¬ Reported source (unclosedCode kind) t ↔ t.closed = true := by
  rw [← Bool.not_eq_false, not_iff_not]
  constructor
  · rintro ⟨d, hd, -, hspan⟩
    obtain ⟨u, hu, hfault⟩ := List.mem_filterMap.mp hd
    have huend : u.kind ≠ .endOfFile := by
      intro hukind
      simp [fault?, hukind] at hfault
    rw [fault?_of_form (form_of_mem_scan hu rfl huend)] at hfault
    split at hfault
    · contradiction
    · next hopen =>
      obtain rfl := Option.some.inj hfault
      rw [← closed_eq_of_span_eq ht hk hend hu huend hspan]
      simpa using hopen
  · intro hopen
    refine ⟨.ofCode (unclosedCode kind) t.span, ?_, rfl, rfl⟩
    refine List.mem_filterMap.mpr ⟨t, ht, ?_⟩
    rw [fault?_of_form (hk ▸ form_of_mem_scan ht hk hend), hopen, hk]
    rfl

end Scanned

theorem fenceAt_natCast (t : Text) (offset : Nat) :
    fenceAt t offset = .ok (fence? (t.drop offset)) := by
  rw [fenceAt, if_pos (by omega), Int.toNat_natCast]

end Token

/-! ### Literals and comments of a source -/

section Scanned

variable (lines : LineIndex) {source : Text} {t : Token} (ht : t ∈ scan source)
include ht

theorem stripped_quoted (hk : t.kind = .quoted) :
    ∃ body, Parse.argument? lines t = some (.quoted body) ∧
      ∀ style, Stripped style t.text ['"'] body ['"'] (.quoted body)
        (¬ Reported source .unterminatedQuoted t) := by
  have hfound : ¬ Reported source .unterminatedQuoted t ↔ t.closed = true :=
    not_reported_iff ht hk (by decide)
  obtain ⟨u, htext, hform⟩ := (form_of_mem_scan ht hk (by decide)).quoted_eq
  refine ⟨Parse.quotedBody t.text, by rw [Parse.argument?, hk], fun style => ?_⟩
  rw [hfound]
  refine stripped_of_eq (by decide) ?_ rfl
  rw [htext]
  exact eq_of_quotedTail hform

theorem stripped_bracket (hk : t.kind = .bracket) :
    ∃ n body, fenceAt source t.span.start = .ok (some n) ∧
      Parse.argument? lines t = some (.bracket body n (some (lines.location t.span.start))) ∧
      ∀ style place, Stripped style t.text (opener n) body (closer n) (.bracket body n place)
        (¬ Reported source .unterminatedBracket t) := by
  have hfound : ¬ Reported source .unterminatedBracket t ↔ t.closed = true :=
    not_reported_iff ht hk (by decide)
  obtain ⟨n, u, htext, hform⟩ := (form_of_mem_scan ht hk (by decide)).bracket_eq
  have hfence : Parse.fenceOf t.text = n := by rw [htext, fenceOf_opener_append]
  refine ⟨n, Parse.bracketBody n t.text, ?_, by rw [Parse.argument?, hk, ← hfence],
    fun style place => ?_⟩
  · rw [fenceAt_natCast, drop_start_of_mem_scan ht, htext, List.append_assoc,
      fence?_opener_append]
  · rw [hfound]
    refine stripped_of_eq (closer_ne_nil n) ?_ rfl
    rw [htext]
    exact eq_of_through hform

theorem stripped_bracketComment (hk : t.kind = .bracketComment) :
    ∃ n body, fenceAt source (t.span.start + 1) = .ok (some n) ∧
      Parse.argument? lines t =
        some (.bracketComment body n (some (lines.location t.span.start))) ∧
      Parse.bracketComment lines t =
        .bracketComment body n (!t.startsLine) (some (lines.location t.span.start)) ∧
      ∀ style place, Stripped style t.text ('#' :: opener n) body (closer n)
        (.bracketComment body n place) (¬ Reported source .unterminatedBracket t) := by
  have hfound : ¬ Reported source .unterminatedBracket t ↔ t.closed = true :=
    not_reported_iff ht hk (by decide)
  obtain ⟨n, u, htext, hform⟩ := (form_of_mem_scan ht hk (by decide)).bracketComment_eq
  have htail : t.text.tail = opener n ++ u := by rw [htext, List.tail_cons]
  have hfence : Parse.fenceOf t.text.tail = n := by rw [htail, fenceOf_opener_append]
  refine ⟨n, Parse.bracketBody n t.text.tail, ?_, by rw [Parse.argument?, hk, ← hfence],
    by rw [Parse.bracketComment, hfence], fun style place => ?_⟩
  · -- behind the number sign the source goes on with the bracket
    have hnext : source.drop (t.span.start + 1) = opener n ++ (u ++ source.drop t.span.stop) := by
      rw [← List.drop_drop, drop_start_of_mem_scan ht, htext]
      simp
    rw [← Int.natCast_succ, fenceAt_natCast, hnext, fence?_opener_append]
  · rw [hfound]
    refine stripped_of_eq (closer_ne_nil n) ?_ rfl
    rw [htail, htext]
    exact congrArg ('#' :: ·) (eq_of_through hform)

end Scanned

/-- The last delimiter of a quoted argument, of a bracket and of a bracket comment is taken off
exactly if no report says that it was not found. The fence is the one that was found where the
bracket opens. What was found whole is written as its token again, in every style. -/
theorem literals_stripped_as_scanned (lines : LineIndex) {source : Text} {t : Token}
    (ht : t ∈ scan source) :
    (t.kind = .quoted → ∃ body, Parse.argument? lines t = some (.quoted body) ∧
      ∀ style, Stripped style t.text ['"'] body ['"'] (.quoted body)
        (¬ Reported source .unterminatedQuoted t)) ∧
    (t.kind = .bracket → ∃ n body, fenceAt source t.span.start = .ok (some n) ∧
      Parse.argument? lines t = some (.bracket body n (some (lines.location t.span.start))) ∧
      ∀ style place, Stripped style t.text (opener n) body (closer n) (.bracket body n place)
        (¬ Reported source .unterminatedBracket t)) ∧
    (t.kind = .bracketComment → ∃ n body, fenceAt source (t.span.start + 1) = .ok (some n) ∧
      Parse.argument? lines t =
        some (.bracketComment body n (some (lines.location t.span.start))) ∧
      Parse.bracketComment lines t =
        .bracketComment body n (!t.startsLine) (some (lines.location t.span.start)) ∧
      ∀ style place, Stripped style t.text ('#' :: opener n) body (closer n)
        (.bracketComment body n place) (¬ Reported source .unterminatedBracket t)) :=
  ⟨stripped_quoted lines ht, stripped_bracket lines ht, stripped_bracketComment lines ht⟩

/-- A quote behind three backslashes is the end of the source, but not of the argument. -/
theorem literals_stripped_as_scanned_escaped :
    let source := "\"\\\\\\\"".toList
    let t : Token := ⟨.quoted, source, ⟨0, 5, by decide⟩, true, true, false⟩
    t ∈ scan source ∧ Parse.argument? (.ofText source) t = some (.quoted source.tail) ∧
      Reported source .unterminatedQuoted t := by
  intro source t
  have ht : t ∈ scan source := by decide +kernel
  have hbody : Parse.quotedBody source = source.tail := by decide +kernel
  have ha : Parse.argument? (.ofText source) t = some (.quoted source.tail) :=
    congrArg (fun body => some (Argument.quoted body)) hbody
  obtain ⟨body, hread, hstripped⟩ := (literals_stripped_as_scanned (.ofText source) ht).1 rfl
  obtain rfl : body = source.tail := Argument.quoted.inj (Option.some.inj (hread.symm.trans ha))
  refine ⟨ht, ha, ?_⟩
  by_contra hfound
  exact absurd ((hstripped .standard).both.mp hfound) (by decide)

end Listfile
