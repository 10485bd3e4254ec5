import Listfile.Proofs.Lexical
import Listfile.Proofs.Places

/-! Two texts joined at the end of a line. A token that ends before its text does
is the same whatever is written behind that text (`cut_before`), and behind a line
feed a reader is where it is at the start of a text. So the tokens of the joined
text are those of the first and those of the second further down (`body_before`),
and places in the joined text are places in one of the two
(`location_append_left`, `location_append_right`). -/

namespace Listfile

/-- The span of the same characters with `n` more characters in front. -/
def Span.shift (n : Nat) (s : Span) : Span :=
  ⟨s.start + n, s.stop + n, Nat.add_le_add_right s.start_le_stop n⟩

/-- The place in the same line with `n` more lines above. -/
def Location.below (n : Nat) (l : Location) : Location :=
  ⟨l.line + n, l.column, Nat.le_add_right_of_le l.one_le_line⟩

theorem Span.shift_cover (n : Nat) (s t : Span) :
    (s.cover t).shift n = (s.shift n).cover (t.shift n) := by
  simp only [cover, shift, Span.mk.injEq]
  omega

namespace Token

/-! ### One token -/

/-- The same cut with more text behind what is left. -/
def Cut.before (k : Cut) (more : Text) : Cut := { k with rest := k.rest ++ more }

section Cuts
variable (more : Text)

theorem run_before {p : Char → Bool} {t : Text} (h : (Cut.run p t).rest ≠ []) :
    Cut.run p (t ++ more) = (Cut.run p t).before more := by
  have hdrop : t.dropWhile p ≠ [] := h
  have htake : (t.takeWhile p).length ≠ t.length := by
    have hall := congrArg List.length (List.takeWhile_append_dropWhile (p := p) (l := t))
    have := List.length_pos_iff.mpr hdrop
    rw [List.length_append] at hall
    omega
  simp [Cut.run, Cut.before, List.takeWhile_append, List.dropWhile_append, htake, hdrop]

/-- Only a carriage return at the very end can take a line feed from what follows. -/
theorem cutBreak_before {c : Char} {t : Text}
    (h : (cutBreak c t).rest = [] → (cutBreak c t).text.getLast? = some '\n') :
    cutBreak c (t ++ more) = (cutBreak c t).before more := by
  cases t with
  | nil =>
    obtain rfl : c = '\n' := by simpa [cutBreak] using h rfl
    cases more with
    | nil => rfl
    | cons d u =>
      by_cases hd : d = '\n' <;> simp [cutBreak, hd, Cut.before]
  | cons d t =>
    by_cases hd : d = '\n'
    · subst hd
      simp only [List.cons_append, cutBreak]
      split <;> rfl
    · simp [cutBreak, hd, Cut.before]

theorem cutQuoted_before {t : Text} (h : (cutQuoted t).closed = true) :
    cutQuoted (t ++ more) = (cutQuoted t).before more := by
  have happend := cutQuoted_text_append h ((cutQuoted t).rest ++ more)
  rw [← List.append_assoc, cutQuoted_text_append_rest] at happend
  rw [happend, Cut.before, h]

theorem cutUnquoted_before {t : Text} (h : (cutUnquoted false t).closed = true)
    (hrest : (cutUnquoted false t).rest ≠ []) :
    cutUnquoted false (t ++ more) = (cutUnquoted false t).before more := by
  have hends : Ends .unquoted ((cutUnquoted false t).rest ++ more) := by
    have hhead := endsUnquoted_cutUnquoted false t
    obtain ⟨c, u, hu⟩ := List.exists_cons_of_ne_nil hrest
    rw [hu] at hhead ⊢
    exact hhead
  have happend := cutUnquoted_text_append h hrest hends
  rw [← List.append_assoc, cutUnquoted_text_append_rest] at happend
  rw [happend, Cut.before, h]

theorem cutBracket_before {n : Nat} {t : Text} (hopen : opener n <+: t)
    (h : (cutBracket n t).closed = true) :
    cutBracket n (t ++ more) = (cutBracket n t).before more := by
  obtain ⟨u, rfl⟩ := hopen
  rw [cutBracket_opener_append] at h
  have happend := cutThrough_text_append (closer_ne_nil n) h
    ((cutThrough (closer n) u).rest ++ more)
  rw [← List.append_assoc, cutThrough_text_append_rest] at happend
  rw [List.append_assoc, cutBracket_opener_append, cutBracket_opener_append, happend, Cut.before, h]

/-- Where the text goes on with something else, no bracket opening comes to be. -/
theorem fence?_before {t front rest : Text} (h : fence? t = none) (ht : front ++ rest = t)
    (hne : rest ≠ []) (hrest : ∀ c ∈ rest.head?, endsUnquoted c = true) :
    fence? (t ++ more) = none := by
  subst ht
  rw [List.append_assoc]
  apply fence?_append_eq_none (fence?_eq_none_mono (List.prefix_append _ _) h)
  obtain ⟨c, u, rfl⟩ := List.exists_cons_of_ne_nil hne
  rintro d ⟨⟩
  have hends := hrest c rfl
  constructor <;> rintro rfl <;> simp [endsUnquoted, isSpace, isBreak] at hends

/-- A token is the same with more text behind it if its own text goes on behind it, or if it is a
line break with a line feed. -/
theorem cut_before {c : Char} {t : Text}
    (h : (cut c t).2.rest = [] →
      (cut c t).1 = .lineBreak ∧ (cut c t).2.text.getLast? = some '\n') :
    cut c (t ++ more) = ((cut c t).1, (cut c t).2.before more) := by
  have hgoes : (cut c t).1 ≠ .lineBreak → (cut c t).2.rest ≠ [] ∧ (cut c t).2.closed = true := by
    intro hk
    have hrest : (cut c t).2.rest ≠ [] := fun hnil => hk (h hnil).1
    refine ⟨hrest, ?_⟩
    by_contra hopen
    have hform : Form (cut c t).2.rest (cut c t).1 (cut c t).2.closed (cut c t).2.text :=
      form_of_cut rfl
    rw [eq_false_of_ne_true hopen] at hform
    exact hrest hform.rest_eq_nil
  revert h hgoes
  unfold cut
  split
  · intro h _
    rw [cutBreak_before more fun hnil => (h hnil).2]
  split
  · intro _ hgoes
    rw [run_before more (hgoes (by simp)).1]
    rfl
  split
  · cases hfence : fence? t with
    | some n =>
      intro _ hgoes
      obtain ⟨-, hclosed⟩ := hgoes (by simp)
      have hopen := (fence?_eq_some_iff t n).mp hfence
      have hopen' := (fence?_eq_some_iff (t ++ more) n).mpr
        (hopen.trans (List.prefix_append t more))
      simp only [hopen', cutBracket_before more hopen hclosed]
      rfl
    | none =>
      intro _ hgoes
      obtain ⟨hrest, -⟩ := hgoes (by simp)
      have hnone : fence? (t ++ more) = none := by
        apply fence?_before more hfence List.takeWhile_append_dropWhile hrest
        intro d hd
        have hbreak := head_dropWhile (fun c => !isBreak c) t d hd
        simp_all [endsUnquoted]
      simp only [hnone, run_before more hrest]
      rfl
  split
  · exact fun _ _ => rfl
  split
  · exact fun _ _ => rfl
  split
  · intro _ hgoes
    rw [cutQuoted_before more (hgoes (by simp)).2]
    rfl
  · cases hfence : fence? (c :: t) with
    | some n =>
      intro _ hgoes
      obtain ⟨-, hclosed⟩ := hgoes (by simp)
      have hopen := (fence?_eq_some_iff (c :: t) n).mp hfence
      have hopen' := (fence?_eq_some_iff (c :: t ++ more) n).mpr
        (hopen.trans (List.prefix_append (c :: t) more))
      rw [← List.cons_append, hopen']
      simp only [cutBracket_before more hopen hclosed]
    | none =>
      intro _ hgoes
      obtain ⟨hrest, hclosed⟩ := hgoes (by simp)
      have hnone := fence?_before more hfence (cutUnquoted_text_append_rest false (c :: t)) hrest
        (endsUnquoted_cutUnquoted false (c :: t))
      rw [← List.cons_append, hnone]
      simp only [cutUnquoted_before more hclosed hrest]

end Cuts

/-! ### All tokens -/

namespace Reader

def shift (n : Nat) (r : Reader) : Reader := { r with offset := r.offset + n }

/-- A reader whose text goes on. -/
def before (more : Text) (r : Reader) : Reader := { r with ahead := r.ahead ++ more }

theorem next_shift (n : Nat) (r : Reader) :
    (r.shift n).next = (r.next.1.relocate (Span.shift n), r.next.2.shift n) := by
  obtain ⟨ahead, offset, b⟩ := r
  cases ahead with
  | nil => rfl
  | cons c t =>
    have hright (k : Nat) : offset + n + k = offset + k + n := Nat.add_right_comm ..
    simp [next, shift, Token.relocate, Span.shift, Span.ofLength, hright]

/-- Tokens further down. -/
theorem body_shift (n : Nat) (r : Reader) :
    (r.shift n).body = r.body.map (Token.relocate (Span.shift n)) := by
  fun_induction tokens r with
  | case1 r hr => rw [body_of_nil hr, body_of_nil (r := r.shift n) hr, List.map_nil]
  | case2 r hr ih =>
    rw [body_of_ne_nil hr, body_of_ne_nil (r := r.shift n) hr, next_shift, ih, List.map_cons]

/-- The token at the end of what a reader has ahead is a line break with a line feed. -/
def EndsLine (r : Reader) : Prop :=
  ∀ t ∈ r.body.getLast?, t.kind = .lineBreak ∧ t.text.getLast? = some '\n'

theorem EndsLine.next {r : Reader} (h : r.EndsLine) (hr : r.ahead ≠ []) :
    (r.next.2.ahead = [] →
      r.next.1.kind = .lineBreak ∧ r.next.1.text.getLast? = some '\n') ∧ r.next.2.EndsLine := by
  rw [EndsLine, body_of_ne_nil hr] at h
  by_cases hnext : r.next.2.ahead = []
  · rw [body_of_nil hnext] at h
    refine ⟨fun _ => h _ rfl, ?_⟩
    rw [EndsLine, body_of_nil hnext]
    simp
  · refine ⟨fun hnil => absurd hnil hnext, ?_⟩
    rw [body_of_ne_nil hnext, List.getLast?_cons_cons, ← body_of_ne_nil hnext] at h
    exact h

theorem next_before {r : Reader} (hr : r.ahead ≠ [])
    (h : r.next.2.ahead = [] →
      r.next.1.kind = .lineBreak ∧ r.next.1.text.getLast? = some '\n') (more : Text) :
    (r.before more).next = (r.next.1, r.next.2.before more) := by
  obtain ⟨c, t, hcons⟩ := List.exists_cons_of_ne_nil hr
  have hbefore : (r.before more).ahead = c :: (t ++ more) := by
    rw [before, hcons, List.cons_append]
  rw [next_of_cons hcons] at h
  rw [next_of_cons hcons, next_of_cons hbefore, cut_before more h]
  rfl

/-- Behind the end of a line, reading goes on as at the start of a text. -/
theorem body_before {r : Reader} (h : r.EndsLine) (hstart : r.ahead = [] → r.lineStart = true)
    (more : Text) : (r.before more).body =
      r.body ++ (Reader.mk more (r.offset + r.ahead.length) true).body := by
  fun_induction tokens r with
  | case1 r hr =>
    rw [body_of_nil hr, before, hr, hstart hr]
    rfl
  | case2 r hr ih =>
    obtain ⟨hlast, hnext⟩ := h.next hr
    have hstays : r.next.2.ahead = [] → r.next.2.lineStart = true := by
      intro hnil
      obtain ⟨c, t, hcons⟩ := List.exists_cons_of_ne_nil hr
      have hk := (hlast hnil).1
      rw [next_of_cons hcons] at hk ⊢
      dsimp only at hk ⊢
      rw [hk]
      rfl
    have hlength : r.next.2.offset + r.next.2.ahead.length = r.offset + r.ahead.length := by
      have hall := congrArg List.length (next_text_append r)
      rw [List.length_append] at hall
      rw [next_offset, next_stop]
      omega
    have hne : (r.before more).ahead ≠ [] := by simp [before, hr]
    rw [body_of_ne_nil hr, body_of_ne_nil hne, next_before hr hlast, ih hnext hstays, hlength]
    rfl

end Reader

/-- The last token of a text, if it has any, is a line break with a line feed. -/
def EndsLine (text : Text) : Prop := (Reader.start text).EndsLine

theorem filter_body (r : Reader) : r.body.filter isSignificant = r.ink := by
  rw [Reader.body, Reader.ink, List.filter_filter]
  congr 1
  funext t
  cases h : t.kind <;> simp [isSignificant, h]

theorem ink_shift (n : Nat) (r : Reader) :
    (r.shift n).ink = r.ink.map (Token.relocate (Span.shift n)) := by
  rw [← filter_body, Reader.body_shift, List.filter_map, ← filter_body]
  rfl

end Token

open Token

section Seam
variable {a : Text} (h : EndsLine a) (b : Text)
include h

/-- The tokens of a text that goes on behind the end of a line. -/
theorem Parse.significant_append : significant (a ++ b) =
    significant a ++ (significant b).map (Token.relocate (Span.shift a.length)) := by
  have hbody := Reader.body_before h (fun _ => rfl) b
  have hshift := ink_shift a.length (Reader.start b)
  have hreader : Reader.mk b ((Reader.start a).offset + (Reader.start a).ahead.length) true =
      (Reader.start b).shift a.length := by
    simp [Reader.start, Reader.shift]
  have hink := congrArg (List.filter isSignificant) hbody
  rw [List.filter_append, filter_body, filter_body, filter_body, hreader, hshift] at hink
  exact hink

theorem Token.faults_append : faults (scan (a ++ b)) =
    faults (scan a) ++ (faults (scan b)).map (Diagnostic.relocate (Span.shift a.length)) := by
  have hfault (t : Token) : (t.relocate (Span.shift a.length)).fault? =
      t.fault?.map (Diagnostic.relocate (Span.shift a.length)) := by
    obtain ⟨kind, text, span, startsLine, escaped, closed⟩ := t
    cases closed <;> cases kind <;> rfl
  have hshift (tokens : List Token) :
      faults (tokens.map (Token.relocate (Span.shift a.length))) =
        (faults tokens).map (Diagnostic.relocate (Span.shift a.length)) := by
    rw [faults, faults, List.filterMap_map, List.map_filterMap]
    exact List.filterMap_congr fun t _ => hfault t
  have happend (s t : List Token) : faults (s ++ t) = faults s ++ faults t :=
    List.filterMap_append
  have hjoined := congrArg faults (Parse.significant_append h b)
  rw [happend, hshift] at hjoined
  simpa only [Parse.significant, faults_filter] using hjoined

/-- A text that ends a line ends with a line feed. -/
theorem Token.EndsLine.getLast? (hne : a ≠ []) : a.getLast? = some '\n' := by
  obtain ⟨tokens, htokens, -, hkinds⟩ := (Reader.within_start a).exists_tokens_eq
  have hbody : (Reader.start a).body = tokens := by
    rw [Reader.body, htokens, List.filter_append, List.filter_eq_self.mpr]
    · exact List.append_nil _
    · exact fun t ht => by simpa using (hkinds t ht).1
  have htext : (Reader.start a).tokens.flatMap (·.text) = a := Reader.flatMap_text_tokens _
  rw [htokens, List.flatMap_append] at htext
  replace htext : tokens.flatMap (·.text) = a := by simpa [Reader.stopToken] using htext
  have htokensne : tokens ≠ [] := by
    rintro rfl
    exact hne htext.symm
  obtain ⟨front, t, rfl⟩ := List.eq_nil_or_concat' tokens |>.resolve_left htokensne
  rw [EndsLine, Reader.EndsLine, hbody] at h
  obtain ⟨-, hlast⟩ := h t (by simp)
  rw [← htext, List.flatMap_append, List.getLast?_append]
  simp [hlast]

end Seam

/-! ### Places -/

namespace LineIndex

theorem startsFrom_append (n : Nat) (s t : Text) :
    startsFrom n (s ++ t) = startsFrom n s ++ startsFrom (n + s.length) t := by
  induction s generalizing n with
  | nil => rfl
  | cons c s ih =>
    have hlength : n + (c :: s).length = n + 1 + s.length := by
      rw [List.length_cons]
      omega
    rw [List.cons_append, startsFrom, startsFrom, ih, hlength]
    split <;> rfl

theorem startsFrom_add (m n : Nat) (t : Text) :
    startsFrom (m + n) t = (startsFrom m t).map (· + n) := by
  induction t generalizing m with
  | nil => rfl
  | cons c t ih =>
    rw [startsFrom, startsFrom, Nat.add_right_comm, ih]
    split <;> rfl

theorem length_startsFrom (n : Nat) (t : Text) : (startsFrom n t).length = t.count '\n' := by
  induction t generalizing n with
  | nil => rfl
  | cons c t ih =>
    rw [startsFrom, List.count_cons, ← ih (n + 1)]
    split <;> simp_all

/-- Lines start behind the start of a text, and not behind its end. -/
theorem mem_startsFrom {n : Nat} {t : Text} : ∀ s ∈ startsFrom n t, n < s ∧ s ≤ n + t.length := by
  induction t generalizing n with
  | nil => simp [startsFrom]
  | cons c t ih =>
    rw [startsFrom, List.length_cons]
    intro s hs
    split at hs
    · rcases List.mem_cons.mp hs with rfl | hs
      · omega
      · have := ih s hs
        omega
    · have := ih s hs
      omega

theorem getLast?_startsFrom (n : Nat) {t : Text} (h : t.getLast? = some '\n') :
    (startsFrom n t).getLast? = some (n + t.length) := by
  obtain ⟨front, rfl⟩ := List.getLast?_eq_some_iff.mp h
  simp [startsFrom_append, startsFrom, Nat.add_assoc]

/-- Lines that start behind an offset are not looked at. -/
theorem seek_append_of_lt {offset : Nat} {more : List Nat} (h : ∀ s ∈ more, offset < s)
    (line start : Nat) (starts : List Nat) :
    seek offset line start (starts ++ more) = seek offset line start starts := by
  induction starts generalizing line start with
  | nil =>
    cases more with
    | nil => rfl
    | cons s more =>
      have := h s (by simp)
      simp only [List.nil_append, seek]
      rw [if_neg (by omega)]
  | cons s starts ih =>
    rw [List.cons_append, seek, seek, ih]

/-- Lines that start at or before an offset are all passed. -/
theorem seek_append_of_le {offset : Nat} {starts : List Nat} (h : ∀ s ∈ starts, s ≤ offset)
    (line start : Nat) (more : List Nat) : seek offset line start (starts ++ more) =
      seek offset (line + starts.length) (starts.getLastD start) more := by
  induction starts generalizing line start with
  | nil => rfl
  | cons s starts ih =>
    obtain ⟨hs, hrest⟩ := List.forall_mem_cons.mp h
    rw [List.cons_append, seek, if_pos hs, ih hrest, List.length_cons, Nat.add_right_comm,
      Nat.add_assoc, List.getLastD_cons]

theorem seek_add (offset line start m n : Nat) (starts : List Nat) :
    seek (offset + n) (line + m) (start + n) (starts.map (· + n)) =
      ((seek offset line start starts).1 + m, (seek offset line start starts).2 + n) := by
  induction starts generalizing line start with
  | nil => rfl
  | cons s starts ih =>
    rw [List.map_cons, seek, seek, Nat.add_right_comm, ih]
    by_cases hs : s ≤ offset
    · rw [if_pos hs, if_pos (by omega)]
    · rw [if_neg hs, if_neg (by omega)]

theorem location_append_left (a b : Text) {offset : Nat} (h : offset ≤ a.length) :
    (ofText (a ++ b)).location offset = (ofText a).location offset := by
  have hbehind : ∀ s ∈ startsFrom (0 + a.length) b, offset < s := by
    intro s hs
    have := mem_startsFrom s hs
    omega
  simp only [location, ofText, startsFrom_append, seek_append_of_lt hbehind]

/-- A place in the second of two texts, of which the first ends with a line feed. -/
theorem location_append_right {a : Text} (h : a ≠ [] → a.getLast? = some '\n') (b : Text)
    (offset : Nat) : (ofText (a ++ b)).location (offset + a.length) =
      ((ofText b).location offset).below (a.count '\n') := by
  have hpassed : ∀ s ∈ startsFrom 0 a, s ≤ offset + a.length := by
    intro s hs
    have := mem_startsFrom s hs
    omega
  have hlast : (startsFrom 0 a).getLastD 0 = 0 + a.length := by
    by_cases ha : a = []
    · subst ha
      rfl
    · rw [List.getLastD_eq_getLast?, getLast?_startsFrom 0 (h ha), Option.getD_some]
  have hseek := seek_add offset 0 0 (a.count '\n') a.length (startsFrom 0 b)
  simp only [location, ofText, startsFrom_append, startsFrom_add, seek_append_of_le hpassed, hlast,
    length_startsFrom, hseek, Location.below]
  congr 1 <;> omega

end LineIndex

end Listfile
