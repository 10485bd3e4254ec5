import Listfile.Parse.Literal
import Listfile.Proofs.Lists

/-! Lexemes. A text is a lexeme of a kind if it is cut off as one complete token
of that kind from every text that begins with it and goes on with something at
which such a token ends. Parentheses, quoted arguments and brackets end by
themselves, a comment ends at a line break, and an unquoted argument at a space,
a line break or a parenthesis. Every token that is complete in one text is a
lexeme (`lexeme_of_cut`), so it can be written anywhere else. -/

namespace Listfile.Token

/-- What may stand behind a token of kind `k` without becoming a part of it. -/
def Ends : Kind → Text → Prop
  | .unquoted, rest => ∀ c ∈ rest.head?, endsUnquoted c = true
  | .lineComment, rest => ∀ c ∈ rest.head?, isBreak c = true
  | _, _ => True

/-- The token at the front of a text. -/
def first? : Text → Option (Kind × Cut)
  | [] => none
  | c :: t => some (cut c t)

/-- A text that stands for one token of kind `k` wherever it is written. -/
def Lexeme (k : Kind) (text : Text) : Prop :=
  ∀ rest, Ends k rest → ∃ escaped, first? (text ++ rest) = some (k, ⟨text, rest, true, escaped⟩)

@[simp] theorem ends_nil (k : Kind) : Ends k [] := by cases k <;> simp [Ends]

theorem Lexeme.first?_eq {k : Kind} {text : Text} (h : Lexeme k text) :
    ∃ escaped, first? text = some (k, ⟨text, [], true, escaped⟩) := by
  simpa using h [] (ends_nil k)

theorem Lexeme.ne_nil {k : Kind} {text : Text} (h : Lexeme k text) : text ≠ [] := by
  rintro rfl
  obtain ⟨_, h⟩ := h.first?_eq
  simp [first?] at h

/-! ### Brackets -/

theorem fence?_cons (t : Text) :
    fence? ('[' :: t) =
      if (t.dropWhile (· = '=')).head? = some '[' then some (t.takeWhile (· = '=')).length
      else none := by
  simp only [fence?, drop_length_takeWhile]

theorem fence?_opener_append (n : Nat) (r : Text) : fence? (opener n ++ r) = some n := by
  have hrest : (List.replicate n '=' ++ '[' :: r).dropWhile (· = '=') = '[' :: r := by simp
  have hrun : (List.replicate n '=' ++ '[' :: r).takeWhile (· = '=') = List.replicate n '=' := by
    simp
  simp [opener, fence?_cons, hrest, hrun]

/-- A bracket opens with `n` equals signs exactly if the text begins with that opening. -/
theorem fence?_eq_some_iff (t : Text) (n : Nat) : fence? t = some n ↔ opener n <+: t := by
  constructor
  · intro h
    cases t with
    | nil => simp [fence?] at h
    | cons c t =>
      by_cases hc : c = '['
      · subst hc
        rw [fence?_cons] at h
        split at h
        · next hhead =>
          obtain ⟨r, hr⟩ := List.head?_eq_some_iff.mp hhead
          have hrun : t.takeWhile (· = '=') = List.replicate n '=' := by
            rw [List.eq_replicate_iff]
            exact ⟨by simpa using h, fun b hb => by simpa using List.mem_takeWhile_imp hb⟩
          refine ⟨r, ?_⟩
          rw [← List.takeWhile_append_dropWhile (p := (· = '=')) (l := t), hr, hrun]
          simp [opener]
        · contradiction
      · simp [fence?, hc] at h
  · rintro ⟨r, rfl⟩
    exact fence?_opener_append n r

theorem fence?_eq_none_mono {t u : Text} (hp : t <+: u) (h : fence? u = none) :
    fence? t = none := by
  rw [Option.eq_none_iff_forall_ne_some]
  intro n hn
  rw [fence?_eq_some_iff] at hn
  have := (fence?_eq_some_iff u n).mpr (hn.trans hp)
  simp [h] at this

/-- Text that cannot belong to the opening of a bracket adds no bracket opening. -/
theorem fence?_append_eq_none {t rest : Text} (h : fence? t = none)
    (hr : ∀ c ∈ rest.head?, c ≠ '[' ∧ c ≠ '=') : fence? (t ++ rest) = none := by
  rw [Option.eq_none_iff_forall_ne_some]
  intro n hn
  rw [fence?_eq_some_iff] at hn
  rcases List.prefix_or_prefix_of_prefix hn (List.prefix_append t rest) with hp | ⟨u, hu⟩
  · rw [← fence?_eq_some_iff, h] at hp
    contradiction
  · -- the opening runs past `t`, so that it meets the first character of `rest`
    rw [← hu, List.prefix_append_right_inj] at hn
    cases u with
    | nil =>
      rw [List.append_nil] at hu
      have := (fence?_eq_some_iff t n).mpr (hu ▸ List.prefix_rfl)
      simp [h] at this
    | cons c u =>
      obtain ⟨r, rfl⟩ := hn
      have hc : c ∈ opener n := by simp [← hu]
      have := hr c (by simp)
      simp only [opener, List.mem_cons, List.mem_append, List.mem_replicate, List.not_mem_nil,
        or_false] at hc
      rcases hc with rfl | ⟨-, rfl⟩ | rfl <;> simp_all

/-- A text that is complete with its terminator ends with it. -/
theorem cutThrough_text_of_closed {stop t : Text} (h : (cutThrough stop t).closed = true) :
    ∃ body, (cutThrough stop t).text = body ++ stop := by
  induction t with
  | nil => simp [cutThrough] at h
  | cons c t ih =>
    unfold cutThrough at h ⊢
    split
    · exact ⟨[], rfl⟩
    · next hp =>
      rw [if_neg hp] at h
      obtain ⟨body, hbody⟩ := ih h
      exact ⟨c :: body, by simp [Cut.push, hbody]⟩

theorem cutThrough_text_append {stop t : Text} (hstop : stop ≠ [])
    (h : (cutThrough stop t).closed = true) (rest : Text) :
    cutThrough stop ((cutThrough stop t).text ++ rest) =
      ⟨(cutThrough stop t).text, rest, true, (cutThrough stop t).escaped⟩ := by
  induction t with
  | nil => simp [cutThrough] at h
  | cons c t ih =>
    unfold cutThrough at h
    split at h
    · next hp =>
      have htext : cutThrough stop (c :: t) = ⟨stop, (c :: t).drop stop.length, true, false⟩ := by
        rw [cutThrough, if_pos hp]
      rw [htext]
      obtain ⟨d, stop, rfl⟩ := List.exists_cons_of_ne_nil hstop
      simp [cutThrough, List.isPrefixOf_iff_prefix]
    · next hp =>
      obtain ⟨body, hbody⟩ := cutThrough_text_of_closed (t := t) h
      have hcut : cutThrough stop (c :: t) = (cutThrough stop t).push c := by
        rw [cutThrough, if_neg hp]
      -- the terminator lies inside of what was cut, so that `rest` is never looked at
      have hp' : ¬ stop.isPrefixOf (c :: ((cutThrough stop t).text ++ rest)) := by
        intro hq
        rw [List.isPrefixOf_iff_prefix] at hq
        have hin : stop <+: c :: (cutThrough stop t).text := by
          have hp : c :: (cutThrough stop t).text <+: c :: ((cutThrough stop t).text ++ rest) :=
            ⟨rest, by simp⟩
          apply List.prefix_of_prefix_length_le hq hp
          simp [hbody]
          omega
        have hall : c :: (cutThrough stop t).text <+: c :: t :=
          ⟨(cutThrough stop t).rest, by simp [cutThrough_text_append_rest]⟩
        exact hp (List.isPrefixOf_iff_prefix.mpr (hin.trans hall))
      rw [hcut, Cut.push, List.cons_append, cutThrough, if_neg hp', ih h]
      rfl

/-- What is cut off ends no later than the first terminator that is known. -/
theorem length_cutThrough_le (stop front back : Text) :
    (cutThrough stop (front ++ (stop ++ back))).text.length ≤ front.length + stop.length := by
  induction front with
  | nil =>
    rw [List.nil_append]
    cases hall : stop ++ back with
    | nil => simp [cutThrough]
    | cons c t =>
      rw [cutThrough, if_pos (List.isPrefixOf_iff_prefix.mpr (hall ▸ List.prefix_append stop back))]
      simp
  | cons c front ih =>
    rw [List.cons_append, cutThrough]
    split
    · simp
    · simp only [Cut.push, List.length_cons]
      omega

theorem length_opener (n : Nat) : (opener n).length = n + 2 := by simp [opener]

theorem drop_opener_append (n : Nat) (t : Text) : (opener n ++ t).drop (n + 2) = t := by
  rw [← length_opener, List.drop_left]

theorem cutBracket_opener_append (n : Nat) (t : Text) :
    cutBracket n (opener n ++ t) =
      ⟨opener n ++ (cutThrough (closer n) t).text, (cutThrough (closer n) t).rest,
        (cutThrough (closer n) t).closed, (cutThrough (closer n) t).escaped⟩ := by
  simp only [cutBracket, ← length_opener, List.drop_left, List.take_left]

/-! ### Quoted and unquoted arguments -/

theorem cutQuoted_cons {c : Char} (h : c ≠ '\\') (t : Text) :
    cutQuoted (c :: t) =
      if c = '"' then ⟨['"'], t, true, false⟩ else (cutQuoted t).push c := by
  rw [cutQuoted.eq_def]
  split <;> simp_all

theorem cutUnquoted_cons {c : Char} (h : c ≠ '\\') (quoting : Bool) (t : Text) :
    cutUnquoted quoting (c :: t) =
      if c = '"' then (cutUnquoted (!quoting) t).push c
      else if !quoting && endsUnquoted c then ⟨[], c :: t, true, false⟩
      else (cutUnquoted quoting t).push c := by
  rw [cutUnquoted.eq_def]
  split <;> simp_all

/-- The character in front of the last two patterns of the scanners is no backslash. -/
theorem ne_backslash {c : Char} {t : Text} (hlast : c = '\\' → t = [] → False)
    (hescape : ∀ d u, c = '\\' → t = d :: u → False) : c ≠ '\\' := by
  intro hc
  cases t with
  | nil => exact hlast hc rfl
  | cons d u => exact hescape d u hc rfl

theorem cutQuoted_text_append {t : Text} (h : (cutQuoted t).closed = true) (rest : Text) :
    cutQuoted ((cutQuoted t).text ++ rest) =
      ⟨(cutQuoted t).text, rest, true, (cutQuoted t).escaped⟩ := by
  fun_induction cutQuoted t with
  | case1 => contradiction
  | case2 => contradiction
  | case3 c t ih =>
    simp only [Cut.pushEscape, List.cons_append, cutQuoted]
    rw [ih h]
  | case4 => simp [cutQuoted]
  | case5 c t hlast hescape hc ih =>
    simp only [Cut.push, List.cons_append]
    rw [cutQuoted_cons (ne_backslash hlast hescape), if_neg hc, ih h]
    rfl

/-- At a character that ends it, an unquoted argument takes nothing more. -/
theorem cutUnquoted_of_ends {rest : Text} (h : Ends .unquoted rest) :
    cutUnquoted false rest = ⟨[], rest, true, false⟩ := by
  cases rest with
  | nil => simp [cutUnquoted]
  | cons c t =>
    have hc : endsUnquoted c = true := h c rfl
    have hb : c ≠ '\\' := by rintro rfl; simp [endsUnquoted, isSpace, isBreak] at hc
    have hq : c ≠ '"' := by rintro rfl; simp [endsUnquoted, isSpace, isBreak] at hc
    simp [cutUnquoted_cons hb, hq, hc]

theorem cutUnquoted_text_append {quoting : Bool} {t : Text}
    (h : (cutUnquoted quoting t).closed = true) (hrest : (cutUnquoted quoting t).rest ≠ [])
    {rest : Text} (hends : Ends .unquoted rest) :
    cutUnquoted quoting ((cutUnquoted quoting t).text ++ rest) =
      ⟨(cutUnquoted quoting t).text, rest, true, (cutUnquoted quoting t).escaped⟩ := by
  fun_induction cutUnquoted quoting t with
  | case1 => contradiction
  | case2 => contradiction
  | case3 quoting c t ih =>
    simp only [Cut.pushEscape, List.cons_append, cutUnquoted]
    rw [ih h hrest]
  | case4 quoting t hlast hescape ih =>
    simp only [Cut.push, List.cons_append]
    rw [cutUnquoted_cons (ne_backslash hlast hescape), if_pos rfl, ih h hrest]
    rfl
  | case5 quoting c t hlast hescape hc hstop =>
    -- outside of a quoted section, so that `rest` ends it as well
    obtain ⟨rfl, -⟩ : quoting = false ∧ endsUnquoted c = true := by simpa using hstop
    exact cutUnquoted_of_ends hends
  | case6 quoting c t hlast hescape hc hstop ih =>
    simp only [Cut.push, List.cons_append]
    rw [cutUnquoted_cons (ne_backslash hlast hescape), if_neg hc, if_neg hstop, ih h hrest]
    rfl

/-! ### Complete tokens are lexemes -/

/-- The characters with which an unquoted argument or a bracket may start. -/
def startsWord (c : Char) : Bool := !endsUnquoted c && c ≠ '#' && c ≠ '"'

theorem cut_hash (t : Text) :
    cut '#' t = match fence? t with
      | some n => (.bracketComment, (cutBracket n t).push '#')
      | none => (.lineComment, (Cut.run (fun c => !isBreak c) t).push '#') := rfl

theorem cut_word {c : Char} (h : startsWord c = true) (t : Text) :
    cut c t = match fence? (c :: t) with
      | some n => (.bracket, cutBracket n (c :: t))
      | none => (.unquoted, cutUnquoted false (c :: t)) := by
  simp only [startsWord, endsUnquoted, Bool.and_eq_true, Bool.not_eq_true', Bool.or_eq_false_iff,
    decide_eq_true_eq, decide_eq_false_iff_not] at h
  obtain ⟨⟨⟨⟨⟨hspace, hbreak⟩, hopen⟩, hclose⟩, hhash⟩, hquote⟩ := h
  cases hfence : fence? (c :: t) <;>
    simp only [cut, hspace, hbreak, hopen, hclose, hhash, hquote, hfence, Bool.false_eq_true,
      if_false]

/-- Where a bracket opens, the first token is that bracket. -/
theorem first?_of_fence {t : Text} {n : Nat} (h : fence? t = some n) :
    first? t = some (.bracket, cutBracket n t) := by
  obtain ⟨u, rfl⟩ := (fence?_eq_some_iff t n).mp h
  simp only [opener, List.cons_append] at h ⊢
  simp only [first?, cut_word (c := '[') rfl, h]

theorem lexeme_openParen : Lexeme .openParen ['('] := fun _ _ => ⟨false, rfl⟩

theorem lexeme_closeParen : Lexeme .closeParen [')'] := fun _ _ => ⟨false, rfl⟩

theorem lexeme_quoted {t : Text} (h : (cutQuoted t).closed = true) :
    Lexeme .quoted ('"' :: (cutQuoted t).text) := by
  intro rest _
  refine ⟨(cutQuoted t).escaped, ?_⟩
  change some (Kind.quoted, (cutQuoted ((cutQuoted t).text ++ rest)).push '"') = _
  rw [cutQuoted_text_append h]
  rfl

theorem lexeme_bracket {n : Nat} {t : Text} (h : (cutThrough (closer n) t).closed = true) :
    Lexeme .bracket (opener n ++ (cutThrough (closer n) t).text) := by
  intro rest _
  refine ⟨(cutThrough (closer n) t).escaped, ?_⟩
  rw [List.append_assoc, first?_of_fence (fence?_opener_append n _), cutBracket_opener_append,
    cutThrough_text_append (by simp [closer]) h]

theorem lexeme_bracketComment {n : Nat} {t : Text} (h : (cutThrough (closer n) t).closed = true) :
    Lexeme .bracketComment ('#' :: (opener n ++ (cutThrough (closer n) t).text)) := by
  intro rest _
  refine ⟨(cutThrough (closer n) t).escaped, ?_⟩
  simp only [first?, List.cons_append, List.append_assoc, cut_hash, fence?_opener_append,
    cutBracket_opener_append, cutThrough_text_append (by simp [closer] : closer n ≠ []) h,
    Cut.push]

theorem lexeme_lineComment {body : Text} (hbreak : ∀ c ∈ body, isBreak c = false)
    (hfence : fence? body = none) : Lexeme .lineComment ('#' :: body) := by
  intro rest hends
  refine ⟨false, ?_⟩
  have hnone : fence? (body ++ rest) = none := by
    apply fence?_append_eq_none hfence
    intro c hc
    have := hends c hc
    constructor <;> rintro rfl <;> simp [isBreak] at this
  have hbody : ∀ c ∈ body, (!isBreak c) = true := fun c hc => by simp [hbreak c hc]
  have htake : rest.takeWhile (fun c => !isBreak c) = [] := by
    cases rest with
    | nil => rfl
    | cons c t => simp [hends c rfl]
  have hdrop : rest.dropWhile (fun c => !isBreak c) = rest := by
    cases rest with
    | nil => rfl
    | cons c t => simp [hends c rfl]
  simp only [first?, List.cons_append, cut_hash, hnone, Cut.run, Cut.push,
    List.takeWhile_append_of_pos hbody, List.dropWhile_append_of_pos hbody, htake, hdrop,
    List.append_nil]

theorem lexeme_unquoted {c : Char} {t : Text} (hc : startsWord c = true)
    (hfence : fence? (c :: t) = none) (h : (cutUnquoted false (c :: t)).closed = true)
    (hrest : (cutUnquoted false (c :: t)).rest ≠ []) :
    Lexeme .unquoted (cutUnquoted false (c :: t)).text := by
  intro rest hends
  refine ⟨(cutUnquoted false (c :: t)).escaped, ?_⟩
  have hcut := cutUnquoted_text_append h hrest hends
  have hall := cutUnquoted_text_append_rest false (c :: t)
  have hne : (cutUnquoted false (c :: t)).text ≠ [] := by
    apply cutUnquoted_text_ne_nil
    simp_all [startsWord]
  obtain ⟨d, text, htext⟩ := List.exists_cons_of_ne_nil hne
  have hnone : fence? ((cutUnquoted false (c :: t)).text ++ rest) = none := by
    apply fence?_append_eq_none
    · exact fence?_eq_none_mono ⟨_, hall⟩ hfence
    · intro e he
      have := hends e he
      constructor <;> rintro rfl <;> simp [endsUnquoted, isSpace, isBreak] at this
  rw [htext] at hall hcut hnone ⊢
  obtain ⟨rfl, -⟩ := List.cons.inj hall
  simp only [List.cons_append] at hnone hcut ⊢
  simp only [first?, cut_word hc, hnone, hcut]

/-- A token that is complete in one text is a lexeme. An unquoted argument counts as complete where
something stands behind it, since a backslash at its end would take that along. -/
theorem lexeme_of_cut {c : Char} {t : Text} {kind : Kind} {k : Cut} (h : cut c t = (kind, k))
    (hclosed : k.closed = true) (hspace : kind ≠ .space) (hbreak : kind ≠ .lineBreak)
    (hrest : kind = .unquoted → k.rest ≠ []) : Lexeme kind k.text := by
  unfold cut at h
  split at h
  · simp_all
  next hb =>
  split at h
  · simp_all
  next hs =>
  split at h
  · next hc =>
    subst hc
    split at h
    · next n hfence =>
      obtain ⟨u, rfl⟩ := (fence?_eq_some_iff t n).mp hfence
      rw [cutBracket_opener_append] at h
      obtain ⟨rfl, rfl⟩ := Prod.mk.inj h
      exact lexeme_bracketComment hclosed
    · next hfence =>
      obtain ⟨rfl, rfl⟩ := Prod.mk.inj h
      exact lexeme_lineComment (fun c hc => by simpa using List.mem_takeWhile_imp hc)
        (fence?_eq_none_mono ⟨_, List.takeWhile_append_dropWhile⟩ hfence)
  next hhash =>
  split at h
  · next hc =>
    obtain ⟨rfl, rfl⟩ := Prod.mk.inj h
    exact hc ▸ lexeme_openParen
  next hopen =>
  split at h
  · next hc =>
    obtain ⟨rfl, rfl⟩ := Prod.mk.inj h
    exact hc ▸ lexeme_closeParen
  next hclose =>
  split at h
  · next hc =>
    obtain ⟨rfl, rfl⟩ := Prod.mk.inj h
    exact hc ▸ lexeme_quoted hclosed
  next hquote =>
  have hstart : startsWord c = true := by simp_all [startsWord, endsUnquoted]
  split at h
  · next n hfence =>
    obtain ⟨u, hu⟩ := (fence?_eq_some_iff _ n).mp hfence
    rw [← hu, cutBracket_opener_append] at h
    obtain ⟨rfl, rfl⟩ := Prod.mk.inj h
    exact lexeme_bracket hclosed
  · next hfence =>
    obtain ⟨rfl, rfl⟩ := Prod.mk.inj h
    exact lexeme_unquoted hstart hfence hclosed (hrest rfl)

/-! ### What a lexeme holds -/

theorem cut_eq_quoted {c : Char} {t : Text} {k : Cut} (h : cut c t = (.quoted, k)) :
    c = '"' ∧ k = (cutQuoted t).push c := by
  grind [cut]

theorem cut_eq_bracket {c : Char} {t : Text} {k : Cut} (h : cut c t = (.bracket, k)) :
    ∃ n, fence? (c :: t) = some n ∧ k = cutBracket n (c :: t) := by
  grind [cut]

theorem cut_eq_lineComment {c : Char} {t : Text} {k : Cut} (h : cut c t = (.lineComment, k)) :
    c = '#' ∧ fence? t = none ∧ k = (Cut.run (fun c => !isBreak c) t).push c := by
  grind [cut]

theorem cut_eq_bracketComment {c : Char} {t : Text} {k : Cut}
    (h : cut c t = (.bracketComment, k)) :
    c = '#' ∧ ∃ n, fence? t = some n ∧ k = (cutBracket n t).push c := by
  grind [cut]

theorem Lexeme.exists_cut {k : Kind} {text : Text} (h : Lexeme k text) :
    ∃ c t escaped, text = c :: t ∧ cut c t = (k, ⟨text, [], true, escaped⟩) := by
  obtain ⟨escaped, h'⟩ := h.first?_eq
  obtain ⟨c, t, rfl⟩ := List.exists_cons_of_ne_nil h.ne_nil
  exact ⟨c, t, escaped, rfl, Option.some.inj h'⟩

theorem Lexeme.lineComment_eq {text : Text} (h : Lexeme .lineComment text) :
    ∃ body, text = '#' :: body ∧ (∀ c ∈ body, isBreak c = false) ∧ fence? body = none := by
  obtain ⟨c, t, escaped, rfl, hcut⟩ := h.exists_cut
  obtain ⟨rfl, hfence, hrun⟩ := cut_eq_lineComment hcut
  refine ⟨t, rfl, fun c hc => ?_, hfence⟩
  have ht : t = t.takeWhile fun c => !isBreak c := by
    simpa [Cut.run, Cut.push] using congrArg (fun k => k.text.tail) hrun
  rw [ht] at hc
  simpa using List.mem_takeWhile_imp hc

/-- Backslashes in pairs, put in front of a text, leave its last backslashes paired as they are. -/
theorem trailingBackslashes_append {s : Text} (hs : Parse.trailingBackslashes s % 2 = 0)
    (t : Text) : Parse.trailingBackslashes (s ++ t) % 2 = Parse.trailingBackslashes t % 2 := by
  simp only [Parse.trailingBackslashes, List.reverse_append, List.takeWhile_append] at *
  split
  · next h =>
    rw [List.length_append]
    omega
  · rfl

theorem trailingBackslashes_append_cons (s : Text) {c : Char} (hc : c ≠ '\\') (t : Text) :
    Parse.trailingBackslashes (s ++ c :: t) = Parse.trailingBackslashes t := by
  simp only [Parse.trailingBackslashes, List.reverse_append, List.reverse_cons, List.append_assoc,
    List.singleton_append, List.takeWhile_append]
  split
  · next h => simp [hc, h]
  · rfl

/-- A backslash with the character that it takes along. -/
theorem trailingBackslashes_pair (c : Char) : Parse.trailingBackslashes ['\\', c] % 2 = 0 := by
  by_cases hc : c = '\\' <;> simp [Parse.trailingBackslashes, hc]

/-- A text in which every quote is escaped, and a quote behind it would not be. -/
def QuotesEscaped (body : Text) : Prop :=
  Parse.trailingBackslashes body % 2 = 0 ∧
    ∀ front back, body = front ++ '"' :: back → Parse.trailingBackslashes front % 2 = 1

/-- A character other than a quote, or a backslash with a character, in front of such a text. -/
theorem QuotesEscaped.append {s body : Text} (hs : Parse.trailingBackslashes s % 2 = 0)
    (hquote : ∀ front back, s = front ++ '"' :: back → Parse.trailingBackslashes front % 2 = 1)
    (h : QuotesEscaped body) : QuotesEscaped (s ++ body) := by
  refine ⟨(trailingBackslashes_append hs body).trans h.1, fun front back heq => ?_⟩
  rcases List.append_eq_append_iff.mp heq with ⟨front', rfl, hbody⟩ | ⟨back', rfl, hbody⟩
  · exact (trailingBackslashes_append hs front').trans (h.2 front' back hbody)
  · cases back' with
    | nil => simpa using (trailingBackslashes_append hs []).trans (h.2 [] back hbody.symm)
    | cons c back' =>
      obtain rfl : '"' = c := (List.cons.inj hbody).1
      exact hquote front back' rfl

/-- A quoted argument ends with the first quote that is not escaped. -/
theorem cutQuoted_text_of_closed {t : Text} (h : (cutQuoted t).closed = true) :
    ∃ body, (cutQuoted t).text = body ++ ['"'] ∧ QuotesEscaped body := by
  fun_induction cutQuoted t with
  | case1 => contradiction
  | case2 => contradiction
  | case3 c t ih =>
    obtain ⟨body, htext, hbody⟩ := ih h
    refine ⟨['\\', c] ++ body, by simp [Cut.pushEscape, htext], hbody.append ?_ ?_⟩
    · exact trailingBackslashes_pair c
    · intro front back heq
      obtain _ | ⟨d, _ | ⟨e, front⟩⟩ := front <;> simp at heq
      simp [Parse.trailingBackslashes, ← heq.1]
  | case4 => exact ⟨[], rfl, rfl, by simp⟩
  | case5 c t hlast hescape hc ih =>
    obtain ⟨body, htext, hbody⟩ := ih h
    refine ⟨[c] ++ body, by simp [Cut.push, htext], hbody.append ?_ ?_⟩
    · simp [Parse.trailingBackslashes, ne_backslash hlast hescape]
    · intro front back heq
      cases front with
      | nil => exact absurd (List.cons.inj heq).1 hc
      | cons d front => simp at heq

theorem Lexeme.quoted_eq {text : Text} (h : Lexeme .quoted text) :
    ∃ body, text = '"' :: (body ++ ['"']) ∧ QuotesEscaped body := by
  obtain ⟨c, t, escaped, rfl, hcut⟩ := h.exists_cut
  obtain ⟨rfl, hk⟩ := cut_eq_quoted hcut
  have hclosed : (cutQuoted t).closed = true := (congrArg Cut.closed hk).symm
  have htext : t = (cutQuoted t).text := (List.cons.inj (congrArg Cut.text hk)).2
  obtain ⟨body, hbody, hescaped⟩ := cutQuoted_text_of_closed hclosed
  exact ⟨body, by rw [htext, hbody], hescaped⟩

theorem quotedBody_of_quotesEscaped {body : Text} (h : QuotesEscaped body) :
    Parse.quotedBody ('"' :: (body ++ ['"'])) = body := by
  simp [Parse.quotedBody, h.1]

theorem bracketBody_append (n : Nat) (body : Text) :
    Parse.bracketBody n (opener n ++ body ++ closer n) = body := by
  rw [Parse.bracketBody, List.append_assoc, drop_opener_append, Parse.dropSuffix,
    if_pos (by simp [List.isSuffixOf_iff_suffix])]
  simp

/-- The text of a complete bracket. -/
theorem cutBracket_eq {n : Nat} {t : Text} (hfence : fence? t = some n) {escaped : Bool}
    (h : cutBracket n t = ⟨t, [], true, escaped⟩) :
    ∃ body, t = opener n ++ body ++ closer n := by
  obtain ⟨u, rfl⟩ := (fence?_eq_some_iff t n).mp hfence
  rw [cutBracket_opener_append, Cut.mk.injEq] at h
  obtain ⟨htext, -, hclosed, -⟩ := h
  obtain ⟨body, hbody⟩ := cutThrough_text_of_closed hclosed
  exact ⟨body, by rw [← htext, hbody, List.append_assoc]⟩

theorem Lexeme.bracket_eq {text : Text} (h : Lexeme .bracket text) :
    ∃ n body, text = opener n ++ body ++ closer n ∧ Parse.fenceOf text = n := by
  obtain ⟨c, t, escaped, rfl, hcut⟩ := h.exists_cut
  obtain ⟨n, hfence, hk⟩ := cut_eq_bracket hcut
  obtain ⟨body, hbody⟩ := cutBracket_eq hfence hk.symm
  exact ⟨n, body, hbody, by simp [Parse.fenceOf, hfence]⟩

/-- A bracket argument does not hold what closes it. -/
theorem Lexeme.closer_not_infix {n : Nat} {body : Text}
    (h : Lexeme .bracket (opener n ++ body ++ closer n)) : ¬ closer n <:+: body := by
  rintro ⟨front, back, rfl⟩
  obtain ⟨escaped, hfirst⟩ := h.first?_eq
  rw [List.append_assoc, first?_of_fence (fence?_opener_append n _),
    cutBracket_opener_append] at hfirst
  have htext := congrArg Cut.text (Prod.mk.inj (Option.some.inj hfirst)).2
  have hlength := length_cutThrough_le (closer n) front (back ++ closer n)
  have hall := congrArg List.length (List.append_cancel_left htext)
  simp [closer] at hlength hall
  omega

theorem Lexeme.bracketComment_eq {text : Text} (h : Lexeme .bracketComment text) :
    ∃ n body, text = '#' :: (opener n ++ body ++ closer n) ∧ Parse.fenceOf text.tail = n := by
  obtain ⟨c, t, escaped, rfl, hcut⟩ := h.exists_cut
  obtain ⟨rfl, n, hfence, hk⟩ := cut_eq_bracketComment hcut
  have hbracket : cutBracket n t = ⟨t, [], true, escaped⟩ := by
    simp only [Cut.push, Cut.mk.injEq, List.cons.injEq, true_and] at hk
    rw [Cut.mk.injEq]
    exact ⟨hk.1.symm, hk.2.1.symm, hk.2.2.1.symm, hk.2.2.2.symm⟩
  obtain ⟨body, hbody⟩ := cutBracket_eq hfence hbracket
  exact ⟨n, body, by rw [hbody], by simp [Parse.fenceOf, hfence]⟩

/-! ### Texts that can be written as unquoted arguments -/

/-- Whether a text is read as one unquoted argument where a parenthesis follows. -/
def standsUnquoted (text : Text) : Bool :=
  match first? (text ++ [')']) with
  | some (.unquoted, k) => k.closed && k.text = text
  | _ => false

theorem standsUnquoted_iff (text : Text) : standsUnquoted text = true ↔ Lexeme .unquoted text := by
  constructor
  · intro h
    unfold standsUnquoted at h
    split at h
    · next k hfirst =>
      obtain ⟨hclosed, htext⟩ : k.closed = true ∧ k.text = text := by simpa using h
      cases text with
      | nil => cases hfirst
      | cons c t =>
        have hcut : cut c (t ++ [')']) = (.unquoted, k) := Option.some.inj hfirst
        have hrest : k.rest ≠ [] := by
          have happend := cut_text_append_rest c (t ++ [')'])
          rw [hcut, htext] at happend
          intro hnil
          simp [hnil] at happend
        exact htext ▸ lexeme_of_cut hcut hclosed (by decide) (by decide) fun _ => hrest
    · contradiction
  · intro h
    obtain ⟨escaped, hfirst⟩ := h [')'] (by simp [Ends, endsUnquoted])
    simp [standsUnquoted, hfirst]

end Listfile.Token
