import Listfile.Parse.Source
import Listfile.Proofs.Lexeme

/-! The tokens that carry structure, as a text is read from left to right. Spaces
leave no trace in them, and a lexeme in front of something at which it ends gives
one token and is gone. In the other direction, the tokens of a source whose
literals are all complete fit together (`Fit`): each one is a lexeme, each knows
whether it starts its line, and only a line break follows a line comment. -/

namespace Listfile.Token

namespace Reader

/-! ### One token -/

/-- The token at the end of a source of a given length. -/
def stopToken (length : Nat) : Token := ⟨.endOfFile, [], .point length, false, false, true⟩

theorem next_of_nil {r : Reader} (h : r.ahead = []) : r.next = (stopToken r.offset, r) := by
  unfold next
  rw [h]
  rfl

theorem next_of_cons {r : Reader} {c : Char} {t : Text} (h : r.ahead = c :: t) :
    r.next = (⟨(cut c t).1, (cut c t).2.text, .ofLength r.offset (cut c t).2.text.length,
        r.lineStart, (cut c t).2.escaped, (cut c t).2.closed⟩,
      ⟨(cut c t).2.rest, r.offset + (cut c t).2.text.length,
        staysAtLineStart (cut c t).1 r.lineStart⟩) := by
  unfold next
  rw [h]

theorem tokens_of_nil {r : Reader} (h : r.ahead = []) : r.tokens = [stopToken r.offset] := by
  rw [tokens, dif_pos h, next_of_nil h]

theorem tokens_of_ne_nil {r : Reader} (h : r.ahead ≠ []) :
    r.tokens = r.next.1 :: r.next.2.tokens := by
  rw [tokens, dif_neg h]

/-! ### Ink -/

/-- The tokens that carry structure from a reader on. -/
def ink (r : Reader) : List Token := r.tokens.filter isSignificant

@[simp] theorem ink_nil (offset : Nat) (b : Bool) : (Reader.mk [] offset b).ink = [] := by
  simp [ink, tokens_of_nil, stopToken, isSignificant]

/-- A lexeme gives one token. -/
theorem ink_lexeme {k : Kind} {text : Text} (h : Lexeme k text) (hs : k ≠ .space)
    (he : k ≠ .endOfFile) {rest : Text} (hends : Ends k rest) (offset : Nat) (b : Bool) :
    ∃ t : Token, t.kind = k ∧ t.text = text ∧ t.startsLine = b ∧ t.closed = true ∧
      (Reader.mk (text ++ rest) offset b).ink =
        t :: (Reader.mk rest (offset + text.length) (staysAtLineStart k b)).ink := by
  obtain ⟨escaped, hfirst⟩ := h rest hends
  obtain ⟨c, t, rfl⟩ := List.exists_cons_of_ne_nil h.ne_nil
  refine ⟨⟨k, c :: t, .ofLength offset (c :: t).length, b, escaped, true⟩, rfl, rfl, rfl, rfl, ?_⟩
  have hcut : cut c (t ++ rest) = (k, ⟨c :: t, rest, true, escaped⟩) := Option.some.inj hfirst
  simp [ink, tokens_of_ne_nil, next, hcut, isSignificant, hs, he]

/-- A line feed gives a token behind which a line starts. -/
theorem ink_lineFeed (rest : Text) (offset : Nat) (b : Bool) :
    ∃ t : Token, t.kind = .lineBreak ∧ t.closed = true ∧
      (Reader.mk ('\n' :: rest) offset b).ink = t :: (Reader.mk rest (offset + 1) true).ink := by
  refine ⟨⟨.lineBreak, ['\n'], .ofLength offset 1, b, false, true⟩, rfl, rfl, ?_⟩
  have hcut : cut '\n' rest = (.lineBreak, ⟨['\n'], rest, true, false⟩) := by
    cases rest with
    | nil => rfl
    | cons c t =>
      by_cases hc : c = '\n'
      · subst hc; rfl
      · simp [cut, isBreak, cutBreak, hc]
  simp [ink, tokens_of_ne_nil, next, hcut, isSignificant, staysAtLineStart]

theorem ink_dropWhile (t : Text) (offset : Nat) (b : Bool) :
    (Reader.mk t offset b).ink =
      (Reader.mk (t.dropWhile isSpace) (offset + (t.takeWhile isSpace).length) b).ink := by
  cases t with
  | nil => rfl
  | cons c t =>
    by_cases hc : isSpace c = true
    · have hb : isBreak c = false := by
        simp only [isSpace, Bool.or_eq_true, decide_eq_true_eq] at hc
        rcases hc with rfl | rfl <;> rfl
      have hcut : cut c t = (.space, (Cut.run isSpace t).push c) := by simp [cut, hb, hc]
      simp [ink, tokens_of_ne_nil, next, hcut, isSignificant, staysAtLineStart, Cut.run,
        Cut.push, hc]
    · simp [hc]

theorem ink_space (rest : Text) (offset : Nat) (b : Bool) :
    (Reader.mk (' ' :: rest) offset b).ink = (Reader.mk rest (offset + 1) b).ink := by
  have hc : isSpace ' ' = true := rfl
  rw [ink_dropWhile, ink_dropWhile rest (offset + 1)]
  simp only [List.dropWhile_cons, List.takeWhile_cons, hc, if_true, List.length_cons,
    Nat.add_comm, Nat.add_left_comm]

/-- Spaces are read over. -/
theorem ink_spaces (n : Nat) (rest : Text) (offset : Nat) (b : Bool) :
    (Reader.mk (Text.spaces n ++ rest) offset b).ink = (Reader.mk rest (offset + n) b).ink := by
  induction n generalizing offset with
  | zero => rfl
  | succ n ih =>
    rw [Text.spaces, List.replicate_succ, List.cons_append, ink_space]
    rw [Text.spaces] at ih
    rw [ih, Nat.add_assoc, Nat.add_comm 1 n]

end Reader

/-! ### Tokens of a source -/

/-- The texts of the tokens make up the source. -/
theorem Reader.flatMap_text_tokens (r : Reader) : r.tokens.flatMap (·.text) = r.ahead := by
  obtain ⟨ahead, offset, b⟩ := r
  induction hn : ahead.length using Nat.strongRecOn generalizing ahead offset b with
  | ind n ih =>
    subst hn
    cases ahead with
    | nil => simp [tokens_of_nil, stopToken]
    | cons c t =>
      have hrest := ih _ (cut_rest_length_lt c t) (cut c t).2.rest
        (offset + (cut c t).2.text.length) (staysAtLineStart (cut c t).1 b) rfl
      rw [tokens_of_ne_nil (List.cons_ne_nil c t), List.flatMap_cons]
      simp only [next]
      rw [hrest, cut_text_append_rest]

/-- A token stands somewhere in its source. -/
theorem text_infix_of_mem_scan {source : Text} {t : Token} (h : t ∈ scan source) :
    t.text <:+: source := by
  obtain ⟨front, back, heq⟩ := List.append_of_mem h
  have htexts := Reader.flatMap_text_tokens (Reader.start source)
  refine ⟨front.flatMap (·.text), back.flatMap (·.text), ?_⟩
  rw [← show (scan source).flatMap (·.text) = source from htexts, heq]
  simp

theorem cut_kind_ne_endOfFile (c : Char) (t : Text) : (cut c t).1 ≠ .endOfFile := by
  grind [cut]

theorem cutBreak_closed (c : Char) (t : Text) : (cutBreak c t).closed = true := by
  unfold cutBreak
  split
  · split <;> rfl
  · rfl

/-- A token that is not reported has all it needs. -/
theorem cut_closed {c : Char} {t : Text} {kind : Kind} {k : Cut} (h : cut c t = (kind, k))
    {offset : Nat} {b : Bool}
    (hf : fault? ⟨kind, k.text, .ofLength offset k.text.length, b, k.escaped, k.closed⟩ = none) :
    k.closed = true := by
  grind [cut, cutBreak_closed, Cut.run, Cut.push, fault?]

/-- How tokens follow each other in a source without faults; `b` says whether a line starts before
the first of them. An unquoted argument at the very end may end with a backslash and is then no
lexeme. -/
def Fit : Bool → List Token → Prop
  | _, [] => True
  | b, t :: rest =>
    t.startsLine = b ∧ isSignificant t = true ∧ t.closed = true ∧
    (t.kind ≠ .lineBreak → (t.kind = .unquoted → rest ≠ []) → Lexeme t.kind t.text) ∧
    (t.kind = .lineComment → ∀ u ∈ rest.head?, u.kind = .lineBreak) ∧
    Fit (t.kind = .lineBreak) rest

theorem Reader.ink_head_of_isBreak {c : Char} (hc : isBreak c = true) (t : Text) (offset : Nat)
    (b : Bool) : ∀ u ∈ (Reader.mk (c :: t) offset b).ink.head?, u.kind = .lineBreak := by
  have hcut : cut c t = (.lineBreak, cutBreak c t) := by simp [cut, hc]
  intro u hu
  rw [ink, tokens_of_ne_nil (List.cons_ne_nil c t)] at hu
  simp only [next, hcut, isSignificant, List.filter_cons] at hu
  obtain rfl : _ = u := by simpa using hu
  rfl

theorem Reader.fit_ink (r : Reader) (h : ∀ t ∈ r.tokens, t.fault? = none) :
    Fit r.lineStart r.ink := by
  obtain ⟨ahead, offset, b⟩ := r
  induction hn : ahead.length using Nat.strongRecOn generalizing ahead offset b with
  | ind n ih =>
    subst hn
    cases ahead with
    | nil => simp [Fit]
    | cons c t =>
      obtain ⟨kind, k, hcut⟩ : ∃ kind k, cut c t = (kind, k) := ⟨_, _, rfl⟩
      have hnext : (Reader.mk (c :: t) offset b).next =
          (⟨kind, k.text, .ofLength offset k.text.length, b, k.escaped, k.closed⟩,
            ⟨k.rest, offset + k.text.length, staysAtLineStart kind b⟩) := by
        simp [next, hcut]
      rw [tokens_of_ne_nil (List.cons_ne_nil c t)] at h
      simp only [hnext, List.mem_cons, forall_eq_or_imp] at h
      have hlt : k.rest.length < (c :: t).length := by
        simpa [hcut] using cut_rest_length_lt c t
      have hfit := ih k.rest.length hlt k.rest _ (staysAtLineStart kind b) h.2 rfl
      have heof : kind ≠ .endOfFile := by simpa [hcut] using cut_kind_ne_endOfFile c t
      by_cases hspace : kind = .space
      · subst hspace
        simpa [ink, tokens_of_ne_nil, hnext, isSignificant, staysAtLineStart] using hfit
      · have hclosed := cut_closed hcut h.1
        have hstays : staysAtLineStart kind b = decide (kind = .lineBreak) := by
          cases kind <;> simp_all [staysAtLineStart]
        have hink : (Reader.mk (c :: t) offset b).ink =
            ⟨kind, k.text, .ofLength offset k.text.length, b, k.escaped, k.closed⟩ ::
              (Reader.mk k.rest (offset + k.text.length) (staysAtLineStart kind b)).ink := by
          simp [ink, tokens_of_ne_nil, hnext, isSignificant, hspace, heof]
        rw [hink]
        refine ⟨rfl, by simp [isSignificant, hspace, heof], hclosed, ?_, ?_, ?_⟩
        · intro hbreak hrest
          apply lexeme_of_cut hcut hclosed hspace hbreak
          intro hk hnil
          exact hrest hk (by simp [hnil])
        · rintro rfl
          obtain ⟨rfl, -, rfl⟩ := cut_eq_lineComment hcut
          have hstop := List.head?_dropWhile_not (fun c => !isBreak c) t
          simp only [Cut.push, Cut.run]
          cases hrest : t.dropWhile fun c => !isBreak c with
          | nil => simp
          | cons d u =>
            rw [hrest] at hstop
            exact ink_head_of_isBreak (by simpa using hstop) u _ _
        · simpa [hstays] using hfit

/-- Spaces and the end of the file are never reported. -/
theorem faults_filter (tokens : List Token) :
    faults (tokens.filter isSignificant) = faults tokens := by
  induction tokens with
  | nil => rfl
  | cons t rest ih =>
    simp only [faults] at ih
    by_cases ht : isSignificant t = true
    · simp [faults, ht, List.filterMap_cons, ih]
    · have hnone : t.fault? = none := by
        simp only [isSignificant, Bool.and_eq_true, decide_eq_true_eq, not_and_or, not_not] at ht
        rcases ht with h | h <;> simp [fault?, h]
      simp [faults, ht, hnone, ih]

/-- The tokens of a text in which no literal lacks its terminator fit together. -/
theorem fit_significant {text : Text} (h : faults (scan text) = []) :
    Fit true (Parse.significant text) :=
  Reader.fit_ink (Reader.start text) fun t ht => List.filterMap_eq_nil_iff.mp h t ht

end Listfile.Token
