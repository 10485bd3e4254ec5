import Listfile.Parse.Source
import Listfile.Proofs.Scan

/-! Argument lists as tokens. `Reads` says which tokens stand for which
arguments: a leaf is one token, a group is what its parentheses hold, and line
breaks stand for nothing. Reading the tokens behind an opening parenthesis gives
those arguments (`enclosed_of_reads`), and wherever it reports nothing it has
found such tokens and a closing parenthesis behind them (`reads_of_enclosed`). -/

namespace Listfile.Parse

/-- The arguments that a list of tokens stands for. -/
inductive Reads (lines : LineIndex) : List Token → List Argument → Prop
  | nil : Reads lines [] []
  | lineBreak {t : Token} {ts : List Token} {as : List Argument} (ht : t.kind = .lineBreak)
      (h : Reads lines ts as) : Reads lines (t :: ts) as
  | leaf {t : Token} {a : Argument} {ts : List Token} {as : List Argument}
      (ht : argument? lines t = some a) (h : Reads lines ts as) : Reads lines (t :: ts) (a :: as)
  | group {o c : Token} {inner ts : List Token} {xs as : List Argument} (ho : o.kind = .openParen)
      (hc : c.kind = .closeParen) (hi : Reads lines inner xs) (h : Reads lines ts as) :
      Reads lines (o :: (inner ++ c :: ts)) (.group xs :: as)

namespace Reads

variable {lines : LineIndex}

theorem append {ts us : List Token} {as bs : List Argument} (h : Reads lines ts as)
    (h' : Reads lines us bs) : Reads lines (ts ++ us) (as ++ bs) := by
  induction h with
  | nil => exact h'
  | lineBreak ht _ ih => exact .lineBreak ht ih
  | leaf ht _ ih => exact .leaf ht ih
  | group ho hc hi _ _ ih => simpa using Reads.group ho hc hi ih

end Reads

/-- Tokens of a kind that stands for an argument are neither parentheses nor line breaks. -/
theorem kind_of_argument? {lines : LineIndex} {t : Token} {a : Argument}
    (h : argument? lines t = some a) : t.kind ≠ .openParen ∧ t.kind ≠ .closeParen := by
  constructor <;> intro hk <;> simp [argument?, hk] at h

section Steps
variable (lines : LineIndex) (stop : Span) (group : OpenGroup) (outer : List OpenGroup)
  (rest : List Token)

theorem enclosed_lineBreak {t : Token} (h : t.kind = .lineBreak) :
    enclosed lines stop group outer (t :: rest) = enclosed lines stop group outer rest := by
  rw [enclosed.eq_def]
  simp only [h, argument?]

theorem enclosed_leaf {t : Token} {a : Argument} (h : argument? lines t = some a) :
    enclosed lines stop group outer (t :: rest) =
      enclosed lines stop { group with read := a :: group.read } outer rest := by
  have ⟨ho, hc⟩ := kind_of_argument? h
  rw [enclosed.eq_def]
  simp only [h]

theorem enclosed_open {t : Token} (h : t.kind = .openParen) :
    enclosed lines stop group outer (t :: rest) =
      enclosed lines stop ⟨t, []⟩ (group :: outer) rest := by
  rw [enclosed.eq_def]
  simp only [h]

theorem enclosed_close {t : Token} (h : t.kind = .closeParen) (next : OpenGroup) :
    enclosed lines stop group (next :: outer) (t :: rest) =
      enclosed lines stop { next with read := .group group.read.reverse :: next.read } outer
        rest := by
  rw [enclosed.eq_def]
  simp only [h]

theorem enclosed_close_last {t : Token} (h : t.kind = .closeParen) :
    enclosed lines stop group [] (t :: rest) = ⟨group.read.reverse, t.span, rest, []⟩ := by
  rw [enclosed.eq_def]
  simp only [h]

end Steps

/-- Reading over tokens puts their arguments in front of those read before. -/
theorem enclosed_of_reads {lines : LineIndex} {ts : List Token} {as : List Argument}
    (h : Reads lines ts as) (stop : Span) (group : OpenGroup) (outer : List OpenGroup)
    (rest : List Token) :
    enclosed lines stop group outer (ts ++ rest) =
      enclosed lines stop { group with read := as.reverse ++ group.read } outer rest := by
  induction h generalizing group outer rest with
  | nil => rfl
  | lineBreak ht _ ih => rw [List.cons_append, enclosed_lineBreak _ _ _ _ _ ht, ih]
  | leaf ht _ ih =>
    rw [List.cons_append, enclosed_leaf _ _ _ _ _ ht, ih]
    simp
  | group ho hc _ _ ihi ih =>
    rw [List.cons_append, List.append_assoc, List.cons_append, enclosed_open _ _ _ _ _ ho, ihi,
      enclosed_close _ _ _ _ _ hc, ih]
    simp

/-- The arguments up to a closing parenthesis. -/
theorem enclosed_of_reads_close {lines : LineIndex} {ts : List Token} {as : List Argument}
    (h : Reads lines ts as) (stop : Span) (p : Token) {c : Token} (hc : c.kind = .closeParen)
    (rest : List Token) :
    enclosed lines stop ⟨p, []⟩ [] (ts ++ c :: rest) = ⟨as, c.span, rest, []⟩ := by
  rw [enclosed_of_reads h, enclosed_close_last _ _ _ _ hc]
  simp

/-! ### Reading without a report -/

/-- The tokens read so far while groups are open, outermost first: those of an outer group, the
parenthesis that opens the next one, and so on inwards. -/
def Pending (lines : LineIndex) (read : List Token) (group : OpenGroup) : List OpenGroup → Prop
  | [] => Reads lines read group.read.reverse
  | next :: outer => group.paren.kind = .openParen ∧ ∃ before inner,
      read = before ++ group.paren :: inner ∧ Reads lines inner group.read.reverse ∧
        Pending lines before next outer

/-- What is read next belongs to the innermost group. -/
theorem Pending.append {lines : LineIndex} {read ts : List Token} {as : List Argument}
    {group : OpenGroup} {outer : List OpenGroup} (h : Pending lines read group outer)
    (hts : Reads lines ts as) :
    Pending lines (read ++ ts) { group with read := as.reverse ++ group.read } outer := by
  cases outer with
  | nil => simpa [Pending] using Reads.append h hts
  | cons next outer =>
    obtain ⟨hopen, before, inner, rfl, hread, hout⟩ := h
    exact ⟨hopen, before, inner ++ ts, by simp, by simpa using hread.append hts, hout⟩

/-- A closing parenthesis makes the innermost group an argument of the next one. -/
theorem Pending.close {lines : LineIndex} {read : List Token} {group next : OpenGroup}
    {outer : List OpenGroup} (h : Pending lines read group (next :: outer)) {c : Token}
    (hc : c.kind = .closeParen) :
    Pending lines (read ++ [c]) { next with read := .group group.read.reverse :: next.read }
      outer := by
  obtain ⟨hopen, before, inner, rfl, hread, hout⟩ := h
  have hgroup := Reads.group hopen hc hread .nil
  have := hout.append hgroup
  simpa using this

/-- Without a report, reading ends at the partner of the parenthesis. -/
theorem reads_of_enclosed {lines : LineIndex} {stop : Span} {group : OpenGroup}
    {outer : List OpenGroup} {tokens read : List Token} (hread : Pending lines read group outer)
    (hs : ∀ t ∈ tokens, Token.isSignificant t = true)
    (h : (enclosed lines stop group outer tokens).faults = []) :
    ∃ inner c, read ++ tokens = inner ++ c :: (enclosed lines stop group outer tokens).rest ∧
      c.kind = .closeParen ∧ (enclosed lines stop group outer tokens).stop = c.span ∧
      Reads lines inner (enclosed lines stop group outer tokens).arguments := by
  fun_induction enclosed lines stop group outer tokens generalizing read with
  | case1 => simp at h
  | case2 group t rest hk => exact ⟨read, t, rfl, hk, rfl, hread⟩
  | case3 group t rest hk next outer ih =>
    have := ih (hread.close hk) (fun u hu => hs u (List.mem_cons_of_mem _ hu)) h
    simpa using this
  | case4 group outer t rest hk ih =>
    have hopen : Pending lines (read ++ [t]) ⟨t, []⟩ (group :: outer) :=
      ⟨hk, read, [], rfl, .nil, hread⟩
    have := ih hopen (fun u hu => hs u (List.mem_cons_of_mem _ hu)) h
    simpa using this
  | case5 group outer t rest a ha _ _ ih =>
    have hleaf := hread.append (.leaf ha .nil)
    have := ih hleaf (fun u hu => hs u (List.mem_cons_of_mem _ hu)) h
    simpa using this
  | case6 group outer t rest ha hc ho ih =>
    -- of the tokens that carry structure only line breaks stand for no argument
    have hk : t.kind = .lineBreak := by
      have hsig := hs t (List.mem_cons_self ..)
      cases hkind : t.kind <;> simp_all [argument?, Token.isSignificant]
    have hbreak := hread.append (.lineBreak hk .nil)
    have := ih hbreak (fun u hu => hs u (List.mem_cons_of_mem _ hu)) h
    simpa using this

end Listfile.Parse
