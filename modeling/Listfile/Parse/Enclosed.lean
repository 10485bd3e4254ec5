import Listfile.Parse.Literal

/-! The arguments between a parenthesis and its partner. Open groups are kept in
a list, innermost first, each with the arguments read so far, last first; the
tokens are read once from left to right. At the end of the source every group
that is still open is reported, innermost first, and closed. -/

namespace Listfile.Parse

/-- An argument list that is still open: its parenthesis and its arguments, last first. -/
structure OpenGroup where
  paren : Token
  read : List Argument

/-- What was found up to the partner of a parenthesis. -/
structure Enclosed where
  arguments : List Argument
  /-- The closing parenthesis, or the end of the source. -/
  stop : Span
  rest : List Token
  faults : List Diagnostic

def unterminated (t : Token) : Diagnostic := .ofCode .unterminatedArguments t.span

/-- Close all open groups into the outermost; `inner` holds the arguments of the innermost. -/
def closeAll (inner : List Argument) : List OpenGroup → List Argument
  | [] => inner.reverse
  | g :: outer => closeAll (.group inner.reverse :: g.read) outer

/-- Read arguments up to the parenthesis that closes the outermost open group. `stop` is the end of
the source. -/
def enclosed (lines : LineIndex) (stop : Span) (group : OpenGroup) (outer : List OpenGroup) :
    List Token → Enclosed
  | [] => ⟨closeAll group.read outer, stop, [], (group :: outer).map (unterminated ·.paren)⟩
  | t :: rest =>
    match t.kind with
    | .closeParen =>
      match outer with
      | [] => ⟨group.read.reverse, t.span, rest, []⟩
      | g :: outer =>
        enclosed lines stop { g with read := .group group.read.reverse :: g.read } outer rest
    | .openParen => enclosed lines stop ⟨t, []⟩ (group :: outer) rest
    | _ =>
      match argument? lines t with
      | some a => enclosed lines stop { group with read := a :: group.read } outer rest
      | none => enclosed lines stop group outer rest

/-- What is left behind the arguments is an end piece of the tokens read. -/
theorem enclosed_rest_suffix (lines : LineIndex) (stop : Span) (group : OpenGroup)
    (outer : List OpenGroup) (tokens : List Token) :
    (enclosed lines stop group outer tokens).rest <:+ tokens := by
  fun_induction enclosed lines stop group outer tokens with
  | case1 => exact List.suffix_refl _
  | case2 => exact List.suffix_cons _ _
  | case3 _ _ _ _ _ _ ih => exact ih.trans (List.suffix_cons _ _)
  | case4 _ _ _ _ _ ih => exact ih.trans (List.suffix_cons _ _)
  | case5 _ _ _ _ _ _ _ _ ih => exact ih.trans (List.suffix_cons _ _)
  | case6 _ _ _ _ _ _ _ ih => exact ih.trans (List.suffix_cons _ _)

/-- Drop all tokens up to the end of the line. A line break inside parentheses
does not end the line, and a parenthesis left open is reported as in an
argument list. -/
def skipLine (opened : List Token) : List Token → List Token × List Diagnostic
  | [] => ([], opened.map unterminated)
  | t :: rest =>
    match t.kind with
    | .lineBreak => if opened.isEmpty then (t :: rest, []) else skipLine opened rest
    | .openParen => skipLine (t :: opened) rest
    | .closeParen => skipLine opened.tail rest
    | _ => skipLine opened rest

theorem skipLine_suffix (opened tokens : List Token) : (skipLine opened tokens).1 <:+ tokens := by
  fun_induction skipLine opened tokens with
  | case1 => exact List.suffix_refl _
  | case2 => exact List.suffix_refl _
  | case3 _ _ _ _ _ ih => exact ih.trans (List.suffix_cons _ _)
  | case4 _ _ _ _ ih => exact ih.trans (List.suffix_cons _ _)
  | case5 _ _ _ _ ih => exact ih.trans (List.suffix_cons _ _)
  | case6 _ _ _ _ _ _ ih => exact ih.trans (List.suffix_cons _ _)

/-- A line that does not start with a line break loses at least its first token. -/
theorem skipLine_length_lt {t : Token} (rest : List Token) (h : t.kind ≠ .lineBreak) :
    (skipLine [] (t :: rest)).1.length < (t :: rest).length := by
  have hs : ∀ opened, (skipLine opened rest).1.length < (t :: rest).length := fun opened => by
    have := (skipLine_suffix opened rest).length_le
    simp only [List.length_cons]
    omega
  unfold skipLine
  split
  · contradiction
  · exact hs _
  · exact hs _
  · exact hs _

end Listfile.Parse
