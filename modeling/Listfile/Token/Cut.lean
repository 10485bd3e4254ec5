import Listfile.Token.Basic

/-! Cutting one token off the front of a text. Each scanner returns the text it
took and the text that is left; nothing is lost between the two
(`cut_text_append_rest`), and a cut always takes at least one character
(`cut_rest_length_lt`), so that reading a source ends. -/

namespace Listfile.Token

/-- A piece cut off the front of a text. -/
structure Cut where
  text : Text
  rest : Text
  /-- The terminator, where one is due, was found. -/
  closed : Bool
  /-- A backslash was read as an escape. -/
  escaped : Bool

namespace Cut

/-- The same cut with one more character in front. -/
def push (c : Char) (k : Cut) : Cut := { k with text := c :: k.text }

/-- The same cut with a backslash and the character it takes along in front. -/
def pushEscape (c : Char) (k : Cut) : Cut :=
  { k with text := '\\' :: c :: k.text, escaped := true }

/-- The characters of `t` that satisfy `p`, up to the first that does not. -/
def run (p : Char → Bool) (t : Text) : Cut := ⟨t.takeWhile p, t.dropWhile p, true, false⟩

end Cut

/-! ### Character classes -/

def isSpace (c : Char) : Bool := c = ' ' || c = '\t'

def isBreak (c : Char) : Bool := c = '\r' || c = '\n'

/-- The characters at which an unquoted argument ends. -/
def endsUnquoted (c : Char) : Bool := isSpace c || isBreak c || c = '(' || c = ')'

/-! ### Quoted and unquoted arguments -/

/-- The rest of a quoted argument after its opening quote, up to and including
the first quote that is not escaped. A backslash takes the next character with it. -/
def cutQuoted : Text → Cut
  | [] => ⟨[], [], false, false⟩
  | ['\\'] => ⟨['\\'], [], false, true⟩
  | '\\' :: c :: t => (cutQuoted t).pushEscape c
  | c :: t => if c = '"' then ⟨['"'], t, true, false⟩ else (cutQuoted t).push c

/-- An unquoted argument, inside (`quoting`) or outside of one of its quoted
sections. It ends before a space, a line break or a parenthesis that stands
outside of such a section. -/
def cutUnquoted (quoting : Bool) : Text → Cut
  | [] => ⟨[], [], !quoting, false⟩
  | ['\\'] => ⟨['\\'], [], !quoting, true⟩
  | '\\' :: c :: t => (cutUnquoted quoting t).pushEscape c
  | c :: t =>
    if c = '"' then (cutUnquoted (!quoting) t).push c
    else if !quoting && endsUnquoted c then ⟨[], c :: t, true, false⟩
    else (cutUnquoted quoting t).push c

/-! ### Brackets -/

/-- `[`, `n` equals signs, `[`. -/
def opener (n : Nat) : Text := '[' :: (List.replicate n '=' ++ ['['])

/-- `]`, `n` equals signs, `]`. -/
def closer (n : Nat) : Text := ']' :: (List.replicate n '=' ++ [']'])

/-- The number of equals signs of the bracket opening at the front of a text, if there is one. -/
def fence? : Text → Option Nat
  | '[' :: t =>
    let n := (t.takeWhile (· = '=')).length
    if (t.drop n).head? = some '[' then some n else none
  | _ => none

/-- An offset that lies before the start of a text. -/
inductive OffsetFault
  | beforeStart
  deriving DecidableEq, Repr

def OffsetFault.message : OffsetFault → String
  | .beforeStart => "string index out of range"

/-- The fence of the bracket opening at an offset. A negative offset counts from the end of the
text, and reading goes on from there at the front of the text. -/
def fenceAt (t : Text) (offset : Int) : Except OffsetFault (Option Nat) :=
  if 0 ≤ offset then .ok (fence? (t.drop offset.toNat))
  else if 0 ≤ t.length + offset then .ok (fence? (t.drop (t.length + offset).toNat ++ t))
  else .error .beforeStart

/-- Everything up to and including the first occurrence of `stop`, or all there is. -/
def cutThrough (stop : Text) : Text → Cut
  | [] => ⟨[], [], false, false⟩
  | c :: t =>
    if stop.isPrefixOf (c :: t) then ⟨stop, (c :: t).drop stop.length, true, false⟩
    else (cutThrough stop t).push c

/-- A bracket with a fence of `n`, from its opening on. -/
def cutBracket (n : Nat) (t : Text) : Cut :=
  let k := cutThrough (closer n) (t.drop (n + 2))
  { k with text := t.take (n + 2) ++ k.text }

/-! ### One token -/

/-- A line feed, or a carriage return with the line feed that may follow it. -/
def cutBreak (c : Char) : Text → Cut
  | '\n' :: t => if c = '\r' then ⟨['\r', '\n'], t, true, false⟩ else ⟨[c], '\n' :: t, true, false⟩
  | t => ⟨[c], t, true, false⟩

/-- The first token of the text `c :: t`. -/
def cut (c : Char) (t : Text) : Kind × Cut :=
  if isBreak c then (.lineBreak, cutBreak c t)
  else if isSpace c then (.space, (Cut.run isSpace t).push c)
  else if c = '#' then
    match fence? t with
    | some n => (.bracketComment, (cutBracket n t).push c)
    | none => (.lineComment, (Cut.run (fun c => !isBreak c) t).push c)
  else if c = '(' then (.openParen, ⟨[c], t, true, false⟩)
  else if c = ')' then (.closeParen, ⟨[c], t, true, false⟩)
  else if c = '"' then (.quoted, (cutQuoted t).push c)
  else match fence? (c :: t) with
    | some n => (.bracket, cutBracket n (c :: t))
    | none => (.unquoted, (cutUnquoted false (c :: t)))

/-! ### Nothing is lost -/

theorem cutQuoted_text_append_rest (t : Text) : (cutQuoted t).text ++ (cutQuoted t).rest = t := by
  fun_induction cutQuoted t with
  | case1 => rfl
  | case2 => rfl
  | case3 c t ih => simpa [Cut.pushEscape] using ih
  | case4 => rfl
  | case5 c t _ _ h ih => simpa [Cut.push] using ih

theorem cutUnquoted_text_append_rest (quoting : Bool) (t : Text) :
    (cutUnquoted quoting t).text ++ (cutUnquoted quoting t).rest = t := by
  fun_induction cutUnquoted quoting t with
  | case1 => rfl
  | case2 => rfl
  | case3 quoting c t ih => simpa [Cut.pushEscape] using ih
  | case4 quoting t _ _ ih => simpa [Cut.push] using ih
  | case5 => rfl
  | case6 quoting c t _ _ h h' ih => simpa [Cut.push] using ih

theorem cutThrough_text_append_rest (stop t : Text) :
    (cutThrough stop t).text ++ (cutThrough stop t).rest = t := by
  induction t with
  | nil => rfl
  | cons c t ih =>
    unfold cutThrough
    split
    next h =>
      obtain ⟨r, hr⟩ := List.isPrefixOf_iff_prefix.mp h
      simp [← hr]
    next => simpa [Cut.push] using ih

theorem cutBracket_text_append_rest (n : Nat) (t : Text) :
    (cutBracket n t).text ++ (cutBracket n t).rest = t := by
  simp [cutBracket, cutThrough_text_append_rest]

theorem cutBreak_text_append_rest (c : Char) (t : Text) :
    (cutBreak c t).text ++ (cutBreak c t).rest = c :: t := by
  unfold cutBreak
  split
  next => split <;> simp_all
  next => simp

/-- A cut takes its text off the front and leaves all the rest. -/
theorem cut_text_append_rest (c : Char) (t : Text) :
    (cut c t).2.text ++ (cut c t).2.rest = c :: t := by
  unfold cut
  split
  · exact cutBreak_text_append_rest c t
  split
  · simp [Cut.run, Cut.push, List.takeWhile_append_dropWhile]
  split
  · split <;> simp [Cut.run, Cut.push, cutBracket_text_append_rest, List.takeWhile_append_dropWhile]
  split
  · rfl
  split
  · rfl
  split
  · simp [Cut.push, cutQuoted_text_append_rest]
  split
  · exact cutBracket_text_append_rest _ _
  · exact cutUnquoted_text_append_rest _ _

/-! ### Every cut advances -/

theorem cutUnquoted_text_ne_nil {c : Char} (t : Text) (h : endsUnquoted c = false) :
    (cutUnquoted false (c :: t)).text ≠ [] := by
  unfold cutUnquoted
  split <;> simp_all [Cut.push, Cut.pushEscape]
  split <;> simp

theorem cutBracket_text_ne_nil (n : Nat) (c : Char) (t : Text) :
    (cutBracket n (c :: t)).text ≠ [] := by
  simp [cutBracket]

/-- A cut takes at least one character. -/
theorem cut_text_ne_nil (c : Char) (t : Text) : (cut c t).2.text ≠ [] := by
  unfold cut
  split
  · unfold cutBreak
    split
    next => split <;> simp
    next => simp
  split
  · simp [Cut.push]
  split
  · split <;> simp [Cut.push]
  split
  · simp
  split
  · simp
  split
  · simp [Cut.push]
  split
  · exact cutBracket_text_ne_nil _ _ _
  · apply cutUnquoted_text_ne_nil
    simp_all [endsUnquoted]

theorem cut_rest_length_lt (c : Char) (t : Text) :
    (cut c t).2.rest.length < (c :: t).length := by
  have h := congrArg List.length (cut_text_append_rest c t)
  have h' := List.length_pos_iff.mpr (cut_text_ne_nil c t)
  rw [List.length_append] at h
  omega

end Listfile.Token
