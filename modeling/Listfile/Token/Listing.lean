import Listfile.Token.Reader
import Listfile.Text.Quoted

/-! A printed list of tokens: a numbered line for each, with its kind in a
column of eighteen, its span, its flags and its text as a literal. -/

namespace Listfile.Token

/-- A number of at least three digits. -/
def ordinal (n : Nat) : String :=
  let digits := Nat.toDigits 10 n
  String.ofList (List.replicate (3 - digits.length) '0' ++ digits)

/-- A name filled up with spaces to a width of eighteen. -/
def column (name : String) : String :=
  name ++ String.ofList (Text.spaces (18 - name.length))

def listingLine (index : Nat) (t : Token) : String :=
  let text := String.ofList (Text.quote t.text)
  s!"{ordinal index} {column t.kind.name} range={t.span.pairText} flags={t.flags} text={text}\n"

def reportLine (d : Diagnostic) : String :=
  let severity := String.ofList (d.severity.name.toList.map Char.toUpper)
  s!"- {severity} {d.code.name} range={d.span.pairText} message={d.message}\n"

/-- The lines for all tokens and, if reports are given, a heading and a line for each of them. -/
def listing (tokens : List Token) (reports : Option (List Diagnostic)) : String :=
  let lines := String.join ((tokens.zipIdx).map fun (t, i) => listingLine i t)
  match reports with
  | none => lines
  | some ds => lines ++ "\nDiagnostics:\n" ++ String.join (ds.map reportLine)

end Listfile.Token
