import Listfile.Text.Basic

/-! Paths as lists of components. Empty components and single dots carry no
meaning and are dropped; a component of two dots is kept, since what it leads
to depends on the files. -/

namespace Listfile

structure Path where
  /-- Slashes at the front of an absolute path: one, or exactly two if it starts with just two. -/
  slashes : Nat
  parts : List Text
  deriving DecidableEq, Repr

namespace Path

/-- The pieces of a text between slashes. -/
def split : Text → List Text
  | [] => [[]]
  | c :: t =>
    if c = '/' then [] :: split t
    else match split t with
      | [] => [[c]]
      | p :: rest => (c :: p) :: rest

def ofText (t : Text) : Path :=
  let n := (t.takeWhile (· = '/')).length
  ⟨if n = 2 then 2 else min n 1, (split t).filter fun p => p ≠ [] && p ≠ ['.']⟩

/-- A path as text; a path that leads nowhere else is a single dot. -/
def text (p : Path) : Text :=
  if p.slashes = 0 && p.parts.isEmpty then ['.']
  else List.replicate p.slashes '/' ++ Text.join ['/'] p.parts

def string (p : Path) : String := String.ofList p.text

/-- Whether a path holds the character that ends file names, so that it can lead nowhere. -/
def hasNul (p : Path) : Bool := p.parts.any (·.contains '\x00')

/-- The number of bytes that a text takes on disk. -/
def byteLength (t : Text) : Nat := t.foldl (fun n c => n + c.utf8Size) 0

/-- A path below another. -/
def below (p : Path) (parts : List Text) : Path := { p with parts := p.parts ++ parts }

end Path

end Listfile
