import Listfile.Layout.Checked
import Listfile.Parse.Source

/-! Formatting a source. A source with errors is left as it is. -/

namespace Listfile.Source

/-- The formatted text of a source. -/
def format (style : Style) (s : Source) : Text :=
  if s.hasErrors then s.text else Layout.statements style s.statements

/-- The formatted text of a source, if its layout can be carried out. -/
def format? (style : Style) (s : Source) : Except Layout.Page.Fault Text :=
  if s.hasErrors then .ok s.text else Layout.statements? style s.statements

/-- Whether formatting changes a source. -/
def changes (style : Style) (s : Source) : Bool := s.format style ≠ s.text

/-- Whether the layout of a source cannot be carried out. -/
def overflows (style : Style) (s : Source) : Bool := !(s.format? style).isOk

end Listfile.Source
