-- Fields of a fixed least width, as they stand in the lines of the journal.

namespace SymbolInduction.Text

/-- `text` with `fill` in front until it is `width` characters long. A longer
text stays as it is. -/
def padLeft (fill : Char) (width : Nat) (text : String) : String :=
  String.ofList (List.replicate (width - text.length) fill) ++ text

example : padLeft '0' 2 "7" = "07" := by decide
example : padLeft ' ' 3 "1234" = "1234" := by decide

end SymbolInduction.Text
