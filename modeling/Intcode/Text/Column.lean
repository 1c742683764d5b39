/-!
# Columns

Numbers in a listing stand flush right in a column of fixed width.
-/

namespace Intcode.Text

/-- Fills a text up with spaces on its left; one that is already wider stays as it is. -/
def alignRight (width : Nat) (text : String) : String :=
  String.ofList (List.replicate (width - text.length) ' ') ++ text

end Intcode.Text
