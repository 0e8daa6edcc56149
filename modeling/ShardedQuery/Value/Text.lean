import ShardedQuery.Binary64.Shortest
import ShardedQuery.Value

/-!
# The text of a value

Texts of values appear in plans. Strings stand between quotes as they are, without escapes.
-/

namespace ShardedQuery.Value

/-- A text between double quotes. -/
def quoted (s : String) : String := "\"" ++ s ++ "\""

mutual

/-- The text of a value, as in `[1, "a", NULL]`. -/
def text : Value → String
  | null => "NULL"
  | jsonNull => "null"
  | boolean b => if b then "true" else "false"
  | integer n => toString n.toInt
  | long n => toString n.toInt
  | double x => x.text
  | string s => quoted s
  | timestamp t => "TIMESTAMP(" ++ toString t.toInt ++ ")"
  | binary bytes => "BINARY(" ++ toString bytes.length ++ " bytes)"
  | array items => "[" ++ ", ".intercalate (itemTexts items) ++ "]"
  | map entries => "\x7b" ++ ", ".intercalate (entryTexts entries) ++ "\x7d"
  | empty => "EMPTY"

/-- The texts of the elements of an array. -/
def itemTexts : List Value → List String
  | [] => []
  | v :: vs => v.text :: itemTexts vs

/-- The texts of the entries of a map. -/
def entryTexts : List (String × Value) → List String
  | [] => []
  | (k, v) :: es => (quoted k ++ ": " ++ v.text) :: entryTexts es

end

end ShardedQuery.Value
