import OpTree.Text.Bytes

/-!
# TOML

A TOML text is a sequence of entries: headers that open a table, and pairs that set a key of the
open one. Only the values that settings need are kept; of texts, fractions and times the kind is
all that matters here.
-/

namespace OpTree

set_option autoImplicit false

namespace Toml

abbrev Path := List Bytes

inductive Scalar where
  | int (v : Int64)
  | bool (v : Bool)
  | text
  | float
  | time
  deriving DecidableEq

inductive Expr where
  | scalar (v : Scalar)
  | list (items : List Expr)
  | table (pairs : List (Path × Expr))

inductive Entry where
  /-- Opens a table. -/
  | header (path : Path)
  /-- Adds a table to a list of tables and opens it. -/
  | listHeader (path : Path)
  /-- Sets a key of the open table. -/
  | pair (path : Path) (value : Expr)

end Toml

end OpTree
