/-!
# TOML documents

The values that settings are written in. Numbers and dates keep their text, since no
setting is one; they can only be passed over. Headers of arrays of tables are left out
altogether.

A document is a list of assignments, each with its full key, and of the tables that
are opened by a header. `Document.isConsistent` says when they go together: nothing
is given twice, and nothing is both a table and another value.
-/

namespace Dam

/-- A key, as its parts from the outermost inwards. -/
abbrev TomlKey := List String

/-- A value. A table written inside a value keeps the keys of its assignments. -/
inductive Toml where
  | string (value : String)
  | bool (value : Bool)
  | number (text : String)
  | dateTime (text : String)
  | array (items : List Toml)
  | table (pairs : List (TomlKey × Toml))
deriving Repr, Inhabited

namespace Toml

/-- An assignment: the table it stands in, the key in that table, and the value. -/
structure Assignment where
  table : TomlKey
  key : TomlKey
  value : Toml

/-- The key from the outermost table. -/
def Assignment.path (a : Assignment) : TomlKey := a.table ++ a.key

/-- The tables that a dotted key opens on the way to its last part. -/
def Assignment.opened (a : Assignment) : List TomlKey :=
  (List.range (a.key.length - 1)).map fun n => a.table ++ a.key.take (n + 1)

/-- A document: its assignments and the tables opened by headers. -/
structure Document where
  assignments : List Assignment
  headers : List TomlKey

namespace Document

/-- Whether one key leads to, or through, what the other names. -/
def overlap (a b : TomlKey) : Bool := a.isPrefixOf b || b.isPrefixOf a

/-- Whether no two elements are related. -/
def noneRelated {α : Type} (related : α → α → Bool) : List α → Bool
  | [] => true
  | a :: as => as.all (fun b => !related a b) && noneRelated related as

/-- Whether nothing is given twice and nothing is both a table and another value. -/
def isConsistent (d : Document) : Bool :=
  noneRelated overlap (d.assignments.map Assignment.path)
    && noneRelated (· == ·) d.headers
    && d.headers.all fun h =>
        d.assignments.all fun a => !(a.path.isPrefixOf h) && !(a.opened.contains h)

end Document

/-- Whether the assignments of a table inside a value go together. -/
def pairsConsistent (pairs : List (TomlKey × Toml)) : Bool :=
  Document.noneRelated Document.overlap (pairs.map Prod.fst)

end Toml

end Dam
