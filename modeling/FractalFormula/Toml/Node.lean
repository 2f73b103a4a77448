import FractalFormula.Toml.Value

/-!
# Building TOML tables

While a document is read, a table remembers how it came about, since that decides what may
still be added to it. A table defined by its header is not defined again; a table made by
dotted keys is extended by dotted keys only, apart from tables below it; a table mentioned
on the way to another one may still be defined. Values, inline tables and arrays among
them, are never extended.
-/

namespace FractalFormula.Toml

/-- How a table came about. -/
inductive Origin where
  /-- On the way to a table with a header. -/
  | implicit
  /-- By dotted keys. -/
  | dotted
  /-- By its header. -/
  | defined
deriving DecidableEq

/-- An entry of a document that is being read. -/
inductive Node where
  | value (v : Value)
  | table (origin : Origin) (entries : List (String × Node))
  /-- An array of tables; the last one is open. -/
  | tables (closed : List (List (String × Node))) (last : List (String × Node))

/-- The entries of a table that is being read. -/
abbrev Entries := List (String × Node)

namespace Entries

/-- The entry of a key. -/
def get? (es : Entries) (key : String) : Option Node :=
  (es.find? fun entry => entry.1 = key).map (·.2)

/-- The entries with a node under a key. -/
def put (key : String) (node : Node) : Entries → Entries
  | [] => [(key, node)]
  | entry :: es => if entry.1 = key then (key, node) :: es else entry :: put key node es

/-- The entries with the table at the end of a path of headers changed by `edit`. Tables on the
way come about implicitly; of an array of tables the last is taken. -/
def editTable (edit : Entries → Option Entries) : List String → Entries → Option Entries
  | [], es => edit es
  | key :: path, es =>
    match es.get? key with
    | none => (editTable edit path []).map fun below => es.put key (.table .implicit below)
    | some (.table origin below) =>
      (editTable edit path below).map fun below => es.put key (.table origin below)
    | some (.tables closed last) =>
      (editTable edit path last).map fun last => es.put key (.tables closed last)
    | some (.value _) => none

/-- A table defined by its header. -/
def define (key : String) (es : Entries) : Option Entries :=
  match es.get? key with
  | none => some (es.put key (.table .defined []))
  | some (.table .implicit below) => some (es.put key (.table .defined below))
  | some _ => none

/-- Another table of an array of tables. -/
def append (key : String) (es : Entries) : Option Entries :=
  match es.get? key with
  | none => some (es.put key (.tables [] []))
  | some (.tables closed last) => some (es.put key (.tables (closed ++ [last]) []))
  | some _ => none

/-- A value under a key that is not there yet. -/
def insert (key : String) (v : Value) (es : Entries) : Option Entries :=
  match es.get? key with
  | none => some (es.put key (.value v))
  | some _ => none

/-- A value under a dotted key: the tables on the way are those of dotted keys. -/
def insertDotted (key : String) (v : Value) : List String → Entries → Option Entries
  | [], es => es.insert key v
  | first :: path, es =>
    match es.get? first with
    | none => (insertDotted key v path []).map fun below => es.put first (.table .dotted below)
    | some (.table .dotted below) =>
      (insertDotted key v path below).map fun below => es.put first (.table .dotted below)
    | some (.table .implicit below) =>
      if path.isEmpty then none
      else
        (insertDotted key v path below).map fun below => es.put first (.table .implicit below)
    | some (.tables closed last) =>
      if path.isEmpty then none
      else (insertDotted key v path last).map fun last => es.put first (.tables closed last)
    | some (.table .defined _) => none
    | some (.value _) => none

end Entries

mutual

/-- The value of a finished entry. -/
def Node.toValue : Node → Value
  | .value v => v
  | .table _ entries => .table (toTable entries)
  | .tables closed last => .array (toTables closed ++ [.table (toTable last)])

/-- The table of finished entries. -/
def toTable : List (String × Node) → List (String × Value)
  | [] => []
  | (key, node) :: es => (key, node.toValue) :: toTable es

/-- The tables of a finished array of tables. -/
def toTables : List (List (String × Node)) → List Value
  | [] => []
  | es :: rest => .table (toTable es) :: toTables rest

end

end FractalFormula.Toml
