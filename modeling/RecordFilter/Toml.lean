/-
  Toml — the values of a settings file.

  A file is a table of keyed values.  How a table came about decides what may be
  added to it later: a table with its own header is complete, one that is only
  the parent of others may still get its header, and one made by a dotted key may
  get further dotted keys.

  * `Toml.Value`, `Toml.Table`: values and tables;
  * `Toml.assign`: the effect of `a.b.c = value`;
  * `Toml.within`: going to the table that a header names;
  * `Toml.openTable`, `Toml.openElement`: the effect of the headers `[a.b]` and
    `[[a.b]]`.
-/
import RecordFilter.Text

namespace RecordFilter

namespace Toml

/-- How a table came about. -/
inductive Origin where
  /-- By its own header. -/
  | header
  /-- As a parent in the header of another table. -/
  | parent
  /-- By a dotted key. -/
  | dotted
  deriving DecidableEq, Repr

/-- A value of a settings file. -/
inductive Value where
  | string (t : Text)
  | integer (i : Int)
  /-- A floating-point number.  No setting has one, so its value is not kept. -/
  | real
  | boolean (b : Bool)
  /-- A date, a time or both.  No setting has one, so its value is not kept. -/
  | moment
  | array (items : List Value)
  /-- A table written in braces, complete in itself. -/
  | inline (entries : List (Text × Value))
  /-- A table of its own. -/
  | table (origin : Origin) (entries : List (Text × Value))
  /-- An array of tables; further headers and keys go to the last one. -/
  | tables (earlier : List (List (Text × Value))) (last : List (Text × Value))

/-- A table: its keys with their values. -/
abbrev Table := List (Text × Value)

/-- Gives a key that is there another value. -/
def Table.put (table : Table) (key : Text) (value : Value) : Table :=
  table.map fun (k, v) => if k = key then (k, value) else (k, v)

/-- Adds a key that is not there. -/
def Table.add (table : Table) (key : Text) (value : Value) : Table := table ++ [(key, value)]

/-- Gives a value to a dotted key.  The last part of the key has to be new.  The
    table before it has to be made by dotted keys alone, and none on the way may
    have its own header. -/
def assign (value : Value) : List Text → Table → Option Table
  | [], _ => none
  | [key], table => if (table.lookup key).isSome then none else some (table.add key value)
  | key :: next :: keys, table =>
    match table.lookup key with
    | none => (assign value (next :: keys) []).map fun t => table.add key (.table .dotted t)
    | some (.table .dotted t) =>
      (assign value (next :: keys) t).map fun t => table.put key (.table .dotted t)
    | some (.table .parent t) =>
      if keys = [] then none
      else (assign value (next :: keys) t).map fun t => table.put key (.table .parent t)
    | some (.tables ts t) =>
      if keys = [] then none
      else (assign value (next :: keys) t).map fun t => table.put key (.tables ts t)
    | _ => none

/-- Changes the table that the names of a header lead to, and makes those that
    are missing. -/
def within (change : Table → Option Table) : List Text → Table → Option Table
  | [], table => change table
  | key :: keys, table =>
    match table.lookup key with
    | none => (within change keys []).map fun t => table.add key (.table .parent t)
    | some (.table o t) => (within change keys t).map fun t => table.put key (.table o t)
    | some (.tables ts t) => (within change keys t).map fun t => table.put key (.tables ts t)
    | _ => none

/-- Opens the table with the given name.  It has to be new, or so far only a
    parent. -/
def openTable (key : Text) (table : Table) : Option Table :=
  match table.lookup key with
  | none => some (table.add key (.table .header []))
  | some (.table .parent t) => some (table.put key (.table .header t))
  | _ => none

/-- Opens a further element of the array of tables with the given name. -/
def openElement (key : Text) (table : Table) : Option Table :=
  match table.lookup key with
  | none => some (table.add key (.tables [] []))
  | some (.tables ts t) => some (table.put key (.tables (ts ++ [t]) []))
  | _ => none

end Toml

end RecordFilter
