import ConfigScript.Text.Basic
/-!
# TOML documents

A document is a table of named entries, in the order they are written. A table remembers how it
came about, since that decides what may still be added to it: `Toml.enter?` adds an entry under a
dotted key and `Toml.open?` answers a header.
-/

namespace ConfigScript

/-- A date, a time of day or both, in normal form: a `T` between date and time and no idle zeros
in the fraction of a second. -/
structure Moment where
  text : Text
deriving Repr, DecidableEq, Inhabited

namespace Toml

/-- How a table came about. -/
inductive Origin where
  /-- Written out between braces; nothing can be added. -/
  | inline
  /-- Opened by a header of its own. -/
  | header
  /-- Named on the way to a header. -/
  | implied
  /-- Named on the way to a dotted key. -/
  | dotted
deriving Repr, DecidableEq, Inhabited

end Toml

inductive Toml where
  | text (content : Text)
  | flag (b : Bool)
  | integer (n : Int)
  | float (x : Float)
  | moment (m : Moment)
  | array (items : List Toml)
  | table (origin : Toml.Origin) (entries : List (Text × Toml))
  /-- Tables that were opened one after the other by headers of the same name. -/
  | tables (items : List (List (Text × Toml)))
deriving Inhabited

namespace Toml

/-- An array without items or a table without entries. -/
def isEmpty : Toml → Bool
  | array items => items.isEmpty
  | table _ entries => entries.isEmpty
  | _ => false

/-- The entries of a table. -/
abbrev Entries := List (Text × Toml)

/-- The entries with the one of this name replaced, or a new one added at the end. -/
def put (name : Text) (t : Toml) : Entries → Entries
  | [] => [(name, t)]
  | (n, old) :: rest => if n = name then (n, t) :: rest else (n, old) :: put name t rest

/-- The last of some tables changed by `f`. -/
def changeLast (f : Entries → Option Entries) : List Entries → Option (List Entries)
  | [] => none
  | [last] => return [← f last]
  | first :: rest => return first :: (← changeLast f rest)

/-- Adds an entry under the dotted key `path` and `name`. Tables on the way are made. A table
that has a header or is complete cannot be reached, and the one that gets the entry must not be
known from a header. -/
def enter? (name : Text) (t : Toml) : List Text → Entries → Option Entries
  | [], entries => if (entries.lookup name).isSome then none else some (entries ++ [(name, t)])
  | key :: path, entries =>
    match entries.lookup key with
    | none => return put key (.table .dotted (← enter? name t path [])) entries
    | some (.table .dotted inner) =>
      return put key (.table .dotted (← enter? name t path inner)) entries
    | some (.table .implied inner) =>
      if path.isEmpty then none
      else return put key (.table .implied (← enter? name t path inner)) entries
    | some (.tables items) =>
      if path.isEmpty then none
      else return put key (.tables (← changeLast (enter? name t path) items)) entries
    | some _ => none

/-- Changes the table that a header's path leads to. Tables on the way are made, and of tables
with one name the last counts. -/
def within (f : Entries → Option Entries) : List Text → Entries → Option Entries
  | [], entries => f entries
  | key :: path, entries =>
    match entries.lookup key with
    | none => return put key (.table .implied (← within f path [])) entries
    | some (.table .inline _) => none
    | some (.table origin inner) => return put key (.table origin (← within f path inner)) entries
    | some (.tables items) => return put key (.tables (← changeLast (within f path) items)) entries
    | some _ => none

/-- Opens the table `name`: there is none yet, or it is only known from the way to another. -/
def openTable? (name : Text) (entries : Entries) : Option Entries :=
  match entries.lookup name with
  | none => some (put name (.table .header []) entries)
  | some (.table .implied inner) => some (put name (.table .header inner) entries)
  | some _ => none

/-- Opens one more of the tables `name`. -/
def openNext? (name : Text) (entries : Entries) : Option Entries :=
  match entries.lookup name with
  | none => some (put name (.tables [[]]) entries)
  | some (.tables items) => some (put name (.tables (items ++ [[]])) entries)
  | some _ => none

/-! ## Lines -/

/-- The last name of a dotted key stands apart from the way to it. -/
structure Key where
  path : List Text
  name : Text
deriving Repr

inductive Line where
  | entry (key : Key) (value : Toml)
  | header (key : Key)
  | nextHeader (key : Key)

/-- A document that is being put together. -/
structure Draft where
  root : Entries
  /-- The path of the table that was opened last. -/
  current : List Text

namespace Draft

def add (d : Draft) : Line → Option Draft
  | .entry key value =>
    return { d with root := ← within (enter? key.name value key.path) d.current d.root }
  | .header key => return ⟨← within (openTable? key.name) key.path d.root, key.path ++ [key.name]⟩
  | .nextHeader key =>
    return ⟨← within (openNext? key.name) key.path d.root, key.path ++ [key.name]⟩

end Draft

/-- The document that lines make up. -/
def ofLines (lines : List Line) : Option Entries :=
  return (← lines.foldlM Draft.add ⟨[], []⟩).root

end Toml

end ConfigScript
