/-!
# TOML values

The values of a TOML document, and how its lines build up tables. A table
remembers where it comes from, since that decides what may still be added to it:

* a table with a header of its own takes no second header;
* a table implied by the header of one below it may get its own header later;
* a table that dotted keys made may be added to by dotted keys alone;
* an inline table is complete.
-/

namespace GoTags
namespace Toml

/-- Where a table comes from. -/
inductive Origin where
  | header
  | implied
  | dotted
  | inline
  deriving DecidableEq, Repr

/-- A TOML value. Numbers with a fraction, dates and times are kept as they were
written. -/
inductive Value where
  | string (text : String)
  | integer (value : Int)
  | float (literal : String)
  | boolean (value : Bool)
  | dateTime (literal : String)
  | array (elements : List Value)
  | table (origin : Origin) (entries : List (String × Value))
  | tables (elements : List (List (String × Value)))

/-- The entries of a table, in order. -/
abbrev Entries := List (String × Value)

namespace Entries

section Defs

/-- The value of a key. -/
def get? (entries : Entries) (key : String) : Option Value :=
  (entries.find? fun x => x.1 = key).map (·.2)

/-- Entries with a value put in for a key. -/
def put (key : String) (v : Value) : Entries → Entries
  | [] => [(key, v)]
  | (k, w) :: rest => if k = key then (k, v) :: rest else (k, w) :: put key v rest

/-- Elements with the last one changed. -/
def changeLast (change : Entries → Option Entries) : List Entries → Option (List Entries)
  | [] => none
  | [e] => (change e).map ([·])
  | e :: rest => (changeLast change rest).map (e :: ·)

/-- Entries with a new key. A key that is there already takes no second value. -/
def addNew (key : String) (v : Value) (entries : Entries) : Option Entries :=
  match entries.get? key with
  | none => some (entries ++ [(key, v)])
  | some _ => none

/-- Entries with a pair whose key has parts in front of the last. Tables on the
way are made as needed; the last of them must come from dotted keys. -/
def addPair : List String → String → Value → Entries → Option Entries
  | [], key, v, entries => addNew key v entries
  | part :: parts, key, v, entries =>
      match entries.get? part with
      | none => (addPair parts key v []).map fun inner => put part (.table .dotted inner) entries
      | some (.table .dotted inner) =>
          (addPair parts key v inner).map fun new => put part (.table .dotted new) entries
      | some (.table .implied inner) =>
          if parts = [] then none
          else (addPair parts key v inner).map fun new => put part (.table .implied new) entries
      | some (.tables elements) =>
          if parts = [] then none
          else
            (changeLast (addPair parts key v) elements).map fun new =>
              put part (.tables new) entries
      | some _ => none

/-- Entries with those of one table changed, which the parts of a header lead to.
A header leads through tables of any kind but inline ones, and through the last
of several tables of one name. -/
def changeAt : List String → (Entries → Option Entries) → Entries → Option Entries
  | [], change, entries => change entries
  | part :: parts, change, entries =>
      match entries.get? part with
      | none => (changeAt parts change []).map fun new => put part (.table .implied new) entries
      | some (.table origin inner) =>
          if origin = .inline then none
          else (changeAt parts change inner).map fun new => put part (.table origin new) entries
      | some (.tables elements) =>
          (changeLast (changeAt parts change) elements).map fun new =>
            put part (.tables new) entries
      | some _ => none

/-- Entries with several pairs added, one after the other. -/
def addPairs (entries : Entries) : List (List String × String × Value) → Option Entries
  | [] => some entries
  | (front, key, v) :: rest =>
      match addPair front key v entries with
      | some next => addPairs next rest
      | none => none

/-- The entries of a table with a header of its own, among those of its parent. -/
def addTable (key : String) (pairs : List (List String × String × Value)) (entries : Entries) :
    Option Entries :=
  match entries.get? key with
  | none => (addPairs [] pairs).map fun new => put key (.table .header new) entries
  | some (.table .implied inner) =>
      (addPairs inner pairs).map fun new => put key (.table .header new) entries
  | some _ => none

/-- One more of several tables of one name, among the entries of their parent. -/
def addElement (key : String) (pairs : List (List String × String × Value))
    (entries : Entries) : Option Entries :=
  match entries.get? key with
  | none => (addPairs [] pairs).map fun new => put key (.tables [new]) entries
  | some (.tables elements) =>
      (addPairs [] pairs).map fun new => put key (.tables (elements ++ [new])) entries
  | some _ => none

end Defs

end Entries
end Toml
end GoTags
