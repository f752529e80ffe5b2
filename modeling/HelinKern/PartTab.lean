import Mathlib.Init

/-! The partition tables of `src/fs/partTab.c`. The list is given by what its cells hold, in order; a cell may be without a
    table, as the first one is at the start. `none` as a result stands for a NULL pointer that is followed. -/

namespace HelinKern
namespace PartTab

variable {α : Type}

def partTabInit : List (Option α) := [none]

/-- The loop of `partTab_register` and what follows it: the cell without a table, where the loop stops, gets a new successor. -/
def addAfter (lay : α) : List (Option α) → Option (List (Option α))
  | [] => none
  | none :: _ => some [none, some lay]
  | some table :: rest => (addAfter lay rest).map fun cells => some table :: cells

def partTabRegister (tables : List (Option α)) (lay : α) : Option (List (Option α)) :=
  match tables with
  | [] => none
  | none :: rest => some (some lay :: rest)
  | some table :: rest => addAfter lay (some table :: rest)

/-- The loop of `partTab_trigger`, with the tables whose `search` is called. -/
def searchLoop : List (Option α) → Option (List α)
  | some table :: next :: rest => (searchLoop (next :: rest)).map fun called => table :: called
  | none :: _ :: _ => none
  | _ => some []

def partTabTrigger : List (Option α) → Option (List α)
  | [] => none
  | table :: rest => (searchLoop (table :: rest)).map fun called => table.toList ++ called

end PartTab
end HelinKern
