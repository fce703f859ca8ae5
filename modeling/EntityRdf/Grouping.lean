/-!
# Groups: values collected by key

Groups stand in the order in which their keys first appear, and the values of a
group in the order in which they come.
-/

namespace EntityRdf

variable {κ : Type u} {α : Type v} [DecidableEq κ]

/-- Adds a value to the group of its key, or opens a group at the end. -/
def addToGroup (k : κ) (v : α) : List (κ × List α) → List (κ × List α)
  | [] => [(k, [v])]
  | (k', vs) :: rest =>
    if k' = k then (k', vs ++ [v]) :: rest
    else (k', vs) :: addToGroup k v rest

/-- The groups of a list of keyed values. -/
def groupByKey (l : List (κ × α)) : List (κ × List α) :=
  l.foldl (fun groups p => addToGroup p.1 p.2 groups) []

end EntityRdf
