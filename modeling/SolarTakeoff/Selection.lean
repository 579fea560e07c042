import SolarTakeoff.Rule

/-!
# Which rules a run is about

A selection is what a caller asks of a run; a query is what a catalog is asked
for.  The query of a selection lets through every rule that the selection
does.
-/

namespace SolarTakeoff

structure Selection where
  includeOptional : Bool := false
  categories : Option (List String) := none
deriving DecidableEq

/-- Categories are compared exactly; without a list every category passes. -/
def Selection.allowsCategory (selection : Selection) (category : String) : Bool :=
  match selection.categories with
  | some categories => categories.contains category
  | none => true

structure Query where
  requiredOnly : Bool := false
  categories : Option (List String) := none
deriving DecidableEq

def Selection.query (selection : Selection) : Query where
  requiredOnly := !selection.includeOptional
  categories := selection.categories

def Query.selects (query : Query) (rule : Rule) : Bool :=
  rule.isActive && (!query.requiredOnly || rule.isRequired) &&
    match query.categories with
    | some categories => categories.contains rule.category
    | none => true

end SolarTakeoff
