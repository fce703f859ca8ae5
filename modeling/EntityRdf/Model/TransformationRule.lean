import EntityRdf.Model.Entity
import EntityRdf.Model.Identity

/-!
# Transformation rules: the edits of a schema editor

A rule has an identity and the runtime keys that it concerns, all of them
required. `TransformationRule` is the family of all kinds.
-/

namespace EntityRdf.Model

/-- The namespace of new rules. -/
def ruleNamespace : String := "http://streampipes.org/transformation_rule/"

/-- Creates a nested property. -/
structure AddNestedRule where
  id : String
  runtimeKey : String
deriving DecidableEq, Repr

/-- A rule with a new identity. -/
def AddNestedRule.new (bits : RandomBits) (runtimeKey : String) : AddNestedRule :=
  ⟨mint ruleNamespace bits, runtimeKey⟩

instance : Entity AddNestedRule where
  declarations := [⟨"AddNestedRuleDescription", "sp:CreateNestedRuleDescription", [
    .identity "id",
    .literal "runtimeKey" "sp:runtimeKey"]⟩]
  toInstance r := (Instance.new "AddNestedRuleDescription")
    |>.set "id" (.str r.id)
    |>.set "runtimeKey" (.str r.runtimeKey)
  ofInstance e := do
    e.expectClass "AddNestedRuleDescription"
    return ⟨← e.readString "id", ← e.readString "runtimeKey"⟩

/-- Renames a property. -/
structure RenameRule where
  id : String
  oldRuntimeKey : String
  newRuntimeKey : String
deriving DecidableEq, Repr

/-- A rule with a new identity. -/
def RenameRule.new (bits : RandomBits) (oldRuntimeKey newRuntimeKey : String) : RenameRule :=
  ⟨mint ruleNamespace bits, oldRuntimeKey, newRuntimeKey⟩

instance : Entity RenameRule where
  declarations := [⟨"RenameRuleDescription", "sp:RenameRuleDescription", [
    .identity "id",
    .literal "oldRuntimeKey" "sp:oldRuntimeName",
    .literal "newRuntimeKey" "sp:newRuntimeName"]⟩]
  toInstance r := (Instance.new "RenameRuleDescription")
    |>.set "id" (.str r.id)
    |>.set "oldRuntimeKey" (.str r.oldRuntimeKey)
    |>.set "newRuntimeKey" (.str r.newRuntimeKey)
  ofInstance e := do
    e.expectClass "RenameRuleDescription"
    return ⟨← e.readString "id", ← e.readString "oldRuntimeKey", ← e.readString "newRuntimeKey"⟩

/-- Removes a property. -/
structure DeleteRule where
  id : String
  runtimeKey : String
deriving DecidableEq, Repr

/-- A rule with a new identity. -/
def DeleteRule.new (bits : RandomBits) (runtimeKey : String) : DeleteRule :=
  ⟨mint ruleNamespace bits, runtimeKey⟩

instance : Entity DeleteRule where
  declarations := [⟨"DeleteRuleDescription", "sp:DeleteRuleDescription", [
    .identity "id",
    .literal "runtimeKey" "sp:runtimeKey"]⟩]
  toInstance r := (Instance.new "DeleteRuleDescription")
    |>.set "id" (.str r.id)
    |>.set "runtimeKey" (.str r.runtimeKey)
  ofInstance e := do
    e.expectClass "DeleteRuleDescription"
    return ⟨← e.readString "id", ← e.readString "runtimeKey"⟩

/-- Every kind of rule. -/
inductive TransformationRule where
  | addNested (r : AddNestedRule)
  | rename (r : RenameRule)
  | delete (r : DeleteRule)
deriving DecidableEq, Repr

/-- The identity of whichever kind it is. -/
def TransformationRule.id : TransformationRule → String
  | .addNested r => r.id
  | .rename r => r.id
  | .delete r => r.id

instance : Entity TransformationRule where
  declarations := Entity.declarations AddNestedRule ++ Entity.declarations RenameRule ++
    Entity.declarations DeleteRule
  toInstance
    | .addNested r => Entity.toInstance r
    | .rename r => Entity.toInstance r
    | .delete r => Entity.toInstance r
  ofInstance e :=
    match e.className with
    | "AddNestedRuleDescription" => .addNested <$> Entity.ofInstance e
    | "RenameRuleDescription" => .rename <$> Entity.ofInstance e
    | "DeleteRuleDescription" => .delete <$> Entity.ofInstance e
    | other => .error (.wrongField other "" .notTransformationRule)

end EntityRdf.Model
