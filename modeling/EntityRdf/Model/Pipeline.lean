import EntityRdf.Model.EventSchema
import EntityRdf.Model.StaticProperty

/-!
# Data sets and template invocations
-/

namespace EntityRdf.Model

/-- A stored data set. -/
structure DataSetDescription where
  id : String
  label : Option String
  description : Option String
  eventSchema : Option EventSchema
deriving DecidableEq, Repr

instance : Entity DataSetDescription where
  declarations := [⟨"DataSetDescription", "sp:DataSet", [
    .identity "id",
    .literal "label" Vocabulary.rdfsLabel,
    .literal "description" Vocabulary.rdfsDescription,
    .entity "eventSchema" "sp:hasSchema"]⟩]
  toInstance d :=
    let e := (Instance.new "DataSetDescription")
      |>.set "id" (.str d.id)
      |>.setStr? "label" d.label
      |>.setStr? "description" d.description
    match d.eventSchema with
    | some s => e.set "eventSchema" (.entity (Entity.toInstance s))
    | none => e
  ofInstance e := do
    e.expectClass "DataSetDescription"
    return ⟨← e.readString "id", ← e.readString? "label", ← e.readString? "description",
      ← e.readEntity? "eventSchema" fun c _ => Entity.ofInstance c⟩

/-- A request to run a pipeline template on a data set. -/
structure PipelineTemplateInvocation where
  id : String
  name : Option String
  dataSetId : Option String
  pipelineTemplateId : Option String
  /-- The settings for the static properties of the template. -/
  staticProperties : List StaticProperty
deriving DecidableEq, Repr

instance : Entity PipelineTemplateInvocation where
  declarations := [⟨"PipelineTemplateInvocation", "sp:PipelineTemplateInvocation", [
    .identity "id",
    .literal "name" Vocabulary.rdfsLabel,
    .literal "dataSetId" "sp:hasDataSetId",
    .literal "pipelineTemplateId" "sp:hasPipelineTemplateId",
    .entities "staticProperties" "sp:hasStaticProperty"]⟩]
  toInstance p := (Instance.new "PipelineTemplateInvocation")
    |>.set "id" (.str p.id)
    |>.setStr? "name" p.name
    |>.setStr? "dataSetId" p.dataSetId
    |>.setStr? "pipelineTemplateId" p.pipelineTemplateId
    |>.set "staticProperties" (.entities (p.staticProperties.map Entity.toInstance))
  ofInstance e := do
    e.expectClass "PipelineTemplateInvocation"
    return ⟨← e.readString "id", ← e.readString? "name", ← e.readString? "dataSetId",
      ← e.readString? "pipelineTemplateId",
      ← e.readEntities "staticProperties" fun c _ => Entity.ofInstance c⟩

end EntityRdf.Model
