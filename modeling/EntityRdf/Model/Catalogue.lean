import EntityRdf.Model.Pipeline
import EntityRdf.Model.TransformationRule
import EntityRdf.Registry

/-!
# The catalogue of the data model

All classes of the data model, in registration order, and the registry that
holds them.
-/

namespace EntityRdf

/-- The steps that register the classes of a type. -/
def Entity.registrations (α : Type) [Entity α] : List Registration :=
  (Entity.declarations α).flatMap ClassDeclaration.registrations

namespace Model

/-- The steps that register the whole data model. -/
def registrations : List Registration :=
  Entity.registrations StaticProperty ++ Entity.registrations TransformationRule ++
  Entity.registrations EventProperty ++ Entity.registrations EventSchema ++
  Entity.registrations DataSetDescription ++ Entity.registrations PipelineTemplateInvocation

end Model

/-- The registry of the data model, resolved against a context. -/
def Registry.withModel (ctx : Context) : Except MappingError Registry :=
  (empty ctx).registerAll Model.registrations

end EntityRdf
