import EntityRdf.CommandLine.Program
import EntityRdf.Proofs.ModelRoundTrip
import EntityRdf.Proofs.RepeatedRegistration
import EntityRdf.Proofs.ValidatedRegistries

/-!
# The data model in every context

The terms of the data model are such that no context lets two of them expand to one IRI
(`registrable_declarations`). A registry of it therefore records the same classes whatever
the prefixes stand for: only the expanded predicates and tags differ, which a declaration
does not mention (`Registry.Records.declarations_eq`). Registering it again repeats what is
recorded and changes nothing (`Registry.Records.registerAll_again`).

Main result: `withModel_in_every_context`.
-/

namespace EntityRdf

/-! ## What a registry declares -/

/-- The class as its author declared it. -/
def ClassDescriptor.declaration (d : ClassDescriptor) : ClassDeclaration :=
  ⟨d.name, d.tag, d.fields.map (·.toFieldDeclaration)⟩

/-- Resolving a declaration in a context loses nothing of it. -/
theorem ClassDeclaration.declaration_descriptor (ctx : Context) (c : ClassDeclaration) :
    (c.descriptor ctx).declaration = c := by
  have hfields : (c.descriptor ctx).fields.map (·.toFieldDeclaration) = c.fields := by
    rw [descriptor, List.map_map]
    exact List.map_id c.fields
  rw [ClassDescriptor.declaration, hfields]
  rfl

/-- The identity fields of a class are those that are declared to be. -/
theorem ClassDeclaration.length_identities (ctx : Context) (c : ClassDeclaration) :
    ((c.descriptor ctx).fields.filter (·.isIdentity)).length =
      (c.fields.filter fun f => f.mapping = .identity).length := by
  rw [descriptor, List.filter_map, List.length_map]
  rfl

namespace Registry

/-- The recorded classes as they were declared. -/
def declarations (R : Registry) : StringMap ClassDeclaration :=
  R.classes.map ClassDescriptor.declaration

/-- The recorded classes are the declared ones, resolved in the context. -/
def Records (R : Registry) (decls : List ClassDeclaration) : Prop :=
  ∀ name d, R.classes.get? name = some d ↔
    ∃ c ∈ decls, c.name = name ∧ c.descriptor R.context = d

variable {R R' : Registry} {decls : List ClassDeclaration} {c : ClassDeclaration} {name : String}

/-- A registry that records declarations declares them, each under its name. -/
theorem Records.get?_declarations (h : R.Records decls) :
    R.declarations.get? name = some c ↔ c ∈ decls ∧ c.name = name := by
  rw [declarations, StringMap.get?_map, Option.map_eq_some_iff]
  constructor
  · rintro ⟨d, hd, rfl⟩
    obtain ⟨c, hc, hname, rfl⟩ := (h name d).mp hd
    rw [c.declaration_descriptor]
    exact ⟨hc, hname⟩
  · rintro ⟨hc, hname⟩
    exact ⟨_, (h name _).mpr ⟨c, hc, hname, rfl⟩, c.declaration_descriptor R.context⟩

/-- What is declared does not depend on the context. -/
theorem Records.declarations_eq (h : R.Records decls) (h' : R'.Records decls) :
    R.declarations = R'.declarations := by
  refine StringMap.ext fun name => Option.ext fun c => ?_
  rw [h.get?_declarations, h'.get?_declarations]

/-! ## Registering again -/

/-- A recorded class has what its registrations say. -/
theorem Declares.has (h : R.Declares c) : ∀ r ∈ c.registrations, R.Has r := by
  intro r hr
  rcases List.mem_cons.mp hr with rfl | hr
  · exact ⟨_, h, rfl⟩
  · obtain ⟨f, hf, rfl⟩ := List.mem_map.mp hr
    exact ⟨_, h, _, List.mem_map.mpr ⟨f, hf, rfl⟩, rfl⟩

/-- Registering what is recorded goes through and changes nothing. -/
theorem Records.registerAll_again (hR : R.Coherent) (h : R.Records decls) :
    R.registerAll (decls.flatMap ClassDeclaration.registrations) = .ok R := by
  refine registerAll_of_forall fun r hr => ?_
  obtain ⟨c, hc, hr⟩ := List.mem_flatMap.mp hr
  have hdeclares : R.Declares c := (h _ _).mpr ⟨c, hc, rfl, rfl⟩
  exact (hdeclares.has r hr).register_eq hR

end Registry

/-! ## The data model -/

/-- Each class of the data model declares one identity. -/
theorem Model.length_identities :
    ∀ c ∈ declarations, (c.fields.filter fun f => f.mapping = .identity).length = 1 := by
  decide +kernel

namespace Registry

/-- Whatever prefixes a context binds, and to whatever, it gives a registry of the data
model. The registry has the declared classes, the same ones as under the context of
StreamPipes, each with one identity and no field mapped to the type predicate. It decodes
all that it encodes, registering the model again leaves it as it is, and every command
under a configuration with the context runs on it. -/
theorem withModel_in_every_context (ctx : Context) :
    ∃ R, withModel ctx = .ok R ∧ R.context = ctx ∧
      (∀ name c, R.declarations.get? name = some c ↔ c ∈ Model.declarations ∧ c.name = name) ∧
      (∃ R₀, withModel .streamPipes = .ok R₀ ∧ R.declarations = R₀.declarations) ∧
      (∀ d ∈ R.classList, (d.fields.filter (·.isIdentity)).length = 1) ∧
      R.LeavesTypes ∧
      (∀ cfg e doc, R.Recorded cfg e doc → R.decode cfg doc = .ok [R.prune e]) ∧
      R.registerAll Model.registrations = .ok R ∧
      ∀ (command : CommandLine.Command) (cfg : Config), cfg.context = ctx →
        command.configured cfg = command.program R cfg := by
  obtain ⟨R, hrun, rfl, hreachable, hT, hclasses⟩ := exists_withModel ctx
  obtain ⟨R₀, hrun₀, hctx₀, -, -, hclasses₀⟩ := exists_withModel .streamPipes
  have hR : R.Coherent := hreachable.coherent
  have hrecords : R.Records Model.declarations := hclasses
  have hrecords₀ : R₀.Records Model.declarations := by rwa [Records, hctx₀]
  refine ⟨R, hrun, rfl, fun _ _ => hrecords.get?_declarations,
    ⟨R₀, hrun₀, hrecords.declarations_eq hrecords₀⟩, ?_, hT, ?_, ?_, ?_⟩
  · -- the registered classes are the declared ones, which have one identity
    intro d hd
    obtain ⟨name, hd⟩ := mem_classList.mp hd
    obtain ⟨c, hc, -, rfl⟩ := (hrecords name d).mp hd
    rw [c.length_identities]
    exact Model.length_identities c hc
  · intro cfg e doc h
    exact h.decode_eq hR fun p _ => omitsTypes_of_leavesTypes hR hT p.2
  · rw [Model.registrations_eq]
    exact hrecords.registerAll_again hR
  · intro command cfg hcfg
    rw [CommandLine.Command.configured, hcfg, hrun]

end Registry

end EntityRdf
