import EntityRdf.Proofs.ModelRegistration
import EntityRdf.Proofs.ReadableInstances

/-!
# Reading typed values from decoded instances

The fields of the data model are spelled out twice: in the declarations, from which the
decoder takes what a field may hold, and in the readers of typed values. Here the two meet:
a decoded instance conforms to the declaration of its class, and so does all that is nested
in it (`Decodes.formed`).

Main result: `decode_readable`.
-/

namespace EntityRdf

namespace Registry

open ClassDescriptor Model

variable {R : Registry} {strict : Bool} {doc : Document} {s : String} {e : Instance}
  {decls : List ClassDeclaration} {c : ClassDeclaration} {b : Block} {kids : String → Instance}

/-! ## Decoded instances conform -/

/-- The instance that a block of a declared class becomes conforms to the declaration. -/
theorem Assembled.conforms (he : R.Assembled doc (c.descriptor R.context) b kids e) :
    c.Conforms e := by
  have hfield : ∀ f ∈ c.fields, (⟨f, f.expandedIn R.context⟩ : FieldDescriptor) ∈
      (c.descriptor R.context).fields := fun f hf => List.mem_map.mpr ⟨f, hf, rfl⟩
  refine ⟨he.className, fun n v hv => ?_, fun f hf hid => ⟨_, he.identity _ (hfield f hf) ?_⟩, ?_⟩
  · -- an unknown field would not be set
    by_contra hn
    rw [he.unknown n] at hv
    · cases hv
    · intro f' hf' hname
      obtain ⟨f, hf, rfl⟩ := List.mem_map.mp hf'
      exact hn ⟨f, hf, hname⟩
  · exact decide_eq_true hid
  · rintro f hf r m ⟨hr, rfl⟩ v hv
    -- a field with a range is mapped, so its value is read from the block
    have hmapped : FieldDescriptor.isIdentity ⟨f, f.expandedIn R.context⟩ = false := by
      refine decide_eq_false fun hid => ?_
      rw [show f.mapping = .identity from hid] at hr
      cases hr
    rw [he.mapped _ (hfield f hf) hmapped] at hv
    obtain ⟨hrange, hmultiplicity⟩ :=
      form_valueFor (mem_predicateFields.mpr ⟨hfield f hf, hmapped⟩) hv
    exact ⟨Option.some.inj (hrange.symm.trans hr), hmultiplicity.symm⟩

/-- What is nested in an assembled instance are instances of what the block refers to. -/
theorem Assembled.exists_target {d : ClassDescriptor} (he : R.Assembled doc d b kids e)
    {n : String} {v : Value} {y : Instance} (hv : e.get? n = some v) (hy : y ∈ v.nested) :
    ∃ t ∈ d.targets R.context b, t ∈ doc.subjects ∧ kids t = y := by
  by_cases hn : ∃ f ∈ d.fields, f.name = n
  · obtain ⟨f, hf, rfl⟩ := hn
    cases hid : f.isIdentity with
    | true =>
      -- the identity field holds a string
      rw [he.identity f hf hid] at hv
      obtain rfl := Option.some.inj hv
      cases hy
    | false =>
      rw [he.mapped f hf hid] at hv
      obtain ⟨hr, t, ht, rfl⟩ := mem_nested_valueFor hv hy
      obtain ⟨hos, hsub⟩ := Document.mem_resolved.mp ht
      exact ⟨t, mem_targets.mpr ⟨f, hr, hos⟩, hsub, rfl⟩
  · rw [he.unknown n fun f hf hname => hn ⟨f, hf, hname⟩] at hv
    cases hv

/-- A decoded instance conforms to the declarations in depth. -/
theorem Decodes.formed (hR : R.Coherent) (hrecords : R.Records decls)
    (h : R.Decodes strict doc s e) : Formed decls e := by
  induction h with
  | intro hb hd hread hkids he ih =>
    obtain ⟨c, hc, -, rfl⟩ := (hrecords _ _).mp (hR.get?_of_blockClass? hd)
    refine .intro hc he.conforms fun n v hv y hy => ?_
    obtain ⟨t, ht, hsub, rfl⟩ := he.exists_target hv hy
    exact ih t ht hsub

/-! ## Typed values from decoded instances -/

/-- From a decoded instance of the data model, at whatever depth, the typed value of its
class or family is read exactly when no rule in it lacks one of its keys and no instance in
it nests one of a class that is not for the field. Otherwise the error says which. No reader
finds an identity missing, or a value of another form than its field is for. -/
theorem decode_readable {ctx : Context} {cfg : Config} {es : List Instance} {r : Instance}
    (hmodel : withModel ctx = .ok R) (h : R.decode cfg doc = .ok es) (hr : r ∈ es)
    (he : e.Within r) :
    (∃ k : Kind, e.className ∈ k.classNames) ∧
    ∀ k : Kind, e.className ∈ k.classNames →
      (k.Reads e ↔ ∀ err, ¬ Unreadable e err) ∧
      ∀ err, Entity.ofInstance (α := k.Carrier) e = .error err →
        Unreadable e err ∧
        ∃ className field fault, err = .wrongField className field fault ∧
          fault ∉ [.notString, .notStrings, .notEntity, .notEntities] ∧
          (fault = .missing → field ≠ "id") := by
  obtain ⟨R', hrun, rfl, hreachable, hT, hclasses⟩ := exists_withModel ctx
  obtain rfl : R' = R := Except.ok.inj (hrun.symm.trans hmodel)
  have hR : R'.Coherent := hreachable.coherent
  -- the instance comes from a root, and all that is nested in it conforms
  obtain ⟨s, -, hdecodes⟩ := exists_partner ((decode_eq_ok hR hT).mp h).roots.flip hr
  have hformed : Formed Model.declarations e := (hdecodes.formed hR hclasses).within he
  refine ⟨?_, fun k hk => ⟨⟨not_unreadable hformed k, fun hnone => ?_⟩, fun err herr => ?_⟩⟩
  · obtain ⟨hc, hform, -⟩ := hformed
    rw [hform.className]
    exact exists_kind hc
  · cases hread : Entity.ofInstance (α := k.Carrier) e with
    | ok v => exact ⟨v, hread⟩
    | error err => exact absurd (failsOnly_ofInstance hformed k hk err hread) (hnone err)
  · obtain ⟨y, hy, hfault⟩ := failsOnly_ofInstance hformed k hk err herr
    obtain ⟨className, field, fault, rfl, hcases⟩ := hfault.exists_field
    refine ⟨⟨y, hy, hfault⟩, className, field, fault, rfl, ?_, ?_⟩
    · -- neither a missing key nor a wrong class is about the form of a value
      rcases hcases with ⟨rfl, -⟩ | hcases
      · decide
      · revert hcases
        cases fault <;> decide
    · rintro rfl
      exact (hcases.resolve_right (by decide)).2

/-- A data set whose schema is a rule, and the rule is without its key. The terms are those
of a context that binds no prefix. -/
def misplacedRule : Document := ⟨[
  ⟨"urn:set", [(Vocabulary.rdfType, .iri "sp:DataSet"), ("sp:hasSchema", .iri "urn:rule")]⟩,
  ⟨"urn:rule", [(Vocabulary.rdfType, .iri "sp:DeleteRuleDescription")]⟩]⟩

/-- The decoder takes the document. The data set cannot be read for the class of its
schema, and the rule cannot for its key. -/
theorem decode_readable_misplacedRule :
    let rule := (Instance.new "DeleteRuleDescription").set "id" (.str "urn:rule")
    let dataSet := (Instance.new "DataSetDescription").set "id" (.str "urn:set")
      |>.set "eventSchema" (.entity rule)
    ∃ R, withModel .empty = .ok R ∧ R.decode .default misplacedRule = .ok [dataSet] ∧
      rule.Within dataSet ∧
      Unreadable dataSet (.wrongField "EventSchema" "" .otherClass) ∧
      Unreadable rule (.wrongField "DeleteRuleDescription" "runtimeKey" .missing) := by
  intro rule dataSet
  obtain ⟨R, hR, hdecode⟩ : ∃ R, withModel .empty = .ok R ∧
      R.decode .default misplacedRule = .ok [dataSet] := bind_eq_ok.mp (by decide +kernel)
  have hwithin : rule.Within dataSet :=
    .nested (n := "eventSchema") (v := .entity rule) rfl (List.mem_singleton_self rule) .self
  have hread {e : Instance} (he : e.Within dataSet) :=
    (decode_readable hR hdecode (List.mem_singleton_self dataSet) he).2
  exact ⟨R, hR, hdecode, hwithin, ((hread .self .dataSet (by decide)).2 _ rfl).1,
    ((hread hwithin .delete (by decide)).2 _ rfl).1⟩

end Registry

end EntityRdf
