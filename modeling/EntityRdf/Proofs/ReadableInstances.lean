import EntityRdf.Proofs.ModelResources
import EntityRdf.Proofs.OwnBlock

/-!
# Which instances are read as typed values

An instance that conforms to the declaration of its class has an identity, and its fields
hold values of the forms that they are declared for. Each reader of the data model asks for
the fields of its class in these forms. So there are two reasons only why the typed value
of such an instance is not read: a rule lacks one of its keys, or a field nests an instance
of a class that the field is not for (`ReadFault`).

Main results: `Model.failsOnly_ofInstance` (no other reason lets a reader fail) and
`Model.not_unreadable` (each of them does).
-/

namespace EntityRdf

/-! ## Instances that conform to declarations -/

/-- The range of the objects that the predicate points at. -/
def Mapping.range? : Mapping → Option Range
  | .identity => none
  | .predicate _ r => some r

/-- The field is for values of the range and the multiplicity. -/
def FieldDeclaration.IsFor (f : FieldDeclaration) (r : Range) (m : Multiplicity) : Prop :=
  f.mapping.range? = some r ∧ f.multiplicity = m

instance (f : FieldDeclaration) (r : Range) (m : Multiplicity) : Decidable (f.IsFor r m) :=
  inferInstanceAs (Decidable (f.mapping.range? = some r ∧ f.multiplicity = m))

namespace ClassDeclaration

/-- The class has a field of the name for values of the range and the multiplicity. -/
def Takes (c : ClassDeclaration) (n : String) (r : Range) (m : Multiplicity) : Prop :=
  ∃ f ∈ c.fields, f.name = n ∧ f.IsFor r m

instance (c : ClassDeclaration) (n : String) (r : Range) (m : Multiplicity) :
    Decidable (c.Takes n r m) :=
  inferInstanceAs (Decidable (∃ f ∈ c.fields, f.name = n ∧ f.IsFor r m))

/-- The instance is one of the class: it has no other fields, it has a string as its
identity, and what other fields hold has the form that they are declared for. -/
structure Conforms (c : ClassDeclaration) (e : Instance) : Prop where
  className : e.className = c.name
  known : ∀ n v, e.get? n = some v → ∃ f ∈ c.fields, f.name = n
  identity : ∀ f ∈ c.fields, f.mapping = .identity → ∃ s, e.get? f.name = some (.str s)
  forms : ∀ f ∈ c.fields, ∀ r m, f.IsFor r m → ∀ v, e.get? f.name = some v →
    v.range = r ∧ v.multiplicity = m

end ClassDeclaration

/-- The instance conforms to one of the declarations, and so does all that is nested in
it. -/
inductive Formed (decls : List ClassDeclaration) : Instance → Prop
  | intro {e : Instance} {c : ClassDeclaration} (hc : c ∈ decls) (hform : c.Conforms e)
      (deep : ∀ n v, e.get? n = some v → ∀ y ∈ v.nested, Formed decls y) : Formed decls e

/-- The instance is the other one, or nested in it at whatever depth. -/
inductive Instance.Within (y : Instance) : Instance → Prop
  | self : Within y y
  | nested {e x : Instance} {n : String} {v : Value} (hv : e.get? n = some v) (hx : x ∈ v.nested)
      (h : Within y x) : Within y e

/-- Whatever is nested in an instance that conforms in depth conforms itself. -/
theorem Formed.within {decls : List ClassDeclaration} {e y : Instance} (h : Formed decls e)
    (hy : y.Within e) : Formed decls y := by
  induction hy with
  | self => exact h
  | nested hv hx _ ih =>
    obtain ⟨-, -, deep⟩ := h
    exact ih (deep _ _ hv _ hx)

/-! ## Readers of one field -/

theorem Value.exists_str {v : Value} (hform : v.range = .literal ∧ v.multiplicity = .single) :
    ∃ s, v = .str s := by
  cases v <;> simp_all [range, multiplicity]

theorem Instance.expectClass_eq_ok {e : Instance} {n : String} (h : e.className = n) :
    e.expectClass n = .ok () :=
  if_pos h

namespace ClassDeclaration

open Instance

variable {c : ClassDeclaration} {e : Instance} {n : String} {r : Range} {m : Multiplicity}
  {v : Value} {P : MappingError → Prop}

/-- What a declared field holds has the form that the field is for. -/
theorem Conforms.form (h : c.Conforms e) (ht : c.Takes n r m) (hv : e.get? n = some v) :
    v.range = r ∧ v.multiplicity = m := by
  obtain ⟨f, hf, rfl, hfor⟩ := ht
  exact h.forms f hf r m hfor v hv

/-- A reader that asks for the class first does not stop there. -/
theorem Conforms.expectClass (h : c.Conforms e) : FailsOnly P (e.expectClass c.name) := by
  rw [expectClass_eq_ok h.className]
  exact .ok ()

/-- The identity is there. -/
theorem Conforms.readIdentity (h : c.Conforms e)
    (hid : ∃ f ∈ c.fields, f.name = n ∧ f.mapping = .identity) : FailsOnly P (e.readString n) := by
  obtain ⟨f, hf, rfl, hmapping⟩ := hid
  obtain ⟨s, hs⟩ := h.identity f hf hmapping
  rw [readString_eq hs]
  exact .ok s

/-- A field for one string is read, set or not. -/
theorem Conforms.readString? (h : c.Conforms e) (ht : c.Takes n .literal .single) :
    FailsOnly P (e.readString? n) := by
  unfold Instance.readString?
  cases hv : e.get? n with
  | none => exact .ok none
  | some v =>
    obtain ⟨hr, hm⟩ := h.form ht hv
    cases v with
    | str s => exact .ok (some s)
    | strs l => cases hm
    | entity y => cases hr
    | entities l => cases hr

/-- A field for strings is read, set or not. -/
theorem Conforms.readStrings (h : c.Conforms e) (ht : c.Takes n .literal .multi) :
    FailsOnly P (e.readStrings n) := by
  unfold Instance.readStrings
  cases hv : e.get? n with
  | none => exact .ok []
  | some v =>
    obtain ⟨hr, hm⟩ := h.form ht hv
    cases v with
    | strs l => exact .ok l
    | str s => cases hm
    | entity y => cases hr
    | entities l => cases hr

section Nested

variable {α : Type} {read : (y : Instance) → sizeOf y < sizeOf e → Except MappingError α}
  (hread : ∀ v, e.get? n = some v → ∀ y ∈ v.nested, ∀ hlt, FailsOnly P (read y hlt))
include hread

/-- Reading the entity of a field fails only as reading what the field nests does. -/
theorem Conforms.readEntity? (h : c.Conforms e) (ht : c.Takes n .entity .single) :
    FailsOnly P (e.readEntity? n read) := by
  unfold Instance.readEntity?
  split
  · exact .ok none
  · rename_i y hv
    exact .bind (hread _ hv y (List.mem_singleton_self y) _) fun a => .ok (some a)
  all_goals
    -- another value is of another form
    rename_i hv
    exact absurd (h.form ht hv) (by simp [Value.range, Value.multiplicity])

/-- Reading the entities of a field fails only as reading one of them does. -/
theorem Conforms.readEntities (h : c.Conforms e) (ht : c.Takes n .entity .multi) :
    FailsOnly P (e.readEntities n read) := by
  unfold Instance.readEntities
  split
  · exact .ok []
  · rename_i l hv
    exact .mapM fun y _ => hread _ hv y.1 y.2 _
  all_goals
    -- another value is of another form
    rename_i hv
    exact absurd (h.form ht hv) (by simp [Value.range, Value.multiplicity])

end Nested

/-- What nests an instance is a field for entities. -/
theorem Conforms.takes_of_nested (h : c.Conforms e) (hv : e.get? n = some v) {y : Instance}
    (hy : y ∈ v.nested) : ∃ m, c.Takes n .entity m := by
  obtain ⟨f, hf, rfl⟩ := h.known n v hv
  cases hm : f.mapping with
  | identity =>
    obtain ⟨s, hs⟩ := h.identity f hf hm
    cases hv.symm.trans hs
    cases hy
  | predicate iri r =>
    have hfor : f.IsFor r f.multiplicity := ⟨by rw [hm]; rfl, rfl⟩
    obtain rfl := (h.forms f hf r _ hfor v hv).1.symm.trans (Value.range_of_mem_nested hy)
    exact ⟨_, f, hf, rfl, hfor⟩

end ClassDeclaration

namespace Instance

variable {e y : Instance} {n : String} {v : Value} {p : Prop}

/-- A string that must be there is read only from a field that is set. -/
theorem requires_readString : Requires (e.get? n ≠ none) (e.readString n) := by
  intro s h hnone
  rw [readString, readString?, hnone] at h
  cases h

section Nested

variable {α : Type} {read : (y : Instance) → sizeOf y < sizeOf e → Except MappingError α}
  (hv : e.get? n = some v) (hy : y ∈ v.nested) (hread : ∀ hlt, Requires p (read y hlt))
include hv hy hread

/-- Reading the entity of a field needs what reading it needs. -/
theorem requires_readEntity? : Requires p (e.readEntity? n read) := by
  unfold readEntity?
  split
  · rename_i hnone
    cases hnone.symm.trans hv
  · rename_i x hx
    cases hx.symm.trans hv
    obtain rfl := List.mem_singleton.mp hy
    exact .first (hread _)
  all_goals exact .error

/-- Reading the entities of a field needs what reading any of them needs. -/
theorem requires_readEntities : Requires p (e.readEntities n read) := by
  unfold readEntities
  split
  · rename_i hnone
    cases hnone.symm.trans hv
  · rename_i l hl
    cases hl.symm.trans hv
    exact .mapM (List.mem_attach l ⟨y, hy⟩) (hread _)
  all_goals exact .error

end Nested

end Instance

namespace Model

open ClassDeclaration

/-! ## Why a reader may fail -/

namespace Kind

/-- The names of the classes of a type. -/
def classNames (k : Kind) : List String := (Entity.declarations k.Carrier).map (·.name)

/-- What the reader of a type says of an instance of another class. -/
def refusal (k : Kind) (className : String) : MappingError :=
  match k with
  | staticProperty => .wrongField className "" .notStaticProperty
  | rule => .wrongField className "" .notTransformationRule
  | property => .wrongField className "" .notEventProperty
  | k => .wrongField (k.classNames.headD "") "" .otherClass

/-- The type of the values that an entity field is for. -/
def ofField? : String → Option Kind
  | "eventProperties" | "eventProperty" => some property
  | "eventSchema" => some schema
  | "staticProperties" => some staticProperty
  | _ => none

end Kind

/-- What is wrong with an instance itself, with the error that says so. -/
inductive ReadFault (e : Instance) : MappingError → Prop
  /-- A rule lacks one of the keys that it concerns. -/
  | key {c : ClassDeclaration} {f : FieldDeclaration}
      (hc : c ∈ Entity.declarations TransformationRule) (hclass : e.className = c.name)
      (hf : f ∈ c.fields) (hmapped : f.mapping ≠ .identity) (hunset : e.get? f.name = none) :
      ReadFault e (.wrongField c.name f.name .missing)
  /-- An entity field holds an instance of a class that the field is not for. -/
  | guest {y : Instance} {n : String} {v : Value} {k : Kind} (hv : e.get? n = some v)
      (hy : y ∈ v.nested) (hk : Kind.ofField? n = some k) (hclass : y.className ∉ k.classNames) :
      ReadFault e (k.refusal y.className)

/-- Why no typed value can be read from an instance: something is wrong with it, or with an
instance that is nested in it. -/
def Unreadable (e : Instance) (err : MappingError) : Prop :=
  ∃ y : Instance, y.Within e ∧ ReadFault y err

theorem ReadFault.unreadable {e : Instance} {err : MappingError} (h : ReadFault e err) :
    Unreadable e err :=
  ⟨e, .self, h⟩

/-- An instance that nests an unreadable one is unreadable for the same reason. -/
theorem Unreadable.inside {e y : Instance} {n : String} {v : Value} {err : MappingError}
    (hv : e.get? n = some v) (hy : y ∈ v.nested) (h : Unreadable y err) : Unreadable e err := by
  obtain ⟨x, hx, hfault⟩ := h
  exact ⟨x, .nested hv hy hx, hfault⟩

/-! ## Instances of other classes -/

section Refusals

variable {e : Instance}

/-- A family looks at the name of the class first, and it knows those of its members
only. -/
theorem StaticProperty.ofInstance_refuses
    (h : e.className ∉ (Entity.declarations StaticProperty).map (·.name)) :
    Entity.ofInstance (α := StaticProperty) e =
      .error (.wrongField e.className "" .notStaticProperty) := by
  unfold Entity.ofInstance instEntityStaticProperty
  dsimp only
  split
  case h_4 => rfl
  all_goals
    rename_i hname
    rw [hname] at h
    exact absurd (by decide) h

theorem TransformationRule.ofInstance_refuses
    (h : e.className ∉ (Entity.declarations TransformationRule).map (·.name)) :
    Entity.ofInstance (α := TransformationRule) e =
      .error (.wrongField e.className "" .notTransformationRule) := by
  unfold Entity.ofInstance instEntityTransformationRule
  dsimp only
  split
  case h_4 => rfl
  all_goals
    rename_i hname
    rw [hname] at h
    exact absurd (by decide) h

theorem EventProperty.ofInstance_refuses
    (h : e.className ∉ (Entity.declarations EventProperty).map (·.name)) :
    EventProperty.ofInstance e = .error (.wrongField e.className "" .notEventProperty) := by
  rw [EventProperty.ofInstance]
  split
  case h_4 => rfl
  all_goals
    rename_i hname
    rw [hname] at h
    exact absurd (by decide) h

/-- A reader of a type refuses the instances of all other classes. -/
theorem Kind.ofInstance_refuses {k : Kind} (h : e.className ∉ k.classNames) :
    Entity.ofInstance (α := k.Carrier) e = .error (k.refusal e.className) := by
  cases k with
  | staticProperty => exact StaticProperty.ofInstance_refuses h
  | rule => exact TransformationRule.ofInstance_refuses h
  | property => exact EventProperty.ofInstance_refuses h
  -- the other types have one class, which their readers ask for first
  | mappingNary | mappingUnary | freeText | addNested | rename | delete | primitive | nested | list
  | schema | dataSet | invocation =>
    exact bind_eq_error.mpr (Or.inl (if_neg fun hname => h (List.mem_singleton.mpr hname)))

/-- What an entity field nests can be read, or there is a reason in the instance. -/
theorem Kind.failsOnly_nested {k : Kind} {n : String} {v : Value} {y : Instance}
    (hk : Kind.ofField? n = some k) (hv : e.get? n = some v) (hy : y ∈ v.nested)
    (hread : y.className ∈ k.classNames →
      FailsOnly (Unreadable y) (Entity.ofInstance (α := k.Carrier) y)) :
    FailsOnly (Unreadable e) (Entity.ofInstance (α := k.Carrier) y) := by
  by_cases hclass : y.className ∈ k.classNames
  · exact (hread hclass).imp fun err => .inside hv hy
  · rw [Kind.ofInstance_refuses hclass]
    exact .error (ReadFault.guest hv hy hk hclass).unreadable

end Refusals

/-! ## Families -/

section Families

variable {e : Instance}

/-- Each of the three members of a family has its own reader, and the family adds a
constructor to what that reader gives. -/
theorem StaticProperty.ofInstance_eq_mappingNary (h : e.className = "MappingPropertyNary") :
    Entity.ofInstance e = mappingNary <$> Entity.ofInstance e := by
  simp only [Entity.ofInstance, h]

theorem StaticProperty.ofInstance_eq_mappingUnary (h : e.className = "MappingPropertyUnary") :
    Entity.ofInstance e = mappingUnary <$> Entity.ofInstance e := by
  simp only [Entity.ofInstance, h]

theorem StaticProperty.ofInstance_eq_freeText (h : e.className = "FreeTextStaticProperty") :
    Entity.ofInstance e = freeText <$> Entity.ofInstance e := by
  simp only [Entity.ofInstance, h]

theorem TransformationRule.ofInstance_eq_addNested (h : e.className = "AddNestedRuleDescription") :
    Entity.ofInstance e = addNested <$> Entity.ofInstance e := by
  simp only [Entity.ofInstance, h]

theorem TransformationRule.ofInstance_eq_rename (h : e.className = "RenameRuleDescription") :
    Entity.ofInstance e = rename <$> Entity.ofInstance e := by
  simp only [Entity.ofInstance, h]

theorem TransformationRule.ofInstance_eq_delete (h : e.className = "DeleteRuleDescription") :
    Entity.ofInstance e = delete <$> Entity.ofInstance e := by
  simp only [Entity.ofInstance, h]

/-- Event properties nest each other, so the family is read by one recursion. In the case
of a primitive property it is the reader of that class. -/
theorem EventProperty.ofInstance_eq_primitive (h : e.className = "EventPropertyPrimitive") :
    EventProperty.ofInstance e = primitive <$> Entity.ofInstance e := by
  rw [EventProperty.ofInstance, h]
  rfl

/-- The recursion reads the parts of a nested property in the order of its own reader. -/
theorem EventProperty.ofInstance_eq_nested (h : e.className = "EventPropertyNested") :
    EventProperty.ofInstance e =
      (fun p : EventPropertyNested => nested p.info p.eventProperties) <$> Entity.ofInstance e := by
  rw [EventProperty.ofInstance, h]
  simp only [Entity.ofInstance, Instance.expectClass_eq_ok h, ok_bind, map_bind, map_pure]

/-- The recursion reads the parts of a list property in the order of its own reader. -/
theorem EventProperty.ofInstance_eq_list (h : e.className = "EventPropertyList") :
    EventProperty.ofInstance e =
      (fun p : EventPropertyList => list p.info p.eventProperty) <$> Entity.ofInstance e := by
  rw [EventProperty.ofInstance, h]
  simp only [Entity.ofInstance, Instance.expectClass_eq_ok h, ok_bind, map_bind, map_pure]

/-- A family reads an instance with the reader for its class. The value is the same
resource. -/
theorem Kind.exists_reader {k : Kind} (hk : e.className ∈ k.classNames) :
    ∃ k' : Kind, k'.classNames = [e.className] ∧ ∃ f : k'.Carrier → k.Carrier,
      Entity.ofInstance (α := k.Carrier) e = f <$> Entity.ofInstance (α := k'.Carrier) e ∧
        ∀ a, k.resource (f a) = k'.resource a := by
  -- a type with one class reads for itself
  by_cases hone : k.classNames = [e.className]
  · exact ⟨k, hone, id, (id_map _).symm, fun _ => rfl⟩
  cases k with
  | staticProperty =>
    rcases List.mem_cons.mp hk with h | hk
    · exact ⟨.mappingNary, congrArg (fun n => [n]) h.symm, _,
        StaticProperty.ofInstance_eq_mappingNary h, fun _ => rfl⟩
    · rcases List.mem_pair.mp hk with h | h
      · exact ⟨.mappingUnary, congrArg (fun n => [n]) h.symm, _,
          StaticProperty.ofInstance_eq_mappingUnary h, fun _ => rfl⟩
      · exact ⟨.freeText, congrArg (fun n => [n]) h.symm, _,
          StaticProperty.ofInstance_eq_freeText h, fun _ => rfl⟩
  | rule =>
    rcases List.mem_cons.mp hk with h | hk
    · exact ⟨.addNested, congrArg (fun n => [n]) h.symm, _,
        TransformationRule.ofInstance_eq_addNested h, fun _ => rfl⟩
    · rcases List.mem_pair.mp hk with h | h
      · exact ⟨.rename, congrArg (fun n => [n]) h.symm, _,
          TransformationRule.ofInstance_eq_rename h, fun _ => rfl⟩
      · exact ⟨.delete, congrArg (fun n => [n]) h.symm, _,
          TransformationRule.ofInstance_eq_delete h, fun _ => rfl⟩
  | property =>
    rcases List.mem_cons.mp hk with h | hk
    · exact ⟨.primitive, congrArg (fun n => [n]) h.symm, _,
        EventProperty.ofInstance_eq_primitive h, fun _ => rfl⟩
    · rcases List.mem_pair.mp hk with h | h
      · exact ⟨.nested, congrArg (fun n => [n]) h.symm, _,
          EventProperty.ofInstance_eq_nested h, fun _ => rfl⟩
      · exact ⟨.list, congrArg (fun n => [n]) h.symm, _,
          EventProperty.ofInstance_eq_list h, fun _ => rfl⟩
  | _ => exact absurd (congrArg (fun n => [n]) (List.mem_singleton.mp hk).symm) hone

end Families

/-! ## Readers of the data model -/

/-- A class takes what a group of fields takes that it includes. -/
theorem takes_of_subset {c : ClassDeclaration} {fields : List FieldDeclaration} {n : String}
    {r : Range} {m : Multiplicity} (hsub : fields ⊆ c.fields)
    (h : ∃ f ∈ fields, f.name = n ∧ f.IsFor r m) : c.Takes n r m := by
  obtain ⟨f, hf, h⟩ := h
  exact ⟨f, hsub hf, h⟩

section Readers

variable {c : ClassDeclaration} {e : Instance} {P : MappingError → Prop}

/-- The fields that static properties share are texts, so reading them does not fail. -/
theorem StaticPropertyInfo.failsOnly (h : c.Conforms e)
    (hsub : StaticPropertyInfo.declarations ⊆ c.fields) :
    FailsOnly P (StaticPropertyInfo.ofInstance e) := by
  -- the optional texts have one proof, that they are declared is decided
  have htext : ∀ n ∈ ["elementName", "label", "description", "internalName"],
      FailsOnly P (e.readString? n) := by
    intro n hn
    refine h.readString? (takes_of_subset hsub ?_)
    revert n
    decide
  have hid : FailsOnly P (e.readString "id") :=
    h.readIdentity ⟨.identity "id", hsub (List.mem_cons_self ..), rfl, rfl⟩
  exact .bind hid fun _ => .bind (htext _ (by decide)) fun _ => .bind (htext _ (by decide)) fun _ =>
    .bind (htext _ (by decide)) fun _ => .bind (htext _ (by decide)) fun _ => .ok _

/-- A mapping property has no entity fields and needs its identity only. -/
theorem MappingPropertyNary.failsOnly (h : c.Conforms e)
    (hc : c ∈ Entity.declarations MappingPropertyNary) :
    FailsOnly P (Entity.ofInstance (α := MappingPropertyNary) e) := by
  obtain rfl := List.mem_singleton.mp hc
  have hinfo : FailsOnly P (StaticPropertyInfo.ofInstance e) :=
    StaticPropertyInfo.failsOnly h (List.subset_append_left ..)
  exact .bind h.expectClass fun _ => .bind hinfo fun _ => .bind (h.readString? (by decide)) fun _ =>
    .bind (h.readStrings (by decide)) fun _ => .bind (h.readString? (by decide)) fun _ =>
    .bind (h.readStrings (by decide)) fun _ => .ok _

theorem MappingPropertyUnary.failsOnly (h : c.Conforms e)
    (hc : c ∈ Entity.declarations MappingPropertyUnary) :
    FailsOnly P (Entity.ofInstance (α := MappingPropertyUnary) e) := by
  obtain rfl := List.mem_singleton.mp hc
  have hinfo : FailsOnly P (StaticPropertyInfo.ofInstance e) :=
    StaticPropertyInfo.failsOnly h (List.subset_append_left ..)
  exact .bind h.expectClass fun _ => .bind hinfo fun _ => .bind (h.readString? (by decide)) fun _ =>
    .bind (h.readStrings (by decide)) fun _ => .bind (h.readString? (by decide)) fun _ =>
    .bind (h.readString? (by decide)) fun _ => .ok _

/-- A free text needs its identity only. -/
theorem FreeTextStaticProperty.failsOnly (h : c.Conforms e)
    (hc : c ∈ Entity.declarations FreeTextStaticProperty) :
    FailsOnly P (Entity.ofInstance (α := FreeTextStaticProperty) e) := by
  obtain rfl := List.mem_singleton.mp hc
  have hinfo : FailsOnly P (StaticPropertyInfo.ofInstance e) :=
    StaticPropertyInfo.failsOnly h (List.subset_append_left ..)
  exact .bind h.expectClass fun _ => .bind hinfo fun _ => .bind (h.readString? (by decide)) fun _ =>
    .bind (h.readString? (by decide)) fun _ => .ok _

/-- A key of a rule is read, unless it is missing. -/
theorem failsOnly_readKey (h : c.Conforms e) (hc : c ∈ Entity.declarations TransformationRule)
    {n : String} (ht : c.Takes n .literal .single) : FailsOnly (Unreadable e) (e.readString n) := by
  cases hv : e.get? n with
  | none =>
    obtain ⟨f, hf, rfl, hrange, -⟩ := ht
    -- the identity points at no objects, so the field is a key
    have hmapped : f.mapping ≠ .identity := by
      intro hm
      rw [hm] at hrange
      cases hrange
    have hread : e.readString f.name = .error (.wrongField c.name f.name .missing) := by
      rw [← h.className, Instance.readString, Instance.readString?, hv]
      rfl
    rw [hread]
    exact .error (ReadFault.key hc h.className hf hmapped hv).unreadable
  | some v =>
    obtain ⟨s, rfl⟩ := Value.exists_str (h.form ht hv)
    rw [Instance.readString_eq hv]
    exact .ok s

/-- Of the fields of a rule that adds a nested record, the runtime key may be missing. -/
theorem AddNestedRule.failsOnly (h : c.Conforms e) (hc : c ∈ Entity.declarations AddNestedRule) :
    FailsOnly (Unreadable e) (Entity.ofInstance (α := AddNestedRule) e) := by
  have hrule : c ∈ Entity.declarations TransformationRule :=
    List.mem_append_left _ (List.mem_append_left _ hc)
  obtain rfl := List.mem_singleton.mp hc
  exact .bind h.expectClass fun _ => .bind (h.readIdentity (by decide)) fun _ =>
    .bind (failsOnly_readKey h hrule (by decide)) fun _ => .ok _

/-- Of the fields of a rule that renames, both of its keys may be missing. -/
theorem RenameRule.failsOnly (h : c.Conforms e) (hc : c ∈ Entity.declarations RenameRule) :
    FailsOnly (Unreadable e) (Entity.ofInstance (α := RenameRule) e) := by
  have hrule : c ∈ Entity.declarations TransformationRule :=
    List.mem_append_left _ (List.mem_append_right _ hc)
  obtain rfl := List.mem_singleton.mp hc
  exact .bind h.expectClass fun _ => .bind (h.readIdentity (by decide)) fun _ =>
    .bind (failsOnly_readKey h hrule (by decide)) fun _ =>
    .bind (failsOnly_readKey h hrule (by decide)) fun _ => .ok _

theorem DeleteRule.failsOnly (h : c.Conforms e) (hc : c ∈ Entity.declarations DeleteRule) :
    FailsOnly (Unreadable e) (Entity.ofInstance (α := DeleteRule) e) := by
  have hrule : c ∈ Entity.declarations TransformationRule := List.mem_append_right _ hc
  obtain rfl := List.mem_singleton.mp hc
  exact .bind h.expectClass fun _ => .bind (h.readIdentity (by decide)) fun _ =>
    .bind (failsOnly_readKey h hrule (by decide)) fun _ => .ok _

/-- The fields that event properties share are texts, so reading them does not fail. -/
theorem EventPropertyInfo.failsOnly (h : c.Conforms e)
    (hsub : EventPropertyInfo.declarations ⊆ c.fields) :
    FailsOnly P (EventPropertyInfo.ofInstance e) := by
  have htext : ∀ n ∈ ["runtimeName", "label", "description"], FailsOnly P (e.readString? n) := by
    intro n hn
    refine h.readString? (takes_of_subset hsub ?_)
    revert n
    decide
  have hid : FailsOnly P (e.readString "id") :=
    h.readIdentity ⟨.identity "id", hsub (List.mem_cons_self ..), rfl, rfl⟩
  exact .bind hid fun _ => .bind (htext _ (by decide)) fun _ => .bind (htext _ (by decide)) fun _ =>
    .bind (htext _ (by decide)) fun _ => .ok _

/-- A primitive property has no entity fields and needs its identity only. -/
theorem EventPropertyPrimitive.failsOnly (h : c.Conforms e)
    (hc : c ∈ Entity.declarations EventPropertyPrimitive) :
    FailsOnly P (Entity.ofInstance (α := EventPropertyPrimitive) e) := by
  obtain rfl := List.mem_singleton.mp hc
  have hinfo : FailsOnly P (EventPropertyInfo.ofInstance e) :=
    EventPropertyInfo.failsOnly h (List.subset_append_left ..)
  exact .bind h.expectClass fun _ => .bind hinfo fun _ => .bind (h.readString? (by decide)) fun _ =>
    .bind (h.readStrings (by decide)) fun _ => .ok _

section Nested

-- what a field nests fails for no other reasons, read as the type that the field is for
variable (hnested : ∀ {n v k}, Kind.ofField? n = some k → e.get? n = some v → ∀ y ∈ v.nested,
  FailsOnly P (Entity.ofInstance (α := k.Carrier) y))
include hnested

/-- A nested property is read, unless one of its event properties is not. -/
theorem EventPropertyNested.failsOnly (h : c.Conforms e)
    (hc : c ∈ Entity.declarations EventPropertyNested) :
    FailsOnly P (Entity.ofInstance (α := EventPropertyNested) e) := by
  obtain rfl := List.mem_singleton.mp hc
  have hinfo : FailsOnly P (EventPropertyInfo.ofInstance e) :=
    EventPropertyInfo.failsOnly h (List.subset_append_left ..)
  exact .bind h.expectClass fun _ => .bind hinfo fun _ =>
    .bind (h.readEntities (fun v hv y hy _ => hnested (k := .property) rfl hv y hy) (by decide))
      fun _ => .ok _

/-- A list property is read, unless its event property is not. -/
theorem EventPropertyList.failsOnly (h : c.Conforms e)
    (hc : c ∈ Entity.declarations EventPropertyList) :
    FailsOnly P (Entity.ofInstance (α := EventPropertyList) e) := by
  obtain rfl := List.mem_singleton.mp hc
  have hinfo : FailsOnly P (EventPropertyInfo.ofInstance e) :=
    EventPropertyInfo.failsOnly h (List.subset_append_left ..)
  exact .bind h.expectClass fun _ => .bind hinfo fun _ =>
    .bind (h.readEntity? (fun v hv y hy _ => hnested (k := .property) rfl hv y hy) (by decide))
      fun _ => .ok _

theorem EventSchema.failsOnly (h : c.Conforms e) (hc : c ∈ Entity.declarations EventSchema) :
    FailsOnly P (Entity.ofInstance (α := EventSchema) e) := by
  obtain rfl := List.mem_singleton.mp hc
  exact .bind h.expectClass fun _ => .bind (h.readIdentity (by decide)) fun _ =>
    .bind (h.readEntities (fun v hv y hy _ => hnested (k := .property) rfl hv y hy) (by decide))
      fun _ => .ok _

theorem DataSetDescription.failsOnly (h : c.Conforms e)
    (hc : c ∈ Entity.declarations DataSetDescription) :
    FailsOnly P (Entity.ofInstance (α := DataSetDescription) e) := by
  obtain rfl := List.mem_singleton.mp hc
  exact .bind h.expectClass fun _ => .bind (h.readIdentity (by decide)) fun _ =>
    .bind (h.readString? (by decide)) fun _ => .bind (h.readString? (by decide)) fun _ =>
    .bind (h.readEntity? (fun v hv y hy _ => hnested (k := .schema) rfl hv y hy) (by decide))
      fun _ => .ok _

/-- An invocation is read, unless one of its static properties is not. -/
theorem PipelineTemplateInvocation.failsOnly (h : c.Conforms e)
    (hc : c ∈ Entity.declarations PipelineTemplateInvocation) :
    FailsOnly P (Entity.ofInstance (α := PipelineTemplateInvocation) e) := by
  obtain rfl := List.mem_singleton.mp hc
  exact .bind h.expectClass fun _ => .bind (h.readIdentity (by decide)) fun _ =>
    .bind (h.readString? (by decide)) fun _ => .bind (h.readString? (by decide)) fun _ =>
    .bind (h.readString? (by decide)) fun _ =>
    .bind (h.readEntities (fun v hv y hy _ => hnested (k := .staticProperty) rfl hv y hy)
      (by decide)) fun _ => .ok _

end Nested

end Readers

/-! ## What readers need -/

namespace Kind

/-- The instance is read as a value of the type. -/
def Reads (k : Kind) (e : Instance) : Prop := ∃ a : k.Carrier, Entity.ofInstance e = .ok a

theorem requires_reads (k : Kind) (e : Instance) :
    Requires (k.Reads e) (Entity.ofInstance (α := k.Carrier) e) := fun a h => ⟨a, h⟩

/-- An instance that is read as a type is of one of its classes. -/
theorem Reads.mem_classNames {k : Kind} {e : Instance} (h : k.Reads e) :
    e.className ∈ k.classNames := by
  by_contra hclass
  obtain ⟨a, ha⟩ := h
  rw [ofInstance_refuses hclass] at ha
  cases ha

end Kind

section Keys

open Instance

variable {c : ClassDeclaration} {f : FieldDeclaration} {e : Instance}

/-- No rule is read without its keys. This one has a single key, after the identity. -/
theorem AddNestedRule.requires_key (hc : c ∈ Entity.declarations AddNestedRule)
    (hf : f ∈ c.fields) (hmapped : f.mapping ≠ .identity) :
    Requires (e.get? f.name ≠ none) (Entity.ofInstance (α := AddNestedRule) e) := by
  obtain rfl := List.mem_singleton.mp hc
  rcases List.mem_pair.mp hf with rfl | rfl
  · exact absurd rfl hmapped
  · exact .rest fun _ => .rest fun _ => .first requires_readString

/-- A rule that renames needs both of its keys, and the old one is read first. -/
theorem RenameRule.requires_key (hc : c ∈ Entity.declarations RenameRule)
    (hf : f ∈ c.fields) (hmapped : f.mapping ≠ .identity) :
    Requires (e.get? f.name ≠ none) (Entity.ofInstance (α := RenameRule) e) := by
  obtain rfl := List.mem_singleton.mp hc
  rcases List.mem_cons.mp hf with rfl | hf
  · exact absurd rfl hmapped
  · rcases List.mem_pair.mp hf with rfl | rfl
    · exact .rest fun _ => .rest fun _ => .first requires_readString
    · exact .rest fun _ => .rest fun _ => .rest fun _ => .first requires_readString

theorem DeleteRule.requires_key (hc : c ∈ Entity.declarations DeleteRule)
    (hf : f ∈ c.fields) (hmapped : f.mapping ≠ .identity) :
    Requires (e.get? f.name ≠ none) (Entity.ofInstance (α := DeleteRule) e) := by
  obtain rfl := List.mem_singleton.mp hc
  rcases List.mem_pair.mp hf with rfl | rfl
  · exact absurd rfl hmapped
  · exact .rest fun _ => .rest fun _ => .first requires_readString

end Keys

section Nested

open Instance

variable {e y : Instance} {v : Value} (hy : y ∈ v.nested)
include hy

/-- All event properties of a nested property must be read with it. -/
theorem EventPropertyNested.requires_nested (hv : e.get? "eventProperties" = some v) :
    Requires (Kind.property.Reads y) (Entity.ofInstance (α := EventPropertyNested) e) :=
  .rest fun _ => .rest fun _ =>
    .first (requires_readEntities hv hy fun _ => Kind.property.requires_reads y)

theorem EventPropertyList.requires_nested (hv : e.get? "eventProperty" = some v) :
    Requires (Kind.property.Reads y) (Entity.ofInstance (α := EventPropertyList) e) :=
  .rest fun _ => .rest fun _ =>
    .first (requires_readEntity? hv hy fun _ => Kind.property.requires_reads y)

theorem EventSchema.requires_nested (hv : e.get? "eventProperties" = some v) :
    Requires (Kind.property.Reads y) (Entity.ofInstance (α := EventSchema) e) :=
  .rest fun _ => .rest fun _ =>
    .first (requires_readEntities hv hy fun _ => Kind.property.requires_reads y)

theorem DataSetDescription.requires_nested (hv : e.get? "eventSchema" = some v) :
    Requires (Kind.schema.Reads y) (Entity.ofInstance (α := DataSetDescription) e) :=
  .rest fun _ => .rest fun _ => .rest fun _ => .rest fun _ =>
    .first (requires_readEntity? hv hy fun _ => Kind.schema.requires_reads y)

theorem PipelineTemplateInvocation.requires_nested (hv : e.get? "staticProperties" = some v) :
    Requires (Kind.staticProperty.Reads y)
      (Entity.ofInstance (α := PipelineTemplateInvocation) e) :=
  .rest fun _ => .rest fun _ => .rest fun _ => .rest fun _ => .rest fun _ =>
    .first (requires_readEntities hv hy fun _ => Kind.staticProperty.requires_reads y)

end Nested

/-! ## Instances in depth -/

/-- A type is known from its classes. -/
theorem Kind.eq_of_classNames {k k' : Kind} (h : k'.classNames = k.classNames) : k' = k := by
  revert h
  cases k <;> cases k' <;> decide

/-- The names of classes tell them apart. -/
theorem Kind.mem_declarations {k : Kind} {c : ClassDeclaration} (hc : c ∈ declarations)
    (hname : c.name ∈ k.classNames) : c ∈ Entity.declarations k.Carrier := by
  revert c
  cases k <;> decide +kernel

/-- The entity fields of the data model, with their classes. -/
theorem entity_fields {c : ClassDeclaration} (hc : c ∈ declarations) {n : String}
    {m : Multiplicity} (ht : c.Takes n .entity m) :
    (c.name, n) ∈ [("EventPropertyNested", "eventProperties"),
      ("EventPropertyList", "eventProperty"), ("EventSchema", "eventProperties"),
      ("DataSetDescription", "eventSchema"),
      ("PipelineTemplateInvocation", "staticProperties")] := by
  obtain ⟨f, hf, rfl, hfor⟩ := ht
  revert c f
  cases m <;> decide +kernel

/-- An instance that conforms in depth is read, or there is a reason in it. -/
theorem failsOnly_ofInstance {e : Instance} (h : Formed declarations e) :
    ∀ k : Kind, e.className ∈ k.classNames →
      FailsOnly (Unreadable e) (Entity.ofInstance (α := k.Carrier) e) := by
  induction h with
  | @intro e c hc hform deep ih =>
    intro k hk
    -- what is nested is of a wrong class, or conforms in depth itself
    have hnested : ∀ {n v k}, Kind.ofField? n = some k → e.get? n = some v → ∀ y ∈ v.nested,
        FailsOnly (Unreadable e) (Entity.ofInstance (α := k.Carrier) y) :=
      fun hk hv y hy => Kind.failsOnly_nested hk hv hy (ih _ _ hv y hy _)
    obtain ⟨k', hname, f, hread, -⟩ := Kind.exists_reader hk
    rw [hread]
    refine .map f ?_
    have hmem : c ∈ Entity.declarations k'.Carrier := by
      refine Kind.mem_declarations hc ?_
      rw [hname, hform.className]
      exact List.mem_singleton_self _
    cases k' with
    | mappingNary => exact MappingPropertyNary.failsOnly hform hmem
    | mappingUnary => exact MappingPropertyUnary.failsOnly hform hmem
    | freeText => exact FreeTextStaticProperty.failsOnly hform hmem
    | addNested => exact AddNestedRule.failsOnly hform hmem
    | rename => exact RenameRule.failsOnly hform hmem
    | delete => exact DeleteRule.failsOnly hform hmem
    | primitive => exact EventPropertyPrimitive.failsOnly hform hmem
    | nested => exact EventPropertyNested.failsOnly hnested hform hmem
    | list => exact EventPropertyList.failsOnly hnested hform hmem
    | schema => exact EventSchema.failsOnly hnested hform hmem
    | dataSet => exact DataSetDescription.failsOnly hnested hform hmem
    | invocation => exact PipelineTemplateInvocation.failsOnly hnested hform hmem
    | staticProperty | rule | property =>
      -- a family has three classes
      have hlength : 3 = 1 := congrArg List.length hname
      cases hlength

/-- A rule of which a key is not set is not read. -/
theorem Kind.requires_key {k : Kind} {c : ClassDeclaration} {f : FieldDeclaration} {e : Instance}
    (hk : e.className ∈ k.classNames) (hc : c ∈ Entity.declarations TransformationRule)
    (hclass : e.className = c.name) (hf : f ∈ c.fields) (hmapped : f.mapping ≠ .identity) :
    Requires (e.get? f.name ≠ none) (Entity.ofInstance (α := k.Carrier) e) := by
  obtain ⟨k', hname, g, hread, -⟩ := Kind.exists_reader hk
  rw [hread]
  refine .map g ?_
  -- the class of a rule tells its type
  rw [hclass] at hname
  rcases List.mem_append.mp hc with hc | hc
  · rcases List.mem_append.mp hc with hc | hc
    · have hkey := AddNestedRule.requires_key (e := e) hc hf hmapped
      obtain rfl := List.mem_singleton.mp hc
      obtain rfl := Kind.eq_of_classNames (k := .addNested) hname
      exact hkey
    · have hkey := RenameRule.requires_key (e := e) hc hf hmapped
      obtain rfl := List.mem_singleton.mp hc
      obtain rfl := Kind.eq_of_classNames (k := .rename) hname
      exact hkey
  · have hkey := DeleteRule.requires_key (e := e) hc hf hmapped
    obtain rfl := List.mem_singleton.mp hc
    obtain rfl := Kind.eq_of_classNames (k := .delete) hname
    exact hkey

/-- What an entity field nests is read as the type that the field is for. -/
theorem Kind.requires_nested {k : Kind} {c : ClassDeclaration} {e y : Instance} {n : String}
    {v : Value} (hc : c ∈ declarations) (hform : c.Conforms e) (hk : e.className ∈ k.classNames)
    (hv : e.get? n = some v) (hy : y ∈ v.nested) :
    ∃ k', Kind.ofField? n = some k' ∧
      Requires (k'.Reads y) (Entity.ofInstance (α := k.Carrier) e) := by
  obtain ⟨k', hname, g, hread, -⟩ := Kind.exists_reader hk
  rw [hread]
  obtain ⟨m, ht⟩ := hform.takes_of_nested hv hy
  -- the field is one of five, and its class tells which reader is at work
  have hfield := entity_fields hc ht
  rw [← hform.className] at hfield
  simp only [List.mem_cons, Prod.mk.injEq, List.not_mem_nil, or_false] at hfield
  rcases hfield with ⟨h, rfl⟩ | ⟨h, rfl⟩ | ⟨h, rfl⟩ | ⟨h, rfl⟩ | ⟨h, rfl⟩
  all_goals
    rw [h] at hname
    refine ⟨_, rfl, .map g ?_⟩
  · obtain rfl := Kind.eq_of_classNames (k := .nested) hname
    exact EventPropertyNested.requires_nested hy hv
  · obtain rfl := Kind.eq_of_classNames (k := .list) hname
    exact EventPropertyList.requires_nested hy hv
  · obtain rfl := Kind.eq_of_classNames (k := .schema) hname
    exact EventSchema.requires_nested hy hv
  · obtain rfl := Kind.eq_of_classNames (k := .dataSet) hname
    exact DataSetDescription.requires_nested hy hv
  · obtain rfl := Kind.eq_of_classNames (k := .invocation) hname
    exact PipelineTemplateInvocation.requires_nested hy hv

/-- If an instance that conforms in depth is read, there is no reason against it. -/
theorem not_unreadable {e : Instance} (h : Formed declarations e) :
    ∀ k : Kind, k.Reads e → ∀ err, ¬ Unreadable e err := by
  induction h with
  | @intro e c hc hform deep ih =>
    rintro k hread err ⟨x, hx, hfault⟩
    -- the reader has read what is nested, each as the type that its field is for
    have hk := hread.mem_classNames
    obtain ⟨a, ha⟩ := hread
    cases hx with
    | self =>
      cases hfault with
      | key hrule hclass hf hmapped hunset =>
        exact Kind.requires_key hk hrule hclass hf hmapped a ha hunset
      | guest hv hy hfor hclass =>
        obtain ⟨k', hfor', hreads⟩ := Kind.requires_nested hc hform hk hv hy
        obtain rfl := Option.some.inj (hfor.symm.trans hfor')
        exact hclass (hreads a ha).mem_classNames
    | nested hv hy hx =>
      obtain ⟨k', -, hreads⟩ := Kind.requires_nested hc hform hk hv hy
      exact ih _ _ hv _ hy k' (hreads a ha) err ⟨x, hx, hfault⟩

/-- What a reader says of an instance of another class is not about one of its fields. -/
theorem Kind.exists_refusal (k : Kind) (className : String) :
    ∃ name fault, k.refusal className = .wrongField name "" fault ∧
      fault ∈ [.otherClass, .notStaticProperty, .notTransformationRule, .notEventProperty] := by
  cases k <;> exact ⟨_, _, rfl, by decide⟩

/-- Only the identity of a rule is called so. -/
theorem name_ne_id : ∀ c ∈ Entity.declarations TransformationRule, ∀ f ∈ c.fields,
    f.mapping ≠ .identity → f.name ≠ "id" := by
  decide +kernel

/-- A fault concerns a key, or the class of a nested instance. -/
theorem ReadFault.exists_field {e : Instance} {err : MappingError} (h : ReadFault e err) :
    ∃ className field fault, err = .wrongField className field fault ∧
      ((fault = .missing ∧ field ≠ "id") ∨
        fault ∈ [.otherClass, .notStaticProperty, .notTransformationRule, .notEventProperty]) := by
  cases h with
  | key hc hclass hf hmapped hunset =>
    exact ⟨_, _, _, rfl, Or.inl ⟨rfl, name_ne_id _ hc _ hf hmapped⟩⟩
  | @guest y _ _ k =>
    obtain ⟨name, fault, hrefusal, hfault⟩ := k.exists_refusal y.className
    exact ⟨_, _, _, hrefusal, Or.inr hfault⟩

/-- Each class of the data model is the one of a type or belongs to a family. -/
theorem exists_kind {c : ClassDeclaration} (hc : c ∈ declarations) :
    ∃ k : Kind, c.name ∈ k.classNames := by
  simp only [declarations, List.mem_append] at hc
  rcases hc with ((((hc | hc) | hc) | hc) | hc) | hc
  · exact ⟨.staticProperty, List.mem_map_of_mem hc⟩
  · exact ⟨.rule, List.mem_map_of_mem hc⟩
  · exact ⟨.property, List.mem_map_of_mem hc⟩
  · exact ⟨.schema, List.mem_map_of_mem hc⟩
  · exact ⟨.dataSet, List.mem_map_of_mem hc⟩
  · exact ⟨.invocation, List.mem_map_of_mem hc⟩

end Model

end EntityRdf
