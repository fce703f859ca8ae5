import EntityRdf.Model.Catalogue
import EntityRdf.Proofs.BuiltInstance
import EntityRdf.Proofs.Fallible

/-!
# Reading back what a typed value has set

A typed value sets each field of its instance once, and its reader asks for the
same fields. A reader sees the value that was set under its field and looks
through all other fields; by these lemmas `simp` evaluates a reader on an
instance that is spelled out field by field.

Main results: `readEntity?_eq` and `readEntities_eq` for what is nested, and
`ofInstance_toInstance` for every kind of value in the data model.
-/

namespace EntityRdf

namespace Instance

variable {e : Instance} {n m : String} {v : Value}

/-! ## One field -/

@[simp] theorem className_setStr? (e : Instance) (n : String) (s? : Option String) :
    (e.setStr? n s?).className = e.className := by
  rw [setStr?_eq, className_setOption]

theorem get?_setStr?_of_ne (e : Instance) (s? : Option String) (h : m ≠ n) :
    (e.setStr? n s?).get? m = e.get? m := by
  rw [setStr?_eq, get?_setOption_of_ne e _ h]

/-- A free field into which an optional text is set holds that text, or still nothing. -/
theorem get?_setStr?_self (hfree : e.get? n = none) (s? : Option String) :
    (e.setStr? n s?).get? n = s?.map .str := by
  rw [setStr?_eq, get?_setOption_self hfree]
  cases s? <;> rfl

/-- A field that holds an optional text is read as that text; where there is none the
reader does not fail. -/
theorem readString?_eq {s? : Option String} (h : e.get? n = s?.map .str) :
    e.readString? n = .ok s? := by
  unfold readString?
  rw [h]
  cases s? <;> rfl

/-- A field that holds a text is read as that text by the reader that requires one. -/
theorem readString_eq {s : String} (h : e.get? n = some (.str s)) : e.readString n = .ok s := by
  have hread : e.readString? n = .ok (some s) := readString?_eq h
  unfold readString
  rw [hread]
  rfl

/-- An empty sequence is not set, and an unset field is read as one. -/
theorem readStrings_eq {l : List String}
    (h : e.get? n = if (Value.strs l).isEmptySequence then none else some (.strs l)) :
    e.readStrings n = .ok l := by
  unfold readStrings
  rw [h]
  cases l <;> rfl

/-- Reading depends on the class and on what the field holds. -/
theorem readString?_congr {e' : Instance} (hclass : e.className = e'.className)
    (h : e.get? n = e'.get? n) : e.readString? n = e'.readString? n := by
  unfold readString?
  rw [h, hclass]

/-- The same for a required text, whose error names the class as well. -/
theorem readString_congr {e' : Instance} (hclass : e.className = e'.className)
    (h : e.get? n = e'.get? n) : e.readString n = e'.readString n := by
  unfold readString
  rw [readString?_congr hclass h, hclass]

theorem readStrings_congr {e' : Instance} (hclass : e.className = e'.className)
    (h : e.get? n = e'.get? n) : e.readStrings n = e'.readStrings n := by
  unfold readStrings
  rw [h, hclass]

/-! ## Fields set one after the other -/

section Chains

variable {s? : Option String}

/-- A required text is read from the field that was set last. -/
@[simp] theorem readString_set_self (e : Instance) (n s : String) :
    (e.set n (.str s)).readString n = .ok s :=
  readString_eq (get?_set_self e n _)

@[simp] theorem readString_set_of_ne (h : m ≠ n) : (e.set n v).readString m = e.readString m :=
  readString_congr (className_set ..) (get?_set_of_ne e v h)

@[simp] theorem readString_setStr?_of_ne (h : m ≠ n) :
    (e.setStr? n s?).readString m = e.readString m :=
  readString_congr (className_setStr? ..) (get?_setStr?_of_ne e s? h)

/-- Reading an optional text looks through a field of another name that was set later. -/
@[simp] theorem readString?_set_of_ne (h : m ≠ n) : (e.set n v).readString? m = e.readString? m :=
  readString?_congr (className_set ..) (get?_set_of_ne e v h)

/-- An optional text is read from the field that was set last, if nothing was set there
before. -/
@[simp] theorem readString?_setStr?_self (hfree : e.get? n = none) :
    (e.setStr? n s?).readString? n = .ok s? :=
  readString?_eq (get?_setStr?_self hfree s?)

@[simp] theorem readString?_setStr?_of_ne (h : m ≠ n) :
    (e.setStr? n s?).readString? m = e.readString? m :=
  readString?_congr (className_setStr? ..) (get?_setStr?_of_ne e s? h)

/-- A sequence of texts is read from the field that was set last, the empty one
included. -/
@[simp] theorem readStrings_set_self (e : Instance) (n : String) (l : List String) :
    (e.set n (.strs l)).readStrings n = .ok l :=
  readStrings_eq (get?_set_self e n _)

/-- Reading a sequence of texts looks through a field of another name that was set
later. -/
@[simp] theorem readStrings_set_of_ne (h : m ≠ n) : (e.set n v).readStrings m = e.readStrings m :=
  readStrings_congr (className_set ..) (get?_set_of_ne e v h)

@[simp] theorem readStrings_setStr?_of_ne (h : m ≠ n) :
    (e.setStr? n s?).readStrings m = e.readStrings m :=
  readStrings_congr (className_setStr? ..) (get?_setStr?_of_ne e s? h)

end Chains

/-! ## Nested entities -/

section Nested

variable {α : Type} {read : (c : Instance) → sizeOf c < sizeOf e → Except MappingError α}

/-- Where each nested instance is read back, so is the field. -/
theorem readEntity?_eq (write : α → Instance) {a? : Option α}
    (h : e.get? n = a?.map fun a => .entity (write a))
    (hread : ∀ a ∈ a?, ∀ hlt, read (write a) hlt = .ok a) : e.readEntity? n read = .ok a? := by
  -- of the cases of the reader only the one that fits what is set can be
  unfold readEntity?
  cases a? with
  | none =>
    split
    · rfl
    all_goals
      rename_i hget
      rw [h] at hget
      cases hget
  | some a =>
    split
    · rename_i hget
      rw [h] at hget
      cases hget
    · rename_i c hget
      have hc : c = write a := by
        rw [h] at hget
        cases hget
        rfl
      subst hc
      -- what is set is what was written, and that is read back
      rw [hread a rfl]
      rfl
    all_goals
      rename_i hget
      rw [h] at hget
      cases hget

/-- Reading a list one by one gives the values it was written for. -/
theorem mapM_read_eq {write : α → Instance} {β : Type} {cs : List β} {val : β → Instance}
    {f : β → Except MappingError α} {l : List α} (h : cs.map val = l.map write)
    (hread : ∀ c a, a ∈ l → val c = write a → f c = .ok a) : cs.mapM f = .ok l := by
  induction cs generalizing l with
  | nil =>
    obtain rfl : l = [] := List.map_eq_nil_iff.mp h.symm
    rfl
  | cons c rest ih =>
    cases l with
    | nil => cases h
    | cons a l =>
      -- both lists are walked in step, head against head
      obtain ⟨hc, hrest⟩ := List.cons.inj h
      have htail := ih hrest fun c' a' ha' => hread c' a' (List.mem_cons_of_mem _ ha')
      rw [List.mapM_cons, hread c a (List.mem_cons_self ..) hc, ok_bind, htail]
      rfl

/-- Where each instance of a sequence is read back, so is the sequence. An empty one is
not set, and an unset field is read as one. -/
theorem readEntities_eq (write : α → Instance) {l : List α}
    (h : e.get? n = if (Value.entities (l.map write)).isEmptySequence then none
      else some (.entities (l.map write)))
    (hread : ∀ a ∈ l, ∀ hlt, read (write a) hlt = .ok a) : e.readEntities n read = .ok l := by
  unfold readEntities
  split
  · -- nothing is set, so the list is empty
    rename_i hget
    rw [h] at hget
    cases l with
    | nil => rfl
    | cons a l => cases hget
  · rename_i cs hget
    have hcs : cs = l.map write := by
      rw [h] at hget
      split at hget <;> cases hget
      rfl
    -- the reader walks the attached list, which carries that each instance is a smaller one
    refine mapM_read_eq ((List.attach_map_subtype_val cs).trans hcs) fun c a ha hc => ?_
    obtain ⟨c, hmem⟩ := c
    obtain rfl : c = write a := hc
    exact hread a ha _
  all_goals
    rename_i hget
    rw [h] at hget
    split at hget <;> cases hget

end Nested

end Instance

namespace Model

open Instance

/-! ## Kinds of values -/

section Kinds

/-- A mapping property that selects several properties is read back as it was written.
All its fields are spelled out, so each is looked up. -/
theorem MappingPropertyNary.ofInstance_toInstance (p : MappingPropertyNary) :
    Entity.ofInstance (Entity.toInstance p) = .ok p := by
  simp [Entity.toInstance, Entity.ofInstance, StaticPropertyInfo.toInstance,
    StaticPropertyInfo.ofInstance, expectClass, get?_set_of_ne, get?_setStr?_of_ne]

theorem MappingPropertyUnary.ofInstance_toInstance (p : MappingPropertyUnary) :
    Entity.ofInstance (Entity.toInstance p) = .ok p := by
  simp [Entity.toInstance, Entity.ofInstance, StaticPropertyInfo.toInstance,
    StaticPropertyInfo.ofInstance, expectClass, get?_set_of_ne, get?_setStr?_of_ne]

theorem FreeTextStaticProperty.ofInstance_toInstance (p : FreeTextStaticProperty) :
    Entity.ofInstance (Entity.toInstance p) = .ok p := by
  simp [Entity.toInstance, Entity.ofInstance, StaticPropertyInfo.toInstance,
    StaticPropertyInfo.ofInstance, expectClass, get?_set_of_ne, get?_setStr?_of_ne]

/-- The shared fields are written under the class of the kind. -/
@[simp] theorem StaticPropertyInfo.className_toInstance (c : String) (i : StaticPropertyInfo) :
    (i.toInstance c).className = c := by
  simp [toInstance]

/-- A family reads by the class. -/
theorem StaticProperty.ofInstance_toInstance (p : StaticProperty) :
    Entity.ofInstance (Entity.toInstance p) = .ok p := by
  unfold Entity.ofInstance instEntityStaticProperty
  -- the class of the instance decides which kind is read
  cases p with
  | mappingNary p =>
    have hclass : (Entity.toInstance p).className = "MappingPropertyNary" := by
      simp [Entity.toInstance]
    dsimp only
    rw [hclass]
    exact congrArg (Functor.map mappingNary) p.ofInstance_toInstance
  | mappingUnary p =>
    have hclass : (Entity.toInstance p).className = "MappingPropertyUnary" := by
      simp [Entity.toInstance]
    dsimp only
    rw [hclass]
    exact congrArg (Functor.map mappingUnary) p.ofInstance_toInstance
  | freeText p =>
    have hclass : (Entity.toInstance p).className = "FreeTextStaticProperty" := by
      simp [Entity.toInstance]
    dsimp only
    rw [hclass]
    exact congrArg (Functor.map freeText) p.ofInstance_toInstance

/-- A rule that adds a nested property is read back as it was written. -/
theorem AddNestedRule.ofInstance_toInstance (r : AddNestedRule) :
    Entity.ofInstance (Entity.toInstance r) = .ok r := by
  simp [Entity.toInstance, Entity.ofInstance, expectClass]

theorem RenameRule.ofInstance_toInstance (r : RenameRule) :
    Entity.ofInstance (Entity.toInstance r) = .ok r := by
  simp [Entity.toInstance, Entity.ofInstance, expectClass]

theorem DeleteRule.ofInstance_toInstance (r : DeleteRule) :
    Entity.ofInstance (Entity.toInstance r) = .ok r := by
  simp [Entity.toInstance, Entity.ofInstance, expectClass]

/-- A rule is read back, its class saying which kind it is. -/
theorem TransformationRule.ofInstance_toInstance (r : TransformationRule) :
    Entity.ofInstance (Entity.toInstance r) = .ok r := by
  cases r with
  | addNested r => exact congrArg (Functor.map addNested) r.ofInstance_toInstance
  | rename r => exact congrArg (Functor.map rename) r.ofInstance_toInstance
  | delete r => exact congrArg (Functor.map delete) r.ofInstance_toInstance

/-- An event property with a single value is read back as it was written, the shared
fields with its own. -/
theorem EventPropertyPrimitive.ofInstance_toInstance (p : EventPropertyPrimitive) :
    Entity.ofInstance (Entity.toInstance p) = .ok p := by
  simp [Entity.toInstance, Entity.ofInstance, EventPropertyInfo.toInstance,
    EventPropertyInfo.ofInstance, expectClass, get?_set_of_ne, get?_setStr?_of_ne]

/-- The shared fields are read through the field of the kind. -/
theorem EventPropertyInfo.ofInstance_set (i : EventPropertyInfo) (c : String) {n : String}
    (v : Value) (hn : n ∉ ["id", "runtimeName", "label", "description"]) :
    EventPropertyInfo.ofInstance ((i.toInstance c).set n v) = .ok i := by
  simp only [List.mem_cons, List.not_mem_nil, or_false, not_or] at hn
  obtain ⟨hid, hname, hlabel, hdescription⟩ := hn
  simp [EventPropertyInfo.toInstance, EventPropertyInfo.ofInstance, get?_set_of_ne,
    get?_setStr?_of_ne, Ne.symm hid, Ne.symm hname, Ne.symm hlabel, Ne.symm hdescription]

/-- The shared fields of event properties are read back under whichever class they were
written. -/
theorem EventPropertyInfo.ofInstance_toInstance (i : EventPropertyInfo) (c : String) :
    EventPropertyInfo.ofInstance (i.toInstance c) = .ok i := by
  simp [EventPropertyInfo.toInstance, EventPropertyInfo.ofInstance, get?_set_of_ne,
    get?_setStr?_of_ne]

@[simp] theorem EventPropertyInfo.className_toInstance (c : String) (i : EventPropertyInfo) :
    (i.toInstance c).className = c := by
  simp [toInstance]

/-- Besides the shared fields nothing is set yet, so that the field of a kind is free. -/
theorem EventPropertyInfo.get?_toInstance (c : String) (i : EventPropertyInfo) {n : String}
    (hn : n ∉ ["id", "runtimeName", "label", "description"]) : (i.toInstance c).get? n = none := by
  simp only [List.mem_cons, List.not_mem_nil, or_false, not_or] at hn
  obtain ⟨hid, hname, hlabel, hdescription⟩ := hn
  simp [toInstance, get?_set_of_ne, get?_setStr?_of_ne, hid, hname, hlabel, hdescription]

/-- The field of a group is read where its elements are. -/
theorem EventProperty.readEntities_nested {i : EventPropertyInfo} {l : List EventProperty}
    (hl : ∀ p ∈ l, ofInstance p.toInstance = .ok p) :
    (EventProperty.nested i l).toInstance.readEntities "eventProperties" (fun c _ => ofInstance c) =
      .ok l := by
  refine readEntities_eq EventProperty.toInstance ?_ fun p hp _ => hl p hp
  rw [EventProperty.toInstance, get?_set_self, toInstances_eq_map]

/-- The field of a list is read where its element is, if it has one. -/
theorem EventProperty.readEntity?_list {i : EventPropertyInfo} {p? : Option EventProperty}
    (hp : ∀ p ∈ p?, ofInstance p.toInstance = .ok p) :
    (EventProperty.list i p?).toInstance.readEntity? "eventProperty" (fun c _ => ofInstance c) =
      .ok p? := by
  refine readEntity?_eq EventProperty.toInstance ?_ fun p hp' _ => hp p hp'
  cases p? with
  | none => exact i.get?_toInstance _ (by decide)
  | some p =>
    rw [EventProperty.toInstance, get?_set_self]
    rfl

/-- The shared fields of a list are read whether or not an element was set after them. -/
theorem EventProperty.ofInstance_list {i : EventPropertyInfo} (p? : Option EventProperty) :
    EventPropertyInfo.ofInstance (EventProperty.list i p?).toInstance = .ok i := by
  cases p? with
  | none => exact i.ofInstance_toInstance _
  | some p => exact i.ofInstance_set _ _ (by decide)

/-- A tree of event properties is read back, however deep it is nested. -/
theorem EventProperty.ofInstance_toInstance (p : EventProperty) :
    ofInstance p.toInstance = .ok p := by
  -- what is nested in the tree is smaller
  induction hsize : sizeOf p using Nat.strongRecOn generalizing p with
  | ind size ih =>
    subst hsize
    rw [ofInstance]
    cases p with
    | primitive p =>
      -- in each case the class comes first, since the reader branches on it
      have hclass : (EventProperty.primitive p).toInstance.className = "EventPropertyPrimitive" := by
        simp [EventProperty.toInstance, Entity.toInstance]
      rw [hclass]
      exact congrArg (Functor.map primitive) p.ofInstance_toInstance
    | nested i l =>
      have hclass : (EventProperty.nested i l).toInstance.className = "EventPropertyNested" := by
        simp [EventProperty.toInstance]
      have hinfo : EventPropertyInfo.ofInstance (EventProperty.nested i l).toInstance = .ok i :=
        i.ofInstance_set _ _ (by decide)
      have hl : ∀ q ∈ l, ofInstance q.toInstance = .ok q := by
        intro q hq
        have hlt := List.sizeOf_lt_of_mem hq
        refine ih (sizeOf q) ?_ q rfl
        simp only [nested.sizeOf_spec]
        omega
      rw [hclass]
      show (EventPropertyInfo.ofInstance _ >>= fun i => _ >>= fun l => _) = _
      rw [hinfo, ok_bind, readEntities_nested hl]
      rfl
    | list i p? =>
      have hclass : (EventProperty.list i p?).toInstance.className = "EventPropertyList" := by
        cases p? <;> simp [EventProperty.toInstance]
      have hp : ∀ q ∈ p?, ofInstance q.toInstance = .ok q := by
        rintro q rfl
        refine ih (sizeOf q) ?_ q rfl
        simp only [list.sizeOf_spec, Option.some.sizeOf_spec]
        omega
      rw [hclass]
      show (EventPropertyInfo.ofInstance _ >>= fun i => _ >>= fun p? => _) = _
      rw [ofInstance_list, ok_bind, readEntity?_list hp]
      rfl

/-- A group is also read back where its class is expected and no other kind would do. -/
theorem EventPropertyNested.ofInstance_toInstance (p : EventPropertyNested) :
    Entity.ofInstance (Entity.toInstance p) = .ok p := by
  obtain ⟨i, l⟩ := p
  have hclass : (EventProperty.nested i l).toInstance.expectClass "EventPropertyNested" = .ok () := by
    simp [expectClass, EventProperty.toInstance]
  have hinfo : EventPropertyInfo.ofInstance (EventProperty.nested i l).toInstance = .ok i :=
    i.ofInstance_set _ _ (by decide)
  have hl := EventProperty.readEntities_nested (i := i) fun p (_ : p ∈ l) => p.ofInstance_toInstance
  rw [show Entity.toInstance (⟨i, l⟩ : EventPropertyNested) = (EventProperty.nested i l).toInstance
    from rfl]
  show (expectClass _ _ >>= fun _ => EventPropertyInfo.ofInstance _ >>= fun i => _ >>= fun l => _) = _
  rw [hclass, ok_bind, hinfo, ok_bind, hl]
  rfl

/-- A list is also read back where its class is expected and no other kind would do. -/
theorem EventPropertyList.ofInstance_toInstance (p : EventPropertyList) :
    Entity.ofInstance (Entity.toInstance p) = .ok p := by
  obtain ⟨i, p?⟩ := p
  have hclass : (EventProperty.list i p?).toInstance.expectClass "EventPropertyList" = .ok () := by
    cases p? <;> simp [expectClass, EventProperty.toInstance]
  have hp := EventProperty.readEntity?_list (i := i) fun p (_ : p ∈ p?) => p.ofInstance_toInstance
  rw [show Entity.toInstance (⟨i, p?⟩ : EventPropertyList) = (EventProperty.list i p?).toInstance
    from rfl]
  show (expectClass _ _ >>= fun _ => EventPropertyInfo.ofInstance _ >>= fun i => _ >>= fun p? => _) = _
  rw [hclass, ok_bind, EventProperty.ofInstance_list, ok_bind, hp]
  rfl

/-- A schema is read back with all its event properties. -/
theorem EventSchema.ofInstance_toInstance (s : EventSchema) :
    Entity.ofInstance (Entity.toInstance s) = .ok s := by
  have hproperties : (Entity.toInstance s).readEntities "eventProperties"
      (fun c _ => (Entity.ofInstance c : Except MappingError EventProperty)) =
        .ok s.eventProperties :=
    readEntities_eq Entity.toInstance (get?_set_self ..) fun p _ _ => p.ofInstance_toInstance
  have hid : (Entity.toInstance s).readString "id" = .ok s.id := by simp [Entity.toInstance]
  have hclass : (Entity.toInstance s).expectClass "EventSchema" = .ok () := by
    simp [expectClass, Entity.toInstance]
  show (expectClass _ _ >>= fun _ => readString _ _ >>= fun id => _ >>= fun l => _) = _
  rw [hclass, ok_bind, hid, ok_bind, hproperties]
  rfl

/-- A description is read back with its schema, or without one. -/
theorem DataSetDescription.ofInstance_toInstance (d : DataSetDescription) :
    Entity.ofInstance (Entity.toInstance d) = .ok d := by
  have hschema : (Entity.toInstance d).readEntity? "eventSchema"
      (fun c _ => (Entity.ofInstance c : Except MappingError EventSchema)) = .ok d.eventSchema := by
    refine readEntity?_eq Entity.toInstance ?_ fun s _ _ => s.ofInstance_toInstance
    cases hs : d.eventSchema with
    | none => simp [Entity.toInstance, hs, get?_set_of_ne, get?_setStr?_of_ne]
    | some s =>
      simp only [Entity.toInstance, hs]
      exact get?_set_self ..
  -- the texts are set in front of the schema, whether there is one or not
  have htexts : (Entity.toInstance d).readString "id" = .ok d.id ∧
      (Entity.toInstance d).readString? "label" = .ok d.label ∧
      (Entity.toInstance d).readString? "description" = .ok d.description := by
    cases hs : d.eventSchema <;>
      simp [Entity.toInstance, hs, get?_set_of_ne, get?_setStr?_of_ne]
  have hclass : (Entity.toInstance d).expectClass "DataSetDescription" = .ok () := by
    cases hs : d.eventSchema <;> simp [expectClass, Entity.toInstance, hs]
  obtain ⟨hid, hlabel, hdescription⟩ := htexts
  show (expectClass _ _ >>= fun _ => readString _ _ >>= fun id => readString? _ _ >>= fun label =>
    readString? _ _ >>= fun description => _ >>= fun s? => _) = _
  rw [hclass, ok_bind, hid, ok_bind, hlabel, ok_bind, hdescription, ok_bind, hschema]
  rfl

/-- An invocation is read back with its static properties, of whatever kinds. -/
theorem PipelineTemplateInvocation.ofInstance_toInstance (p : PipelineTemplateInvocation) :
    Entity.ofInstance (Entity.toInstance p) = .ok p := by
  have hproperties : (Entity.toInstance p).readEntities "staticProperties"
      (fun c _ => (Entity.ofInstance c : Except MappingError StaticProperty)) =
        .ok p.staticProperties :=
    readEntities_eq Entity.toInstance (get?_set_self ..) fun p _ _ => p.ofInstance_toInstance
  have htexts : (Entity.toInstance p).readString "id" = .ok p.id ∧
      (Entity.toInstance p).readString? "name" = .ok p.name ∧
      (Entity.toInstance p).readString? "dataSetId" = .ok p.dataSetId ∧
      (Entity.toInstance p).readString? "pipelineTemplateId" = .ok p.pipelineTemplateId := by
    simp [Entity.toInstance, get?_set_of_ne, get?_setStr?_of_ne]
  have hclass : (Entity.toInstance p).expectClass "PipelineTemplateInvocation" = .ok () := by
    simp [expectClass, Entity.toInstance]
  obtain ⟨hid, hname, hdataSet, htemplate⟩ := htexts
  show (expectClass _ _ >>= fun _ => readString _ _ >>= fun id => readString? _ _ >>= fun name =>
    readString? _ _ >>= fun dataSet => readString? _ _ >>= fun template => _ >>= fun l => _) = _
  rw [hclass, ok_bind, hid, ok_bind, hname, ok_bind, hdataSet, ok_bind, htemplate, ok_bind,
    hproperties]
  rfl

end Kinds

end Model

end EntityRdf
