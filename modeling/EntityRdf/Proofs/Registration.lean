import EntityRdf.Registry
import Mathlib.Data.List.Basic

/-!
# What every run of registrations guarantees

A registry is *reachable* when registrations have built it from the empty one,
refused registrations included. `Registry.Coherent` collects what holds of every
reachable registry and what encoding and decoding rely on: a class is recorded
under its own name and owns its tag, and within a class no two fields share a
name or a predicate, so a field is found again under either.

Main results: `register_refused` (a refused registration leaves the registry as it
is), `register_coherent` (one registration keeps coherence, refused or not) and
`Registry.Reachable.coherent` (so every run does).
-/

namespace EntityRdf

/-! ## Fields of one class -/

/-- What registration guarantees about the fields of a class. -/
structure ClassDescriptor.Coherent (ctx : Context) (d : ClassDescriptor) : Prop where
  /-- No two fields share a name. -/
  names : d.fields.Pairwise fun f g => f.name ≠ g.name
  /-- No two fields share a predicate, and at most one has none. -/
  predicates : d.fields.Pairwise fun f g => f.expanded ≠ g.expanded
  /-- The recorded expansion is the expansion of the declared predicate. -/
  expanded : ∀ f ∈ d.fields, f.expanded = f.expandedIn ctx

/-- In a list whose members differ under `key`, a member is the first with its
key. -/
theorem find?_key_of_mem {α κ : Type*} [BEq κ] [LawfulBEq κ] {key : α → κ} {l : List α}
    (h : l.Pairwise fun a b => key a ≠ key b) {a : α} (ha : a ∈ l) :
    l.find? (fun b => key b == key a) = some a := by
  induction l with
  | nil => simp at ha
  | cons b rest ih =>
    obtain ⟨hb, hrest⟩ := List.pairwise_cons.mp h
    rcases List.mem_cons.mp ha with rfl | ha'
    · simp
    · -- the head has another key, so the search goes on
      rw [List.find?_cons_of_neg (by simpa using hb a ha')]
      exact ih hrest ha'

namespace ClassDescriptor.Coherent

variable {ctx : Context} {d : ClassDescriptor} {f : FieldDescriptor}

/-- Names differ, so each field is found by its own. -/
theorem field?_name (h : d.Coherent ctx) (hf : f ∈ d.fields) : d.field? f.name = some f :=
  find?_key_of_mem h.names hf

/-- Predicates differ in expanded form, so each field is found by its own. -/
theorem fieldForPredicate?_expanded (h : d.Coherent ctx) (hf : f ∈ d.fields) {iri : String}
    (hiri : f.expanded = some iri) : d.fieldForPredicate? iri = some f := by
  have := find?_key_of_mem h.predicates hf
  rwa [hiri] at this

/-- The field found for a predicate is one of the class and has the predicate. -/
theorem mem_of_fieldForPredicate? {iri : String} (h : d.fieldForPredicate? iri = some f) :
    f ∈ d.fields ∧ f.expanded = some iri :=
  ⟨List.mem_of_find?_eq_some h, by simpa using List.find?_some h⟩

/-- A field is known from its name. -/
theorem eq_of_name_eq (h : d.Coherent ctx) {g : FieldDescriptor} (hf : f ∈ d.fields)
    (hg : g ∈ d.fields) (hname : f.name = g.name) : f = g := by
  have := h.field?_name hf
  rw [hname, h.field?_name hg] at this
  exact (Option.some.inj this).symm

/-- The identity is the field without a predicate. -/
theorem expanded_eq_none_iff (h : d.Coherent ctx) (hf : f ∈ d.fields) :
    f.expanded = none ↔ f.isIdentity = true := by
  rw [h.expanded f hf, FieldDeclaration.expandedIn, FieldDescriptor.isIdentity]
  cases f.mapping with
  | identity => simp
  | predicate iri range => simp

/-- There is only one identity field. -/
theorem identity?_eq (h : d.Coherent ctx) (hf : f ∈ d.fields) (hid : f.isIdentity = true) :
    d.identity? = some f := by
  cases hg : d.identity? with
  | none =>
    have := List.find?_eq_none.mp hg f hf
    exact absurd hid this
  | some g =>
    -- neither `f` nor the field that was found has a predicate
    have hgmem : g ∈ d.fields := List.mem_of_find?_eq_some hg
    have hgid : g.isIdentity = true := List.find?_some hg
    have hgf := find?_key_of_mem h.predicates hgmem
    rw [(h.expanded_eq_none_iff hgmem).mpr hgid, ← (h.expanded_eq_none_iff hf).mpr hid,
      find?_key_of_mem h.predicates hf] at hgf
    exact hgf.symm

theorem nil (ctx : Context) (name tag : String) :
    ClassDescriptor.Coherent ctx ⟨name, tag, []⟩ :=
  ⟨.nil, .nil, by simp⟩

end ClassDescriptor.Coherent

/-! ## Mapped fields -/

namespace ClassDescriptor

variable {ctx : Context} {d : ClassDescriptor} {f : FieldDescriptor}

/-- The identity is the one field without a predicate. -/
theorem mem_predicateFields : f ∈ d.predicateFields ↔ f ∈ d.fields ∧ f.isIdentity = false := by
  simp [predicateFields]

theorem nodup_predicateFields (hd : d.Coherent ctx) : d.predicateFields.Nodup := by
  have hfields : d.fields.Nodup := hd.names.imp fun hname heq => hname (by rw [heq])
  exact hfields.filter _

/-- The identity and a mapped field have different names. -/
theorem name_ne_of_identity {i : FieldDescriptor} (hd : d.Coherent ctx) (hi : i ∈ d.fields)
    (hid : i.isIdentity = true) (hf : f ∈ d.predicateFields) : i.name ≠ f.name := by
  intro hname
  obtain ⟨hmem, hmapped⟩ := mem_predicateFields.mp hf
  rw [hd.eq_of_name_eq hi hmem hname, hmapped] at hid
  cases hid

/-- A mapped field is found under its predicate as declared. -/
theorem fieldForPredicate?_predicateText (hd : d.Coherent ctx) (hf : f ∈ d.predicateFields) :
    d.fieldForPredicate? (ctx.expand f.predicateText) = some f := by
  obtain ⟨hmem, hid⟩ := mem_predicateFields.mp hf
  have hexp := hd.expanded f hmem
  rw [FieldDeclaration.expandedIn] at hexp
  rw [FieldDescriptor.predicateText, FieldDescriptor.predicate?]
  cases hm : f.mapping with
  | identity => simp [FieldDescriptor.isIdentity, hm] at hid
  | predicate iri range =>
    rw [hm] at hexp
    exact hd.fieldForPredicate?_expanded hmem hexp

/-- Entity fields point at their objects through a predicate. -/
theorem mem_predicateFields_of_entity (hf : f ∈ d.fields) (hr : f.range? = some .entity) :
    f ∈ d.predicateFields := by
  refine mem_predicateFields.mpr ⟨hf, ?_⟩
  rw [FieldDescriptor.range?] at hr
  cases hm : f.mapping with
  | identity => simp [hm] at hr
  | predicate iri range => simp [FieldDescriptor.isIdentity, hm]

end ClassDescriptor

/-! ## Adding a field -/

/-- A field has no rival if it differs in its expanded predicate from all fields of the
class. -/
theorem ClassDescriptor.Coherent.rival?_eq_none_iff {ctx : Context} {d : ClassDescriptor}
    (h : d.Coherent ctx) {expanded : Option String} :
    d.rival? expanded = none ↔ ∀ g ∈ d.fields, g.expanded ≠ expanded := by
  cases expanded with
  | none =>
    -- the identity has no predicate, so another identity is a rival
    refine List.find?_eq_none.trans (forall₂_congr fun g hg => ?_)
    exact not_congr (h.expanded_eq_none_iff hg).symm
  | some iri =>
    refine List.find?_eq_none.trans (forall₂_congr fun g _ => ?_)
    exact not_congr beq_iff_eq

/-- An attempt to add a field leaves the class as it is, or is not refused and leaves
the class with one field more, which shares nothing with the others. -/
theorem addField_cases {ctx : Context} {d d' : ClassDescriptor} {f : FieldDeclaration}
    {refusal? : Option MappingError} (h : d.addField ctx f = (d', refusal?)) :
    d' = d ∨ (refusal? = none ∧ d.field? f.name = none ∧ d.rival? (f.expandedIn ctx) = none ∧
      d' = { d with fields := d.fields ++ [⟨f, f.expandedIn ctx⟩] }) := by
  rw [ClassDescriptor.addField] at h
  split at h
  · -- the name is taken: accepted or refused, nothing is written
    split at h <;> exact Or.inl (Prod.mk.inj h).1.symm
  · rename_i hname
    split at h
    · split at h <;> exact Or.inl (Prod.mk.inj h).1.symm
    · rename_i hrival
      obtain ⟨hd', hrefusal⟩ := Prod.mk.inj h
      exact Or.inr ⟨hrefusal.symm, hname, hrival, hd'.symm⟩

/-- A refused field leaves the class as it is. -/
theorem addField_refused {ctx : Context} {d d' : ClassDescriptor} {f : FieldDeclaration}
    {err : MappingError} (h : d.addField ctx f = (d', some err)) : d' = d := by
  obtain heq | ⟨haccepted, -⟩ := addField_cases h
  · exact heq
  · cases haccepted

/-- A class keeps its name and its tag when a field is added, and its fields stay in
front. -/
theorem addField_extends {ctx : Context} {d d' : ClassDescriptor} {f : FieldDeclaration}
    {refusal? : Option MappingError} (h : d.addField ctx f = (d', refusal?)) :
    d'.name = d.name ∧ d'.tag = d.tag ∧ d.fields <+: d'.fields := by
  obtain rfl | ⟨-, -, -, rfl⟩ := addField_cases h
  · exact ⟨rfl, rfl, List.prefix_refl _⟩
  · exact ⟨rfl, rfl, List.prefix_append ..⟩

/-- The fields of a class stay coherent, whether or not the new one is refused. -/
theorem addField_coherent {ctx : Context} {d d' : ClassDescriptor} {f : FieldDeclaration}
    {refusal? : Option MappingError} (hd : d.Coherent ctx)
    (h : d.addField ctx f = (d', refusal?)) : d'.Coherent ctx := by
  obtain rfl | ⟨-, hname, hrival, rfl⟩ := addField_cases h
  · exact hd
  · refine ⟨?_, ?_, ?_⟩
    · -- no field was found under the new name
      refine List.pairwise_append.mpr ⟨hd.names, List.pairwise_singleton .., ?_⟩
      intro g hg f' hf' heq
      obtain rfl := List.mem_singleton.mp hf'
      have := List.find?_eq_none.mp hname g hg
      exact this (by simpa using heq)
    · -- and none was a rival for the new predicate
      refine List.pairwise_append.mpr ⟨hd.predicates, List.pairwise_singleton .., ?_⟩
      intro g hg f' hf'
      obtain rfl := List.mem_singleton.mp hf'
      exact hd.rival?_eq_none_iff.mp hrival g hg
    · intro g hg
      rcases List.mem_append.mp hg with hg | hg
      · exact hd.expanded g hg
      · obtain rfl := List.mem_singleton.mp hg
        rfl

/-! ## Whole registries -/

namespace Registry

/-- What registration guarantees about a registry. -/
structure Coherent (R : Registry) : Prop where
  /-- A class is recorded under its name. -/
  named : ∀ {c d}, R.classes.get? c = some d → d.name = c
  /-- The fields of a class are coherent. -/
  fields : ∀ {c d}, R.classes.get? c = some d → d.Coherent R.context
  /-- A class owns its tag. -/
  owned : ∀ {c d}, R.classes.get? c = some d →
    R.owners.get? (R.context.expand d.tag) = some c

/-- Registrations have built the registry, from no classes at all and whether or
not some of them were refused. -/
def Reachable (R : Registry) : Prop := ∃ ctx cs, R = (empty ctx).run cs

/-- No field is mapped to the type predicate, under any spelling. -/
def LeavesTypes (R : Registry) : Prop :=
  ∀ d ∈ R.classList, ∀ f ∈ d.fields, ∀ iri ∈ f.predicate?,
    R.context.expand iri ≠ Vocabulary.rdfType

/-- The list of the classes holds what the lookups by name give. -/
theorem mem_classList {R : Registry} {d : ClassDescriptor} :
    d ∈ R.classList ↔ ∃ c, R.classes.get? c = some d := by
  constructor
  · intro h
    obtain ⟨⟨c, d'⟩, hmem, rfl⟩ := List.mem_map.mp h
    exact ⟨c, (StringMap.get?_eq_some_iff _).mpr hmem⟩
  · rintro ⟨c, h⟩
    exact List.mem_map.mpr ⟨(c, d), (StringMap.get?_eq_some_iff _).mp h, rfl⟩

/-- A class is described if it is registered under the name. -/
theorem describe_eq_ok {R : Registry} {c : String} {d : ClassDescriptor} :
    R.describe c = .ok d ↔ R.classes.get? c = some d := by
  rw [describe]
  cases R.classes.get? c with
  | none => simp
  | some d' => simp

theorem empty_coherent (ctx : Context) : (empty ctx).Coherent := by
  constructor <;> intro c d h <;> simp [empty] at h

/-- An attempt to record a tag leaves the registry as it is, or is not refused and
leaves one class more, whose name and tag were free. -/
theorem registerClass_cases {R R' : Registry} {c tag : String} {refusal? : Option MappingError}
    (h : R.registerClass c tag = (R', refusal?)) :
    R' = R ∨ (refusal? = none ∧ R.classes.get? c = none ∧
      R.owners.get? (R.context.expand tag) = none ∧
      R' = { R with
        classes := R.classes.insert c ⟨c, tag, []⟩
        owners := R.owners.insert (R.context.expand tag) c }) := by
  rw [registerClass] at h
  split at h
  · split at h <;> exact Or.inl (Prod.mk.inj h).1.symm
  · rename_i hclass
    split at h
    · exact Or.inl (Prod.mk.inj h).1.symm
    · rename_i hown
      obtain ⟨hR', hrefusal⟩ := Prod.mk.inj h
      exact Or.inr ⟨hrefusal.symm, hclass, hown, hR'.symm⟩

/-- An attempt to record a field is refused for want of the class, or puts whatever the
attempt to add the field leaves of the class in its place. -/
theorem registerField_cases {R R' : Registry} {c : String} {f : FieldDeclaration}
    {refusal? : Option MappingError} (h : R.registerField c f = (R', refusal?)) :
    (R.classes.get? c = none ∧ refusal? = some (.unknownClass c) ∧ R' = R) ∨
    ∃ d d', R.classes.get? c = some d ∧ d.addField R.context f = (d', refusal?) ∧
      R' = { R with classes := R.classes.insert c d' } := by
  rw [registerField] at h
  split at h
  · rename_i hclass
    obtain ⟨hR', hrefusal⟩ := Prod.mk.inj h
    exact Or.inl ⟨hclass, hrefusal.symm, hR'.symm⟩
  · rename_i d hd
    split at h
    rename_i d' refusal?' hadd
    obtain ⟨hR', rfl⟩ := Prod.mk.inj h
    exact Or.inr ⟨d, d', hd, hadd, hR'.symm⟩

/-- On a recorded class the verdict on a field is that of `addField`. -/
theorem registerField_eq {R : Registry} {c : String} {f : FieldDeclaration} {d d' : ClassDescriptor}
    {refusal? : Option MappingError} (hd : R.classes.get? c = some d)
    (hadd : d.addField R.context f = (d', refusal?)) :
    R.registerField c f = ({ R with classes := R.classes.insert c d' }, refusal?) := by
  rw [registerField, hd]
  dsimp only
  rw [hadd]

/-- Putting a recorded class in its own place changes nothing. -/
theorem insert_recorded {R : Registry} {c : String} {d : ClassDescriptor}
    (hd : R.classes.get? c = some d) : { R with classes := R.classes.insert c d } = R := by
  rw [StringMap.insert_of_get? hd]

/-- A refused registration leaves the registry as it is: whatever is refused is refused
before anything is written. -/
theorem register_refused {R R' : Registry} {r : Registration} {err : MappingError}
    (h : R.register r = (R', some err)) : R' = R := by
  cases r with
  | classTag c tag =>
    obtain heq | ⟨haccepted, -⟩ := registerClass_cases h
    · exact heq
    · cases haccepted
  | classField c f =>
    obtain ⟨-, -, heq⟩ | ⟨d, d', hd, hadd, rfl⟩ := registerField_cases h
    · exact heq
    · -- the class is written back, as it was
      obtain rfl := addField_refused hadd
      exact insert_recorded hd

/-- A class that is added has no fields yet, and its tag is new. A refused one is not
added. -/
theorem registerClass_coherent {R R' : Registry} {c tag : String} {refusal? : Option MappingError}
    (hR : R.Coherent) (h : R.registerClass c tag = (R', refusal?)) : R'.Coherent := by
  obtain rfl | ⟨-, hclass, hown, rfl⟩ := registerClass_cases h
  · exact hR
  · refine ⟨fun hd => ?_, fun hd => ?_, fun hd => ?_⟩
    · rcases StringMap.get?_insert_cases hd with ⟨rfl, rfl⟩ | hd
      · rfl
      · exact hR.named hd
    · rcases StringMap.get?_insert_cases hd with ⟨rfl, rfl⟩ | hd
      · exact .nil ..
      · exact hR.fields hd
    · rcases StringMap.get?_insert_cases hd with ⟨rfl, rfl⟩ | hd
      · exact StringMap.get?_insert_self ..
      · -- an owned tag is not the free one
        have hold := hR.owned hd
        have hne : R.context.expand _ ≠ R.context.expand tag := fun heq => by
          rw [heq, hown] at hold
          cases hold
        exact (StringMap.get?_insert_of_ne _ hne _).trans hold

/-- A field is added only where it clashes with none, so no outcome breaks coherence. -/
theorem registerField_coherent {R R' : Registry} {c : String} {f : FieldDeclaration}
    {refusal? : Option MappingError} (hR : R.Coherent)
    (h : R.registerField c f = (R', refusal?)) : R'.Coherent := by
  obtain ⟨-, -, rfl⟩ | ⟨d, d', hd, hadd, rfl⟩ := registerField_cases h
  · exact hR
  -- the class keeps its name and its tag, so that `owned` survives
  obtain ⟨hname, htag, -⟩ := addField_extends hadd
  refine ⟨fun he => ?_, fun he => ?_, fun he => ?_⟩
  · rcases StringMap.get?_insert_cases he with ⟨rfl, rfl⟩ | he
    · exact hname.trans (hR.named hd)
    · exact hR.named he
  · rcases StringMap.get?_insert_cases he with ⟨rfl, rfl⟩ | he
    · exact addField_coherent (hR.fields hd) hadd
    · exact hR.fields he
  · rcases StringMap.get?_insert_cases he with ⟨rfl, rfl⟩ | he
    · rw [htag]
      exact hR.owned hd
    · exact hR.owned he

/-- One registration keeps a registry coherent, refused or not. -/
theorem register_coherent {R R' : Registry} {r : Registration} {refusal? : Option MappingError}
    (hR : R.Coherent) (h : R.register r = (R', refusal?)) : R'.Coherent := by
  cases r with
  | classTag c tag => exact registerClass_coherent hR h
  | classField c f => exact registerField_coherent hR h

/-- A run goes on from what its first registration leaves. -/
theorem run_cons (R : Registry) (r : Registration) (rs : List Registration) :
    R.run (r :: rs) = (R.register r).1.run rs :=
  rfl

/-- What every registration keeps, whether or not refused, every run keeps. -/
theorem run_induction {motive : Registry → Prop} {R : Registry} (base : motive R)
    (step : ∀ {R R' r refusal?}, motive R → R.register r = (R', refusal?) → motive R')
    (rs : List Registration) : motive (R.run rs) := by
  induction rs generalizing R with
  | nil => exact base
  | cons r rest ih =>
    rw [run_cons]
    exact ih (step base rfl)

/-- A run of registrations keeps a registry coherent. -/
theorem run_coherent {R : Registry} (hR : R.Coherent) (rs : List Registration) :
    (R.run rs).Coherent :=
  run_induction hR register_coherent rs

/-- Every reachable registry is coherent. -/
theorem Reachable.coherent {R : Registry} (h : R.Reachable) : R.Coherent := by
  obtain ⟨ctx, rs, rfl⟩ := h
  exact run_coherent (empty_coherent ctx) rs

/-! ## Lookups in a coherent registry -/

/-- Each class is found by its tag. -/
theorem Coherent.classForTag?_tag {R : Registry} (hR : R.Coherent) {c : String}
    {d : ClassDescriptor} (hd : R.classes.get? c = some d) : R.classForTag? d.tag = some d := by
  rw [classForTag?, hR.owned hd]
  exact hd

theorem get?_of_classForTag? {R : Registry} {tag : String} {d : ClassDescriptor}
    (h : R.classForTag? tag = some d) : ∃ c, R.classes.get? c = some d := by
  obtain ⟨c, -, hd⟩ := Option.bind_eq_some_iff.mp h
  exact ⟨c, hd⟩

/-- Where types are left alone, no field of a class owns the type predicate. -/
theorem LeavesTypes.fieldForPredicate?_eq_none {R : Registry} (hT : R.LeavesTypes)
    (hR : R.Coherent) {c : String} {d : ClassDescriptor} (hd : R.classes.get? c = some d) :
    d.fieldForPredicate? Vocabulary.rdfType = none := by
  cases hf : d.fieldForPredicate? Vocabulary.rdfType with
  | none => rfl
  | some f =>
    -- such a field would be mapped to the type predicate
    exfalso
    obtain ⟨hmem, hexp⟩ := ClassDescriptor.Coherent.mem_of_fieldForPredicate? hf
    rw [(hR.fields hd).expanded f hmem, FieldDeclaration.expandedIn] at hexp
    cases hm : f.mapping with
    | identity => simp [hm] at hexp
    | predicate iri range =>
      refine hT d (mem_classList.mpr ⟨c, hd⟩) f hmem iri ?_ (by simpa [hm] using hexp)
      simp [FieldDescriptor.predicate?, hm]

/-! ## A small registry -/

/-- Assets with names and parts, and parts with labels. -/
def assets : Registry := (empty .streamPipes).run <|
  (ClassDeclaration.mk "Asset" "urn:Asset"
    [.identity "id", .literals "names" "urn:name", .entities "parts" "urn:part"]).registrations ++
  (ClassDeclaration.mk "Part" "urn:Part"
    [.identity "id", .literal "label" "urn:label"]).registrations

theorem assets_reachable : assets.Reachable := ⟨.streamPipes, _, rfl⟩

theorem assets_leavesTypes : assets.LeavesTypes := by
  unfold LeavesTypes
  decide +kernel

end Registry

end EntityRdf
