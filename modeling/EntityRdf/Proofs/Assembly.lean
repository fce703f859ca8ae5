import EntityRdf.Proofs.BlockReading
import EntityRdf.Proofs.BuiltInstance
import EntityRdf.Proofs.Occurrences

/-!
# The instance that a block becomes

Given the instances of the subjects that a block refers to (`kids`), the decoder
starts from the blank instance of the class and places the value of one field
after the other. `Registry.Assembled` describes the outcome by its lookups alone,
so that it does not matter in which order the fields came.

Main results: `assembled_foldl_place` (placing all groups of a readable block
gives an assembled instance), `Assembled.unique` (there is only one, and it
depends on the instances of resolved references only) and `Assembled.mem_nested`
(these are what is nested in it).
-/

namespace EntityRdf

variable {doc : Document} {kids kids' : String → Instance} {f : FieldDescriptor} {e : Instance}
  {os : List Object} {n : String}

/-! ## One field -/

/-- The references among objects that have a block, in order. -/
def Document.resolved (doc : Document) (os : List Object) : List String :=
  os.filterMap fun
    | .literal _ => none
    | .iri t => if doc.hasSubject t then some t else none

namespace FieldDescriptor

/-- The value that objects give a field, if any. -/
def assembled (f : FieldDescriptor) (doc : Document) (kids : String → Instance)
    (os : List Object) : Option Value :=
  if f.range? = some .entity then f.entityValue? ((doc.resolved os).map kids)
  else some (f.literalValue os)

/-- What a field holds in the end: nothing without objects, and no empty
sequence. -/
def valueFor (f : FieldDescriptor) (doc : Document) (kids : String → Instance)
    (os : List Object) : Option Value :=
  if os = [] then none else (f.assembled doc kids os).filter (!·.isEmptySequence)

/-- The instances that a group of objects brings in. -/
def arrivals (doc : Document) (kids : String → Instance) (g : FieldDescriptor × List Object) :
    List Instance :=
  if g.1.range? = some .entity then (doc.resolved g.2).map kids else []

/-- Places the value of a group of objects in an instance. -/
def place (doc : Document) (kids : String → Instance) (e : Instance)
    (g : FieldDescriptor × List Object) : Instance :=
  match g.1.assembled doc kids g.2 with
  | some v => e.set g.1.name v
  | none => e

end FieldDescriptor

open FieldDescriptor

namespace Document

/-- The resolved references are those to subjects of the document. -/
theorem mem_resolved {t : String} : t ∈ doc.resolved os ↔ .iri t ∈ os ∧ t ∈ doc.subjects := by
  rw [resolved, List.mem_filterMap, ← hasSubject_iff_mem]
  constructor
  · rintro ⟨o, ho, ht⟩
    cases o with
    | literal text => cases ht
    | iri u =>
      dsimp only at ht
      split at ht
      · rename_i hu
        obtain rfl := Option.some.inj ht
        exact ⟨ho, hu⟩
      · cases ht
  · rintro ⟨ho, ht⟩
    exact ⟨.iri t, ho, by simp [ht]⟩

/-- A leading reference counts if it resolves. -/
theorem resolved_cons_iri (doc : Document) (t : String) (os : List Object) :
    doc.resolved (.iri t :: os) =
      if doc.hasSubject t then t :: doc.resolved os else doc.resolved os := by
  by_cases ht : doc.hasSubject t = true
  · simp [resolved, ht]
  · simp [resolved, ht]

theorem length_resolved_le (doc : Document) (os : List Object) :
    (doc.resolved os).length ≤ os.length := List.length_filterMap_le ..

end Document

theorem FieldDescriptor.nested_literalValue (f : FieldDescriptor) (os : List Object) :
    (f.literalValue os).nested = [] := by
  rw [literalValue]
  cases f.multiplicity <;> rfl

/-- The value of an entity field nests the instances of the resolved references;
the value of another field nests nothing. -/
theorem FieldDescriptor.nested_assembled (hsingle : f.multiplicity = .single → os.length ≤ 1) :
    ((f.assembled doc kids os).map Value.nested).getD [] =
      if f.range? = some .entity then (doc.resolved os).map kids else [] := by
  rw [assembled]
  by_cases hr : f.range? = some .entity
  · rw [if_pos hr, if_pos hr, entityValue?]
    cases hm : f.multiplicity with
    | multi => rfl
    | single =>
      -- at most one object, so the last resolved reference is the only one
      have hle : (doc.resolved os).length ≤ 1 :=
        Nat.le_trans (doc.length_resolved_le os) (hsingle hm)
      match hres : doc.resolved os with
      | [] => rfl
      | [t] => rfl
      | t :: u :: rest =>
        rw [hres] at hle
        simp at hle
  · rw [if_neg hr, if_neg hr]
    exact f.nested_literalValue os

/-- The same holds of what the field holds in the end, where an empty sequence is left
out. -/
theorem FieldDescriptor.nested_valueFor (hsingle : f.multiplicity = .single → os.length ≤ 1) :
    ((f.valueFor doc kids os).map Value.nested).getD [] =
      if f.range? = some .entity then (doc.resolved os).map kids else [] := by
  rw [valueFor]
  split
  · -- the decoder meets no object of the field
    rename_i hnil
    subst hnil
    simp [Document.resolved]
  · rw [← nested_assembled hsingle]
    cases f.assembled doc kids os with
    | none => rfl
    | some v =>
      -- an empty sequence is dropped, which nests nothing anyway
      cases hv : v.isEmptySequence with
      | false => simp [Option.filter, hv]
      | true => simp [Option.filter, hv, Value.nested_eq_nil_of_isEmptySequence hv]

/-- The value of a field depends on the instances of resolved references only. -/
theorem FieldDescriptor.valueFor_congr
    (h : f.range? = some .entity → ∀ t ∈ doc.resolved os, kids t = kids' t) :
    f.valueFor doc kids os = f.valueFor doc kids' os := by
  have hassembled : f.assembled doc kids os = f.assembled doc kids' os := by
    rw [assembled, assembled]
    split
    · rename_i hr
      rw [List.map_congr_left (h hr)]
    · rfl
  rw [valueFor, valueFor, hassembled]

/-! ## Placing fields -/

section Place

variable {groups : List (FieldDescriptor × List Object)}

/-- Placing groups fills their fields. -/
theorem foldl_place_eq (doc : Document) (kids : String → Instance) (e : Instance)
    (groups : List (FieldDescriptor × List Object)) :
    groups.foldl (place doc kids) e =
      e.fill (groups.map fun g => (g.1.name, g.1.assembled doc kids g.2)) := by
  have hplace : place doc kids =
      fun e g => e.setOption g.1.name (g.1.assembled doc kids g.2) := by
    funext e g
    unfold place Instance.setOption
    cases g.1.assembled doc kids g.2 <;> rfl
  rw [hplace, Instance.fill, List.foldl_map]

/-- The instances that a group brings in are those nested in its value. -/
theorem nestedInOption_assembled (hsingle : ∀ g ∈ groups, g.1.multiplicity = .single →
      g.2.length ≤ 1) {g : FieldDescriptor × List Object} (hg : g ∈ groups) :
    Instance.nestedInOption (g.1.assembled doc kids g.2) = arrivals doc kids g :=
  nested_assembled (hsingle g hg)

/-- Placing groups leaves the fields as they are for which there is none. -/
theorem get?_foldl_place_of_ne (hn : ∀ g ∈ groups, n ≠ g.1.name) :
    (groups.foldl (place doc kids) e).get? n = e.get? n := by
  rw [foldl_place_eq]
  refine Instance.get?_fill_of_ne fun p hp => ?_
  obtain ⟨g, hg, rfl⟩ := List.mem_map.mp hp
  exact (hn g hg).symm

/-- A free field holds the value of its group once all are placed, as no other group has
its name. -/
theorem get?_foldl_place_of_mem (hnames : groups.Pairwise fun g h => g.1.name ≠ h.1.name)
    {g : FieldDescriptor × List Object} (hg : g ∈ groups) (hfree : e.get? g.1.name = none) :
    (groups.foldl (place doc kids) e).get? g.1.name =
      (g.1.assembled doc kids g.2).filter (!·.isEmptySequence) := by
  rw [foldl_place_eq]
  exact Instance.get?_fill (List.pairwise_map.mpr hnames) (List.mem_map.mpr ⟨g, hg, rfl⟩) hfree

/-- Placing groups keeps an instance canonical, if the instances of the resolved
references are. -/
theorem canonical_foldl_place (he : e.Canonical)
    (hkids : ∀ g ∈ groups, g.1.range? = some .entity → ∀ t ∈ doc.resolved g.2, (kids t).Canonical)
    (hsingle : ∀ g ∈ groups, g.1.multiplicity = .single → g.2.length ≤ 1) :
    (groups.foldl (place doc kids) e).Canonical := by
  rw [foldl_place_eq]
  refine Instance.canonical_fill he fun c hc => ?_
  rw [List.flatMap_map] at hc
  obtain ⟨g, hg, hc⟩ := List.mem_flatMap.mp hc
  rw [nestedInOption_assembled hsingle hg, arrivals] at hc
  split at hc
  · rename_i hr
    obtain ⟨t, ht, rfl⟩ := List.mem_map.mp hc
    exact hkids g hg hr t ht
  · simp at hc

/-- Placing groups in free fields adds the instances that they bring in. -/
theorem count_foldl_place (hnames : groups.Pairwise fun g h => g.1.name ≠ h.1.name)
    (hfree : ∀ g ∈ groups, e.get? g.1.name = none)
    (hsingle : ∀ g ∈ groups, g.1.multiplicity = .single → g.2.length ≤ 1) :
    (groups.foldl (place doc kids) e).count =
      e.count + Instance.countAll (groups.flatMap (arrivals doc kids)) := by
  have harrivals : (groups.flatMap fun g =>
      Instance.nestedInOption (g.1.assembled doc kids g.2)) = groups.flatMap (arrivals doc kids) :=
    List.flatMap_congr fun g hg => nestedInOption_assembled hsingle hg
  -- seen as a list of names and values, the groups go to free fields
  have hfields : ∀ p ∈ groups.map fun g => (g.1.name, g.1.assembled doc kids g.2),
      e.get? p.1 = none := by
    intro p hp
    obtain ⟨g, hg, rfl⟩ := List.mem_map.mp hp
    exact hfree g hg
  rw [foldl_place_eq, Instance.count_fill (List.pairwise_map.mpr hnames) hfields,
    List.flatMap_map, harrivals]

end Place

/-! ## The blank instance -/

namespace ClassDescriptor

variable {ctx : Context} {d : ClassDescriptor} {s : String}

@[simp] theorem className_blank (d : ClassDescriptor) (s : String) :
    (d.blank s).className = d.name := by
  rw [blank]
  split <;> simp

/-- The blank instance is built by the operations on instances, like any other. -/
theorem built_blank (d : ClassDescriptor) (s : String) : (d.blank s).Built := by
  rw [blank]
  split
  · exact .set _ (.new _) (by simp [Value.nested])
  · exact .new _

theorem canonical_blank (d : ClassDescriptor) (s : String) : (d.blank s).Canonical :=
  (d.built_blank s).canonical

/-- The blank instance nests nothing. -/
theorem count_blank (d : ClassDescriptor) (s : String) : (d.blank s).count = 1 := by
  rw [blank]
  split
  · exact Instance.count_set rfl _
  · rfl

/-- The blank instance holds the subject in the identity field and nothing
else. -/
theorem get?_blank_identity (hd : d.Coherent ctx) (hf : f ∈ d.fields)
    (hid : f.isIdentity = true) : (d.blank s).get? f.name = some (.str s) := by
  rw [blank, hd.identity?_eq hf hid]
  exact Instance.get?_set_self ..

/-- Only the identity field of the blank instance is set. -/
theorem get?_blank_of_ne (hn : ∀ f ∈ d.fields, f.isIdentity = true → f.name ≠ n) :
    (d.blank s).get? n = none := by
  rw [blank]
  cases hid : d.identity? with
  | none => rfl
  | some f =>
    have hf := hn f (List.mem_of_find?_eq_some hid) (List.find?_some hid)
    exact Instance.get?_set_of_ne _ _ hf.symm

/-- The mapped fields of the blank instance are free, so that groups can be placed
there. -/
theorem get?_blank_of_mapped (hd : d.Coherent ctx) {f : FieldDescriptor}
    (hf : f ∈ d.predicateFields) : (d.blank s).get? f.name = none :=
  get?_blank_of_ne fun _ hi hid => name_ne_of_identity hd hi hid hf

/-! ## The groups of a block -/

/-- Each group belongs to a mapped field of the class. -/
theorem group_field {b : Block} (hd : d.Coherent ctx) {g : FieldDescriptor × List Object}
    (hg : g ∈ groupByKey (d.readPairs ctx b)) : g.1 ∈ d.predicateFields := by
  obtain ⟨hos, hne⟩ := mem_groupByKey.mp hg
  obtain ⟨o, ho⟩ := List.exists_mem_of_ne_nil _ hne
  rw [hos] at ho
  obtain ⟨hmem, hexp⟩ := field_of_mem_readPairs (mem_valuesOf.mp ho)
  rw [Ne, hd.expanded_eq_none_iff hmem] at hexp
  exact mem_predicateFields.mpr ⟨hmem, by simpa using hexp⟩

/-- No two groups have one name, so none is placed over another. -/
theorem groups_names (hd : d.Coherent ctx) (b : Block) :
    (groupByKey (d.readPairs ctx b)).Pairwise fun g h => g.1.name ≠ h.1.name := by
  -- the groups have different fields, and fields of a class have different names
  have hkeys : (groupByKey (d.readPairs ctx b)).Pairwise fun g h => g.1 ≠ h.1 :=
    List.pairwise_map.mp (groupByKey_keys_nodup (d.readPairs ctx b))
  refine hkeys.imp_of_mem fun hg hh hne hname => hne ?_
  exact hd.eq_of_name_eq (mem_predicateFields.mp (group_field hd hg)).1
    (mem_predicateFields.mp (group_field hd hh)).1 hname

end ClassDescriptor

/-! ## Assembled instances -/

namespace Registry

open ClassDescriptor

variable {R : Registry} {strict : Bool} {d : ClassDescriptor} {b : Block}

/-- The instance holds what the block says: its subject in the identity field,
the value of each mapped field, and nothing else. -/
structure Assembled (R : Registry) (doc : Document) (d : ClassDescriptor) (b : Block)
    (kids : String → Instance) (e : Instance) : Prop where
  /-- Fields stand in order, here and below. -/
  canonical : e.Canonical
  /-- The class is that of the block. -/
  className : e.className = d.name
  /-- The identity field holds the subject. -/
  identity : ∀ f ∈ d.fields, f.isIdentity = true → e.get? f.name = some (.str b.subject)
  /-- Every other field holds the value of its objects. -/
  mapped : ∀ f ∈ d.fields, f.isIdentity = false →
    e.get? f.name = f.valueFor doc kids (d.objectsFor R.context b f)
  /-- What is no field of the class is not set. -/
  unknown : ∀ n, (∀ f ∈ d.fields, f.name ≠ n) → e.get? n = none

/-- Placing all groups of a block in the blank instance assembles it. -/
theorem assembled_foldl_place (hd : d.Coherent R.context) (hread : R.Readable strict doc d b)
    (hkids : ∀ t ∈ d.targets R.context b, t ∈ doc.subjects → (kids t).Canonical) :
    R.Assembled doc d b kids
      ((groupByKey (d.readPairs R.context b)).foldl (place doc kids) (d.blank b.subject)) := by
  -- what is asked of the block, said of its groups
  have hsingle : ∀ g ∈ groupByKey (d.readPairs R.context b),
      g.1.multiplicity = .single → g.2.length ≤ 1 := by
    rintro ⟨f, os⟩ hg hm
    obtain ⟨rfl, -⟩ := mem_groupByKey.mp hg
    exact hread.single f hm
  have hcanonical : ∀ g ∈ groupByKey (d.readPairs R.context b), g.1.range? = some .entity →
      ∀ t ∈ doc.resolved g.2, (kids t).Canonical := by
    rintro ⟨f, os⟩ hg hr t ht
    obtain ⟨rfl, -⟩ := mem_groupByKey.mp hg
    obtain ⟨hos, hsub⟩ := Document.mem_resolved.mp ht
    exact hkids t (mem_targets.mpr ⟨f, hr, hos⟩) hsub
  refine ⟨?_, ?_, ?_, ?_, ?_⟩
  · exact canonical_foldl_place (canonical_blank d _) hcanonical hsingle
  · rw [foldl_place_eq, Instance.className_fill, className_blank]
  · -- no group goes to the identity field, which the blank instance has set
    intro f hf hid
    rw [get?_foldl_place_of_ne, get?_blank_identity hd hf hid]
    exact fun g hg => name_ne_of_identity hd hf hid (group_field hd hg)
  · intro f hf hid
    by_cases hos : d.objectsFor R.context b f = []
    · -- without objects there is no group, and the blank instance does not hold the field
      rw [valueFor, if_pos hos, get?_foldl_place_of_ne]
      · exact get?_blank_of_mapped hd (mem_predicateFields.mpr ⟨hf, hid⟩)
      · rintro ⟨g, os⟩ hg hname
        obtain rfl := hd.eq_of_name_eq hf (mem_predicateFields.mp (group_field hd hg)).1 hname
        obtain ⟨rfl, hne⟩ := mem_groupByKey.mp hg
        exact hne hos
    · have hg : (f, d.objectsFor R.context b f) ∈ groupByKey (d.readPairs R.context b) :=
        mem_groupByKey.mpr ⟨rfl, hos⟩
      rw [valueFor, if_neg hos]
      exact get?_foldl_place_of_mem (groups_names hd b) hg
        (get?_blank_of_mapped hd (group_field hd hg))
  · -- groups and blank instance set fields of the class only
    intro n hn
    rw [get?_foldl_place_of_ne, get?_blank_of_ne]
    · exact fun f hf _ => hn f hf
    · exact fun g hg hname => hn g.1 (mem_predicateFields.mp (group_field hd hg)).1 hname.symm

/-- An assembled instance has one instance more than its groups bring in. -/
theorem count_foldl_blank (hd : d.Coherent R.context) (hread : R.Readable strict doc d b) :
    ((groupByKey (d.readPairs R.context b)).foldl (place doc kids) (d.blank b.subject)).count =
      1 + Instance.countAll
        ((groupByKey (d.readPairs R.context b)).flatMap (arrivals doc kids)) := by
  rw [count_foldl_place (groups_names hd b), count_blank]
  · exact fun g hg => get?_blank_of_mapped hd (group_field hd hg)
  · rintro ⟨f, os⟩ hg hm
    obtain ⟨rfl, -⟩ := mem_groupByKey.mp hg
    exact hread.single f hm

/-- A block assembles to one instance, which depends on the instances of resolved
references only. -/
theorem Assembled.unique {e e' : Instance} (h : R.Assembled doc d b kids e)
    (h' : R.Assembled doc d b kids' e')
    (hkids : ∀ t ∈ d.targets R.context b, t ∈ doc.subjects → kids t = kids' t) : e = e' := by
  -- canonical instances of one class are equal if they agree on every field
  refine h.canonical.ext h'.canonical (h.className.trans h'.className.symm) fun n => ?_
  by_cases hn : ∃ f ∈ d.fields, f.name = n
  · obtain ⟨f, hf, rfl⟩ := hn
    cases hid : f.isIdentity with
    | true => rw [h.identity f hf hid, h'.identity f hf hid]
    | false =>
      rw [h.mapped f hf hid, h'.mapped f hf hid]
      refine valueFor_congr fun hr t ht => ?_
      obtain ⟨hos, hsub⟩ := Document.mem_resolved.mp ht
      exact hkids t (mem_targets.mpr ⟨f, hr, hos⟩) hsub
  · have hnone : ∀ f ∈ d.fields, f.name ≠ n := fun f hf hname => hn ⟨f, hf, hname⟩
    rw [h.unknown n hnone, h'.unknown n hnone]

/-- What is nested in an assembled instance are the instances of its resolved
references. -/
theorem Assembled.mem_nested {e c : Instance} (h : R.Assembled doc d b kids e)
    (hclass : R.classes.get? d.name = some d) (hread : R.Readable strict doc d b) :
    c ∈ R.nested e ↔ ∃ t ∈ d.targets R.context b, t ∈ doc.subjects ∧ kids t = c := by
  -- a field nests something only if it is for entities
  have hfield : ∀ f ∈ d.predicateFields,
      ((e.get? f.name).map Value.nested).getD [] =
        if f.range? = some .entity then (doc.resolved (d.objectsFor R.context b f)).map kids
        else [] := by
    intro f hf
    obtain ⟨hmem, hid⟩ := mem_predicateFields.mp hf
    rw [h.mapped f hmem hid, nested_valueFor (hread.single f)]
  rw [nested_eq (h.className ▸ hclass), nestedIn, List.mem_flatMap]
  constructor
  · rintro ⟨f, hf, hc⟩
    split at hc
    · rename_i hr
      rw [hfield f hf, if_pos hr] at hc
      obtain ⟨t, ht, rfl⟩ := List.mem_map.mp hc
      obtain ⟨hos, hsub⟩ := Document.mem_resolved.mp ht
      exact ⟨t, mem_targets.mpr ⟨f, hr, hos⟩, hsub, rfl⟩
    · simp at hc
  · rintro ⟨t, ht, hsub, rfl⟩
    obtain ⟨f, hr, hos⟩ := mem_targets.mp ht
    obtain ⟨hmem, -⟩ := field_of_mem_readPairs (mem_objectsFor.mp hos)
    have hf : f ∈ d.predicateFields := mem_predicateFields_of_entity hmem hr
    refine ⟨f, hf, ?_⟩
    rw [if_pos hr, hfield f hf, if_pos hr]
    exact List.mem_map.mpr ⟨t, Document.mem_resolved.mpr ⟨hos, hsub⟩, rfl⟩

end Registry

end EntityRdf
