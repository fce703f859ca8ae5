import EntityRdf.Proofs.DocumentDecoding
import EntityRdf.Proofs.Expansion

/-!
# What the presentation of a document does not change

A block says which objects each predicate has, in order. How its terms are
spelled, and how pairs with different predicates are interleaved, is presentation:
`Block.Alike` compares blocks without it, and `Document.Alike` documents.

The decoder asks a block for its class, for the objects of a field and for the
predicates that occur, so it cannot tell alike blocks apart (`Alike.blockClass?_eq`,
`Alike.objectsFor_eq`, `Alike.readable`). Hence alike documents give each subject
the same instance (`Decodes.alike`).

Main result: `DecodesTo.alike`.
-/

namespace EntityRdf

/-- Blocks of one subject with the same objects of each predicate, in order. -/
structure Block.Alike (ctx : Context) (a b : Block) : Prop where
  subject : a.subject = b.subject
  objects : ∀ predicate, valuesOf predicate (a.expanded ctx) = valuesOf predicate (b.expanded ctx)

/-- Documents with the same subjects and alike blocks. -/
structure Document.Alike (ctx : Context) (doc doc' : Document) : Prop where
  subjects : ∀ s, s ∈ doc.subjects ↔ s ∈ doc'.subjects
  blocks : ∀ {s a b}, doc.block? s = some a → doc'.block? s = some b → a.Alike ctx b

variable {ctx : Context} {a b : Block} {doc doc' : Document}

theorem Block.Alike.symm (h : a.Alike ctx b) : b.Alike ctx a :=
  ⟨h.subject.symm, fun predicate => (h.objects predicate).symm⟩

theorem Document.Alike.symm (h : doc.Alike ctx doc') : doc'.Alike ctx doc :=
  ⟨fun s => (h.subjects s).symm, fun ha hb => (h.blocks hb ha).symm⟩

theorem Document.mem_subjects_iff {s : String} : s ∈ doc.subjects ↔ ∃ b, doc.block? s = some b := by
  rw [← Option.ne_none_iff_exists', Ne, block?_eq_none_iff]
  exact Classical.not_not.symm

/-- Documents whose blocks are alike one by one. -/
theorem Document.Alike.of_forall₂ {blocks blocks' : List Block}
    (h : List.Forall₂ (Block.Alike ctx) blocks blocks') :
    (Document.mk blocks).Alike ctx ⟨blocks'⟩ ∧
      (Document.mk blocks).subjects = (Document.mk blocks').subjects := by
  have hsubjects : (Document.mk blocks).subjects = (Document.mk blocks').subjects := by
    show blocks.map Block.subject = blocks'.map Block.subject
    induction h with
    | nil => rfl
    | cons hab _ ih => rw [List.map_cons, List.map_cons, hab.subject, ih]
  refine ⟨⟨fun s => by rw [hsubjects], fun {s a b} ha hb => ?_⟩, hsubjects⟩
  -- partners have the same subject, so the first block of a subject meets its partner
  have hfind : ∀ a b, blocks.find? (·.subject == s) = some a →
      blocks'.find? (·.subject == s) = some b → a.Alike ctx b := by
    clear ha hb hsubjects
    induction h with
    | nil => intro a b ha; cases ha
    | @cons a' b' rest rest' hab _ ih =>
      intro a b ha hb
      by_cases hs : a'.subject = s
      · rw [List.find?_cons_of_pos (by simpa using hs)] at ha
        rw [List.find?_cons_of_pos (by simpa using hab.subject ▸ hs)] at hb
        cases ha
        cases hb
        exact hab
      · rw [List.find?_cons_of_neg (by simpa using hs)] at ha
        rw [List.find?_cons_of_neg (by simpa using hab.subject ▸ hs)] at hb
        exact ih a b ha hb
  exact hfind a b ha hb

/-! ## One block -/

/-- The types of a block, written out, are the objects of the type predicate. -/
theorem Block.map_expand_types (ctx : Context) (b : Block) :
    (b.types ctx).map ctx.expand =
      (valuesOf Vocabulary.rdfType (b.expanded ctx)).map Object.text := by
  unfold types expanded
  induction b.pairs with
  | nil => rfl
  | cons p rest ih =>
    rw [List.map_cons]
    by_cases htype : ctx.expand p.1 = Vocabulary.rdfType
    · rw [List.filter_cons_of_pos (by simpa using htype), expandedPair_of_type htype,
        valuesOf_cons_self, List.map_cons, List.map_cons, List.map_cons, ih]
      rfl
    · have hne : (expandedPair ctx p).1 ≠ Vocabulary.rdfType := by
        rw [expandedPair_fst]
        exact htype
      rw [List.filter_cons_of_neg (by simpa using htype), valuesOf_cons_of_ne hne, ih]

/-- The objects of a field are those of its predicate. -/
theorem ClassDescriptor.objectsFor_of_predicate {d : ClassDescriptor} {f : FieldDescriptor}
    {iri : String} (hf : d.fieldForPredicate? iri = some f)
    (htype : d.fieldForPredicate? Vocabulary.rdfType = none) (b : Block) :
    d.objectsFor ctx b f = valuesOf iri (b.expanded ctx) := by
  unfold objectsFor readPairs Block.expanded
  induction b.pairs with
  | nil => rfl
  | cons p rest ih =>
    rw [List.map_cons]
    by_cases hp : ctx.expand p.1 = iri
    · have hne : ctx.expand p.1 ≠ Vocabulary.rdfType := by
        rintro heq
        rw [← hp, heq, htype] at hf
        cases hf
      rw [List.filterMap_cons_some (b := (f, p.2)) (by simp [hp, hf]), valuesOf_cons_self,
        expandedPair_of_ne hne, hp, valuesOf_cons_self, ih]
    · have hne : (expandedPair ctx p).1 ≠ iri := by
        rw [expandedPair_fst]
        exact hp
      rw [valuesOf_cons_of_ne hne, ← ih]
      -- a field has one predicate, so the pair belongs to another field or to none
      cases hg : d.fieldForPredicate? (ctx.expand p.1) with
      | none => rw [List.filterMap_cons_none (by simp [hg])]
      | some g =>
        have hgf : g ≠ f := by
          rintro rfl
          have hexp := (Coherent.mem_of_fieldForPredicate? hf).2
          rw [(Coherent.mem_of_fieldForPredicate? hg).2] at hexp
          exact hp (Option.some.inj hexp)
        rw [List.filterMap_cons_some (b := (g, p.2)) (by simp [hg]), valuesOf_cons_of_ne hgf]

namespace Block.Alike

open ClassDescriptor

variable {d : ClassDescriptor} (h : a.Alike ctx b)
include h

/-- A predicate of one block occurs in the other, under some spelling. -/
theorem exists_pair {p : String × Object} (hp : p ∈ b.pairs) :
    ∃ q ∈ a.pairs, ctx.expand q.1 = ctx.expand p.1 := by
  have hmem : (expandedPair ctx p).2 ∈ valuesOf (ctx.expand p.1) (b.expanded ctx) := by
    rw [mem_valuesOf, ← expandedPair_fst]
    exact List.mem_map.mpr ⟨p, hp, rfl⟩
  rw [← h.objects, mem_valuesOf] at hmem
  obtain ⟨q, hq, heq⟩ := List.mem_map.mp hmem
  have hfst := congrArg Prod.fst heq
  rw [expandedPair_fst] at hfst
  exact ⟨q, hq, hfst⟩

/-- Blocks that say the same have the same objects for each field, in the same order. -/
theorem objectsFor_eq (htype : d.fieldForPredicate? Vocabulary.rdfType = none)
    (f : FieldDescriptor) : d.objectsFor ctx a f = d.objectsFor ctx b f := by
  by_cases hf : ∃ iri, d.fieldForPredicate? iri = some f
  · obtain ⟨iri, hf⟩ := hf
    rw [objectsFor_of_predicate hf htype, objectsFor_of_predicate hf htype, h.objects]
  · -- no predicate leads to the field
    have hnone : ∀ c : Block, d.objectsFor ctx c f = [] := by
      intro c
      refine List.eq_nil_iff_forall_not_mem.mpr fun o ho => hf ?_
      obtain ⟨iri, -, hiri⟩ := mem_readPairs.mp (mem_objectsFor.mp ho)
      exact ⟨_, hiri⟩
    rw [hnone, hnone]

/-- Blocks that say the same have the same targets, though perhaps in another order. -/
theorem mem_targets_iff (htype : d.fieldForPredicate? Vocabulary.rdfType = none) {t : String} :
    t ∈ d.targets ctx a ↔ t ∈ d.targets ctx b := by
  rw [mem_targets, mem_targets]
  simp only [h.objectsFor_eq htype]

end Block.Alike

/-! ## What a document says about a subject -/

/-- Documents that say the same resolve the same references. -/
theorem Document.Alike.resolved_eq (h : doc.Alike ctx doc') (os : List Object) :
    doc.resolved os = doc'.resolved os := by
  have hsubject : ∀ t, doc.hasSubject t = doc'.hasSubject t := by
    intro t
    rw [Bool.eq_iff_iff, hasSubject_iff_mem, hasSubject_iff_mem, h.subjects]
  unfold resolved
  refine List.filterMap_congr fun o _ => ?_
  cases o with
  | literal s => rfl
  | iri t => simp only [hsubject]

namespace Registry

open ClassDescriptor FieldDescriptor

variable {R : Registry} {cfg : Config} {strict : Bool} {d : ClassDescriptor} {s t : String}
  {e : Instance} {es : List Instance} {kids : String → Instance}

/-- Blocks that say the same are of the same class, as their types are the same in
expanded form. -/
theorem blockClass?_eq_of_alike (h : a.Alike R.context b) : R.blockClass? a = R.blockClass? b := by
  have hexpanded : ∀ c : Block, R.blockClass? c =
      ((c.types R.context).map R.context.expand).findSome? fun tag =>
        (R.owners.get? tag).bind R.classes.get? := by
    intro c
    rw [List.findSome?_map]
    rfl
  rw [hexpanded, hexpanded, Block.map_expand_types, Block.map_expand_types, h.objects]

/-- A block that says the same as a readable one is readable. -/
theorem Readable.alike (htype : d.fieldForPredicate? Vocabulary.rdfType = none)
    (hdoc : doc.Alike R.context doc') (h : a.Alike R.context b)
    (hread : R.Readable strict doc d a) : R.Readable strict doc' d b := by
  refine ⟨fun hs p hp hne => ?_, fun f hm => ?_, fun f hr o ho => ?_⟩
  · obtain ⟨q, hq, heq⟩ := h.exists_pair hp
    rw [← heq] at hne ⊢
    exact hread.mapped hs q hq hne
  · rw [← h.objectsFor_eq htype]
    exact hread.single f hm
  · rw [← h.objectsFor_eq htype] at ho
    obtain ⟨t, rfl, ht⟩ := hread.references f hr o ho
    exact ⟨t, rfl, fun hs => (hdoc.subjects t).mp (ht hs)⟩

/-- An instance assembled from a block is assembled from any that says the same. -/
theorem Assembled.alike (htype : d.fieldForPredicate? Vocabulary.rdfType = none)
    (hdoc : doc.Alike R.context doc') (h : a.Alike R.context b)
    (he : R.Assembled doc d a kids e) : R.Assembled doc' d b kids e := by
  have hvalue : ∀ (f : FieldDescriptor) os, f.valueFor doc kids os = f.valueFor doc' kids os := by
    intro f os
    unfold valueFor assembled
    rw [hdoc.resolved_eq]
  refine ⟨he.canonical, he.className, ?_, ?_, he.unknown⟩
  · rw [← h.subject]
    exact he.identity
  · intro f hf hid
    rw [← h.objectsFor_eq htype, ← hvalue]
    exact he.mapped f hf hid

section Documents

variable (hR : R.Coherent) (hT : R.LeavesTypes) (hdoc : doc.Alike R.context doc')
include hR hT hdoc

/-- Alike documents give a subject the same instance. -/
theorem Decodes.alike (h : R.Decodes strict doc s e) : R.Decodes strict doc' s e := by
  induction h with
  | @intro s a d kids e ha hd hread _ he ih =>
    -- the other document has a block for the subject too, and it says the same
    have hs : s ∈ doc.subjects := Document.mem_subjects_iff.mpr ⟨a, ha⟩
    obtain ⟨b, hb⟩ := Document.mem_subjects_iff.mp ((hdoc.subjects s).mp hs)
    have hab : a.Alike R.context b := hdoc.blocks ha hb
    have htype := hT.fieldForPredicate?_eq_none hR (hR.get?_of_blockClass? hd)
    have hkids : ∀ t ∈ d.targets R.context b, t ∈ doc'.subjects →
        R.Decodes strict doc' t (kids t) := by
      intro t ht hsub
      exact ih t ((hab.mem_targets_iff htype).mpr ht) ((hdoc.subjects t).mpr hsub)
    rw [blockClass?_eq_of_alike hab] at hd
    exact .intro hb hd (hread.alike htype hdoc hab) hkids (he.alike htype hdoc hab)

/-- Documents that say the same have the same references between blocks. -/
theorem Refers.alike (h : R.Refers doc s t) : R.Refers doc' s t := by
  obtain ⟨ht, a, d, ha, hd, htarget⟩ := h
  have hs : s ∈ doc.subjects := Document.mem_subjects_iff.mpr ⟨a, ha⟩
  obtain ⟨b, hb⟩ := Document.mem_subjects_iff.mp ((hdoc.subjects s).mp hs)
  have hab : a.Alike R.context b := hdoc.blocks ha hb
  have htype := hT.fieldForPredicate?_eq_none hR (hR.get?_of_blockClass? hd)
  rw [blockClass?_eq_of_alike hab] at hd
  exact ⟨(hdoc.subjects t).mp ht, b, d, hb, hd, (hab.mem_targets_iff htype).mp htarget⟩

/-- So they have the same chains of references. -/
theorem Reaches.alike {n : Nat} (h : R.Reaches doc n s t) : R.Reaches doc' n s t :=
  h.imp fun hst => hst.alike hR hT hdoc

/-- Alike documents in the same order have the same roots in the same order. -/
theorem rootSubjects_eq_of_alike (hsubjects : doc.subjects = doc'.subjects)
    (hnodup : doc.subjects.Nodup) : R.rootSubjects doc = R.rootSubjects doc' := by
  unfold rootSubjects
  rw [← hsubjects]
  refine List.filter_congr fun s hs => ?_
  have hrefers : (∃ t, R.Refers doc t s) ↔ ∃ t, R.Refers doc' t s := by
    constructor
    · rintro ⟨t, ht⟩
      exact ⟨t, ht.alike hR hT hdoc⟩
    · rintro ⟨t, ht⟩
      exact ⟨t, ht.alike hR hT hdoc.symm⟩
  rw [← mem_targetsOf_iff hnodup hs, ← mem_targetsOf_iff (hsubjects ▸ hnodup) (hsubjects ▸ hs)]
    at hrefers
  simp only [List.contains_eq_mem, hrefers]

/-- Alike documents in the same order decode to the same instances. -/
theorem DecodesTo.alike (hsubjects : doc.subjects = doc'.subjects)
    (h : R.DecodesTo cfg doc es) : R.DecodesTo cfg doc' es := by
  have hroots := rootSubjects_eq_of_alike hR hT hdoc hsubjects h.nodup
  refine ⟨hsubjects ▸ h.nodup, fun s hs => ?_, ?_, fun r hr n u hu => ?_, h.nodes⟩
  · obtain ⟨e, he⟩ := h.all s (hsubjects ▸ hs)
    exact ⟨e, he.alike hR hT hdoc⟩
  · rw [← hroots]
    exact h.roots.imp fun s e he => he.alike hR hT hdoc
  · rw [← hroots] at hr
    exact h.depth r hr n u (hu.alike hR hT hdoc.symm)

end Documents

end Registry

end EntityRdf
