import EntityRdf.Proofs.DocumentDecoding
import Mathlib.Data.List.Chain
import Mathlib.Data.List.Perm.Subperm

/-!
# The links between the blocks of a document

The blocks of a document form a graph: a block links to the subjects that its
entity fields refer to (`Registry.Links`). Pairs with types are no links, even
where a field is mapped to the type predicate, so that nothing here depends on
how the registry was built.

A decoder that walks this graph has come to a subject along a chain of links
between different subjects (`Registry.Trail`), and no such chain is longer than
the document (`Trail.length_le`).
-/

namespace EntityRdf.Registry

variable {R : Registry} {doc : Document} {strict : Bool} {d : ClassDescriptor} {s t : String}
  {path : List String}

/-! ## The graph of a document -/

/-- The block of the first subject has a pair, other than a type, that its class
maps to an entity field and whose object is the second subject, which has a block
too. -/
def Links (R : Registry) (doc : Document) (s t : String) : Prop :=
  t ∈ doc.subjects ∧ ∃ b d iri f, doc.block? s = some b ∧ R.blockClass? b = some d ∧
    (iri, Object.iri t) ∈ b.pairs ∧ R.context.expand iri ≠ Vocabulary.rdfType ∧
    d.fieldForPredicate? (R.context.expand iri) = some f ∧ f.range? = some .entity

theorem Links.mem_subjects (h : R.Links doc s t) : s ∈ doc.subjects := by
  obtain ⟨-, b, -, -, -, hb, -⟩ := h
  obtain ⟨hmem, rfl⟩ := Document.mem_of_block? hb
  exact List.mem_map.mpr ⟨b, hmem, rfl⟩

/-- What the decoder keeps of the pairs of a block, by field: types are left out
even where a field would take them. -/
theorem eq_of_fieldObjects {l : List (String × Object)} {pairs : List (FieldDescriptor × Object)}
    (h : R.fieldObjects strict d s l = .ok pairs) :
    pairs = l.filterMap fun p =>
      if R.context.expand p.1 = Vocabulary.rdfType then none
      else (d.fieldForPredicate? (R.context.expand p.1)).map (·, p.2) := by
  induction l generalizing pairs with
  | nil =>
    cases h
    rfl
  | cons p rest ih =>
    obtain ⟨iri, o⟩ := p
    rw [fieldObjects] at h
    split at h
    · rename_i hiri
      -- a type is left out
      rw [ih h, List.filterMap_cons_none (by rw [if_pos hiri])]
    · rename_i hiri
      split at h
      · rename_i f hf
        obtain ⟨l', hl', h⟩ := bind_eq_ok.mp h
        cases h
        rw [ih hl', List.filterMap_cons_some (by rw [if_neg hiri, hf]; rfl)]
      · -- an unmapped predicate is dropped, unless the mode is strict
        rename_i hnone
        split at h
        · cases h
        · rw [ih h, List.filterMap_cons_none (by rw [if_neg hiri, hnone]; rfl)]

/-- The links of a block are what the groups of its entity fields resolve to. -/
theorem links_iff_group {b : Block} {pairs : List (FieldDescriptor × Object)}
    (hb : doc.block? s = some b) (hd : R.blockClass? b = some d)
    (hpairs : R.fieldObjects strict d s b.pairs = .ok pairs) :
    R.Links doc s t ↔
      ∃ g ∈ groupByKey pairs, g.1.range? = some .entity ∧ t ∈ doc.resolved g.2 := by
  -- a pair that was read belongs to a statement of the block with a mapped predicate
  have hmem : ∀ f o, (f, o) ∈ pairs ↔ ∃ iri, (iri, o) ∈ b.pairs ∧
      R.context.expand iri ≠ Vocabulary.rdfType ∧
      d.fieldForPredicate? (R.context.expand iri) = some f := by
    intro f o
    rw [eq_of_fieldObjects hpairs, List.mem_filterMap]
    constructor
    · rintro ⟨⟨iri, o'⟩, hp, hf⟩
      split at hf
      · cases hf
      · rename_i hne
        obtain ⟨f', hf', heq⟩ := Option.map_eq_some_iff.mp hf
        obtain ⟨rfl, rfl⟩ := Prod.mk.inj heq
        exact ⟨iri, hp, hne, hf'⟩
    · rintro ⟨iri, hp, hne, hf⟩
      exact ⟨(iri, o), hp, by rw [if_neg hne, hf]; rfl⟩
  constructor
  · rintro ⟨hsub, b', d', iri, f, hb', hd', hp, hne, hf, hr⟩
    obtain rfl := Option.some.inj (hb.symm.trans hb')
    obtain rfl := Option.some.inj (hd.symm.trans hd')
    have ht : Object.iri t ∈ valuesOf f pairs := mem_valuesOf.mpr ((hmem f _).mpr ⟨iri, hp, hne, hf⟩)
    exact ⟨(f, valuesOf f pairs), mem_groupByKey.mpr ⟨rfl, List.ne_nil_of_mem ht⟩, hr,
      Document.mem_resolved.mpr ⟨ht, hsub⟩⟩
  · rintro ⟨⟨f, os⟩, hg, hr, ht⟩
    obtain ⟨rfl, -⟩ := mem_groupByKey.mp hg
    obtain ⟨hos, hsub⟩ := Document.mem_resolved.mp ht
    obtain ⟨iri, hp, hne, hf⟩ := (hmem f _).mp (mem_valuesOf.mp hos)
    exact ⟨hsub, b, d, iri, f, hb, hd, hp, hne, hf, hr⟩

/-! ## Trails -/

/-- The path leads to the subject: it is a chain of links between different
subjects, the last of which links to it. -/
structure Trail (R : Registry) (doc : Document) (path : List String) (s : String) : Prop where
  distinct : path.Nodup
  subjects : ∀ t ∈ path, t ∈ doc.subjects
  chain : (path ++ [s]).IsChain (R.Links doc)

/-- The empty path leads to any subject at which decoding starts. -/
theorem Trail.nil (R : Registry) (doc : Document) (s : String) : R.Trail doc [] s :=
  ⟨List.nodup_nil, by simp, List.isChain_singleton s⟩

/-- A trail goes on along a link of its subject, unless it has been there. -/
theorem Trail.extend (h : R.Trail doc path s) (hs : s ∉ path) (hst : R.Links doc s t) :
    R.Trail doc (path ++ [s]) t := by
  refine ⟨?_, ?_, ?_⟩
  · rw [List.nodup_append]
    refine ⟨h.distinct, List.nodup_singleton _, ?_⟩
    rintro x hx y hy rfl
    exact hs (List.mem_singleton.mp hy ▸ hx)
  · intro x hx
    rcases List.mem_append.mp hx with hx | hx
    · exact h.subjects x hx
    · exact List.mem_singleton.mp hx ▸ hst.mem_subjects
  · -- the link is from the last subject of the chain
    refine List.isChain_append.mpr ⟨h.chain, List.isChain_singleton _, ?_⟩
    intro x hx y hy
    rw [List.getLast?_append] at hx
    simp at hx hy
    rw [← hx, ← hy]
    exact hst

/-- Where a trail came from. -/
theorem Trail.of_append (h : R.Trail doc (path ++ [s]) t) :
    R.Trail doc path s ∧ R.Links doc s t := by
  obtain ⟨hchain, -, hlast⟩ := List.isChain_append.mp h.chain
  refine ⟨⟨?_, ?_, hchain⟩, hlast s (by simp) t (by simp)⟩
  · exact (List.nodup_append.mp h.distinct).1
  · intro x hx
    exact h.subjects x (List.mem_append_left _ hx)

/-- A trail never comes back to a subject, so it is no longer than the document. -/
theorem Trail.length_le (h : R.Trail doc path s) : path.length ≤ doc.blocks.length := by
  have hle : path.length ≤ doc.subjects.length := (List.subperm_of_subset h.distinct h.subjects).length_le
  rwa [Document.subjects, List.length_map] at hle

end EntityRdf.Registry
