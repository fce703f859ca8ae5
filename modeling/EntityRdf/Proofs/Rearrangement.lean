import EntityRdf.Proofs.Presentation
import Mathlib.Data.List.Perm.Basic

/-!
# What the order of a document does not change

Two documents have the same content when their blocks are alike up to order
(`Document.SameContent`). A block is alike to one with its pairs reordered and its
terms spelled in another way, as long as the objects of each predicate keep their
order (`Block.alike_of_reorder`).

By `decode_eq_ok` a decoding is described without a run, and nothing in the
description depends on the order of blocks but the order of the roots. So documents
with the same content decode alike, and to the same instances up to order
(`DecodesTo.exists_perm`).

Main result: `decode_ignores_presentation`.
-/

namespace EntityRdf

/-- The second document has the blocks of the first one in some order, each in an
alike form. -/
def Document.SameContent (ctx : Context) (doc doc' : Document) : Prop :=
  ∃ blocks, doc.blocks.Perm blocks ∧ List.Forall₂ (Block.Alike ctx) blocks doc'.blocks

variable {ctx : Context} {a b : Block} {doc doc' : Document}

/-! ## Alike blocks -/

/-- A block is alike to one of the same subject with its pairs reordered, such that
each predicate keeps the order of its pairs, and then spelled in another way. -/
theorem Block.alike_of_reorder {pairs : List (String × Object)} (hsubject : a.subject = b.subject)
    (horder : ∀ predicate, pairs.filter (ctx.expand ·.1 = predicate) =
      a.pairs.filter (ctx.expand ·.1 = predicate))
    (hspelling : List.Forall₂ (fun p q => expandedPair ctx p = expandedPair ctx q) pairs b.pairs) :
    a.Alike ctx b := by
  have hvalues : ∀ predicate (l : List (String × Object)),
      valuesOf predicate (l.map (expandedPair ctx)) =
        (l.filter (ctx.expand ·.1 = predicate)).map fun p => (expandedPair ctx p).2 := by
    intro predicate l
    rw [valuesOf, List.filter_map, List.map_map]
    simp only [Function.comp_def, expandedPair_fst]
  -- spellings do not show in expanded form, so only the order is left to compare
  have hexpanded : b.expanded ctx = pairs.map (expandedPair ctx) := by
    clear horder
    unfold expanded
    generalize b.pairs = l at hspelling
    induction hspelling with
    | nil => rfl
    | cons hpq _ ih => rw [List.map_cons, List.map_cons, hpq, ih]
  refine ⟨hsubject, fun predicate => ?_⟩
  rw [hexpanded, hvalues, horder, expanded, hvalues]

/-- Only the predicates that occur need to be compared. -/
theorem Block.alike_iff : a.Alike ctx b ↔ a.subject = b.subject ∧
    ∀ p ∈ a.expanded ctx ++ b.expanded ctx,
      valuesOf p.1 (a.expanded ctx) = valuesOf p.1 (b.expanded ctx) := by
  constructor
  · intro h
    exact ⟨h.subject, fun p _ => h.objects p.1⟩
  · rintro ⟨hsubject, hobjects⟩
    refine ⟨hsubject, fun predicate => ?_⟩
    by_cases hp : ∃ p ∈ a.expanded ctx ++ b.expanded ctx, p.1 = predicate
    · obtain ⟨p, hp, rfl⟩ := hp
      exact hobjects p hp
    · -- the predicate has no objects in either block
      have hne : ∀ p ∈ a.expanded ctx ++ b.expanded ctx, p.1 ≠ predicate :=
        fun p hmem heq => hp ⟨p, hmem, heq⟩
      obtain ⟨ha, hb⟩ := List.forall_mem_append.mp hne
      rw [valuesOf_eq_nil ha, valuesOf_eq_nil hb]

instance : DecidableRel (Block.Alike ctx) := fun _ _ => decidable_of_iff _ Block.alike_iff.symm

/-! ## Documents with the same content -/

theorem Document.SameContent.symm (h : doc.SameContent ctx doc') : doc'.SameContent ctx doc := by
  obtain ⟨blocks, hperm, halike⟩ := h
  -- first the other forms, then the order
  obtain ⟨blocks', halike', hperm'⟩ := List.perm_comp_forall₂ hperm halike
  exact ⟨blocks', hperm'.symm, halike'.flip.imp fun _ _ hab => hab.symm⟩

/-- Documents with the same content have the same subjects. -/
theorem Document.SameContent.subjects_perm (h : doc.SameContent ctx doc') :
    doc.subjects.Perm doc'.subjects := by
  obtain ⟨blocks, hperm, halike⟩ := h
  have hsubjects : blocks.map Block.subject = doc'.subjects := (Alike.of_forall₂ halike).2
  rw [← hsubjects]
  exact hperm.map Block.subject

/-- Without repeated subjects it does not matter where a block stands. -/
theorem Document.SameContent.alike (h : doc.SameContent ctx doc') (hnodup : doc.subjects.Nodup) :
    doc.Alike ctx doc' := by
  refine ⟨fun s => h.subjects_perm.mem_iff, fun {s a b} ha hb => ?_⟩
  obtain ⟨blocks, hperm, halike⟩ := h
  have hnodup' : (Document.mk blocks).subjects.Nodup :=
    (hperm.map Block.subject).nodup_iff.mp hnodup
  have hfound : (Document.mk blocks).block? s = some a := by
    obtain ⟨hmem, rfl⟩ := mem_of_block? ha
    exact block?_of_mem hnodup' (hperm.subset hmem)
  exact (Alike.of_forall₂ halike).1.blocks hfound hb

theorem Instance.countAll_perm {l l' : List Instance} (h : l.Perm l') :
    Instance.countAll l = Instance.countAll l' := by
  induction h with
  | nil => rfl
  | cons e _ ih => rw [countAll, countAll, ih]
  | swap e e' rest =>
    simp only [countAll]
    omega
  | trans _ _ ih ih' => exact ih.trans ih'

namespace Registry

variable {R : Registry} {cfg : Config} {es : List Instance}

/-- Documents with the same content have the same roots up to order. -/
theorem rootSubjects_perm (hR : R.Coherent) (hT : R.LeavesTypes)
    (hdoc : doc.SameContent R.context doc') (hnodup : doc.subjects.Nodup) :
    (R.rootSubjects doc).Perm (R.rootSubjects doc') := by
  have hnodup' : doc'.subjects.Nodup := hdoc.subjects_perm.nodup_iff.mp hnodup
  have halike : doc.Alike R.context doc' := hdoc.alike hnodup
  refine (List.perm_ext_iff_of_nodup (hnodup.filter _) (hnodup'.filter _)).mpr fun s => ?_
  show s ∈ R.rootSubjects doc ↔ s ∈ R.rootSubjects doc'
  rw [mem_rootSubjects hnodup, mem_rootSubjects hnodup', halike.subjects]
  refine and_congr_right fun _ => forall_congr' fun t => not_congr ?_
  exact ⟨fun ht => ht.alike hR hT halike, fun ht => ht.alike hR hT halike.symm⟩

/-- A document decodes to the same instances as one with the same content, up to the
order of the roots. -/
theorem DecodesTo.exists_perm (hR : R.Coherent) (hT : R.LeavesTypes)
    (hdoc : doc.SameContent R.context doc') (h : R.DecodesTo cfg doc es) :
    ∃ es', R.DecodesTo cfg doc' es' ∧ es.Perm es' := by
  have halike : doc.Alike R.context doc' := hdoc.alike h.nodup
  have hroots : (R.rootSubjects doc').Perm (R.rootSubjects doc) :=
    (rootSubjects_perm hR hT hdoc h.nodup).symm
  -- the instances go along with their roots
  obtain ⟨es', hdec, hperm⟩ := List.perm_comp_forall₂ hroots h.roots
  refine ⟨es', ⟨hdoc.subjects_perm.nodup_iff.mp h.nodup, fun s hs => ?_, ?_, ?_, ?_⟩, hperm.symm⟩
  · obtain ⟨e, he⟩ := h.all s ((halike.subjects s).mpr hs)
    exact ⟨e, he.alike hR hT halike⟩
  · exact hdec.imp fun s e he => he.alike hR hT halike
  · intro r hr n u hu
    exact h.depth r (hroots.subset hr) n u (hu.alike hR hT halike.symm)
  · rw [Instance.countAll_perm hperm]
    exact h.nodes

/-- Whether a document decodes, and to what, does not depend on how it is presented:
the order of its blocks, the order of pairs with different predicates, and the
spelling of predicates and types. The order of blocks is that of the roots; nothing
else of the presentation shows in the result. -/
theorem decode_ignores_presentation (hR : R.Reachable) (hT : R.LeavesTypes) (cfg : Config)
    (hdoc : doc.SameContent R.context doc') :
    ((∃ es, R.decode cfg doc = .ok es) ↔ ∃ es, R.decode cfg doc' = .ok es) ∧
    ∀ es es', R.decode cfg doc = .ok es → R.decode cfg doc' = .ok es' →
      es.Perm es' ∧ (doc.subjects = doc'.subjects → es = es') := by
  have hcoherent : R.Coherent := hR.coherent
  -- what the second document decodes to is determined by the first one
  have htransfer : ∀ {d d' : Document} {es}, d.SameContent R.context d' →
      R.decode cfg d = .ok es → ∃ es', R.decode cfg d' = .ok es' ∧ es.Perm es' := by
    intro d d' es hsame h
    obtain ⟨es', hes', hperm⟩ :=
      ((decode_eq_ok hcoherent hT).mp h).exists_perm hcoherent hT hsame
    exact ⟨es', (decode_eq_ok hcoherent hT).mpr hes', hperm⟩
  refine ⟨⟨fun ⟨es, h⟩ => ?_, fun ⟨es, h⟩ => ?_⟩, fun es es' h h' => ⟨?_, fun hsubjects => ?_⟩⟩
  · obtain ⟨es', h', -⟩ := htransfer hdoc h
    exact ⟨es', h'⟩
  · obtain ⟨es', h', -⟩ := htransfer hdoc.symm h
    exact ⟨es', h'⟩
  · obtain ⟨es'', h'', hperm⟩ := htransfer hdoc h
    obtain rfl : es'' = es' := Except.ok.inj (h''.symm.trans h')
    exact hperm
  · -- with the blocks in the same order the roots are, too
    have hdec : R.DecodesTo cfg doc es := (decode_eq_ok hcoherent hT).mp h
    have halike : doc.Alike R.context doc' := hdoc.alike hdec.nodup
    have hsame : R.decode cfg doc' = .ok es :=
      (decode_eq_ok hcoherent hT).mpr (hdec.alike hcoherent hT halike hsubjects)
    exact Except.ok.inj (hsame.symm.trans h')

/-- Two assets that share a part. -/
def shelf : Document := ⟨[
  ⟨"urn:p", [("rdf:type", .iri "urn:Part"), ("urn:label", .literal "x")]⟩,
  ⟨"urn:a", [("rdf:type", .iri "urn:Asset"), ("urn:part", .iri "urn:p")]⟩,
  ⟨"urn:b", [("urn:name", .literal "n"), ("rdf:type", .iri "urn:Asset"),
    ("urn:part", .iri "urn:p"), ("urn:name", .literal "m")]⟩]⟩

/-- The same assets from the other end, with their pairs and types rewritten. -/
def turnedShelf : Document := ⟨[
  ⟨"urn:b", [("urn:part", .iri "urn:p"), (Vocabulary.rdfType, .literal "urn:Asset"),
    ("urn:name", .literal "n"), ("urn:name", .literal "m")]⟩,
  ⟨"urn:a", [("urn:part", .iri "urn:p"), ("rdf:type", .literal "urn:Asset")]⟩,
  ⟨"urn:p", [("urn:label", .literal "x"), (Vocabulary.rdfType, .iri "urn:Part")]⟩]⟩

/-- The turned shelf decodes to the assets of the shelf, which change places. -/
theorem decode_ignores_presentation_shelf :
    shelf.SameContent assets.context turnedShelf ∧
    (∃ es, assets.decode .default shelf = .ok es) ∧
    (∃ es, assets.decode .default turnedShelf = .ok es) ∧
    ∀ es es', assets.decode .default shelf = .ok es →
      assets.decode .default turnedShelf = .ok es' → es.Perm es' := by
  have hsame : shelf.SameContent assets.context turnedShelf := by
    refine ⟨shelf.blocks.reverse, (List.reverse_perm _).symm, ?_⟩
    refine .cons ?_ (.cons ?_ (.cons ?_ .nil)) <;> decide +kernel
  have hshelf : ∃ es, assets.decode .default shelf = .ok es :=
    exists_of_isOk (by decide +kernel)
  have hboth := decode_ignores_presentation assets_reachable assets_leavesTypes .default hsame
  exact ⟨hsame, hshelf, hboth.1.mp hshelf, fun es es' h h' => (hboth.2 es es' h h').1⟩

end Registry

end EntityRdf
