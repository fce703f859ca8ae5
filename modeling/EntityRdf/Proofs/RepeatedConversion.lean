import EntityRdf.Conversion
import EntityRdf.Proofs.JsonLdRoundTrip
import EntityRdf.Proofs.NormalForm
import EntityRdf.Proofs.Presentation

/-!
# Converting to JSON-LD twice

A conversion reads a value, decodes it, encodes the entities and writes them. The
document that is written holds only registered predicates and tags, so it comes
back from JSON-LD (`Encodes.carries`) as an alike document, and alike documents
decode to the same entities (`DecodesTo.exists_read`). The entities are a normal
form already, so the second conversion writes what the first one wrote.

Main result: `convertValue_again`.
-/

namespace EntityRdf

open JsonLd

variable {ctx : Context} {a b : Block} {doc : Document}

/-- A pair in expanded form is already expanded. -/
theorem expandedPair_expandedPair (hctx : ctx.Regular) (p : String × Object) :
    expandedPair ctx (expandedPair ctx p) = expandedPair ctx p := by
  by_cases htype : ctx.expand p.1 = Vocabulary.rdfType
  · rw [expandedPair_of_type htype, expandedPair_of_type (p := (Vocabulary.rdfType, _))
      ctx.expand_rdfType]
    show (Vocabulary.rdfType, Object.iri (ctx.expand (ctx.expand p.2.text))) = _
    rw [Context.expand_expand hctx]
  · rw [expandedPair_of_ne htype]
    have hagain : ctx.expand (ctx.expand p.1) ≠ Vocabulary.rdfType := by
      rw [Context.expand_expand hctx]
      exact htype
    rw [expandedPair_of_ne (p := (ctx.expand p.1, p.2)) hagain]
    show (ctx.expand (ctx.expand p.1), p.2) = _
    rw [Context.expand_expand hctx]

/-- A block that restates another has nothing left to write out. -/
theorem Block.Restates.alike (hctx : ctx.Regular) (h : a.Restates ctx b) : a.Alike ctx b := by
  have hself : a.expanded ctx = a.pairs := by
    have hfixed : ∀ p ∈ a.pairs, expandedPair ctx p = p := by
      intro p hp
      have hmem : p ∈ b.expanded ctx := (perm_of_valuesOf h.objects).subset hp
      obtain ⟨q, -, rfl⟩ := List.mem_map.mp hmem
      exact expandedPair_expandedPair hctx q
    exact (List.map_congr_left hfixed).trans (List.map_id _)
  exact ⟨h.subject, fun predicate => by rw [hself, h.objects]⟩

namespace Registry

variable {R : Registry} {cfg : Config} {d : ClassDescriptor} {s : String} {x : Instance}
  {l es : List Instance}

/-! ## What the encoder writes comes back -/

/-- What it takes for the predicates and tags of a registry to come back from
JSON-LD: they are abbreviated in a way that can be undone, and no predicate is
written as a keyword. -/
structure Portable (R : Registry) : Prop where
  tags : ∀ d ∈ R.classList, R.context.Abbreviable (R.context.expand d.tag)
  predicates : ∀ d ∈ R.classList, ∀ f ∈ d.fields, ∀ iri ∈ f.expanded, R.context.Abbreviable iri
  keys : ∀ d ∈ R.classList, ∀ f ∈ d.fields, ∀ iri ∈ f.expanded,
    isKeyword (R.context.compact iri) = false

section Carried

variable (hR : R.Coherent) (hT : R.LeavesTypes) (hP : R.Portable)
include hR hT hP

/-- The pairs of a layout come back, if references to nested instances do. -/
theorem portable_layout (hclass : R.classes.get? x.className = some d)
    (hfits : ∀ p ∈ d.held x, R.Fits p.1 p.2)
    (hkids : ∀ c ∈ R.nested x, R.context.expand (R.subject c) = R.subject c) :
    ∀ p ∈ (R.layout d s x).pairs, JsonLd.Portable R.context p := by
  have hd : d ∈ R.classList := mem_classList.mpr ⟨_, hclass⟩
  intro p hp
  rcases List.mem_cons.mp hp with rfl | hp
  · -- the type
    have htype := R.context.expand_rdfType
    exact ⟨fun _ => hP.tags d hd, fun h => absurd htype h, fun h => absurd htype h,
      fun h => absurd htype h⟩
  · -- an object of a field
    obtain ⟨⟨f, v⟩, hheld, hp⟩ := List.mem_flatMap.mp hp
    obtain ⟨o, ho, rfl⟩ := List.mem_map.mp hp
    have hfield := ClassDescriptor.fieldForPredicate?_predicateText (hR.fields hclass)
      (ClassDescriptor.mem_held.mp hheld).1
    obtain ⟨hf, hexp⟩ := ClassDescriptor.Coherent.mem_of_fieldForPredicate? hfield
    -- no field has the type predicate
    have hne : R.context.expand f.predicateText ≠ Vocabulary.rdfType := by
      intro heq
      rw [heq, hT.fieldForPredicate?_eq_none hR hclass] at hfield
      cases hfield
    refine ⟨fun h => absurd h hne, fun _ => hP.predicates d hd f hf _ hexp,
      fun _ => hP.keys d hd f hf _ hexp, fun _ t ht => ?_⟩
    obtain rfl : o = .iri t := ht
    rcases (hfits _ hheld).range with ⟨-, hobj⟩ | ⟨hr, hobj, -⟩
    · rw [hobj] at ho
      simp at ho
    · rw [hobj] at ho
      obtain ⟨c, hc, hct⟩ := List.mem_map.mp ho
      have hfixed := hkids c ((mem_nested hclass).mpr ⟨f, v, hheld, hr, hc⟩)
      rwa [Object.iri.inj hct] at hfixed

/-- What the encoder writes is carried by JSON-LD, if the subjects are expanded. -/
theorem carries_of_encodeAll (h : R.encodeAll cfg l = .ok doc)
    (hfixed : ∀ y, R.OccursIn l y → R.context.expand (R.subject y) = R.subject y) :
    Carries R.context doc := by
  have hsource : ∀ b ∈ doc.blocks, ∃ y, R.OccursIn l y ∧ R.blockOf y = .ok b := by
    intro b hb
    obtain ⟨y, hy, hyb, -⟩ := encodeAll_source h hb
    exact ⟨y, hy, hyb⟩
  refine ⟨encodeAll_nodup_subjects h, fun s hs => ?_, fun b hb => ?_⟩
  · obtain ⟨b, hb, rfl⟩ := List.mem_map.mp hs
    obtain ⟨y, hy, hyb⟩ := hsource b hb
    rw [← subject_eq (subjectOf_of_blockOf hyb)]
    exact hfixed y hy
  · obtain ⟨y, hy, hyb⟩ := hsource b hb
    obtain ⟨d, s, hclass, -, hfits, rfl⟩ := blockOf_eq_ok.mp hyb
    exact portable_layout hR hT hP hclass hfits fun c hc => hfixed c (hy.nested hc)

end Carried

/-- A document that comes back from JSON-LD decodes to the same instances. -/
theorem DecodesTo.exists_read (base : Context) (hR : R.Coherent) (hT : R.LeavesTypes) (hctx : R.context.Regular)
    (hdoc : Carries R.context doc)
    (hbase : ∀ name, R.context.namespaceOf? name = none → base.namespaceOf? name = none)
    (h : R.DecodesTo cfg doc es) :
    ∃ doc', read base (write R.context doc) = .ok doc' ∧ R.DecodesTo cfg doc' es := by
  obtain ⟨doc', hread, hblocks⟩ := read_write_of_covers base hctx hdoc hbase
  obtain ⟨halike, hsubjects⟩ :=
    Document.Alike.of_forall₂ (hblocks.imp fun a b hab => hab.alike hctx)
  exact ⟨doc', hread, h.alike hR hT halike.symm hsubjects.symm⟩

/-! ## Conversions -/

/-- A conversion to JSON-LD between values: the entities, and what is written. -/
def convertValue (R : Registry) (cfg : Config) (v : Json) :
    Except ConversionError (List Instance × Json) := do
  let doc ← (read R.context v).mapError .structureError
  let es ← (R.decode cfg doc).mapError .decodingError
  let doc ← (R.encodeAll cfg es).mapError .encodingError
  return (es, write R.context doc)

/-- A conversion of a text is one of the value that the text is parsed as. -/
theorem convert_jsonld (R : Registry) (cfg : Config) (text : String) :
    (R.convert cfg .jsonld text).map (fun c => (c.entities, c.text)) = do
      let v ← (Json.read text).mapError .syntaxError
      let (es, j) ← R.convertValue cfg v
      return (es, j.pretty) := by
  unfold convert convertValue
  cases Json.read text with
  | error e => rfl
  | ok v =>
    -- both sides fail with the first step that fails
    simp only [Except.mapError, ok_bind]
    cases read R.context v with
    | error e => rfl
    | ok doc =>
      simp only [ok_bind]
      cases R.decode cfg doc with
      | error e => rfl
      | ok es =>
        simp only [ok_bind]
        cases R.encodeAll cfg es <;> rfl

/-- A conversion succeeds when its steps do. -/
theorem convertValue_eq_ok {v : Json} {d : Document} {es : List Instance} {doc : Document}
    (hread : read R.context v = .ok d) (hdecode : R.decode cfg d = .ok es)
    (hencode : R.encodeAll cfg es = .ok doc) :
    R.convertValue cfg v = .ok (es, write R.context doc) := by
  unfold convertValue
  rw [hread]
  show (Except.mapError _ (R.decode cfg d) >>= _) = _
  rw [hdecode]
  show (Except.mapError _ (R.encodeAll cfg es) >>= _) = _
  rw [hencode]
  rfl

/-- Converting what a conversion has written changes nothing: it is read, decodes
to the same entities and is written in the same way. -/
theorem convertValue_again {v : Json} {d : Document} (hR : R.Reachable) (hT : R.LeavesTypes)
    (hid : R.HasIdentities) (hctx : R.context.Regular) (hP : R.Portable)
    (hread : read R.context v = .ok d) (hempty : "" ∉ d.subjects)
    (hfixed : ∀ s ∈ d.subjects, R.context.expand s = s) (hdecode : R.decode cfg d = .ok es) :
    ∃ doc, R.encodeAll cfg es = .ok doc ∧
      R.convertValue cfg v = .ok (es, write R.context doc) ∧
      R.convertValue cfg (write R.context doc) = .ok (es, write R.context doc) := by
  have hcoherent : R.Coherent := hR.coherent
  have hdec : R.DecodesTo cfg d es := (decode_eq_ok hcoherent hT).mp hdecode
  obtain ⟨doc, henc⟩ := hdec.encodes hcoherent hid hempty
  have hagain : R.DecodesTo cfg doc es :=
    hdec.decodesTo_again hcoherent hid hempty hT henc rfl rfl
  -- what occurs in the list has a subject of the document that was read
  have hsubject : ∀ y, R.OccursIn es y → R.context.expand (R.subject y) = R.subject y := by
    intro y hy
    obtain ⟨-, hy⟩ := hdec.subject_occurrence hcoherent hid hempty hy
    exact hfixed _ hy.mem_subjects
  have hcarries : Carries R.context doc :=
    carries_of_encodeAll hcoherent hT hP henc.encoded hsubject
  obtain ⟨d', hread', hdec'⟩ :=
    hagain.exists_read R.context hcoherent hT hctx hcarries fun _ h => h
  have hdecode' : R.decode cfg d' = .ok es := (decode_eq_ok hcoherent hT).mpr hdec'
  exact ⟨doc, henc.encoded, convertValue_eq_ok hread hdecode henc.encoded,
    convertValue_eq_ok hread' hdecode' henc.encoded⟩

/-- An asset with a part embedded in it, in the terms of a local context. -/
def delivery : Json := .obj [
  ("@context", .obj [("x", .str "urn:")]),
  ("@graph", .arr [.obj [("@id", .str "x:a"), ("@type", .str "x:Asset"),
    ("urn:part", .arr [.obj [("@id", .str "urn:p"), ("@type", .str "urn:Part"),
      ("x:label", .obj [("@value", .bool true)])], .obj [("@id", .str "urn:p")]])]])]

theorem convertValue_again_delivery :
    ∃ doc, assets.encodeAll .default [asset "urn:a" [part "urn:p" "true", part "urn:p" "true"]] =
        .ok doc ∧
      assets.convertValue .default delivery =
        .ok ([asset "urn:a" [part "urn:p" "true", part "urn:p" "true"]],
          write assets.context doc) ∧
      assets.convertValue .default (write assets.context doc) =
        .ok ([asset "urn:a" [part "urn:p" "true", part "urn:p" "true"]],
          write assets.context doc) := by
  have hid : assets.HasIdentities := by
    unfold HasIdentities
    decide +kernel
  have hctx : assets.context.Regular := by decide +kernel
  have hP : assets.Portable := by
    refine ⟨?_, ?_, ?_⟩ <;> decide +kernel
  have hread : read assets.context delivery = .ok ⟨[
      ⟨"urn:a", [(Vocabulary.rdfType, .iri "urn:Asset"), ("urn:part", .iri "urn:p"),
        ("urn:part", .iri "urn:p")]⟩,
      ⟨"urn:p", [(Vocabulary.rdfType, .iri "urn:Part"), ("urn:label", .literal "true")]⟩]⟩ := by
    decide +kernel
  refine convertValue_again assets_reachable assets_leavesTypes hid hctx hP hread ?_ ?_ ?_ <;>
    decide +kernel

end Registry

end EntityRdf
