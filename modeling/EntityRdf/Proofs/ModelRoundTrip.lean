import EntityRdf.Proofs.ModelResources
import EntityRdf.Proofs.RepeatedConversion

/-!
# Typed values survive encoding

A value of the data model becomes an instance, a document and, in JSON-LD, a node
object for each block. It comes back from each of them if everything in it has an
identity that nothing else has and the limits admit the tree (`Resource.Sound`).
Then no two parts compete for one subject, the value is the
only root, and nothing is dropped, because the values use declared fields only.

Main results: `exists_withModel` (every context gives a registry of the data
model) and `withModel_restores`.
-/

namespace EntityRdf

open Model

/-! ## The registry of the data model -/

/-- Every context gives a registry, with the classes as they are declared. -/
theorem Registry.exists_withModel (ctx : Context) :
    ∃ R, withModel ctx = .ok R ∧ R.context = ctx ∧ R.Reachable ∧ R.LeavesTypes ∧
      ∀ name d, R.classes.get? name = some d ↔
        ∃ c ∈ declarations, c.name = name ∧ c.descriptor ctx = d := by
  have hrun := registerAll_declarations ctx registrable_declarations
  rwa [← registrations_eq] at hrun

/-- The tag and the predicates of a class, as declared. -/
def ClassDeclaration.terms (c : ClassDeclaration) : List String :=
  c.tag :: c.fields.filterMap fun f =>
    match f.mapping with
    | .identity => none
    | .predicate t _ => some t

/-- The predicate of a field is one of the terms of its class. -/
theorem ClassDeclaration.mem_terms {c : ClassDeclaration} {f : FieldDeclaration} {t : String}
    {range : Range} (hf : f ∈ c.fields) (hm : f.mapping = .predicate t range) : t ∈ c.terms := by
  refine List.mem_cons_of_mem _ (List.mem_filterMap.mpr ⟨f, hf, ?_⟩)
  rw [hm]

/-- Of no expanded term of the data model does a namespace leave a rest that looks
like an authority. -/
def Context.AbbreviatesModel (ctx : Context) : Prop :=
  ∀ c ∈ declarations, ∀ t ∈ c.terms, ctx.Abbreviable (ctx.expand t)

/-- A term that no stable context writes as a keyword. -/
def isPlain (t : String) : Bool :=
  !JsonLd.isKeyword t && (splitAtColon t.toList).all fun parts => !parts.2.isEmpty

/-- A plain term is not written as a keyword: it is none itself and no bare prefix. -/
theorem isKeyword_compact_of_isPlain {ctx : Context} {t : String} (h : ctx.Stable)
    (ht : isPlain t = true) : JsonLd.isKeyword (ctx.compact (ctx.expand t)) = false := by
  obtain ⟨hkeyword, hparts⟩ := Bool.and_eq_true_iff.mp ht
  refine Context.isKeyword_compact_expand h (by simpa using hkeyword) fun name hsplit => ?_
  rw [hsplit] at hparts
  cases hparts

/-- All terms of the data model are plain. -/
theorem isPlain_terms : ∀ c ∈ declarations, ∀ t ∈ c.terms, isPlain t = true := by decide +kernel

/-- What a registry of the data model writes survives JSON-LD, where the context
abbreviates its terms as they are read. -/
theorem Registry.portable_of_declarations {R : Registry} (hctx : R.context.Stable)
    (habbr : R.context.AbbreviatesModel)
    (hclasses : ∀ name d, R.classes.get? name = some d →
      ∃ c ∈ declarations, c.name = name ∧ c.descriptor R.context = d) : R.Portable := by
  have hdeclared : ∀ d ∈ R.classList, ∃ c ∈ declarations, c.descriptor R.context = d := by
    intro d hd
    obtain ⟨name, hd⟩ := mem_classList.mp hd
    obtain ⟨c, hc, -, heq⟩ := hclasses name d hd
    exact ⟨c, hc, heq⟩
  -- what a field expands to is the expansion of a term
  have hterm : ∀ d ∈ R.classList, ∀ f ∈ d.fields, ∀ iri ∈ f.expanded,
      ∃ c ∈ declarations, ∃ t ∈ c.terms, R.context.expand t = iri := by
    intro d hd f hf iri hiri
    obtain ⟨c, hc, rfl⟩ := hdeclared d hd
    obtain ⟨g, hg, rfl⟩ := List.mem_map.mp hf
    cases hm : g.mapping with
    | identity => simp [FieldDeclaration.expandedIn, hm] at hiri
    | predicate t range =>
      refine ⟨c, hc, t, ClassDeclaration.mem_terms hg hm, ?_⟩
      simpa [FieldDeclaration.expandedIn, hm] using hiri
  refine ⟨fun d hd => ?_, fun d hd f hf iri hiri => ?_, fun d hd f hf iri hiri => ?_⟩
  · obtain ⟨c, hc, rfl⟩ := hdeclared d hd
    exact habbr c hc c.tag (List.mem_cons_self ..)
  · obtain ⟨c, hc, t, ht, rfl⟩ := hterm d hd f hf iri hiri
    exact habbr c hc t ht
  · obtain ⟨c, hc, t, ht, rfl⟩ := hterm d hd f hf iri hiri
    exact isKeyword_compact_of_isPlain hctx (isPlain_terms c hc t ht)

/-! ### Deciding on characters

Strings that are put together are slow to evaluate. -/

namespace Context

/-- Expansion of the characters of a term. -/
def expandChars (ctx : Context) (t : List Char) : List Char :=
  match splitAtColon t with
  | none => t
  | some (name, rest) =>
    if ['/', '/'].isPrefixOf rest then t
    else match ctx.namespaceOf? (String.ofList name) with
      | some ns => ns.toList ++ rest
      | none => t

/-- Expansion on characters is expansion. -/
theorem toList_expand (ctx : Context) (t : String) :
    (ctx.expand t).toList = ctx.expandChars t.toList := by
  unfold expand expandChars
  cases splitAtColon t.toList with
  | none => rfl
  | some parts =>
    dsimp only
    split
    · rfl
    · cases ctx.namespaceOf? (String.ofList parts.1) with
      | none => rfl
      | some ns => simp

/-- Whether an expanded term can be abbreviated is decided on its characters. -/
theorem abbreviable_expand_iff (ctx : Context) (t : String) :
    ctx.Abbreviable (ctx.expand t) ↔
      ∀ e ∈ ctx.toList, ¬ e.2.toList ++ ['/', '/'] <+: ctx.expandChars t.toList := by
  refine forall₂_congr fun e _ => ?_
  constructor
  · rintro h ⟨later, hlater⟩
    refine h ('/' :: '/' :: later) (localPart?_eq_some.mpr ⟨?_, by simp⟩) ⟨later, rfl⟩
    rw [toList_expand, ← hlater]
    simp
  · rintro h rest hrest ⟨later, rfl⟩
    refine h ⟨later, ?_⟩
    rw [← toList_expand, (localPart?_eq_some.mp hrest).1]
    simp

instance (ctx : Context) : Decidable ctx.AbbreviatesModel :=
  decidable_of_iff (∀ c ∈ declarations, ∀ t ∈ c.terms, ∀ e ∈ ctx.toList,
      ¬ e.2.toList ++ ['/', '/'] <+: ctx.expandChars t.toList)
    (forall₄_congr fun _ _ t _ => (ctx.abbreviable_expand_iff t).symm)

end Context

/-! ## Values that can be encoded -/

namespace Model.Resource

/-- Everything in the value has an identity, which nothing else has, and the
limits admit the value. -/
structure Sound (cfg : Config) (r : Resource) : Prop where
  ids : ∀ p ∈ r.preorder 0, p.2.id ≠ ""
  agree : ∀ p ∈ r.preorder 0, ∀ q ∈ r.preorder 0, p.2.id = q.2.id → p.2 = q.2
  depth : ∀ p ∈ r.preorder 0, p.1 ≤ cfg.maxDepth
  nodes : (r.preorder 0).length ≤ cfg.maxNodes

instance (cfg : Config) (r : Resource) : Decidable (r.Sound cfg) :=
  decidable_of_iff ((∀ p ∈ r.preorder 0, p.2.id ≠ "") ∧
      (∀ p ∈ r.preorder 0, ∀ q ∈ r.preorder 0, p.2.id = q.2.id → p.2 = q.2) ∧
      (∀ p ∈ r.preorder 0, p.1 ≤ cfg.maxDepth) ∧ (r.preorder 0).length ≤ cfg.maxNodes)
    ⟨fun h => ⟨h.1, h.2.1, h.2.2.1, h.2.2.2⟩, fun h => ⟨h.ids, h.agree, h.depth, h.nodes⟩⟩

/-- The limits do not depend on the mode. -/
theorem Sound.congr {cfg cfg' : Config} {r : Resource} (h : r.Sound cfg)
    (hdepth : cfg.maxDepth = cfg'.maxDepth) (hnodes : cfg.maxNodes = cfg'.maxNodes) :
    r.Sound cfg' :=
  ⟨h.ids, h.agree, hdepth ▸ h.depth, hnodes ▸ h.nodes⟩

section Encoded

variable {R : Registry} {cfg : Config} {r : Resource} {doc : Document} (hR : R.Coherent)
  (hM : ∀ c ∈ declarations, R.Declares c)
include hR hM

/-- All that occurs in the instance of a value is the instance of a value in it, at the
same depth. -/
theorem exists_of_mem_occurrences {n : Nat} {y : Instance}
    (h : (n, y) ∈ R.occurrences [r.toInstance]) :
    ∃ q, (n, q) ∈ r.preorder 0 ∧ q.toInstance = y := by
  obtain ⟨e, he, h⟩ := Registry.mem_occurrences.mp h
  obtain rfl := List.mem_singleton.mp he
  rw [preorder_toInstance hR hM] at h
  obtain ⟨⟨m, q⟩, hq, heq⟩ := List.mem_map.mp h
  obtain ⟨rfl, rfl⟩ := Prod.mk.inj heq
  exact ⟨q, hq, rfl⟩

/-- The same without the depth. -/
theorem exists_of_occursIn {y : Instance} (h : R.OccursIn [r.toInstance] y) :
    ∃ p ∈ r.preorder 0, p.2.toInstance = y := by
  obtain ⟨n, h⟩ := h
  obtain ⟨q, hq, rfl⟩ := exists_of_mem_occurrences hR hM h
  exact ⟨_, hq, rfl⟩

/-- A sound value is encoded, and nothing is dropped. -/
theorem Sound.encodes (h : r.Sound cfg) : ∃ doc, R.Encodes cfg [r.toInstance] doc := by
  -- resources with the same identifier are the same, and so are their blocks
  have hagrees : R.Agrees [r.toInstance] := by
    intro x y s hx hy hxs hys
    obtain ⟨p, hp, rfl⟩ := exists_of_occursIn hR hM hx
    obtain ⟨q, hq, rfl⟩ := exists_of_occursIn hR hM hy
    rw [subjectOf_toInstance hR hM (h.ids p hp)] at hxs
    rw [subjectOf_toInstance hR hM (h.ids q hq)] at hys
    have hid : p.2.id = q.2.id := Except.ok.inj (hxs.trans hys.symm)
    rw [h.agree p hp q hq hid]
  -- what occurs in the instance is the instance of a part of the value
  have hblocks : ∀ n e, (n, e) ∈ R.occurrences [r.toInstance] →
      n ≤ cfg.maxDepth ∧ ∃ b, R.blockOf e = .ok b := by
    intro n e he
    obtain ⟨q, hq, rfl⟩ := exists_of_mem_occurrences hR hM he
    refine ⟨h.depth _ hq, exists_blockOf_toInstance hR hM (h.ids _ hq) fun q' hq' => ?_⟩
    exact h.ids _ (mem_preorder_of_mem_parts hq hq')
  obtain ⟨doc, hdoc⟩ := hagrees.encodeAll_eq_ok hblocks
  refine ⟨doc, hdoc, fun e he => ?_, hagrees.transparent⟩
  obtain rfl := List.mem_singleton.mp he
  exact canonical_toInstance r

/-- No part has the identity of the whole. -/
theorem Sound.roots_eq (h : r.Sound cfg) : R.roots [r.toInstance] = [r.toInstance] := by
  have hself := mem_preorder_self 0 r
  have hsubject := subjectOf_toInstance hR hM (h.ids _ hself)
  have hnot : r.id ∉ R.nestedSubjects [r.toInstance] := by
    intro hmem
    obtain ⟨e, c, he, hc, hcs⟩ := Registry.mem_nestedSubjects.mp hmem
    obtain ⟨p, hp, rfl⟩ := exists_of_occursIn hR hM he
    rw [nested_toInstance hR hM] at hc
    obtain ⟨q, hq, rfl⟩ := List.mem_map.mp hc
    have hqmem := mem_preorder_of_mem_parts hp hq
    rw [subjectOf_toInstance hR hM (h.ids _ hqmem)] at hcs
    -- the part would be the whole, which is larger
    have heq : q = r := h.agree _ hqmem _ hself (Except.ok.inj hcs)
    have hlt : sizeOf q < sizeOf p.2 := sizeOf_lt_of_mem_parts hq
    rcases eq_or_lt_of_mem_preorder hp with hp | hp
    · rw [hp, heq] at hlt
      omega
    · rw [heq] at hlt
      omega
  exact Registry.firsts_cons_of_not_mem hsubject hnot

/-- The document of a sound value decodes to the value. -/
theorem Sound.decodesTo (hT : R.LeavesTypes) (h : r.Sound cfg)
    (hdoc : R.Encodes cfg [r.toInstance] doc) : R.DecodesTo cfg doc [r.toInstance] := by
  have hroots : (R.roots [r.toInstance]).map R.prune = [r.toInstance] := by
    rw [h.roots_eq hR hM, List.map_singleton, prune_toInstance hR hM]
  have hdepth : ∀ n y, (n, y) ∈ R.occurrences [r.toInstance] → n ≤ cfg.maxDepth := by
    intro n y hy
    obtain ⟨q, hq, -⟩ := exists_of_mem_occurrences hR hM hy
    exact h.depth _ hq
  have hnodes : Instance.countAll [r.toInstance] ≤ cfg.maxNodes := by
    have hcount := count_toInstance hR hM r 0
    have hlimit := h.nodes
    simp only [Instance.countAll]
    omega
  have hdecodes := hdoc.decodesTo hR hT hdepth (by rw [hroots]; exact hnodes)
  rwa [hroots] at hdecodes

end Encoded

end Model.Resource

/-! ## The round trip -/

namespace Registry

/-- The document decodes to the value and nothing else, strictly or not. -/
def Restores (R : Registry) (cfg : Config) (doc : Document) (k : Kind) (v : k.Carrier) : Prop :=
  ∀ strict, ∃ e, R.decode { cfg with strict := strict } doc = .ok [e] ∧ Entity.ofInstance e = .ok v

/-- A document that decodes to the instance of a value, whatever the mode, gives the
value back. -/
theorem restores_of_decodesTo {R : Registry} {cfg : Config} {doc : Document} {k : Kind}
    {v : k.Carrier} (hR : R.Coherent) (hT : R.LeavesTypes)
    (h : ∀ strict, R.DecodesTo { cfg with strict := strict } doc [Entity.toInstance v]) :
    R.Restores cfg doc k v := by
  intro strict
  exact ⟨_, (decode_eq_ok hR hT).mpr (h strict), k.ofInstance_toInstance v⟩

/-- Typed values survive encoding. In the registry of the data model, in whatever
context, a sound value is encoded, and its document decodes to the value. In a
stable context so does what is written of the document as JSON-LD. -/
theorem withModel_restores (ctx : Context) :
    ∃ R, withModel ctx = .ok R ∧
      ∀ (cfg : Config) (k : Kind) (v : k.Carrier), (k.resource v).Sound cfg →
        ∃ doc, R.encode cfg (Entity.toInstance v) = .ok doc ∧ R.Restores cfg doc k v ∧
          (ctx.Stable → ctx.AbbreviatesModel →
            (∀ p ∈ (k.resource v).preorder 0, ctx.expand p.2.id = p.2.id) →
            ∀ base : Context,
              (∀ name, ctx.namespaceOf? name = none → base.namespaceOf? name = none) →
              ∃ doc', JsonLd.read base (JsonLd.write ctx doc) = .ok doc' ∧
                R.Restores cfg doc' k v) := by
  obtain ⟨R, hrun, rfl, hreachable, hT, hclasses⟩ := exists_withModel ctx
  have hR : R.Coherent := hreachable.coherent
  have hM : ∀ c ∈ declarations, R.Declares c := fun c hc => (hclasses _ _).mpr ⟨c, hc, rfl, rfl⟩
  refine ⟨R, hrun, fun cfg k v hsound => ?_⟩
  obtain ⟨doc, hdoc⟩ := hsound.encodes hR hM
  have hdecodes : ∀ strict, R.DecodesTo { cfg with strict := strict } doc [Entity.toInstance v] := by
    intro strict
    have hmode : (k.resource v).Sound { cfg with strict := strict } := hsound.congr rfl rfl
    rw [← k.toInstance_resource v]
    -- encoding does not look at the mode
    exact hmode.decodesTo hR hM hT ⟨hdoc.encoded, hdoc.canonical, hdoc.transparent⟩
  have hencode : R.encode cfg (Entity.toInstance v) = .ok doc := by
    rw [← k.toInstance_resource v]
    exact hdoc.encoded
  refine ⟨doc, hencode, restores_of_decodesTo hR hT hdecodes, ?_⟩
  intro hctx habbr hids base hbase
  have hP : R.Portable := by
    refine portable_of_declarations hctx habbr fun name d hd => ?_
    exact (hclasses name d).mp hd
  have hfixed : ∀ y, R.OccursIn [(k.resource v).toInstance] y →
      R.context.expand (R.subject y) = R.subject y := by
    intro y hy
    obtain ⟨p, hp, rfl⟩ := Resource.exists_of_occursIn hR hM hy
    rw [subject_eq (Resource.subjectOf_toInstance hR hM (hsound.ids p hp))]
    exact hids p hp
  have hcarries := carries_of_encodeAll hR hT hP hdoc.encoded hfixed
  -- what is read does not depend on the mode in which it is decoded
  obtain ⟨doc', hread, -⟩ := (hdecodes true).exists_read base hR hT hctx.toRegular hcarries hbase
  refine ⟨doc', hread, restores_of_decodesTo hR hT fun strict => ?_⟩
  obtain ⟨doc'', hread', hdecodes'⟩ :=
    (hdecodes strict).exists_read base hR hT hctx.toRegular hcarries hbase
  obtain rfl : doc' = doc'' := Except.ok.inj (hread.symm.trans hread')
  exact hdecodes'

/-- A schema with one property three times: at the top, in a group, and as the
elements of a list. -/
def measurements : EventSchema :=
  let value := EventProperty.primitive
    ⟨⟨"urn:value", some "value", some "Value", none⟩, some "xsd:float", ["so:Number", "urn:Unit"]⟩
  ⟨"urn:schema", [value, .nested ⟨"urn:group", some "group", none, none⟩
    [.list ⟨"urn:list", none, none, some "Readings"⟩ (some value), value]]⟩

/-- A schema with nested properties is restored directly and through JSON-LD. -/
theorem withModel_restores_measurements :
    ∃ R, withModel .streamPipes = .ok R ∧
      ∃ doc, R.encode .default (Entity.toInstance measurements) = .ok doc ∧
        R.Restores .default doc .schema measurements ∧
        ∃ doc', JsonLd.read .empty (JsonLd.write .streamPipes doc) = .ok doc' ∧
          R.Restores .default doc' .schema measurements := by
  obtain ⟨R, hrun, h⟩ := withModel_restores .streamPipes
  have hsound : (Kind.schema.resource measurements).Sound .default := by decide +kernel
  have hctx : Context.streamPipes.Stable := by decide +kernel
  have habbr : Context.streamPipes.AbbreviatesModel := by decide +kernel
  have hids : ∀ p ∈ (Kind.schema.resource measurements).preorder 0,
      Context.streamPipes.expand p.2.id = p.2.id := by decide +kernel
  obtain ⟨doc, hencode, hrestores, hjson⟩ := h .default .schema measurements hsound
  obtain ⟨doc', hread, hrestores'⟩ := hjson hctx habbr hids .empty fun _ _ => rfl
  exact ⟨R, hrun, doc, hencode, hrestores, doc', hread, hrestores'⟩

end Registry

end EntityRdf
