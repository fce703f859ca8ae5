import EntityRdf.Proofs.TopLevel

/-!
# Strict and lenient decoding

Lenient decoding drops the pairs of unmapped predicates and the references of entity
fields that name no block. `Registry.strip` drops them from the document. Types
belong to no field, even where one is mapped to the type predicate, so they stay.

A block without droppable pairs is all that strict decoding asks for
(`Readable.strict`), and dropping them changes neither the class of a block
(`blockClass?_stripBlock`), nor the value of a field (`valueFor_filter_kept`), nor
the references between blocks (`reaches_strip`), and so not the tops either
(`tops_strip`).

Main result: `strict_decode_iff`.
-/

namespace EntityRdf

/-- Whether an object is a literal, or names a block. -/
def Document.resolves (doc : Document) : Object → Bool
  | .literal _ => true
  | .iri t => doc.hasSubject t

/-- Whether a field makes something of an object: an entity field does not of a
reference to no block. -/
def FieldDescriptor.keeps (doc : Document) (f : FieldDescriptor) (o : Object) : Bool :=
  f.range? != some .entity || doc.resolves o

/-- Whether a pair is a type or has a field that makes something of it. -/
def ClassDescriptor.retains (ctx : Context) (doc : Document) (d : ClassDescriptor)
    (p : String × Object) : Bool :=
  if ctx.expand p.1 = Vocabulary.rdfType then true
  else match d.fieldForPredicate? (ctx.expand p.1) with
    | some f => f.keeps doc p.2
    | none => false

/-- A block without its droppable pairs. -/
def Registry.stripBlock (R : Registry) (doc : Document) (b : Block) : Block :=
  match R.blockClass? b with
  | some d => { b with pairs := b.pairs.filter (d.retains R.context doc) }
  | none => b

/-- A document without its droppable pairs. -/
def Registry.strip (R : Registry) (doc : Document) : Document :=
  ⟨doc.blocks.map (R.stripBlock doc)⟩

variable {ctx : Context} {doc doc' : Document} {d : ClassDescriptor} {f : FieldDescriptor}
  {b : Block} {os : List Object} {kids : String → Instance} {p : String × Object} {t : String}

/-! ## One field -/

/-- The values of a key are filtered like the pairs. -/
theorem valuesOf_filter {κ : Type u} {α : Type v} [DecidableEq κ] (k : κ) (l : List (κ × α))
    (keep : κ × α → Bool) : valuesOf k (l.filter keep) = (valuesOf k l).filter (keep ⟨k, ·⟩) := by
  unfold valuesOf
  rw [List.filter_map, List.filter_filter, List.filter_filter]
  congr 1
  refine List.filter_congr fun q _ => ?_
  -- only the pairs of the key count, and for these the tests are the same
  by_cases hq : q.1 = k
  · subst hq
    simp
  · simp [hq]

/-- Objects that do not resolve give no entities. -/
theorem Document.resolved_filter_resolves (doc : Document) (os : List Object) :
    doc.resolved (os.filter doc.resolves) = doc.resolved os := by
  induction os with
  | nil => rfl
  | cons o rest ih =>
    cases o with
    | literal text =>
      rw [List.filter_cons_of_pos rfl]
      exact ih
    | iri t =>
      -- a reference is kept exactly if it resolves, and shows on both sides only then
      rw [resolved_cons_iri]
      by_cases ht : doc.hasSubject t = true
      · have hkeep : doc.resolves (.iri t) = true := ht
        rw [List.filter_cons_of_pos hkeep, resolved_cons_iri, if_pos ht, if_pos ht, ih]
      · have hdrop : ¬ doc.resolves (.iri t) = true := ht
        rw [List.filter_cons_of_neg hdrop, if_neg ht, ih]

/-- An entity field without resolved references holds nothing, whatever its objects. -/
theorem FieldDescriptor.valueFor_of_entity (hr : f.range? = some .entity) :
    f.valueFor doc kids os =
      (f.entityValue? ((doc.resolved os).map kids)).filter (!·.isEmptySequence) := by
  unfold valueFor assembled
  rw [if_pos hr]
  split
  · -- without objects the value is an empty sequence or no value at all
    rename_i hnil
    subst hnil
    unfold entityValue?
    cases f.multiplicity <;> rfl
  · rfl

/-- Dropped references do not show in the value of a field. -/
theorem FieldDescriptor.valueFor_filter_kept :
    f.valueFor doc kids (os.filter (f.keeps doc)) = f.valueFor doc kids os := by
  by_cases hr : f.range? = some .entity
  · have hkeeps : f.keeps doc = doc.resolves := by
      funext o
      simp [keeps, hr]
    rw [hkeeps, valueFor_of_entity hr, valueFor_of_entity hr, Document.resolved_filter_resolves]
  · -- a literal field makes something of every object
    have hkeeps : os.filter (f.keeps doc) = os := by
      refine List.filter_eq_self.mpr fun o _ => ?_
      simp [keeps, hr]
    rw [hkeeps]

/-! ## One class -/

namespace ClassDescriptor

theorem retains_of_type (h : ctx.expand p.1 = Vocabulary.rdfType) : d.retains ctx doc p = true :=
  if_pos h

/-- Any other pair stays if a field reads its predicate and keeps its object. -/
theorem retains_eq_true (h : ctx.expand p.1 ≠ Vocabulary.rdfType) :
    d.retains ctx doc p = true ↔
      ∃ f, d.fieldForPredicate? (ctx.expand p.1) = some f ∧ f.keeps doc p.2 = true := by
  rw [retains, if_neg h]
  cases d.fieldForPredicate? (ctx.expand p.1) with
  | none => simp
  | some f => simp

/-- The types of a block stay. -/
theorem types_filter_retains (ctx : Context) (doc : Document) (d : ClassDescriptor) (b : Block) :
    Block.types { b with pairs := b.pairs.filter (d.retains ctx doc) } ctx = b.types ctx := by
  unfold Block.types
  rw [List.filter_filter]
  congr 1
  refine List.filter_congr fun p _ => ?_
  by_cases hp : ctx.expand p.1 = Vocabulary.rdfType
  · simp [hp, retains_of_type hp]
  · simp [hp]

/-- Of a stripped block the class reads the pairs whose objects its fields keep. -/
theorem readPairs_filter_retains (htype : d.fieldForPredicate? Vocabulary.rdfType = none) :
    d.readPairs ctx { b with pairs := b.pairs.filter (d.retains ctx doc) } =
      (d.readPairs ctx b).filter fun g => g.1.keeps doc g.2 := by
  unfold readPairs
  dsimp only
  induction b.pairs with
  | nil => rfl
  | cons p rest ih =>
    by_cases hp : ctx.expand p.1 = Vocabulary.rdfType
    · -- a type stays, and belongs to no field before or after
      rw [List.filter_cons_of_pos (retains_of_type hp), List.filterMap_cons_none,
        List.filterMap_cons_none, ih]
      · rw [hp, htype]
        rfl
      · rw [hp, htype]
        rfl
    · cases hf : d.fieldForPredicate? (ctx.expand p.1) with
      | none =>
        have hdrop : ¬ d.retains ctx doc p = true := by simp [retains, hp, hf]
        rw [List.filter_cons_of_neg hdrop, List.filterMap_cons_none (by rw [hf]; rfl), ih]
      | some f =>
        have hretains : d.retains ctx doc p = f.keeps doc p.2 := by simp [retains, hp, hf]
        simp only [List.filter_cons, hretains, List.filterMap_cons, hf, Option.map_some]
        by_cases hkeep : f.keeps doc p.2 = true
        · rw [if_pos hkeep, if_pos hkeep, ← ih, List.filterMap_cons, hf]
          rfl
        · rw [if_neg hkeep, if_neg hkeep, ← ih]

/-- What a field is left with are the objects that it makes something of. -/
theorem objectsFor_filter_retains (htype : d.fieldForPredicate? Vocabulary.rdfType = none)
    (f : FieldDescriptor) :
    d.objectsFor ctx { b with pairs := b.pairs.filter (d.retains ctx doc) } f =
      (d.objectsFor ctx b f).filter (f.keeps doc) := by
  unfold objectsFor
  rw [readPairs_filter_retains htype, valuesOf_filter]

/-- References to subjects of the document stay, even in a field that is mapped to
the type predicate. -/
theorem mem_targets_filter_retains (ht : t ∈ doc.subjects) :
    t ∈ d.targets ctx { b with pairs := b.pairs.filter (d.retains ctx doc) } ↔
      t ∈ d.targets ctx b := by
  simp only [mem_targets, mem_objectsFor, mem_readPairs, List.mem_filter]
  constructor
  · rintro ⟨f, hr, iri, ⟨hp, -⟩, hf⟩
    exact ⟨f, hr, iri, hp, hf⟩
  · rintro ⟨f, hr, iri, hp, hf⟩
    refine ⟨f, hr, iri, ⟨hp, ?_⟩, hf⟩
    -- the pair stays, as a type or as a reference that resolves
    by_cases hiri : ctx.expand iri = Vocabulary.rdfType
    · exact retains_of_type hiri
    · refine (retains_eq_true hiri).mpr ⟨f, hf, ?_⟩
      simp [FieldDescriptor.keeps, Document.resolves, Document.hasSubject_iff_mem.mpr ht]

/-- A field for the type predicate has no say in what stays. -/
theorem retains_leaveTypes (ctx : Context) (doc : Document) (d : ClassDescriptor) :
    d.leaveTypes.retains ctx doc = d.retains ctx doc := by
  funext p
  unfold retains
  by_cases hp : ctx.expand p.1 = Vocabulary.rdfType
  · rw [if_pos hp, if_pos hp]
  · rw [if_neg hp, if_neg hp, fieldForPredicate?_leaveTypes hp]

end ClassDescriptor

/-! ## Stripped documents -/

namespace Registry

open ClassDescriptor FieldDescriptor

variable {R : Registry} {cfg : Config} {s u : String} {e : Instance}
  {es : List Instance} {n : Nat}

/-- A block whose class is known loses the pairs that the class does not keep. -/
theorem stripBlock_eq (hd : R.blockClass? b = some d) :
    R.stripBlock doc b = { b with pairs := b.pairs.filter (d.retains R.context doc) } := by
  rw [stripBlock, hd]

@[simp] theorem subject_stripBlock (R : Registry) (doc : Document) (b : Block) :
    (R.stripBlock doc b).subject = b.subject := by
  unfold stripBlock
  split <;> rfl

@[simp] theorem subjects_strip (R : Registry) (doc : Document) :
    (R.strip doc).subjects = doc.subjects := by
  unfold strip Document.subjects
  rw [List.map_map]
  exact List.map_congr_left fun b _ => subject_stripBlock R doc b

theorem block?_strip (R : Registry) (doc : Document) (s : String) :
    (R.strip doc).block? s = (doc.block? s).map (R.stripBlock doc) := by
  unfold strip Document.block?
  have hsubject : ((fun b : Block => b.subject == s) ∘ R.stripBlock doc) = fun b => b.subject == s :=
    funext fun b => by rw [Function.comp_apply, subject_stripBlock]
  rw [List.find?_map, hsubject]

theorem resolved_strip (R : Registry) (doc : Document) (os : List Object) :
    (R.strip doc).resolved os = doc.resolved os := by
  have hsubject : ∀ t, (R.strip doc).hasSubject t = doc.hasSubject t := by
    intro t
    rw [Bool.eq_iff_iff, Document.hasSubject_iff_mem, Document.hasSubject_iff_mem, subjects_strip]
  unfold Document.resolved
  refine List.filterMap_congr fun o _ => ?_
  cases o with
  | literal text => rfl
  | iri t => simp only [hsubject]

/-- A stripped block is of the same class, as it has the same types. -/
theorem blockClass?_stripBlock (R : Registry) (doc : Document) (b : Block) :
    R.blockClass? (R.stripBlock doc b) = R.blockClass? b := by
  cases hd : R.blockClass? b with
  | none => rw [stripBlock, hd, hd]
  | some d =>
    rw [stripBlock_eq hd, blockClass?, types_filter_retains]
    exact hd

/-- Fields that are mapped to the type predicate make no difference to what is
dropped. -/
theorem strip_leaveTypes (R : Registry) (doc : Document) :
    R.leaveTypes.strip doc = R.strip doc := by
  unfold strip
  congr 1
  refine List.map_congr_left fun b _ => ?_
  unfold stripBlock
  rw [blockClass?_leaveTypes]
  cases R.blockClass? b with
  | none => rfl
  | some d =>
    show { b with pairs := b.pairs.filter (d.leaveTypes.retains R.context doc) } = _
    rw [retains_leaveTypes]

/-! ## References -/

/-- A block refers to the same subjects: what is dropped resolves to none of them. -/
theorem mem_targetsOf_stripBlock (ht : t ∈ doc.subjects) :
    t ∈ R.targetsOf (R.stripBlock doc b) ↔ t ∈ R.targetsOf b := by
  unfold targetsOf
  rw [blockClass?_stripBlock]
  cases hd : R.blockClass? b with
  | none => exact Iff.rfl
  | some d =>
    rw [stripBlock_eq hd]
    exact mem_targets_filter_retains ht

/-- The same subjects are roots. -/
theorem rootSubjects_strip (R : Registry) (doc : Document) :
    R.rootSubjects (R.strip doc) = R.rootSubjects doc := by
  unfold rootSubjects
  rw [subjects_strip]
  refine List.filter_congr fun s hs => ?_
  -- what is dropped refers to no subject of the document
  have hmem : s ∈ (R.strip doc).blocks.flatMap R.targetsOf ↔
      s ∈ doc.blocks.flatMap R.targetsOf := by
    simp only [strip, List.flatMap_map, List.mem_flatMap, mem_targetsOf_stripBlock hs]
  simp only [List.contains_eq_mem, hmem]

theorem refers_strip : R.Refers (R.strip doc) s t ↔ R.Refers doc s t := by
  have hblock : ∀ {b d}, t ∈ doc.subjects → R.blockClass? b = some d →
      (t ∈ d.targets R.context (R.stripBlock doc b) ↔ t ∈ d.targets R.context b) := by
    intro b d ht hd
    rw [stripBlock_eq hd]
    exact mem_targets_filter_retains ht
  unfold Refers
  rw [subjects_strip, block?_strip]
  constructor
  · rintro ⟨ht, b, d, hb, hd, htarget⟩
    obtain ⟨b, hb', rfl⟩ := Option.map_eq_some_iff.mp hb
    rw [blockClass?_stripBlock] at hd
    exact ⟨ht, b, d, hb', hd, (hblock ht hd).mp htarget⟩
  · rintro ⟨ht, b, d, hb, hd, htarget⟩
    refine ⟨ht, R.stripBlock doc b, d, by rw [hb]; rfl, ?_, (hblock ht hd).mpr htarget⟩
    rw [blockClass?_stripBlock, hd]

theorem reaches_strip : R.Reaches (R.strip doc) n s u ↔ R.Reaches doc n s u :=
  ⟨.imp refers_strip.mp, .imp refers_strip.mpr⟩

/-- Documents with the same chains have the same leftovers. -/
theorem leftovers_congr (h : ∀ n s u, R.Reaches doc n s u ↔ R.Reaches doc' n s u)
    (covered : String → Prop) (l : List String) :
    R.leftovers doc covered l = R.leftovers doc' covered l := by
  induction l generalizing covered with
  | nil => rfl
  | cons s rest ih =>
    rw [leftovers, leftovers, ih, ih]
    simp only [h]

/-- The same subjects are decoded at the top. -/
theorem tops_strip (R : Registry) (doc : Document) : R.tops (R.strip doc) = R.tops doc := by
  have hreaches : ∀ n s u, R.leaveTypes.Reaches (R.strip doc) n s u ↔
      R.leaveTypes.Reaches doc n s u := by
    intro n s u
    rw [← strip_leaveTypes]
    exact reaches_strip
  unfold tops
  rw [rootSubjects_strip, subjects_strip, leftovers_congr hreaches]
  simp only [hreaches]

/-! ## Instances -/

/-- A block that lenient decoding reads is one that strict decoding reads, once it is
stripped. -/
theorem Readable.strict (htype : d.fieldForPredicate? Vocabulary.rdfType = none)
    (hd : R.blockClass? b = some d) (h : R.Readable false doc d b) :
    R.Readable true (R.strip doc) d (R.stripBlock doc b) := by
  rw [stripBlock_eq hd]
  refine ⟨fun _ p hp hne => ?_, fun f hm => ?_, fun f hr o ho => ?_⟩
  · obtain ⟨f, hf, -⟩ := (retains_eq_true hne).mp (List.mem_filter.mp hp).2
    rw [hf]
    rfl
  · rw [objectsFor_filter_retains htype]
    exact Nat.le_trans (List.length_filter_le ..) (h.single f hm)
  · rw [objectsFor_filter_retains htype] at ho
    obtain ⟨ho, hkeep⟩ := List.mem_filter.mp ho
    obtain ⟨t, rfl, -⟩ := h.references f hr o ho
    refine ⟨t, rfl, fun _ => ?_⟩
    rw [subjects_strip, ← Document.hasSubject_iff_mem]
    simpa [keeps, hr, Document.resolves] using hkeep

/-- An instance that is assembled from a block is assembled from the stripped one: what
went was dropped in any case. -/
theorem Assembled.strip (htype : d.fieldForPredicate? Vocabulary.rdfType = none)
    (hd : R.blockClass? b = some d) (h : R.Assembled doc d b kids e) :
    R.Assembled (R.strip doc) d (R.stripBlock doc b) kids e := by
  refine ⟨h.canonical, h.className, ?_, ?_, h.unknown⟩
  · rw [subject_stripBlock]
    exact h.identity
  · intro f hf hid
    have hvalue : ∀ os, f.valueFor (R.strip doc) kids os = f.valueFor doc kids os := by
      intro os
      unfold valueFor assembled
      rw [resolved_strip]
    rw [hvalue, stripBlock_eq hd, objectsFor_filter_retains htype, valueFor_filter_kept]
    exact h.mapped f hf hid

/-- A subject has the same instance in the stripped document, strictly. -/
theorem Decodes.strict (hR : R.Coherent) (hT : R.LeavesTypes) (h : R.Decodes false doc s e) :
    R.Decodes true (R.strip doc) s e := by
  -- on the derivation: the block is read when stripped, and so is what it refers to
  induction h with
  | @intro s b d kids e hb hd hread hkids he ih =>
    have htype := hT.fieldForPredicate?_eq_none hR (hR.get?_of_blockClass? hd)
    have hb' : (R.strip doc).block? s = some (R.stripBlock doc b) := by
      rw [block?_strip, hb]
      rfl
    refine .intro hb' (by rw [blockClass?_stripBlock, hd]) (hread.strict htype hd) ?_
      (he.strip htype hd)
    intro t ht hsub
    rw [subjects_strip] at hsub
    rw [stripBlock_eq hd] at ht
    exact ih t ((mem_targets_filter_retains hsub).mp ht) hsub

/-- What decodes strictly decodes leniently to the same instance. -/
theorem Decodes.lenient (h : R.Decodes true doc s e) : R.Decodes false doc s e := by
  induction h with
  | intro hb hd hread _ he ih =>
    refine .intro hb hd ⟨by simp, hread.single, fun f hr o ho => ?_⟩ ih he
    obtain ⟨t, rfl, -⟩ := hread.references f hr o ho
    exact ⟨t, rfl, by simp⟩

/-- A block that strict decoding reads has nothing to drop. -/
theorem Readable.retains (h : R.Readable true doc d b) (hp : p ∈ b.pairs) :
    d.retains R.context doc p = true := by
  by_cases htype : R.context.expand p.1 = Vocabulary.rdfType
  · exact retains_of_type htype
  · obtain ⟨f, hf⟩ := Option.isSome_iff_exists.mp (h.mapped rfl p hp htype)
    refine (retains_eq_true htype).mpr ⟨f, hf, ?_⟩
    by_cases hr : f.range? = some .entity
    · have ho : p.2 ∈ d.objectsFor R.context b f := mem_objectsFor.mpr (mem_readPairs.mpr ⟨_, hp, hf⟩)
      obtain ⟨t, ht, hsub⟩ := h.references f hr p.2 ho
      rw [ht]
      simp [keeps, Document.resolves, Document.hasSubject_iff_mem.mpr (hsub rfl)]
    · simp [keeps, hr]

/-! ## Whole documents -/

/-- A document that decodes strictly has nothing to drop: every block has been
read. -/
theorem Unfolds.strip_eq (hR : R.Coherent) (hstrict : cfg.strict = true)
    (h : R.Unfolds cfg doc es) : R.strip doc = doc := by
  have hblock : ∀ b ∈ doc.blocks, R.stripBlock doc b = b := by
    intro b hb
    obtain ⟨d, hd, hread⟩ := h.readable hR hb
    rw [hstrict] at hread
    have hall : b.pairs.filter (d.retains R.context doc) = b.pairs := by
      refine List.filter_eq_self.mpr fun p hp => ?_
      rw [← retains_leaveTypes]
      exact hread.retains hp
    rw [stripBlock_eq hd, hall]
  unfold strip
  rw [List.map_congr_left hblock, List.map_id']

/-- Strict decoding is lenient decoding with nothing to drop. A document that decodes
strictly is stripped already and decodes leniently to the same instances; one that
decodes leniently does so strictly once it is stripped, within the same limits. -/
theorem strict_decode_iff (hR : R.Reachable) (cfg : Config) (doc : Document)
    (es : List Instance) :
    (R.decode { cfg with strict := true } doc = .ok es →
      R.strip doc = doc ∧ R.decode { cfg with strict := false } doc = .ok es) ∧
    (R.decode { cfg with strict := false } doc = .ok es →
      R.decode { cfg with strict := true } (R.strip doc) = .ok es) ∧
    (R.decode { cfg with strict := true } doc = .ok es ↔
      R.strip doc = doc ∧ R.decode { cfg with strict := false } doc = .ok es) := by
  have hcoherent : R.Coherent := hR.coherent
  have hR' : R.leaveTypes.Coherent := leaveTypes_coherent hcoherent
  have hT' : R.leaveTypes.LeavesTypes := leaveTypes_leavesTypes hcoherent
  have hlenient : R.decode { cfg with strict := true } doc = .ok es →
      R.strip doc = doc ∧ R.decode { cfg with strict := false } doc = .ok es := by
    intro h
    have hunfolds := (decode_eq_ok_iff hcoherent).mp h
    refine ⟨hunfolds.strip_eq hcoherent rfl, (decode_eq_ok_iff hcoherent).mpr ?_⟩
    exact ⟨hunfolds.nodup, hunfolds.tops.imp fun s e he => he.lenient, hunfolds.depth,
      hunfolds.nodes⟩
  have hstrict : R.decode { cfg with strict := false } doc = .ok es →
      R.decode { cfg with strict := true } (R.strip doc) = .ok es := by
    intro h
    -- subjects, tops and limits do not change, and each top decodes in strict mode too
    have hunfolds := (decode_eq_ok_iff hcoherent).mp h
    refine (decode_eq_ok_iff hcoherent).mpr ⟨?_, ?_, ?_, hunfolds.nodes⟩
    · rw [subjects_strip]
      exact hunfolds.nodup
    · rw [tops_strip]
      refine hunfolds.tops.imp fun s e he => ?_
      rw [← strip_leaveTypes]
      exact Decodes.strict hR' hT' he
    · -- chains are the same in the stripped document
      intro r hr n u hu
      rw [tops_strip] at hr
      rw [← strip_leaveTypes, reaches_strip] at hu
      exact hunfolds.depth r hr n u hu
  refine ⟨hlenient, hstrict, hlenient, ?_⟩
  rintro ⟨hstrip, h⟩
  rw [← hstrip]
  exact hstrict h

/-- Without what nothing maps and what does not resolve, the scattered document
decodes strictly. -/
theorem strict_decode_iff_scattered :
    assets.decode .default scattered = assets.decode .strictDefault (assets.strip scattered) := by
  have hlenient : ∃ es, assets.decode .default scattered = .ok es :=
    exists_of_isOk (by decide +kernel)
  obtain ⟨es, hes⟩ := hlenient
  rw [hes]
  exact ((strict_decode_iff assets_reachable .default scattered es).2.1 hes).symm

end Registry

end EntityRdf
