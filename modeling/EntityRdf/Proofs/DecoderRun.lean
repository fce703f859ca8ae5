import EntityRdf.Proofs.Decodes

/-!
# Runs of the decoder

The decoder computes `Registry.Decodes`. A run is *sound*: what it returns is the
instance of the subject, it counts as many entities as the instance has, it
completes exactly the subjects on the chains from the subject, and no chain goes
below the depth limit (`decodeAt_sound`). And it is *complete*: it succeeds on a
subject that decodes, if the chains from it stay within the depth limit and off
the path, and the instance within the entity limit (`decodeAt_complete`).

The fields of a block and the targets of a field are treated for an arbitrary
child decoder first; the recursion then supplies the decoder itself.
-/

namespace EntityRdf

open FieldDescriptor

/-! ## Progress -/

/-- The second progress has so many entities more than the first, and the given
subjects completed besides. It keeps to the limit if the first did. -/
structure Progress.Advances (limit : Nat) (p : Progress) (n : Nat) (visited : String → Prop)
    (q : Progress) : Prop where
  built : q.built = p.built + n
  done : ∀ u, u ∈ q.done ↔ u ∈ p.done ∨ visited u
  /-- The entity limit. -/
  bounded : p.built ≤ limit → q.built ≤ limit

namespace Progress

variable {limit n m : Nat} {p q r : Progress} {v w x : String → Prop}

/-- Completing a subject adds it to those that are done, unless it is one of them. -/
theorem mem_done_complete {s u : String} : u ∈ (p.complete s).done ↔ u ∈ p.done ∨ u = s := by
  rw [complete]
  split
  · rename_i hs
    have hmem : s ∈ p.done := by simpa using hs
    exact ⟨Or.inl, fun h => h.elim id fun heq => heq ▸ hmem⟩
  · simp [or_comm]

@[simp] theorem built_complete (p : Progress) (s : String) : (p.complete s).built = p.built := by
  rw [complete]
  split <;> rfl

theorem Advances.refl (limit : Nat) (p : Progress) (hv : ∀ u, ¬ v u) :
    Advances limit p 0 v p :=
  ⟨rfl, fun u => by simp [hv u], id⟩

/-- One run after another. -/
theorem Advances.trans (h : Advances limit p n v q) (h' : Advances limit q m w r)
    (hx : ∀ u, x u ↔ v u ∨ w u) : Advances limit p (n + m) x r := by
  refine ⟨?_, fun u => ?_, fun hp => h'.bounded (h.bounded hp)⟩
  · rw [h'.built, h.built]
    omega
  · rw [h'.done, h.done, hx, or_assoc]

end Progress

open Progress

/-! ## Targets and fields, for any child decoder -/

section Child

variable {child : DecodeChild} {strict : Bool} {doc : Document} {subject field : String}
  {kids : String → Instance} {limit : Nat} {visits : String → String → Prop}
  {good : String → Prop} {p q : Progress}

/-- The objects of a field are as the decoder demands, and what they refer to is
good. -/
def Acceptable (strict : Bool) (doc : Document) (good : String → Prop)
    (g : FieldDescriptor × List Object) : Prop :=
  (g.1.multiplicity = .single → g.2.length ≤ 1) ∧
  (g.1.range? = some .entity →
    (∀ o ∈ g.2, ∃ t, o = .iri t ∧ (strict = true → t ∈ doc.subjects)) ∧
    ∀ t ∈ doc.resolved g.2, good t)

/-- The child decoder returns the given instances, and accounts for them. -/
def ChildSound (child : DecodeChild) (kids : String → Instance) (limit : Nat)
    (visits : String → String → Prop) (good : String → Prop) : Prop :=
  ∀ p t c q, child p t = .ok (c, q) →
    good t ∧ c = kids t ∧ Advances limit p (kids t).count (visits t) q

/-- The child decoder succeeds on a subject as long as its instance is within the
limit. -/
def ChildComplete (child : DecodeChild) (kids : String → Instance) (limit : Nat)
    (t : String) : Prop :=
  ∀ p : Progress, p.built + (kids t).count ≤ limit →
    ∃ q, child p t = .ok (kids t, q) ∧ q.built = p.built + (kids t).count

/-- The targets of a field are read in order: each is a reference, which resolves in
strict mode, and the instances are those that the child decoder returns for the resolved
ones. -/
theorem decodeTargets_sound (hchild : ChildSound child kids limit visits good)
    {os : List Object} {cs : List Instance}
    (h : decodeTargets child strict doc subject field p os = .ok (cs, q)) :
    (∀ o ∈ os, ∃ t, o = .iri t ∧ (strict = true → t ∈ doc.subjects)) ∧
    (∀ t ∈ doc.resolved os, good t) ∧ cs = (doc.resolved os).map kids ∧
    Advances limit p (Instance.countAll ((doc.resolved os).map kids))
      (fun u => ∃ t ∈ doc.resolved os, visits t u) q := by
  induction os generalizing p cs with
  | nil =>
    cases h
    exact ⟨by simp, by simp [Document.resolved], rfl, .refl _ _ (by simp [Document.resolved])⟩
  | cons o rest ih =>
    cases o with
    | literal text => cases h
    | iri t =>
      rw [decodeTargets] at h
      rw [Document.resolved_cons_iri]
      split at h
      · -- a resolved reference is decoded, and then the rest from where that ended
        rename_i hsub
        obtain ⟨⟨c, mid⟩, hc, h⟩ := bind_eq_ok.mp h
        obtain ⟨⟨cs', last⟩, hcs, h⟩ := bind_eq_ok.mp h
        cases h
        obtain ⟨hgood, rfl, hadv⟩ := hchild _ _ _ _ hc
        obtain ⟨hrefs, hgoods, rfl, hadvs⟩ := ih hcs
        rw [if_pos hsub]
        refine ⟨?_, ?_, rfl, ?_⟩
        · exact List.forall_mem_cons.mpr
            ⟨⟨t, rfl, fun _ => Document.hasSubject_iff_mem.mp hsub⟩, hrefs⟩
        · exact List.forall_mem_cons.mpr ⟨hgood, hgoods⟩
        · rw [List.map_cons, Instance.countAll]
          exact hadv.trans hadvs fun u => by simp
      · -- one that does not resolve is skipped, unless the mode is strict
        rename_i hsub
        split at h
        · cases h
        · rename_i hlenient
          obtain ⟨hrefs, hgoods, rfl, hadvs⟩ := ih h
          rw [if_neg hsub]
          refine ⟨?_, hgoods, rfl, hadvs⟩
          exact List.forall_mem_cons.mpr ⟨⟨t, rfl, fun hs => absurd hs hlenient⟩, hrefs⟩

/-- Reading the targets succeeds if they are as the decoder demands, each child can be
decoded, and there is room for all of them. -/
theorem decodeTargets_complete {os : List Object}
    (hrefs : ∀ o ∈ os, ∃ t, o = .iri t ∧ (strict = true → t ∈ doc.subjects))
    (hchild : ∀ t ∈ doc.resolved os, ChildComplete child kids limit t)
    (hlimit : p.built + Instance.countAll ((doc.resolved os).map kids) ≤ limit) :
    ∃ q, decodeTargets child strict doc subject field p os =
        .ok ((doc.resolved os).map kids, q) ∧
      q.built = p.built + Instance.countAll ((doc.resolved os).map kids) := by
  induction os generalizing p with
  | nil => exact ⟨p, rfl, rfl⟩
  | cons o rest ih =>
    obtain ⟨⟨t, rfl, hstrict⟩, hrest⟩ := List.forall_mem_cons.mp hrefs
    rw [Document.resolved_cons_iri] at hchild hlimit ⊢
    rw [decodeTargets]
    by_cases hsub : doc.hasSubject t = true
    · rw [if_pos hsub] at hchild hlimit ⊢
      rw [if_pos hsub]
      obtain ⟨hhead, htail⟩ := List.forall_mem_cons.mp hchild
      simp only [List.map_cons, Instance.countAll] at hlimit ⊢
      -- the room for all children is room for the first, and what it leaves is room for the
      -- others
      obtain ⟨mid, hmid, hbuilt⟩ := hhead p (by omega)
      obtain ⟨q, hq, hbuilt'⟩ := ih (p := mid) hrest htail (by omega)
      refine ⟨q, ?_, by omega⟩
      exact bind_eq_ok.mpr ⟨_, hmid, bind_eq_ok.mpr ⟨_, hq, rfl⟩⟩
    · -- the reference does not resolve, so the mode is not strict and nothing is decoded
      rw [if_neg hsub] at hchild hlimit ⊢
      have hlenient : ¬ strict = true := fun hs =>
        hsub (Document.hasSubject_iff_mem.mpr (hstrict hs))
      rw [if_neg hsub, if_neg hlenient]
      exact ih hrest hchild hlimit

/-- A field that is read has acceptable objects, and its value is the one assembled from
them. -/
theorem decodeField_sound (hchild : ChildSound child kids limit visits good)
    {f : FieldDescriptor} {os : List Object} {v? : Option Value}
    (h : decodeField child strict doc subject p f os = .ok (v?, q)) :
    Acceptable strict doc good (f, os) ∧ v? = f.assembled doc kids os ∧
    Advances limit p (Instance.countAll (arrivals doc kids (f, os)))
      (fun u => f.range? = some .entity ∧ ∃ t ∈ doc.resolved os, visits t u) q := by
  rw [decodeField] at h
  split at h
  · cases h
  · rename_i hcount
    -- the count was checked first, whatever the field is for
    have hsingle : f.multiplicity = .single → os.length ≤ 1 := fun hm => by
      by_contra hmany
      exact hcount ⟨hm, by omega⟩
    split at h
    · -- an entity field has its targets decoded
      rename_i hr
      obtain ⟨⟨cs, last⟩, hcs, h⟩ := bind_eq_ok.mp h
      cases h
      obtain ⟨hrefs, hgoods, rfl, hadv⟩ := decodeTargets_sound hchild hcs
      refine ⟨⟨hsingle, fun _ => ⟨hrefs, hgoods⟩⟩, ?_, ?_⟩
      · rw [assembled, if_pos hr]
      · rw [arrivals, if_pos hr]
        simpa [hr] using hadv
    · -- any other field takes its texts, and no child is asked for
      rename_i hr
      cases h
      refine ⟨⟨hsingle, fun hr' => absurd hr' hr⟩, ?_, ?_⟩
      · rw [assembled, if_neg hr]
      · rw [arrivals, if_neg hr]
        exact .refl _ _ fun u hu => hr hu.1

/-- A field with acceptable objects is read, if there is room for the instances that it
brings in. -/
theorem decodeField_complete {f : FieldDescriptor} {os : List Object}
    (hacc : Acceptable strict doc (ChildComplete child kids limit) (f, os))
    (hlimit : p.built + Instance.countAll (arrivals doc kids (f, os)) ≤ limit) :
    ∃ q, decodeField child strict doc subject p f os = .ok (f.assembled doc kids os, q) ∧
      q.built = p.built + Instance.countAll (arrivals doc kids (f, os)) := by
  obtain ⟨hsingle, hentity⟩ := hacc
  have hcount : ¬ (f.multiplicity = .single ∧ os.length > 1) := fun ⟨hm, hmany⟩ => by
    have hle : os.length ≤ 1 := hsingle hm
    omega
  rw [decodeField, if_neg hcount]
  by_cases hr : f.range? = some .entity
  · obtain ⟨hrefs, hkids⟩ := hentity hr
    have harrivals : arrivals doc kids (f, os) = (doc.resolved os).map kids := if_pos hr
    rw [harrivals] at hlimit ⊢
    obtain ⟨q, hq, hbuilt⟩ := decodeTargets_complete hrefs hkids hlimit
    refine ⟨q, ?_, hbuilt⟩
    rw [if_pos hr, hq, assembled, if_pos hr]
    rfl
  · have harrivals : arrivals doc kids (f, os) = [] := if_neg hr
    rw [harrivals, if_neg hr, assembled, if_neg hr]
    exact ⟨p, rfl, rfl⟩

/-- The groups of a block are placed one after the other, each as soon as it is read. -/
theorem decodeFields_sound (hchild : ChildSound child kids limit visits good) {e e' : Instance}
    {groups : List (FieldDescriptor × List Object)}
    (h : decodeFields child strict doc subject p e groups = .ok (e', q)) :
    (∀ g ∈ groups, Acceptable strict doc good g) ∧ e' = groups.foldl (place doc kids) e ∧
    Advances limit p (Instance.countAll (groups.flatMap (arrivals doc kids)))
      (fun u => ∃ g ∈ groups, g.1.range? = some .entity ∧
        ∃ t ∈ doc.resolved g.2, visits t u) q := by
  induction groups generalizing p e with
  | nil =>
    cases h
    exact ⟨by simp, rfl, .refl _ _ (by simp)⟩
  | cons g rest ih =>
    obtain ⟨f, os⟩ := g
    rw [decodeFields, bind_eq_ok] at h
    obtain ⟨⟨v?, mid⟩, hv, h⟩ := h
    -- the first group is read and placed, the rest starts from there
    obtain ⟨hacc, rfl, hadv⟩ := decodeField_sound hchild hv
    obtain ⟨haccs, he', hadvs⟩ := ih h
    refine ⟨List.forall_mem_cons.mpr ⟨hacc, haccs⟩, he', ?_⟩
    rw [List.flatMap_cons, Instance.countAll_append]
    exact hadv.trans hadvs fun u => by simp

/-- Acceptable groups are all placed, if there is room for the instances that they bring
in. -/
theorem decodeFields_complete {e : Instance} {groups : List (FieldDescriptor × List Object)}
    (hacc : ∀ g ∈ groups, Acceptable strict doc (ChildComplete child kids limit) g)
    (hlimit : p.built + Instance.countAll (groups.flatMap (arrivals doc kids)) ≤ limit) :
    ∃ q, decodeFields child strict doc subject p e groups =
      .ok (groups.foldl (place doc kids) e, q) := by
  induction groups generalizing p e with
  | nil => exact ⟨p, rfl⟩
  | cons g rest ih =>
    obtain ⟨f, os⟩ := g
    obtain ⟨hhead, htail⟩ := List.forall_mem_cons.mp hacc
    rw [List.flatMap_cons, Instance.countAll_append] at hlimit
    -- there is room for the first field, and then for the others from where it ended
    have hfirst : p.built + Instance.countAll (arrivals doc kids (f, os)) ≤ limit := by omega
    obtain ⟨mid, hmid, hbuilt⟩ := decodeField_complete hhead hfirst
    obtain ⟨q, hq⟩ := ih (p := mid) (e := place doc kids e (f, os)) htail (by omega)
    refine ⟨q, ?_⟩
    rw [decodeFields, hmid]
    exact hq

end Child

/-! ## One subject -/

namespace Registry

open ClassDescriptor

variable {R : Registry} {cfg : Config} {doc : Document} {path : List String} {p q : Progress}
  {s : String} {e : Instance}

/-- Decoding a subject succeeds when the limits and the path allow it and the
steps of its block succeed. -/
theorem decodeAt_eq_ok :
    R.decodeAt cfg doc path p s = .ok (e, q) ↔
      path.length ≤ cfg.maxDepth ∧ p.built + 1 ≤ cfg.maxNodes ∧ s ∉ path ∧
      ∃ b d pairs last, doc.block? s = some b ∧ R.blockClass? b = some d ∧
        R.fieldObjects cfg.strict d s b.pairs = .ok pairs ∧
        decodeFields (fun p t => R.decodeAt cfg doc (path ++ [s]) p t) cfg.strict doc s p.begin
          (d.blank s) (groupByKey pairs) = .ok (e, last) ∧
        q = last.complete s := by
  rw [decodeAt]
  -- the checks come in this order: depth, entities, cycle, block, class, fields
  by_cases hdepth : path.length > cfg.maxDepth
  · rw [if_pos hdepth]
    constructor
    · rintro ⟨⟩
    · rintro ⟨hle, -⟩
      omega
  by_cases hnodes : p.built + 1 > cfg.maxNodes
  · rw [if_neg hdepth, if_pos hnodes]
    constructor
    · rintro ⟨⟩
    · rintro ⟨-, hle, -⟩
      omega
  rw [if_neg hdepth, if_neg hnodes]
  by_cases hpath : path.contains s = true
  · rw [dif_pos hpath]
    constructor
    · rintro ⟨⟩
    · rintro ⟨-, -, hnot, -⟩
      exact absurd (by simpa using hpath) hnot
  · rw [dif_neg hpath]
    have hnot : s ∉ path := by simpa using hpath
    simp only [Nat.not_lt.mp hdepth, Nat.not_lt.mp hnodes, hnot, not_false_eq_true, true_and]
    split
    · rename_i hb
      simp [hb]
    · rename_i b hb
      simp only [bind_eq_ok, classOf_eq_ok, hb, Option.some.injEq, exists_and_left,
        exists_eq_left']
      constructor
      · rintro ⟨d, hd, pairs, hpairs, ⟨e', last⟩, hfields, h⟩
        cases h
        exact ⟨d, hd, pairs, hpairs, last, hfields, rfl⟩
      · rintro ⟨d, hd, pairs, hpairs, last, hfields, rfl⟩
        exact ⟨d, hd, pairs, hpairs, ⟨e, last⟩, hfields, rfl⟩

/-! ## The groups of a readable block -/

section Groups

variable {strict : Bool} {d : ClassDescriptor} {b : Block} {good : String → Prop} {t : String}

/-- What the groups of entity fields resolve to are the targets of the block that are
subjects of the document. -/
theorem exists_group_iff :
    (∃ g ∈ groupByKey (d.readPairs R.context b), g.1.range? = some .entity ∧
      t ∈ doc.resolved g.2) ↔ t ∈ d.targets R.context b ∧ t ∈ doc.subjects := by
  rw [mem_targets]
  constructor
  · rintro ⟨⟨f, os⟩, hg, hr, ht⟩
    obtain ⟨rfl, -⟩ := mem_groupByKey.mp hg
    obtain ⟨hos, hsub⟩ := Document.mem_resolved.mp ht
    exact ⟨⟨f, hr, hos⟩, hsub⟩
  · rintro ⟨⟨f, hr, hos⟩, hsub⟩
    have hg : (f, d.objectsFor R.context b f) ∈ groupByKey (d.readPairs R.context b) :=
      mem_groupByKey.mpr ⟨rfl, List.ne_nil_of_mem hos⟩
    exact ⟨_, hg, hr, Document.mem_resolved.mpr ⟨hos, hsub⟩⟩

/-- A block refers to what the groups of its entity fields resolve to. -/
theorem refers_iff_group (hb : doc.block? b.subject = some b) (hd : R.blockClass? b = some d) :
    R.Refers doc b.subject t ↔ ∃ g ∈ groupByKey (d.readPairs R.context b),
      g.1.range? = some .entity ∧ t ∈ doc.resolved g.2 :=
  (refers_iff_of_block hb hd).trans exists_group_iff.symm

/-- A block with acceptable groups is readable, if its predicates are. -/
theorem readable_of_acceptable
    (hmapped : strict = true → ∀ p ∈ b.pairs, R.context.expand p.1 ≠ Vocabulary.rdfType →
      (d.fieldForPredicate? (R.context.expand p.1)).isSome)
    (hacc : ∀ g ∈ groupByKey (d.readPairs R.context b), Acceptable strict doc good g) :
    R.Readable strict doc d b := by
  have hgroup : ∀ f, d.objectsFor R.context b f ≠ [] →
      Acceptable strict doc good (f, d.objectsFor R.context b f) :=
    fun f hne => hacc _ (mem_groupByKey.mpr ⟨rfl, hne⟩)
  refine ⟨hmapped, fun f hm => ?_, fun f hr o ho => ?_⟩
  · by_cases hnil : d.objectsFor R.context b f = []
    · rw [hnil]
      exact Nat.zero_le _
    · exact (hgroup f hnil).1 hm
  · exact ((hgroup f (List.ne_nil_of_mem ho)).2 hr).1 o ho

/-- The groups of a readable block are acceptable, if its references are. -/
theorem Readable.acceptable (hread : R.Readable strict doc d b)
    (hgood : ∀ t ∈ d.targets R.context b, t ∈ doc.subjects → good t) :
    ∀ g ∈ groupByKey (d.readPairs R.context b), Acceptable strict doc good g := by
  rintro ⟨f, os⟩ hg
  obtain ⟨rfl, -⟩ := mem_groupByKey.mp hg
  refine ⟨hread.single f, fun hr => ⟨hread.references f hr, fun t ht => ?_⟩⟩
  obtain ⟨ht, hsub⟩ := exists_group_iff.mp ⟨_, hg, hr, ht⟩
  exact hgood t ht hsub

/-! ## One level of the recursion -/

/-- A readable block decodes to what placing all groups gives, if its references
decode. -/
theorem decodes_block (hR : R.Coherent) (hb : doc.block? b.subject = some b)
    (hd : R.blockClass? b = some d) (hread : R.Readable strict doc d b)
    (hkids : ∀ t, R.Refers doc b.subject t → R.Decodes strict doc t (R.decoded strict doc t)) :
    R.Decodes strict doc b.subject
      ((groupByKey (d.readPairs R.context b)).foldl (place doc (R.decoded strict doc))
        (d.blank b.subject)) := by
  have htargets : ∀ t ∈ d.targets R.context b, t ∈ doc.subjects →
      R.Decodes strict doc t (R.decoded strict doc t) :=
    fun t ht hsub => hkids t ((refers_iff_of_block hb hd).mpr ⟨ht, hsub⟩)
  have hcoherent : d.Coherent R.context := hR.fields (hR.get?_of_blockClass? hd)
  refine .intro hb hd hread htargets ?_
  exact assembled_foldl_place hcoherent hread fun t ht hsub => (htargets t ht hsub).canonical

/-- Decoding a block begins one entity, decodes the groups and completes the
subject: besides the subject, what its references reach is completed. -/
theorem advances_block {limit n : Nat} {last : Progress} (hb : doc.block? b.subject = some b)
    (hd : R.blockClass? b = some d) (hlimit : p.built + 1 ≤ limit)
    (h : Advances limit p.begin n (fun u => ∃ g ∈ groupByKey (d.readPairs R.context b),
      g.1.range? = some .entity ∧ ∃ t ∈ doc.resolved g.2, ∃ k, R.Reaches doc k t u) last) :
    Advances limit p (1 + n) (fun u => ∃ k, R.Reaches doc k b.subject u)
      (last.complete b.subject) := by
  refine ⟨?_, fun u => ?_, fun _ => ?_⟩
  · rw [built_complete, h.built]
    show p.built + 1 + n = p.built + (1 + n)
    omega
  · -- the subject is the empty chain; every other one starts with a reference
    rw [mem_done_complete, h.done, or_assoc, exists_reaches_iff]
    refine or_congr_right ?_
    rw [or_comm]
    refine or_congr_right ?_
    constructor
    · rintro ⟨g, hg, hr, t, ht, hk⟩
      exact ⟨t, (refers_iff_group hb hd).mpr ⟨g, hg, hr, ht⟩, hk⟩
    · rintro ⟨t, hst, hk⟩
      obtain ⟨g, hg, hr, ht⟩ := (refers_iff_group hb hd).mp hst
      exact ⟨g, hg, hr, t, ht, hk⟩
  · rw [built_complete]
    exact h.bounded hlimit

end Groups

/-! ## The recursion -/

/-- What the decoder returns for a subject is its instance. The run counts the
entities of the instance, completes what is on the chains from the subject, and
no chain goes below the depth limit. -/
theorem decodeAt_sound (hR : R.Coherent) (hT : R.LeavesTypes)
    (h : R.decodeAt cfg doc path p s = .ok (e, q)) :
    R.Decodes cfg.strict doc s e ∧
    Advances cfg.maxNodes p e.count (fun u => ∃ n, R.Reaches doc n s u) q ∧
    ∀ n u, R.Reaches doc n s u → path.length + n ≤ cfg.maxDepth := by
  -- on the number of blocks off the path, as the recursion itself
  induction hoff : offPath doc path using Nat.strongRecOn generalizing path p s e q with
  | ind off ih =>
    obtain ⟨hdepth, hnodes, hpath, b, d, pairs, last, hb, hd, hpairs, hfields, rfl⟩ :=
      decodeAt_eq_ok.mp h
    have hclass : R.classes.get? d.name = some d := hR.get?_of_blockClass? hd
    have hcoherent : d.Coherent R.context := hR.fields hclass
    obtain ⟨hmapped, rfl⟩ :=
      (fieldObjects_eq_ok (hT.fieldForPredicate?_eq_none hR hclass)).mp hpairs
    obtain ⟨-, rfl⟩ := Document.mem_of_block? hb
    -- the decoder below this block is sound by induction
    have hchild : ChildSound (fun p t => R.decodeAt cfg doc (path ++ [b.subject]) p t)
        (R.decoded cfg.strict doc) cfg.maxNodes (fun t u => ∃ n, R.Reaches doc n t u)
        (fun t => R.Decodes cfg.strict doc t (R.decoded cfg.strict doc t) ∧
          ∀ n u, R.Reaches doc n t u → path.length + 1 + n ≤ cfg.maxDepth) := by
      intro p' t c q' hc
      have hlt : offPath doc (path ++ [b.subject]) < off :=
        hoff ▸ offPath_lt hb (by simpa using hpath)
      obtain ⟨hdec, hadv, hdeep⟩ := ih _ hlt hc rfl
      obtain rfl : R.decoded cfg.strict doc t = c := hdec.decoded_eq
      refine ⟨⟨hdec, fun n u hu => ?_⟩, rfl, hadv⟩
      have := hdeep n u hu
      rwa [List.length_append, List.length_singleton] at this
    obtain ⟨hacc, rfl, hadv⟩ := decodeFields_sound hchild hfields
    have hread : R.Readable cfg.strict doc d b := readable_of_acceptable hmapped hacc
    have hgood : ∀ t, R.Refers doc b.subject t →
        R.Decodes cfg.strict doc t (R.decoded cfg.strict doc t) ∧
          ∀ n u, R.Reaches doc n t u → path.length + 1 + n ≤ cfg.maxDepth := by
      intro t hst
      obtain ⟨g, hg, hr, ht⟩ := (refers_iff_group hb hd).mp hst
      exact ((hacc g hg).2 hr).2 t ht
    refine ⟨decodes_block hR hb hd hread fun t hst => (hgood t hst).1, ?_, ?_⟩
    · rw [count_foldl_blank hcoherent hread]
      exact advances_block hb hd hnodes hadv
    · intro n u hu
      cases hu with
      | self => exact hdepth
      | @step n _ t _ hst htu =>
        have hle : path.length + 1 + n ≤ cfg.maxDepth := (hgood t hst).2 n u htu
        omega

/-- The decoder succeeds on a subject that decodes, if the chains from it stay
within the depth limit and off the path, and its instance within the entity
limit. -/
theorem decodeAt_complete (hR : R.Coherent) (hT : R.LeavesTypes)
    (h : R.Decodes cfg.strict doc s e)
    (hchains : ∀ n u, R.Reaches doc n s u → path.length + n ≤ cfg.maxDepth ∧ u ∉ path)
    (hlimit : p.built + e.count ≤ cfg.maxNodes) :
    ∃ q, R.decodeAt cfg doc path p s = .ok (e, q) := by
  -- on the derivation, so that what the block refers to decodes by induction
  induction h generalizing path p with
  | @intro s b d kids e hb hd hread hkids he ih =>
    have hdec : R.Decodes cfg.strict doc s e := .intro hb hd hread hkids he
    have hclass : R.classes.get? d.name = some d := hR.get?_of_blockClass? hd
    have hcoherent : d.Coherent R.context := hR.fields hclass
    obtain ⟨-, rfl⟩ := Document.mem_of_block? hb
    -- the instance is what placing all groups gives
    have hplaced := assembled_foldl_place hcoherent hread
      fun t ht hsub => (hkids t ht hsub).canonical
    obtain rfl := he.unique hplaced fun _ _ _ => rfl
    rw [count_foldl_blank hcoherent hread] at hlimit
    have hchild : ∀ t ∈ d.targets R.context b, t ∈ doc.subjects →
        ChildComplete (fun p t => R.decodeAt cfg doc (path ++ [b.subject]) p t) kids
          cfg.maxNodes t := by
      intro t ht hsub p' hp'
      have hst : R.Refers doc b.subject t := (refers_iff_of_block hb hd).mpr ⟨ht, hsub⟩
      have hbelow : ∀ n u, R.Reaches doc n t u →
          (path ++ [b.subject]).length + n ≤ cfg.maxDepth ∧ u ∉ path ++ [b.subject] := by
        intro n u hu
        obtain ⟨hle, hnot⟩ := hchains (n + 1) u (.step hst hu)
        rw [List.length_append, List.length_singleton]
        refine ⟨by omega, fun hmem => ?_⟩
        rcases List.mem_append.mp hmem with hmem | hmem
        · exact hnot hmem
        · -- the subject itself is on no chain from what it refers to
          obtain rfl := List.mem_singleton.mp hmem
          exact hdec.not_reaches_self hR hst hu
      obtain ⟨q, hq⟩ := ih t ht hsub hbelow hp'
      exact ⟨q, hq, (decodeAt_sound hR hT hq).2.1.built⟩
    obtain ⟨hdepth, hnot⟩ := hchains 0 b.subject (.self _)
    obtain ⟨last, hlast⟩ := decodeFields_complete (p := p.begin) (e := d.blank b.subject)
      (hread.acceptable hchild) (by show p.built + 1 + _ ≤ _; omega)
    refine ⟨last.complete b.subject, decodeAt_eq_ok.mpr ?_⟩
    refine ⟨hdepth, by omega, hnot, b, d, _, last, hb, hd, ?_, hlast, rfl⟩
    exact (fieldObjects_eq_ok (hT.fieldForPredicate?_eq_none hR hclass)).mpr ⟨hread.mapped, rfl⟩

end Registry

end EntityRdf
