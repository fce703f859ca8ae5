import EntityRdf.Proofs.Links

/-!
# Where a decoding fails

A decoding that fails does so at one place. Either there is something wrong with a
block, which can be told from the block and the subjects of the document alone
(`Registry.BlockFault`), or the decoder has gone too far: along some trail it came to
a subject at a limit, or to one that is on the trail already (`RunFault`).

As in the modules about successful runs, the targets and the fields of a block are
treated for an arbitrary child decoder first. Then `decodeAt_error` says what one
level of the recursion can do, and `fault_of_decodeAt` follows a failure down to the
place where it arose.

Main results: `fault_of_decode` and, for the depth limit, `trail_of_tooDeep`.
-/

namespace EntityRdf

/-! ## Faults -/

/-- What is wrong with the objects of an entity field. -/
inductive ReferenceFault (strict : Bool) (doc : Document) (subject field : String)
    (os : List Object) : MappingError → Prop
  /-- A literal is no reference. -/
  | literal {text : String} (ho : .literal text ∈ os) :
      ReferenceFault strict doc subject field os (.wrongObject subject field .reference)
  /-- In strict mode every reference names a block. -/
  | unresolved {t : String} (hs : strict = true) (ho : .iri t ∈ os) (ht : t ∉ doc.subjects) :
      ReferenceFault strict doc subject field os (.unresolvedReference subject field t)

/-- What is wrong with the objects of a field. -/
inductive GroupFault (strict : Bool) (doc : Document) (subject : String)
    (g : FieldDescriptor × List Object) : MappingError → Prop
  /-- A field for one value has several objects. -/
  | count (hm : g.1.multiplicity = .single) (hlen : g.2.length > 1) :
      GroupFault strict doc subject g
        (.tooManyValues subject g.1.name g.1.predicateText g.2.length)
  | reference {err : MappingError} (hr : g.1.range? = some .entity)
      (h : ReferenceFault strict doc subject g.1.name g.2 err) :
      GroupFault strict doc subject g err

/-- What is wrong with a block: its class is not known, or a pair belongs to no field,
or the objects of a field do not fit. -/
inductive Registry.BlockFault (R : Registry) (strict : Bool) (doc : Document) (b : Block) :
    MappingError → Prop
  | types {err : MappingError} (h : R.classOf b = .error err) : BlockFault R strict doc b err
  | pairs {d : ClassDescriptor} {err : MappingError} (hd : R.blockClass? b = some d)
      (h : R.fieldObjects strict d b.subject b.pairs = .error err) : BlockFault R strict doc b err
  | group {d : ClassDescriptor} {pairs : List (FieldDescriptor × Object)}
      {g : FieldDescriptor × List Object} {err : MappingError} (hd : R.blockClass? b = some d)
      (hpairs : R.fieldObjects strict d b.subject b.pairs = .ok pairs)
      (hg : g ∈ groupByKey pairs) (h : GroupFault strict doc b.subject g err) :
      BlockFault R strict doc b err

/-- Why a run does not decode a subject below a path, whatever its block says. -/
inductive RunFault (cfg : Config) (path : List String) (s : String) : MappingError → Prop
  | depth (h : path.length > cfg.maxDepth) : RunFault cfg path s (.tooDeep s cfg.maxDepth)
  | nodes : RunFault cfg path s (.tooManyEntities s cfg.maxNodes)
  | cycle (h : s ∈ path) : RunFault cfg path s (.cycle s path)

/-! ## Targets and fields, for any child decoder -/

section Child

variable {child : DecodeChild} {strict : Bool} {doc : Document} {subject field : String}
  {p : Progress} {err : MappingError}

/-- What is wrong with some objects is wrong with more of them. -/
theorem ReferenceFault.cons {os : List Object} (o : Object)
    (h : ReferenceFault strict doc subject field os err) :
    ReferenceFault strict doc subject field (o :: os) err := by
  cases h with
  | literal ho => exact .literal (List.mem_cons_of_mem _ ho)
  | unresolved hs ho ht => exact .unresolved hs (List.mem_cons_of_mem _ ho) ht

/-- Decoding the targets of a field fails on an object, or where the child decoder
does. -/
theorem decodeTargets_error {os : List Object}
    (h : decodeTargets child strict doc subject field p os = .error err) :
    ReferenceFault strict doc subject field os err ∨
      ∃ t ∈ doc.resolved os, ∃ p', child p' t = .error err := by
  induction os generalizing p with
  | nil => cases h
  | cons o rest ih =>
    cases o with
    | literal text =>
      cases h
      exact Or.inl (.literal (List.mem_cons_self ..))
    | iri t =>
      rw [decodeTargets] at h
      rw [Document.resolved_cons_iri]
      split at h
      · rename_i hsub
        rw [if_pos hsub]
        -- the child fails, or else the rest does
        rcases bind_eq_error.mp h with hc | ⟨⟨c, mid⟩, -, h⟩
        · exact Or.inr ⟨t, List.mem_cons_self .., p, hc⟩
        · rcases bind_eq_error.mp h with hcs | ⟨_, -, h⟩
          · refine (ih hcs).imp (.cons _) ?_
            rintro ⟨t', ht', hfail⟩
            exact ⟨t', List.mem_cons_of_mem _ ht', hfail⟩
          · cases h
      · rename_i hsub
        split at h
        · -- only strict decoding stops at a reference that does not resolve
          rename_i hs
          cases h
          refine Or.inl (.unresolved hs (List.mem_cons_self ..) ?_)
          exact fun ht => hsub (Document.hasSubject_iff_mem.mpr ht)
        · rw [if_neg hsub]
          exact (ih h).imp (.cons _) id

/-- Decoding the fields of a block fails on a group, or where the child decoder does
on a target of an entity field. -/
theorem decodeFields_error {groups : List (FieldDescriptor × List Object)} {e : Instance}
    (h : decodeFields child strict doc subject p e groups = .error err) :
    ∃ g ∈ groups, GroupFault strict doc subject g err ∨
      (g.1.range? = some .entity ∧ ∃ t ∈ doc.resolved g.2, ∃ p', child p' t = .error err) := by
  induction groups generalizing p e with
  | nil => cases h
  | cons g rest ih =>
    obtain ⟨f, os⟩ := g
    rw [decodeFields] at h
    -- this group fails, or else a later one does
    rcases bind_eq_error.mp h with hv | ⟨⟨v?, mid⟩, -, h⟩
    · refine ⟨(f, os), List.mem_cons_self .., ?_⟩
      -- a field fails on the number of its objects, on one of them, or below
      rw [decodeField] at hv
      split at hv
      · rename_i hcount
        cases hv
        exact Or.inl (.count hcount.1 hcount.2)
      · split at hv
        · rename_i hr
          rcases bind_eq_error.mp hv with hcs | ⟨_, -, hv⟩
          · exact (decodeTargets_error hcs).imp (.reference hr) fun hfail => ⟨hr, hfail⟩
          · cases hv
        · cases hv
    · obtain ⟨g, hg, hfail⟩ := ih h
      exact ⟨g, List.mem_cons_of_mem _ hg, hfail⟩

end Child

namespace Registry

variable {R : Registry} {cfg : Config} {doc : Document} {strict : Bool} {d : ClassDescriptor}
  {b : Block} {s : String} {path : List String} {p : Progress} {err : MappingError}

/-! ## Blocks -/

/-- A block without a class is refused for its types. -/
theorem error_of_classOf (h : R.classOf b = .error err) :
    err = .missingType b.subject ∨ ∃ tag, err = .unknownType b.subject tag := by
  rw [classOf] at h
  split at h
  · cases h
  · split at h
    · cases h
      exact Or.inl rfl
    · rename_i tag _ _
      cases h
      exact Or.inr ⟨tag, rfl⟩

/-- Sorting the pairs of a block by field fails on an unmapped predicate only, in strict
mode. -/
theorem error_of_fieldObjects {l : List (String × Object)}
    (h : R.fieldObjects strict d s l = .error err) :
    strict = true ∧ ∃ p ∈ l, R.context.expand p.1 ≠ Vocabulary.rdfType ∧
      d.fieldForPredicate? (R.context.expand p.1) = none ∧
      err = .unmappedPredicate s p.1 d.name := by
  induction l with
  | nil => cases h
  | cons p rest ih =>
    obtain ⟨iri, o⟩ := p
    rw [fieldObjects] at h
    -- a type is skipped, a mapped pair is taken, and any other stops strict decoding only
    split at h
    · exact (ih h).imp_right List.exists_mem_cons_of_exists
    · rename_i hiri
      split at h
      · rcases bind_eq_error.mp h with hrest | ⟨_, -, h⟩
        · exact (ih hrest).imp_right List.exists_mem_cons_of_exists
        · cases h
      · rename_i hnone
        split at h
        · rename_i hs
          cases h
          exact ⟨hs, (iri, o), List.mem_cons_self .., hiri, hnone, rfl⟩
        · exact (ih h).imp_right List.exists_mem_cons_of_exists

/-- No fault of a block is a cycle or a matter of depth. -/
theorem BlockFault.ne (h : R.BlockFault strict doc b err) :
    (∀ u loop, err ≠ .cycle u loop) ∧ ∀ u k, err ≠ .tooDeep u k := by
  cases h with
  | types h =>
    obtain rfl | ⟨tag, rfl⟩ := error_of_classOf h
    · simp
    · simp
  | pairs _ h =>
    obtain ⟨-, p, -, -, -, rfl⟩ := error_of_fieldObjects h
    simp
  | group _ _ _ h =>
    cases h with
    | count => simp
    | reference _ h => cases h <;> simp

/-! ## The recursion -/

/-- A run fails at its subject, for want of a block, on the block, or on a subject that
the block links to. -/
theorem decodeAt_error (h : R.decodeAt cfg doc path p s = .error err) :
    RunFault cfg path s err ∨
    (s ∉ doc.subjects ∧ err = .unresolvedReference s "" s) ∨
    (∃ b ∈ doc.blocks, R.BlockFault cfg.strict doc b err) ∨
    (s ∉ path ∧ ∃ t, R.Links doc s t ∧
      ∃ p', R.decodeAt cfg doc (path ++ [s]) p' t = .error err) := by
  rw [decodeAt] at h
  -- the checks come in this order: depth, entities, cycle, block
  split at h
  · rename_i hdepth
    cases h
    exact Or.inl (.depth hdepth)
  split at h
  · cases h
    exact Or.inl .nodes
  split at h
  · rename_i hpath
    cases h
    exact Or.inl (.cycle (by simpa using hpath))
  rename_i hpath
  split at h
  · rename_i hb
    cases h
    exact Or.inr (Or.inl ⟨Document.block?_eq_none_iff.mp hb, rfl⟩)
  rename_i b hb
  obtain ⟨hmem, rfl⟩ := Document.mem_of_block? hb
  -- the steps of the block, in their order: its class, its pairs, its groups
  rcases bind_eq_error.mp h with hclass | ⟨d, hd, h⟩
  · exact Or.inr (Or.inr (Or.inl ⟨b, hmem, .types hclass⟩))
  have hd : R.blockClass? b = some d := classOf_eq_ok.mp hd
  rcases bind_eq_error.mp h with hpairs | ⟨pairs, hpairs, h⟩
  · exact Or.inr (Or.inr (Or.inl ⟨b, hmem, .pairs hd hpairs⟩))
  rcases bind_eq_error.mp h with hfields | ⟨_, -, h⟩
  · obtain ⟨g, hg, hgroup | ⟨hr, t, ht, hchild⟩⟩ := decodeFields_error hfields
    · exact Or.inr (Or.inr (Or.inl ⟨b, hmem, .group hd hpairs hg hgroup⟩))
    · refine Or.inr (Or.inr (Or.inr ⟨by simpa using hpath, t, ?_, hchild⟩))
      exact (links_iff_group hb hd hpairs).mpr ⟨g, hg, hr, ht⟩
  · cases h

/-- At the end of a trail a run fails for want of a block, on some block, or further
along some trail. -/
theorem fault_of_decodeAt (htrail : R.Trail doc path s)
    (h : R.decodeAt cfg doc path p s = .error err) :
    (s ∉ doc.subjects ∧ err = .unresolvedReference s "" s) ∨
    (∃ b ∈ doc.blocks, R.BlockFault cfg.strict doc b err) ∨
    ∃ path' s', R.Trail doc path' s' ∧ RunFault cfg path' s' err := by
  -- on the measure of the recursion, and with longer and longer trails
  induction hoff : offPath doc path using Nat.strongRecOn generalizing path p s with
  | ind off ih =>
    rcases decodeAt_error h with hrun | hmissing | hblock | ⟨hpath, t, hst, p', hchild⟩
    · exact Or.inr (Or.inr ⟨path, s, htrail, hrun⟩)
    · exact Or.inl hmissing
    · exact Or.inr (Or.inl hblock)
    · obtain ⟨-, b, -, -, -, hb, -⟩ := id hst
      have hlt : offPath doc (path ++ [s]) < off := hoff ▸ offPath_lt hb (by simpa using hpath)
      -- what a block links to has a block, so the first case is out
      exact Or.inr ((ih _ hlt (htrail.extend hpath hst) hchild rfl).resolve_left
        fun hmissing => hmissing.1 hst.1)

/-! ## Runs over several subjects -/

/-- Decoding the roots fails on one of them, from whatever the earlier ones have left. -/
theorem decodeRoots_error {l : List String} (h : R.decodeRoots cfg doc p l = .error err) :
    ∃ s ∈ l, ∃ p', R.decodeAt cfg doc [] p' s = .error err := by
  induction l generalizing p with
  | nil => cases h
  | cons s rest ih =>
    rw [decodeRoots] at h
    rcases bind_eq_error.mp h with hs | ⟨⟨e, mid⟩, -, h⟩
    · exact ⟨s, List.mem_cons_self .., p, hs⟩
    · rcases bind_eq_error.mp h with hrest | ⟨_, -, h⟩
      · obtain ⟨t, ht, hfail⟩ := ih hrest
        exact ⟨t, List.mem_cons_of_mem _ ht, hfail⟩
      · cases h

/-- Decoding the leftovers fails on one of them, from whatever the earlier ones have
left. -/
theorem decodeLeftovers_error {l : List String}
    (h : R.decodeLeftovers cfg doc p l = .error err) :
    ∃ s ∈ l, ∃ p', R.decodeAt cfg doc [] p' s = .error err := by
  induction l generalizing p with
  | nil => cases h
  | cons s rest ih =>
    have hlater : (∃ t ∈ rest, ∃ p', R.decodeAt cfg doc [] p' t = .error err) →
        ∃ t ∈ s :: rest, ∃ p', R.decodeAt cfg doc [] p' t = .error err := by
      rintro ⟨t, ht, hfail⟩
      exact ⟨t, List.mem_cons_of_mem _ ht, hfail⟩
    rw [decodeLeftovers] at h
    split at h
    · -- a subject that was reached before is passed over
      exact hlater (ih h)
    · rcases bind_eq_error.mp h with hs | ⟨⟨e, mid⟩, -, h⟩
      · exact ⟨s, List.mem_cons_self .., p, hs⟩
      · rcases bind_eq_error.mp h with hrest | ⟨_, -, h⟩
        · exact hlater (ih hrest)
        · cases h

/-! ## Whole documents -/

/-- Collecting the references fails only on a block without a class. -/
theorem referenced_error (h : R.referenced doc = .error err) :
    ∃ b ∈ doc.blocks, R.classOf b = .error err := by
  rw [referenced] at h
  rcases bind_eq_error.mp h with h | ⟨_, -, h⟩
  · obtain ⟨b, hb, h⟩ := exists_of_mapM_eq_error h
    rcases bind_eq_error.mp h with h | ⟨_, -, h⟩
    · exact ⟨b, hb, h⟩
    · cases h
  · cases h

/-- A decoding fails on a repeated subject, on a block without a class, or below one of
the subjects that it decodes with nothing on the path. -/
theorem decode_error (h : R.decode cfg doc = .error err) :
    doc.checkSubjects = .error err ∨ (∃ b ∈ doc.blocks, R.classOf b = .error err) ∨
      ∃ s ∈ doc.subjects, ∃ p, R.decodeAt cfg doc [] p s = .error err := by
  rw [decode] at h
  -- the steps in their order: subjects, references, roots, leftovers
  rcases bind_eq_error.mp h with h | ⟨_, -, h⟩
  · exact Or.inl h
  rcases bind_eq_error.mp h with h | ⟨targets, -, h⟩
  · exact Or.inr (Or.inl (referenced_error h))
  rcases bind_eq_error.mp h with h | ⟨⟨roots, mid⟩, -, h⟩
  · obtain ⟨s, hs, hfail⟩ := decodeRoots_error h
    exact Or.inr (Or.inr ⟨s, List.mem_of_mem_filter hs, hfail⟩)
  rcases bind_eq_error.mp h with h | ⟨_, -, h⟩
  · exact Or.inr (Or.inr (decodeLeftovers_error h))
  · cases h

/-- A decoding fails on a repeated subject, on some block, or at the end of some
trail. -/
theorem fault_of_decode (h : R.decode cfg doc = .error err) :
    doc.checkSubjects = .error err ∨ (∃ b ∈ doc.blocks, R.BlockFault cfg.strict doc b err) ∨
      ∃ path s, R.Trail doc path s ∧ RunFault cfg path s err := by
  rcases decode_error h with h | ⟨b, hb, h⟩ | ⟨s, hs, p, h⟩
  · exact Or.inl h
  · exact Or.inr (Or.inl ⟨b, hb, .types h⟩)
  · exact Or.inr ((fault_of_decodeAt (.nil R doc s) h).resolve_left
      fun hmissing => hmissing.1 hs)

/-- A decoding that is refused as too deep has followed a trail beyond the limit. -/
theorem trail_of_tooDeep {k : Nat} (h : R.decode cfg doc = .error (.tooDeep s k)) :
    ∃ path, R.Trail doc path s ∧ cfg.maxDepth < path.length := by
  rcases fault_of_decode h with hcheck | ⟨b, -, hfault⟩ | ⟨path, s', htrail, hrun⟩
  · rw [Document.checkSubjects] at hcheck
    split at hcheck <;> cases hcheck
  · exact absurd rfl (hfault.ne.2 s k)
  · cases hrun with
    | depth hlong => exact ⟨path, htrail, hlong⟩

end Registry

end EntityRdf
