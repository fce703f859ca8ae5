import EntityRdf.Proofs.Expansion
import EntityRdf.Proofs.Fallible
import EntityRdf.Proofs.Registration

/-!
# Registering declared classes

Whether declarations clash depends on the context: it may bind a prefix so that
two terms expand to one IRI. `Apart` is a condition on the terms alone that
excludes this. An absolute IRI stands for itself, terms with one prefix differ by
their rests, and a term with a prefix ends with its rest whatever it expands to.

`Registrable` declarations are apart in all places where the registry compares
them, so every context accepts them.

Main results: `expand_ne_of_apart` and `registerAll_declarations`.
-/

namespace EntityRdf

/-! ## Terms that stay apart -/

/-- Terms that no context expands to one IRI. -/
def Apart (t u : String) : Prop :=
  match splitAtColon t.toList, splitAtColon u.toList with
  | some (name, rest), some (name', rest') =>
    if ['/', '/'] <+: rest then
      if ['/', '/'] <+: rest' then t ≠ u else ¬ rest' <:+ t.toList
    else if ['/', '/'] <+: rest' then ¬ rest <:+ u.toList
    else name = name' ∧ rest ≠ rest'
  | _, _ => False

instance (t u : String) : Decidable (Apart t u) := by
  unfold Apart
  split <;> infer_instance

variable {ctx : Context} {t u : String}

/-- Whatever a term with a prefix expands to, its rest stands at the end. -/
theorem Context.suffix_expand {name rest : List Char}
    (hsplit : splitAtColon t.toList = some (name, rest)) : rest <:+ (ctx.expand t).toList := by
  rcases expand_cases ctx t with ⟨name', rest', ns, hsplit', -, -, heq⟩ | ⟨heq, -⟩
  · obtain ⟨rfl, rfl⟩ := Prod.mk.inj (Option.some.inj (hsplit.symm.trans hsplit'))
    rw [heq, String.toList_append, String.toList_ofList]
    exact List.suffix_append ..
  · rw [heq, (splitAtColon_eq_some.mp hsplit).1]
    exact ⟨name ++ [':'], by simp⟩

/-- An absolute IRI with an authority stands for itself, whatever the context binds. -/
theorem Context.expand_of_authority {name rest : List Char}
    (hsplit : splitAtColon t.toList = some (name, rest)) (hrest : ['/', '/'] <+: rest) :
    ctx.expand t = t := by
  refine expand_of_unbound fun name' rest' hsplit' => Or.inl ?_
  obtain ⟨rfl, rfl⟩ := Prod.mk.inj (Option.some.inj (hsplit.symm.trans hsplit'))
  exact hrest

/-- Terms that are apart never expand to one IRI. -/
theorem expand_ne_of_apart (ctx : Context) (h : Apart t u) : ctx.expand t ≠ ctx.expand u := by
  unfold Apart at h
  split at h
  · rename_i name rest name' rest' ht hu
    intro heq
    -- one case for each branch of `Apart`: a term with an authority stands for itself, and
    -- any other ends with its rest
    by_cases hrest : ['/', '/'] <+: rest
    · rw [if_pos hrest] at h
      rw [Context.expand_of_authority ht hrest] at heq
      by_cases hrest' : ['/', '/'] <+: rest'
      · rw [if_pos hrest'] at h
        rw [Context.expand_of_authority hu hrest'] at heq
        exact h heq
      · rw [if_neg hrest'] at h
        rw [heq] at h
        exact h (Context.suffix_expand hu)
    · rw [if_neg hrest] at h
      by_cases hrest' : ['/', '/'] <+: rest'
      · rw [if_pos hrest'] at h
        rw [Context.expand_of_authority hu hrest'] at heq
        rw [← heq] at h
        exact h (Context.suffix_expand ht)
      · rw [if_neg hrest'] at h
        obtain ⟨rfl, hne⟩ := h
        -- the prefix is bound for both terms or for neither
        cases hns : ctx.namespaceOf? (String.ofList name) with
        | some ns =>
          rw [Context.expand_of_bound ht hrest hns, Context.expand_of_bound hu hrest' hns] at heq
          have hchars := congrArg String.toList heq
          simp only [String.toList_append, String.toList_ofList] at hchars
          exact hne (List.append_cancel_left hchars)
        | none =>
          have hself : ∀ {t rest}, splitAtColon t.toList = some (name, rest) →
              ctx.expand t = t := by
            intro t rest ht
            refine Context.expand_of_unbound fun name' rest' ht' => Or.inr ?_
            obtain ⟨rfl, rfl⟩ := Prod.mk.inj (Option.some.inj (ht.symm.trans ht'))
            exact hns
          rw [hself ht, hself hu] at heq
          subst heq
          rw [ht] at hu
          exact hne (Prod.mk.inj (Option.some.inj hu)).2
  · exact h.elim

/-! ## Declarations that stay apart -/

/-- Fields that share no name and, in no context, a predicate. -/
def FieldDeclaration.Apart (f g : FieldDeclaration) : Prop :=
  f.name ≠ g.name ∧
    match f.mapping, g.mapping with
    | .identity, .identity => False
    | .predicate t _, .predicate u _ => EntityRdf.Apart t u
    | _, _ => True

instance (f g : FieldDeclaration) : Decidable (f.Apart g) := by
  unfold FieldDeclaration.Apart
  have : Decidable (match f.mapping, g.mapping with
      | .identity, .identity => False
      | .predicate t _, .predicate u _ => EntityRdf.Apart t u
      | _, _ => True) := by
    split <;> infer_instance
  infer_instance

/-- Fields that are apart have different predicates in every context. -/
theorem FieldDeclaration.Apart.expandedIn_ne {f g : FieldDeclaration} (h : f.Apart g)
    (ctx : Context) : f.expandedIn ctx ≠ g.expandedIn ctx := by
  obtain ⟨-, h⟩ := h
  unfold expandedIn
  cases hf : f.mapping with
  | identity =>
    cases hg : g.mapping with
    | identity => simp [hf, hg] at h
    | predicate u _ => simp
  | predicate t _ =>
    cases hg : g.mapping with
    | identity => simp
    | predicate u _ =>
      rw [hf, hg] at h
      exact fun heq => expand_ne_of_apart ctx h (Option.some.inj heq)

/-- The record of a class that is registered as declared. -/
def ClassDeclaration.descriptor (ctx : Context) (c : ClassDeclaration) : ClassDescriptor :=
  ⟨c.name, c.tag, c.fields.map fun f => ⟨f, f.expandedIn ctx⟩⟩

/-- Declarations that every context accepts, with no field mapped to the type
predicate. -/
structure Registrable (decls : List ClassDeclaration) : Prop where
  names : decls.Pairwise fun c c' => c.name ≠ c'.name
  tags : decls.Pairwise fun c c' => Apart c.tag c'.tag
  fields : ∀ c ∈ decls, c.fields.Pairwise FieldDeclaration.Apart
  types : ∀ c ∈ decls, ∀ f ∈ c.fields, f.Apart (.literal "" Vocabulary.rdfType)

instance (decls : List ClassDeclaration) : Decidable (Registrable decls) :=
  decidable_of_iff ((decls.Pairwise fun c c' => c.name ≠ c'.name) ∧
      (decls.Pairwise fun c c' => Apart c.tag c'.tag) ∧
      (∀ c ∈ decls, c.fields.Pairwise FieldDeclaration.Apart) ∧
      ∀ c ∈ decls, ∀ f ∈ c.fields, f.Apart (.literal "" Vocabulary.rdfType))
    ⟨fun h => ⟨h.1, h.2.1, h.2.2.1, h.2.2.2⟩, fun h => ⟨h.names, h.tags, h.fields, h.types⟩⟩

/-! ## Registering them -/

namespace Registry

variable {R R' : Registry} {name : String} {d : ClassDescriptor} {c : ClassDeclaration}
  {decls : List ClassDeclaration}

/-- Registrations go through when the first is accepted and the rest go through on what
it leaves. -/
theorem registerAll_cons_eq_ok {r : Registration} {rs : List Registration} :
    R.registerAll (r :: rs) = .ok R' ↔
      ∃ R₁, R.register r = (R₁, none) ∧ R₁.registerAll rs = .ok R' := by
  unfold registerAll
  rw [registerWhile]
  obtain ⟨R₁, refusal?⟩ := R.register r
  cases refusal? <;> simp

/-- After an accepted registration the remaining ones decide. -/
theorem registerAll_cons {R₁ : Registry} {r : Registration} (h : R.register r = (R₁, none))
    (rs : List Registration) : R.registerAll (r :: rs) = R₁.registerAll rs := by
  rw [registerAll, registerWhile, h, registerAll]

/-- Registrations that go through can be followed by more. -/
theorem registerAll_append {R₁ : Registry} {rs : List Registration}
    (h : R.registerAll rs = .ok R₁) (rs' : List Registration) :
    R.registerAll (rs ++ rs') = R₁.registerAll rs' := by
  induction rs generalizing R with
  | nil =>
    obtain rfl := Except.ok.inj h
    rfl
  | cons r rest ih =>
    obtain ⟨R₂, hr, hrest⟩ := registerAll_cons_eq_ok.mp h
    rw [List.cons_append, registerAll_cons hr]
    exact ih hrest

/-- A run without refusals is one of the runs that reach registries. -/
theorem run_eq_of_registerAll {rs : List Registration} (h : R.registerAll rs = .ok R') :
    R.run rs = R' := by
  induction rs generalizing R with
  | nil => exact Except.ok.inj h
  | cons r rest ih =>
    obtain ⟨R₁, hr, hrest⟩ := registerAll_cons_eq_ok.mp h
    rw [run_cons, hr]
    exact ih hrest

/-- Fields that stay apart from each other are all added. -/
theorem registerAll_fields {fields : List FieldDeclaration} (hd : R.classes.get? name = some d)
    (hcoherent : d.Coherent R.context)
    (hapart : (d.fields.map (·.toFieldDeclaration) ++ fields).Pairwise FieldDeclaration.Apart) :
    R.registerAll (fields.map (.classField name)) = .ok { R with
      classes := R.classes.insert name { d with
        fields := d.fields ++ fields.map fun f => ⟨f, f.expandedIn R.context⟩ } } := by
  induction fields generalizing R d with
  | nil =>
    rw [List.map_nil, List.map_nil, List.append_nil, StringMap.insert_of_get? hd]
    rfl
  | cons f rest ih =>
    -- the first field shares nothing with those that are recorded, so it is added
    obtain ⟨-, hrest, hcross⟩ := List.pairwise_append.mp hapart
    have hnew : ∀ g ∈ d.fields, g.toFieldDeclaration.Apart f := by
      intro g hg
      exact hcross _ (List.mem_map.mpr ⟨g, hg, rfl⟩) f (List.mem_cons_self ..)
    have hname : d.field? f.name = none := by
      refine List.find?_eq_none.mpr fun g hg => ?_
      simpa using (hnew g hg).1
    have hrival : d.rival? (f.expandedIn R.context) = none := by
      refine hcoherent.rival?_eq_none_iff.mpr fun g hg => ?_
      rw [hcoherent.expanded g hg]
      exact (hnew g hg).expandedIn_ne R.context
    have hadd : d.addField R.context f =
        ({ d with fields := d.fields ++ [⟨f, f.expandedIn R.context⟩] }, none) := by
      rw [ClassDescriptor.addField, hname]
      dsimp only
      rw [hrival]
    have hreg : R.register (.classField name f) = ({ R with
        classes := R.classes.insert name
          { d with fields := d.fields ++ [⟨f, f.expandedIn R.context⟩] } }, none) :=
      registerField_eq hd hadd
    rw [List.map_cons, registerAll_cons hreg]
    -- the registry now has the longer class
    refine (ih (R := { R with classes := R.classes.insert name _ }) (StringMap.get?_insert_self ..)
      (addField_coherent hcoherent hadd) ?_).trans ?_
    · simpa using hapart
    · simp [StringMap.insert_insert]

/-- A class with a free name and a free tag is recorded as declared. -/
theorem registerAll_class (hname : R.classes.get? c.name = none)
    (htag : R.owners.get? (R.context.expand c.tag) = none)
    (hfields : c.fields.Pairwise FieldDeclaration.Apart) :
    R.registerAll c.registrations = .ok { R with
      classes := R.classes.insert c.name (c.descriptor R.context)
      owners := R.owners.insert (R.context.expand c.tag) c.name } := by
  have hreg : R.register (.classTag c.name c.tag) = ({ R with
      classes := R.classes.insert c.name ⟨c.name, c.tag, []⟩
      owners := R.owners.insert (R.context.expand c.tag) c.name }, none) := by
    show R.registerClass c.name c.tag = _
    rw [registerClass, hname]
    dsimp only
    rw [htag]
  rw [ClassDeclaration.registrations, registerAll_cons hreg]
  refine (registerAll_fields (StringMap.get?_insert_self ..) (.nil ..) (by simpa using hfields)).trans ?_
  simp [StringMap.insert_insert, ClassDeclaration.descriptor]

/-- Registrable declarations are added, one class after the other. -/
theorem registerAll_flatMap (hnames : decls.Pairwise fun c c' => c.name ≠ c'.name)
    (htags : decls.Pairwise fun c c' => Apart c.tag c'.tag)
    (hfields : ∀ c ∈ decls, c.fields.Pairwise FieldDeclaration.Apart)
    (hfree : ∀ c ∈ decls, R.classes.get? c.name = none ∧
      R.owners.get? (R.context.expand c.tag) = none) :
    ∃ R', R.registerAll (decls.flatMap ClassDeclaration.registrations) = .ok R' ∧
      R'.context = R.context ∧
      ∀ name d, R'.classes.get? name = some d ↔
        R.classes.get? name = some d ∨ ∃ c ∈ decls, c.name = name ∧ c.descriptor R.context = d := by
  induction decls generalizing R with
  | nil => exact ⟨R, rfl, rfl, by simp⟩
  | cons c rest ih =>
    obtain ⟨hname, hnames⟩ := List.pairwise_cons.mp hnames
    obtain ⟨htag, htags⟩ := List.pairwise_cons.mp htags
    obtain ⟨hcfields, hfields⟩ := List.forall_mem_cons.mp hfields
    obtain ⟨⟨hcname, hctag⟩, hfree⟩ := List.forall_mem_cons.mp hfree
    have hclass := registerAll_class hcname hctag hcfields
    -- the names and tags of the rest are still free
    have hstill : ∀ c' ∈ rest,
        (R.classes.insert c.name (c.descriptor R.context)).get? c'.name = none ∧
        (R.owners.insert (R.context.expand c.tag) c.name).get? (R.context.expand c'.tag) = none := by
      intro c' hc'
      obtain ⟨hfreeName, hfreeTag⟩ := hfree c' hc'
      rw [StringMap.get?_insert_of_ne _ (hname c' hc').symm,
        StringMap.get?_insert_of_ne _ (expand_ne_of_apart R.context (htag c' hc')).symm]
      exact ⟨hfreeName, hfreeTag⟩
    obtain ⟨R', hrun, hcontext, hclasses⟩ := ih (R := { R with
      classes := R.classes.insert c.name (c.descriptor R.context)
      owners := R.owners.insert (R.context.expand c.tag) c.name }) hnames htags hfields hstill
    refine ⟨R', ?_, hcontext, fun name d => ?_⟩
    · rw [List.flatMap_cons, registerAll_append hclass, hrun]
    · rw [hclasses]
      constructor
      · rintro (h | ⟨c', hc', rfl, rfl⟩)
        · rcases StringMap.get?_insert_cases h with ⟨rfl, rfl⟩ | h
          · exact Or.inr ⟨c, List.mem_cons_self .., rfl, rfl⟩
          · exact Or.inl h
        · exact Or.inr ⟨c', List.mem_cons_of_mem _ hc', rfl, rfl⟩
      · rintro (h | ⟨c', hc', rfl, rfl⟩)
        · refine Or.inl ?_
          have hne : name ≠ c.name := by
            rintro rfl
            rw [hcname] at h
            cases h
          exact (StringMap.get?_insert_of_ne _ hne _).trans h
        · rcases List.mem_cons.mp hc' with rfl | hc'
          · exact Or.inl (StringMap.get?_insert_self ..)
          · exact Or.inr ⟨c', hc', rfl, rfl⟩

/-- In every context, registrable declarations make a registry with just the
declared classes, which leaves the type predicate alone. -/
theorem registerAll_declarations (ctx : Context) (h : Registrable decls) :
    ∃ R, (empty ctx).registerAll (decls.flatMap ClassDeclaration.registrations) = .ok R ∧
      R.context = ctx ∧ R.Reachable ∧ R.LeavesTypes ∧
      ∀ name d, R.classes.get? name = some d ↔
        ∃ c ∈ decls, c.name = name ∧ c.descriptor ctx = d := by
  obtain ⟨R, hrun, hcontext, hclasses⟩ :=
    registerAll_flatMap (R := empty ctx) h.names h.tags h.fields fun _ _ => ⟨rfl, rfl⟩
  have hdeclared : ∀ name d, R.classes.get? name = some d ↔
      ∃ c ∈ decls, c.name = name ∧ c.descriptor ctx = d := by
    intro name d
    rw [hclasses]
    exact or_iff_right (by simp [empty])
  refine ⟨R, hrun, hcontext, ⟨ctx, _, (run_eq_of_registerAll hrun).symm⟩, ?_, hdeclared⟩
  -- a field on the type predicate would expand as that predicate does
  intro d hd f hf iri hiri
  obtain ⟨name, hd⟩ := mem_classList.mp hd
  obtain ⟨c, hc, -, rfl⟩ := (hdeclared name d).mp hd
  obtain ⟨g, hg, rfl⟩ := List.mem_map.mp hf
  have hne := (h.types c hc g hg).expandedIn_ne R.context
  intro heq
  refine hne ?_
  unfold FieldDeclaration.expandedIn
  cases hg' : g.mapping with
  | identity => simp [FieldDescriptor.predicate?, hg'] at hiri
  | predicate t range =>
    obtain rfl : t = iri := by simpa [FieldDescriptor.predicate?, hg'] using hiri
    show some (R.context.expand t) = some (R.context.expand Vocabulary.rdfType)
    rw [heq, Context.expand_rdfType]

end Registry

end EntityRdf
