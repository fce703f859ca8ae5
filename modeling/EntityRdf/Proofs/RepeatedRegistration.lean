import EntityRdf.Proofs.DeclaredClasses
import EntityRdf.Proofs.RegistryRuns

/-!
# Making a registration again

The verdict on a registration is decided by what the registry records. The registration
changes nothing exactly if it says what is recorded (`Registry.Has`), and it is refused,
other than for want of its class, exactly if something recorded stands against it
(`Registry.Bars`). A registry only grows, so neither can cease to hold: what was accepted
once is accepted from then on and changes nothing, and what was refused stays refused, if
not always for the same reason.

Main result: `registration_verdicts_last`.
-/

namespace EntityRdf

/-- In a coherent class the predicate tells fields apart, the identity having none. -/
theorem ClassDescriptor.Coherent.eq_of_expanded_eq {ctx : Context} {d : ClassDescriptor}
    {f g : FieldDescriptor} (hd : d.Coherent ctx) (hf : f ∈ d.fields) (hg : g ∈ d.fields)
    (h : f.expanded = g.expanded) : f = g := by
  have hfind := find?_key_of_mem hd.predicates hf
  rw [h, find?_key_of_mem hd.predicates hg] at hfind
  exact (Option.some.inj hfind).symm

/-- A rival is a field of the class with the same predicate, or no predicate either. -/
theorem ClassDescriptor.mem_of_rival? {ctx : Context} {d : ClassDescriptor} {g : FieldDescriptor}
    {expanded : Option String} (hd : d.Coherent ctx) (h : d.rival? expanded = some g) :
    g ∈ d.fields ∧ g.expanded = expanded := by
  cases expanded with
  | none =>
    have hmem : g ∈ d.fields := List.mem_of_find?_eq_some h
    exact ⟨hmem, (hd.expanded_eq_none_iff hmem).mpr (List.find?_some h)⟩
  | some iri => exact Coherent.mem_of_fieldForPredicate? h

namespace Registry

variable {R R' R'' : Registry} {r : Registration} {rs : List Registration}

/-! ## What decides the verdict -/

/-- What the registration says is recorded. -/
def Has (R : Registry) : Registration → Prop
  | .classTag c tag => ∃ d, R.classes.get? c = some d ∧ d.tag = tag
  | .classField c f => ∃ d, R.classes.get? c = some d ∧ ∃ g ∈ d.fields, g.toFieldDeclaration = f

/-- What is recorded stands against the registration: the class has another tag, or the
tag another class; the class has another field with the name, or in the part. -/
def Bars (R : Registry) : Registration → Prop
  | .classTag c tag => (∃ d, R.classes.get? c = some d ∧ d.tag ≠ tag) ∨
      ∃ c', c' ≠ c ∧ R.owners.get? (R.context.expand tag) = some c'
  | .classField c f => ∃ d, R.classes.get? c = some d ∧ ∃ g ∈ d.fields,
      g.toFieldDeclaration ≠ f ∧ (g.name = f.name ∨ g.expanded = f.expandedIn R.context)

/-- After a registration that is not refused, what it says is recorded. -/
theorem has_of_register (h : R.register r = (R', none)) : R'.Has r := by
  cases r with
  | classTag c tag =>
    -- a class was there with the tag, or is there now
    replace h : R.registerClass c tag = (R', none) := h
    rw [registerClass] at h
    split at h
    · rename_i d hd
      split at h
      · rename_i htag
        obtain ⟨rfl, -⟩ := Prod.mk.inj h
        exact ⟨d, hd, htag⟩
      · cases h
    · split at h
      · cases h
      · obtain ⟨rfl, -⟩ := Prod.mk.inj h
        exact ⟨_, StringMap.get?_insert_self .., rfl⟩
  | classField c f =>
    obtain ⟨-, hrefused, -⟩ | ⟨d, d', hd, hadd, rfl⟩ := registerField_cases h
    · cases hrefused
    refine ⟨d', StringMap.get?_insert_self .., ?_⟩
    -- a field was there as it is said, or comes last now
    rw [ClassDescriptor.addField] at hadd
    split at hadd
    · rename_i g hg
      split at hadd
      · rename_i hsame
        obtain ⟨rfl, -⟩ := Prod.mk.inj hadd
        exact ⟨g, List.mem_of_find?_eq_some hg, hsame⟩
      · cases hadd
    · split at hadd
      · split at hadd <;> cases hadd
      · obtain ⟨rfl, -⟩ := Prod.mk.inj hadd
        exact ⟨_, List.mem_append_right _ (List.mem_singleton_self _), rfl⟩

/-- A registration that says what is recorded is accepted and changes nothing. -/
theorem Has.register_eq (hR : R.Coherent) (h : R.Has r) : R.register r = (R, none) := by
  cases r with
  | classTag c tag =>
    obtain ⟨d, hd, rfl⟩ := h
    show R.registerClass c d.tag = (R, none)
    rw [registerClass, hd]
    exact if_pos rfl
  | classField c f =>
    obtain ⟨d, hd, g, hg, rfl⟩ := h
    -- the field is found under its name, as it was declared
    have hfield : d.field? g.toFieldDeclaration.name = some g := (hR.fields hd).field?_name hg
    have hadd : d.addField R.context g.toFieldDeclaration = (d, none) := by
      rw [ClassDescriptor.addField, hfield]
      exact if_pos rfl
    show R.registerField c g.toFieldDeclaration = (R, none)
    rw [registerField_eq hd hadd, insert_recorded hd]

/-- A refusal that is not for want of the class has its reason in the record. -/
theorem bars_of_register (hR : R.Coherent) (hindex : R.Indexed) {err : MappingError}
    (h : R.register r = (R', some err)) (hknown : ∀ c, err ≠ .unknownClass c) : R.Bars r := by
  cases r with
  | classTag c tag =>
    replace h : R.registerClass c tag = (R', some err) := h
    rw [registerClass] at h
    split at h
    · rename_i d hd
      split at h
      · cases h
      · rename_i htag
        exact Or.inl ⟨d, hd, htag⟩
    · rename_i hclass
      split at h
      · rename_i owner howner
        refine Or.inr ⟨owner, ?_, howner⟩
        -- the owner is registered
        rintro rfl
        obtain ⟨d, hd, -⟩ := (hindex _ _).mp howner
        rw [hclass] at hd
        cases hd
      · cases h
  | classField c f =>
    obtain ⟨-, hrefused, -⟩ | ⟨d, d', hd, hadd, -⟩ := registerField_cases h
    · exact absurd (Option.some.inj hrefused) (hknown c)
    refine ⟨d, hd, ?_⟩
    rw [ClassDescriptor.addField] at hadd
    split at hadd
    · rename_i g hg
      split at hadd
      · cases hadd
      · rename_i hother
        have hname : g.name = f.name := by simpa using List.find?_some hg
        exact ⟨g, List.mem_of_find?_eq_some hg, hother, Or.inl hname⟩
    · rename_i hname
      split at hadd
      · rename_i g hg
        obtain ⟨hmem, hexpanded⟩ := ClassDescriptor.mem_of_rival? (hR.fields hd) hg
        refine ⟨g, hmem, ?_, Or.inr hexpanded⟩
        -- no field has the name
        rintro rfl
        have hnone := List.find?_eq_none.mp hname g hmem
        exact hnone (beq_self_eq_true _)
      · cases hadd

/-- What the record stands against is refused, and the record stays as it is. -/
theorem Bars.register_eq (hR : R.Coherent) (h : R.Bars r) :
    ∃ err, R.register r = (R, some err) ∧ ∀ c, err ≠ .unknownClass c := by
  suffices ∃ R' err, R.register r = (R', some err) ∧ ∀ c, err ≠ .unknownClass c by
    obtain ⟨R', err, hrefused, hknown⟩ := this
    obtain rfl := register_refused hrefused
    exact ⟨err, hrefused, hknown⟩
  cases r with
  | classTag c tag =>
    show ∃ R' err, R.registerClass c tag = (R', some err) ∧ _
    rw [registerClass]
    cases hd : R.classes.get? c with
    | some d =>
      -- the tag is not that of the class, which the class would own
      have htag : d.tag ≠ tag := by
        rintro rfl
        rcases h with ⟨d', hd', htag⟩ | ⟨c', hne, howner⟩
        · obtain rfl := Option.some.inj (hd.symm.trans hd')
          exact htag rfl
        · exact hne (Option.some.inj (howner.symm.trans (hR.owned hd)))
      exact ⟨_, _, if_neg htag, by simp⟩
    | none =>
      rcases h with ⟨d', hd', -⟩ | ⟨c', -, howner⟩
      · rw [hd] at hd'
        cases hd'
      · rw [howner]
        exact ⟨_, _, rfl, by simp⟩
  | classField c f =>
    obtain ⟨d, hd, g, hg, hother, hshared⟩ := h
    have hcoherent := hR.fields hd
    suffices ∃ d' err, d.addField R.context f = (d', some err) ∧ ∀ c, err ≠ .unknownClass c by
      obtain ⟨d', err, hadd, hknown⟩ := this
      exact ⟨_, err, registerField_eq hd hadd, hknown⟩
    rw [ClassDescriptor.addField]
    cases hfield : d.field? f.name with
    | some existing =>
      have hmem : existing ∈ d.fields := List.mem_of_find?_eq_some hfield
      -- were the field there as it is declared, it would be the other one
      have hdiffers : existing.toFieldDeclaration ≠ f := by
        rintro rfl
        refine hother (congrArg _ ?_)
        rcases hshared with hname | hexpanded
        · exact hcoherent.eq_of_name_eq hg hmem hname
        · refine hcoherent.eq_of_expanded_eq hg hmem ?_
          rw [hexpanded, hcoherent.expanded existing hmem]
      exact ⟨_, _, if_neg hdiffers, by simp⟩
    | none =>
      have hname : g.name ≠ f.name := by
        intro hname
        have hnone := List.find?_eq_none.mp hfield g hg
        exact hnone (by simpa using hname)
      have hexpanded : g.expanded = f.expandedIn R.context := hshared.resolve_left hname
      cases hrival : d.rival? (f.expandedIn R.context) with
      | none => exact absurd hexpanded (hcoherent.rival?_eq_none_iff.mp hrival g hg)
      | some other => cases f.mapping <;> exact ⟨_, _, rfl, by simp⟩

/-! ## Verdicts last -/

/-- A registry that grows twice has grown. -/
theorem Extends.trans (h : R.Extends R') (h' : R'.Extends R'') : R.Extends R'' := by
  refine ⟨h'.context.trans h.context, fun c d hd => ?_,
    fun tag c hc => h'.owners _ _ (h.owners _ _ hc)⟩
  obtain ⟨d', hd', hname, htag, hfields⟩ := h.classes c d hd
  obtain ⟨d'', hd'', hname', htag', hfields'⟩ := h'.classes c d' hd'
  exact ⟨d'', hd'', hname'.trans hname, htag'.trans htag, hfields.trans hfields'⟩

/-- A registry that has grown has what it had. -/
theorem Has.of_extends (h : R.Has r) (hgrown : R.Extends R') : R'.Has r := by
  cases r with
  | classTag c tag =>
    obtain ⟨d, hd, rfl⟩ := h
    obtain ⟨d', hd', -, htag, -⟩ := hgrown.classes c d hd
    exact ⟨d', hd', htag⟩
  | classField c f =>
    obtain ⟨d, hd, g, hg, hsame⟩ := h
    obtain ⟨d', hd', -, -, hfields⟩ := hgrown.classes c d hd
    exact ⟨d', hd', g, hfields.subset hg, hsame⟩

/-- What stood against a registration stands against it in a registry that has grown. -/
theorem Bars.of_extends (h : R.Bars r) (hgrown : R.Extends R') : R'.Bars r := by
  cases r with
  | classTag c tag =>
    rcases h with ⟨d, hd, hne⟩ | ⟨c', hne, howner⟩
    · obtain ⟨d', hd', -, htag, -⟩ := hgrown.classes c d hd
      exact Or.inl ⟨d', hd', htag ▸ hne⟩
    · refine Or.inr ⟨c', hne, ?_⟩
      rw [hgrown.context]
      exact hgrown.owners _ _ howner
  | classField c f =>
    obtain ⟨d, hd, g, hg, hother, hshared⟩ := h
    obtain ⟨d', hd', -, -, hfields⟩ := hgrown.classes c d hd
    refine ⟨d', hd', g, hfields.subset hg, hother, ?_⟩
    rwa [hgrown.context]

theorem run_append (R : Registry) (rs rs' : List Registration) :
    R.run (rs ++ rs') = (R.run rs).run rs' :=
  List.foldl_append

/-- A run only adds. -/
theorem run_extends (R : Registry) (rs : List Registration) : R.Extends (R.run rs) :=
  run_induction (.refl R) (fun h hr => h.trans (register_extends hr)) rs

/-- Registrations that are all accepted and change nothing go through. -/
theorem registerAll_of_forall (h : ∀ r ∈ rs, R.register r = (R, none)) :
    R.registerAll rs = .ok R := by
  induction rs with
  | nil => rfl
  | cons r rest ih =>
    obtain ⟨hr, hrest⟩ := List.forall_mem_cons.mp h
    rw [registerAll_cons hr, ih hrest]

/-! ## Runs from the empty registry -/

/-- A run makes the registration at some point, and this is the verdict: the error of the
refusal, or none. -/
def Meets (ctx : Context) (rs : List Registration) (r : Registration)
    (verdict : Option MappingError) : Prop :=
  ∃ earlier later, rs = earlier ++ r :: later ∧
    (((empty ctx).run earlier).register r).2 = verdict

variable {ctx : Context}

/-- What an accepted registration says is recorded from then on. -/
theorem Meets.has (h : Meets ctx rs r none) : ((empty ctx).run rs).Has r := by
  obtain ⟨earlier, later, rfl, hr⟩ := h
  have hthen : (((empty ctx).run earlier).register r).1.Has r := has_of_register (Prod.ext rfl hr)
  rw [run_append, run_cons]
  exact hthen.of_extends (run_extends _ later)

/-- What a registration was refused for stands against it from then on. -/
theorem Meets.bars {err : MappingError} (h : Meets ctx rs r (some err))
    (hknown : ∀ c, err ≠ .unknownClass c) : ((empty ctx).run rs).Bars r := by
  obtain ⟨earlier, later, rfl, hr⟩ := h
  have hthen : ((empty ctx).run earlier).Bars r :=
    bars_of_register (run_coherent (empty_coherent ctx) earlier)
      (run_indexed (empty_indexed ctx) earlier) (Prod.ext rfl hr) hknown
  rw [run_append]
  exact hthen.of_extends (run_extends _ (r :: later))

/-- In a chain of registrations that goes through, each is accepted. -/
theorem meets_of_registerAll {earlier later : List Registration}
    (h : ((empty ctx).run earlier).registerAll rs = .ok R') :
    ∀ r ∈ rs, Meets ctx (earlier ++ rs ++ later) r none := by
  induction rs generalizing earlier with
  | nil => simp
  | cons r rest ih =>
    obtain ⟨R₁, hr, hrest⟩ := registerAll_cons_eq_ok.mp h
    have hrun : (empty ctx).run (earlier ++ [r]) = R₁ := by
      rw [run_append_singleton, hr]
    rw [← hrun] at hrest
    refine List.forall_mem_cons.mpr ⟨⟨earlier, rest ++ later, by simp, by rw [hr]⟩, fun r' hr' => ?_⟩
    have hmeets := ih hrest r' hr'
    simpa using hmeets

/-- Verdicts last. Whatever registrations a registry has seen, one that was accepted at some
point is accepted again and leaves the registry as it is. One that was refused at some point,
other than for want of its class, is refused again and leaves it as it is too. So what was
accepted can be replayed, in any selection and order, and a chain of registrations that went
through as a whole. -/
theorem registration_verdicts_last (ctx : Context) (rs : List Registration) :
    (∀ r, Meets ctx rs r none →
      ((empty ctx).run rs).register r = ((empty ctx).run rs, none)) ∧
    (∀ r err, Meets ctx rs r (some err) → (∀ c, err ≠ .unknownClass c) →
      (∃ err', ((empty ctx).run rs).register r = ((empty ctx).run rs, some err') ∧
        ∀ c, err' ≠ .unknownClass c) ∧
      (empty ctx).run (rs ++ [r]) = (empty ctx).run rs) ∧
    (∀ again : List Registration, (∀ r ∈ again, Meets ctx rs r none) →
      ((empty ctx).run rs).registerAll again = .ok ((empty ctx).run rs)) ∧
    (∀ earlier chain later R', rs = earlier ++ chain ++ later →
      ((empty ctx).run earlier).registerAll chain = .ok R' →
        ((empty ctx).run rs).registerAll chain = .ok ((empty ctx).run rs)) := by
  have hR : ((empty ctx).run rs).Coherent := run_coherent (empty_coherent ctx) rs
  have haccepted : ∀ r, Meets ctx rs r none →
      ((empty ctx).run rs).register r = ((empty ctx).run rs, none) :=
    fun r h => h.has.register_eq hR
  have hreplayed : ∀ again : List Registration, (∀ r ∈ again, Meets ctx rs r none) →
      ((empty ctx).run rs).registerAll again = .ok ((empty ctx).run rs) :=
    fun again h => registerAll_of_forall fun r hr => haccepted r (h r hr)
  refine ⟨haccepted, fun r err h hknown => ?_, hreplayed, ?_⟩
  · obtain ⟨err', hagain, hknown'⟩ := (h.bars hknown).register_eq hR
    refine ⟨⟨err', hagain, hknown'⟩, ?_⟩
    rw [run_append_singleton, hagain]
  · rintro earlier chain later R' rfl hchain
    exact hreplayed chain (meets_of_registerAll hchain)

/-- A tag that is taken, and a second identity whose name is used otherwise afterwards. -/
def disputed : List Registration := [
  .classTag "Part" "urn:Part",
  .classTag "Asset" "urn:Part",
  .classTag "Asset" "urn:Asset",
  .classField "Asset" (.identity "id"),
  .classField "Asset" (.identity "key"),
  .classField "Asset" (.literal "key" "urn:key")]

theorem registration_verdicts_last_disputed :
    let R := (empty .streamPipes).run disputed
    R.register (.classTag "Asset" "urn:Asset") = (R, none) ∧
      (∃ err, R.register (.classTag "Asset" "urn:Part") = (R, some err) ∧
        ∀ c, err ≠ .unknownClass c) ∧
      (empty .streamPipes).run (disputed ++ [.classField "Asset" (.identity "key")]) = R ∧
      R.registerAll [.classField "Asset" (.identity "id"), .classTag "Part" "urn:Part"] = .ok R ∧
      R.registerAll [.classTag "Asset" "urn:Asset", .classField "Asset" (.identity "id")] =
        .ok R := by
  obtain ⟨haccepted, hrefused, hreplayed, hchain⟩ :=
    registration_verdicts_last .streamPipes disputed
  have hpart : Meets .streamPipes disputed (.classTag "Part" "urn:Part") none :=
    ⟨[], _, rfl, by decide +kernel⟩
  have htaken : Meets .streamPipes disputed (.classTag "Asset" "urn:Part")
      (some (.tagOwned "Asset" "urn:Part" "Part")) := ⟨disputed.take 1, _, rfl, by decide +kernel⟩
  have hasset : Meets .streamPipes disputed (.classTag "Asset" "urn:Asset") none :=
    ⟨disputed.take 2, _, rfl, by decide +kernel⟩
  have hid : Meets .streamPipes disputed (.classField "Asset" (.identity "id")) none :=
    ⟨disputed.take 3, _, rfl, by decide +kernel⟩
  have hkey : Meets .streamPipes disputed (.classField "Asset" (.identity "key"))
      (some (.secondIdentity "Asset" "id" "key")) := ⟨disputed.take 4, _, rfl, by decide +kernel⟩
  have hthrough : ((empty .streamPipes).run (disputed.take 2)).registerAll
      [.classTag "Asset" "urn:Asset", .classField "Asset" (.identity "id")] =
        .ok ((empty .streamPipes).run (disputed.take 4)) := by decide +kernel
  refine ⟨haccepted _ hasset, (hrefused _ _ htaken (by simp)).1, (hrefused _ _ hkey (by simp)).2,
    hreplayed _ fun r hr => ?_, hchain (disputed.take 2) _ (disputed.drop 4) _ rfl hthrough⟩
  rcases List.mem_pair.mp hr with rfl | rfl
  · exact hid
  · exact hpart

end Registry

end EntityRdf
