import EntityRdf.Proofs.Assembly
import Mathlib.Tactic.ByContra

/-!
# What a document says about a subject

`Registry.Decodes` relates a subject of a document to its instance without any
limit, path or progress: the block is readable, every resolved reference decodes,
and the instance is assembled from these. The decoder computes this relation
within its limits.

`Registry.Refers` are the resolved references between blocks, `Registry.Reaches`
the chains of them with their lengths. A subject that decodes is on no cycle,
because an instance is larger than what is nested in it; so if all subjects
decode, each is reached from a subject that nothing refers to.

Main results: `Decodes.unique`, `Decodes.reaches` (the size of an instance bounds
the chains from it) and `exists_root`.
-/

namespace EntityRdf

theorem Document.block?_of_mem {doc : Document} (h : doc.subjects.Nodup) {b : Block}
    (hb : b ∈ doc.blocks) : doc.block? b.subject = some b :=
  find?_key_of_mem (List.pairwise_map.mp h) hb

namespace Registry

variable {R : Registry} {strict : Bool} {doc : Document} {s t u : String} {e c : Instance}

/-- The document gives the subject the instance. -/
inductive Decodes (R : Registry) (strict : Bool) (doc : Document) : String → Instance → Prop
  | intro {s : String} {b : Block} {d : ClassDescriptor} {kids : String → Instance} {e : Instance}
      (hb : doc.block? s = some b) (hd : R.blockClass? b = some d)
      (hread : R.Readable strict doc d b)
      (hkids : ∀ t ∈ d.targets R.context b, t ∈ doc.subjects → Decodes R strict doc t (kids t))
      (he : R.Assembled doc d b kids e) : Decodes R strict doc s e

/-- The block of the first subject refers, in an entity field, to the second,
which has a block. -/
def Refers (R : Registry) (doc : Document) (s t : String) : Prop :=
  t ∈ doc.subjects ∧
    ∃ b d, doc.block? s = some b ∧ R.blockClass? b = some d ∧ t ∈ d.targets R.context b

/-- A chain of references, with its length. -/
inductive Reaches (R : Registry) (doc : Document) : Nat → String → String → Prop
  | self (s : String) : Reaches R doc 0 s s
  | step {n : Nat} {s t u : String} (hst : R.Refers doc s t) (htu : Reaches R doc n t u) :
      Reaches R doc (n + 1) s u

/-- What refers to something has a block. -/
theorem Refers.mem_subjects (h : R.Refers doc s t) : s ∈ doc.subjects := by
  obtain ⟨-, b, -, hb, -⟩ := h
  obtain ⟨hmem, rfl⟩ := Document.mem_of_block? hb
  exact List.mem_map.mpr ⟨b, hmem, rfl⟩

/-- A block refers to those of its targets that have a block. -/
theorem refers_iff_of_block {b : Block} {d : ClassDescriptor} (hb : doc.block? s = some b)
    (hd : R.blockClass? b = some d) :
    R.Refers doc s t ↔ t ∈ d.targets R.context b ∧ t ∈ doc.subjects := by
  constructor
  · rintro ⟨hsub, b', d', hb', hd', ht⟩
    obtain rfl := Option.some.inj (hb.symm.trans hb')
    obtain rfl := Option.some.inj (hd.symm.trans hd')
    exact ⟨ht, hsub⟩
  · rintro ⟨ht, hsub⟩
    exact ⟨hsub, b, d, hb, hd, ht⟩

/-- A chain is empty or starts with a reference. -/
theorem exists_reaches_iff :
    (∃ n, R.Reaches doc n s u) ↔ u = s ∨ ∃ t, R.Refers doc s t ∧ ∃ n, R.Reaches doc n t u := by
  constructor
  · rintro ⟨n, hn⟩
    cases hn with
    | self => exact Or.inl rfl
    | step hst htu => exact Or.inr ⟨_, hst, _, htu⟩
  · rintro (rfl | ⟨t, hst, n, htu⟩)
    · exact ⟨0, .self u⟩
    · exact ⟨n + 1, .step hst htu⟩

/-! ## Uniqueness -/

/-- A subject has at most one instance. -/
theorem Decodes.unique (h : R.Decodes strict doc s e) {e' : Instance}
    (h' : R.Decodes strict doc s e') : e = e' := by
  -- both instances come from the same block and the same class
  induction h generalizing e' with
  | intro hb hd _ _ he ih =>
    cases h' with
    | intro hb' hd' _ hkids' he' =>
      obtain rfl := Option.some.inj (hb.symm.trans hb')
      obtain rfl := Option.some.inj (hd.symm.trans hd')
      exact he.unique he' fun t ht hsub => ih t ht hsub (hkids' t ht hsub)

/-- The instance of a subject, where it has one. -/
noncomputable def decoded (R : Registry) (strict : Bool) (doc : Document) (s : String) : Instance :=
  Classical.epsilon (R.Decodes strict doc s)

/-- Choosing an instance for each subject chooses the right one, as there is only one. -/
theorem Decodes.decoded_eq (h : R.Decodes strict doc s e) :
    R.decoded strict doc s = e :=
  Decodes.unique (Classical.epsilon_spec ⟨e, h⟩) h

theorem Decodes.canonical (h : R.Decodes strict doc s e) : e.Canonical := by
  cases h with
  | intro _ _ _ _ he => exact he.canonical

/-- What decodes has a block. -/
theorem Decodes.mem_subjects (h : R.Decodes strict doc s e) : s ∈ doc.subjects := by
  cases h with
  | intro hb _ _ _ _ =>
    obtain ⟨hmem, rfl⟩ := Document.mem_of_block? hb
    exact List.mem_map.mpr ⟨_, hmem, rfl⟩

/-! ## References and nesting -/

/-- What is nested in the instance of a subject are the instances of the subjects
that it refers to. -/
theorem Decodes.mem_nested_iff (hR : R.Coherent) (h : R.Decodes strict doc s e) :
    c ∈ R.nested e ↔ ∃ t, R.Refers doc s t ∧ R.Decodes strict doc t c := by
  cases h with
  | @intro _ b d kids _ hb hd hread hkids he =>
    have hclass : R.classes.get? d.name = some d := hR.get?_of_blockClass? hd
    rw [he.mem_nested hclass hread]
    constructor
    · rintro ⟨t, ht, hsub, rfl⟩
      exact ⟨t, (refers_iff_of_block hb hd).mpr ⟨ht, hsub⟩, hkids t ht hsub⟩
    · rintro ⟨t, hst, hc⟩
      obtain ⟨ht, hsub⟩ := (refers_iff_of_block hb hd).mp hst
      exact ⟨t, ht, hsub, (hkids t ht hsub).unique hc⟩

/-- If a subject decodes, so does what it refers to. -/
theorem Decodes.refers (hR : R.Coherent) (h : R.Decodes strict doc s e)
    (ht : R.Refers doc s t) : ∃ c ∈ R.nested e, R.Decodes strict doc t c := by
  have hkid : ∃ c, R.Decodes strict doc t c := by
    cases h with
    | @intro _ b d kids _ hb hd _ hkids _ =>
      obtain ⟨ht, hsub⟩ := (refers_iff_of_block hb hd).mp ht
      exact ⟨kids t, hkids t ht hsub⟩
  obtain ⟨c, hc⟩ := hkid
  exact ⟨c, (h.mem_nested_iff hR).mpr ⟨t, ht, hc⟩, hc⟩

/-- A chain leads to a smaller instance, by one at least for each step. -/
theorem Decodes.reaches (hR : R.Coherent) {n : Nat} (h : R.Decodes strict doc s e)
    (hu : R.Reaches doc n s u) : ∃ x, R.Decodes strict doc u x ∧ sizeOf x + n ≤ sizeOf e := by
  induction hu generalizing e with
  | self s => exact ⟨e, h, Nat.le_refl _⟩
  | step hst _ ih =>
    obtain ⟨c, hc, ht⟩ := h.refers hR hst
    obtain ⟨x, hx, hle⟩ := ih ht
    have hlt : sizeOf c < sizeOf e := sizeOf_lt_of_mem_nested hc
    exact ⟨x, hx, by omega⟩

/-- A subject that decodes is on no cycle. -/
theorem Decodes.not_reaches_self (hR : R.Coherent) (h : R.Decodes strict doc s e)
    (hst : R.Refers doc s t) {n : Nat} : ¬ R.Reaches doc n t s := by
  intro hts
  -- the chain would make the instance smaller than itself
  obtain ⟨x, hx, hle⟩ := h.reaches hR (.step hst hts)
  obtain rfl := hx.unique h
  omega

/-- Instances that occur in the instance of a subject are those of the subjects
on the chains from it, at the same depth. -/
theorem Decodes.mem_preorder (hR : R.Coherent) (h : R.Decodes strict doc s e) {k n : Nat}
    {x : Instance} (hx : (n, x) ∈ R.preorder k e) :
    ∃ m u, n = k + m ∧ R.Reaches doc m s u ∧ R.Decodes strict doc u x := by
  induction hsize : sizeOf e using Nat.strongRecOn generalizing s e k with
  | ind size ih =>
    rcases Registry.mem_preorder.mp hx with ⟨rfl, rfl⟩ | ⟨c, hc, hx⟩
    · exact ⟨0, s, rfl, .self s, h⟩
    · obtain ⟨t, hst, ht⟩ := (h.mem_nested_iff hR).mp hc
      have hlt : sizeOf c < size := hsize ▸ sizeOf_lt_of_mem_nested hc
      obtain ⟨m, u, hn, htu, hu⟩ := ih (sizeOf c) hlt ht hx rfl
      exact ⟨m + 1, u, by omega, .step hst htu, hu⟩

/-! ## Chains -/

/-- A chain is also extended at its end. -/
theorem Reaches.snoc {n : Nat} (h : R.Reaches doc n s t) (htu : R.Refers doc t u) :
    R.Reaches doc (n + 1) s u := by
  induction h with
  | self s => exact .step htu (.self u)
  | step hst _ ih => exact .step hst (ih htu)

/-- Where one document has the references of another, it has the chains. -/
theorem Reaches.imp {R' : Registry} {doc' : Document} {n : Nat}
    (himp : ∀ {s t}, R.Refers doc s t → R'.Refers doc' s t) (h : R.Reaches doc n s u) :
    R'.Reaches doc' n s u := by
  induction h with
  | self s => exact .self s
  | step hst _ ih => exact .step (himp hst) ih

/-- A chain does not leave the document. -/
theorem Reaches.mem_subjects {n : Nat} (h : R.Reaches doc n s u) (hs : s ∈ doc.subjects) :
    u ∈ doc.subjects := by
  induction h with
  | self s => exact hs
  | step hst _ ih => exact ih hst.1

/-! ## Roots -/

/-- The references of a block in entity fields, if its class is known. -/
def targetsOf (R : Registry) (b : Block) : List String :=
  match R.blockClass? b with
  | some d => d.targets R.context b
  | none => []

/-- The subjects that no block refers to. -/
def rootSubjects (R : Registry) (doc : Document) : List String :=
  doc.subjects.filter (!(doc.blocks.flatMap R.targetsOf).contains ·)

/-- The decoder knows all references as soon as all blocks have classes. -/
theorem referenced_eq_ok {targets : List String} :
    R.referenced doc = .ok targets ↔
      (∀ b ∈ doc.blocks, ∃ d, R.blockClass? b = some d) ∧
        targets = doc.blocks.flatMap R.targetsOf := by
  have hblock : ∀ b ∈ doc.blocks, ∀ ts,
      (do let d ← R.classOf b; return d.targets R.context b : Except MappingError _) = .ok ts ↔
        (∃ d, R.blockClass? b = some d) ∧ ts = R.targetsOf b := by
    intro b _ ts
    simp only [bind_eq_ok, classOf_eq_ok, targetsOf]
    constructor
    · rintro ⟨d, hd, hts⟩
      cases hts
      rw [hd]
      exact ⟨⟨d, rfl⟩, rfl⟩
    · rintro ⟨⟨d, hd⟩, rfl⟩
      rw [hd]
      exact ⟨d, rfl, rfl⟩
  rw [referenced, bind_eq_ok]
  -- the references are collected block by block, which fails only for want of a class
  simp only [mapM_eq_ok_iff hblock]
  constructor
  · rintro ⟨l, ⟨hall, rfl⟩, h⟩
    cases h
    exact ⟨hall, (List.flatMap_def ..).symm⟩
  · rintro ⟨hall, rfl⟩
    exact ⟨_, ⟨hall, rfl⟩, by rw [List.flatMap_def]; rfl⟩

/-- Without repeated subjects, the references of all blocks to subjects of the
document are what some subject refers to. -/
theorem mem_targetsOf_iff (hnodup : doc.subjects.Nodup) (hs : s ∈ doc.subjects) :
    s ∈ doc.blocks.flatMap R.targetsOf ↔ ∃ t, R.Refers doc t s := by
  rw [List.mem_flatMap]
  constructor
  · rintro ⟨b, hb, ht⟩
    rw [targetsOf] at ht
    split at ht
    · rename_i d hd
      exact ⟨b.subject, hs, b, d, Document.block?_of_mem hnodup hb, hd, ht⟩
    · simp at ht
  · rintro ⟨t, -, b, d, hb, hd, ht⟩
    refine ⟨b, (Document.mem_of_block? hb).1, ?_⟩
    rw [targetsOf, hd]
    exact ht

/-- The roots are the subjects that nothing refers to. -/
theorem mem_rootSubjects (hnodup : doc.subjects.Nodup) :
    s ∈ R.rootSubjects doc ↔ s ∈ doc.subjects ∧ ∀ t, ¬ R.Refers doc t s := by
  rw [rootSubjects, List.mem_filter]
  refine and_congr_right fun hs => ?_
  rw [← not_exists, ← mem_targetsOf_iff hnodup hs]
  simp

/-- The instances of finitely many subjects are bounded in size. -/
private theorem exists_size_bound (R : Registry) (strict : Bool) (doc : Document)
    (l : List String) : ∃ m, ∀ s ∈ l, ∀ e, R.Decodes strict doc s e → sizeOf e ≤ m := by
  induction l with
  | nil => exact ⟨0, by simp⟩
  | cons s rest ih =>
    obtain ⟨m, hm⟩ := ih
    -- a subject has one instance at most, so it adds one size
    by_cases h : ∃ e, R.Decodes strict doc s e
    · obtain ⟨e, he⟩ := h
      refine ⟨m + sizeOf e, List.forall_mem_cons.mpr ⟨fun e' he' => ?_, fun t ht c hc => ?_⟩⟩
      · rw [he'.unique he]
        omega
      · have := hm t ht c hc
        omega
    · exact ⟨m, List.forall_mem_cons.mpr ⟨fun e he => absurd ⟨e, he⟩ h, hm⟩⟩

/-- If all subjects decode, each is reached from a root: going up the references
makes instances larger, so it comes to an end. -/
theorem exists_root (hR : R.Coherent) (hnodup : doc.subjects.Nodup)
    (hall : ∀ s ∈ doc.subjects, ∃ e, R.Decodes strict doc s e) (hs : s ∈ doc.subjects) :
    ∃ r ∈ R.rootSubjects doc, ∃ n, R.Reaches doc n r s := by
  obtain ⟨m, hm⟩ := exists_size_bound R strict doc doc.subjects
  obtain ⟨e, he⟩ := hall s hs
  -- on the room that is left below the bound
  induction hroom : m - sizeOf e using Nat.strongRecOn generalizing s e with
  | ind room ih =>
    by_cases hroot : ∃ t, R.Refers doc t s
    · obtain ⟨t, hts⟩ := hroot
      have ht : t ∈ doc.subjects := hts.mem_subjects
      obtain ⟨x, hx⟩ := hall t ht
      obtain ⟨c, hc, hsc⟩ := hx.refers hR hts
      obtain rfl := hsc.unique he
      have hlt : sizeOf c < sizeOf x := sizeOf_lt_of_mem_nested hc
      have hle : sizeOf x ≤ m := hm t ht x hx
      obtain ⟨r, hr, n, hrt⟩ := ih (m - sizeOf x) (by omega) ht x hx rfl
      exact ⟨r, hr, n + 1, hrt.snoc hts⟩
    · have hnone : ∀ t, ¬ R.Refers doc t s := fun t ht => hroot ⟨t, ht⟩
      exact ⟨s, (mem_rootSubjects hnodup).mpr ⟨hs, hnone⟩, 0, .self s⟩

end Registry

end EntityRdf
