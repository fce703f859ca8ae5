import EntityRdf.Proofs.DecoderRun

/-!
# When a document decodes

`Registry.DecodesTo` says without any run when a document decodes and to what:
no subject is repeated, every subject has an instance, no chain of references
from a root is too long, the result are the instances of the roots in document
order, and they are few enough.

Main result: `decode_eq_ok`, by which the decoder succeeds exactly then. In
particular a successful decoding has visited every block, and the pass over
leftovers never adds an entity.
-/

namespace EntityRdf

/-- Nothing is reported as repeated where all subjects differ. -/
theorem Document.repeatedSubjects_eq_nil {doc : Document} :
    doc.repeatedSubjects = [] ↔ doc.subjects.Nodup := by
  -- of the subjects seen so far none may come again
  have hgo : ∀ seen l, repeatedSubjects.go seen l = [] ↔ l.Nodup ∧ ∀ s ∈ l, s ∉ seen := by
    intro seen l
    induction l generalizing seen with
    | nil => simp [repeatedSubjects.go]
    | cons s rest ih =>
      rw [repeatedSubjects.go, List.nodup_cons, List.forall_mem_cons]
      by_cases hs : s ∈ seen
      · simp [hs]
      · rw [if_neg (by simpa using hs), ih]
        constructor
        · rintro ⟨hnodup, hseen⟩
          refine ⟨⟨fun hmem => hseen s hmem (List.mem_cons_self ..), hnodup⟩, hs, ?_⟩
          exact fun t ht hmem => hseen t ht (List.mem_cons_of_mem _ hmem)
        · rintro ⟨⟨hnot, hnodup⟩, -, hseen⟩
          refine ⟨hnodup, fun t ht hmem => ?_⟩
          rcases List.mem_cons.mp hmem with rfl | hmem
          · exact hnot ht
          · exact hseen t ht hmem
  rw [repeatedSubjects, hgo]
  simp

/-- Decoding a document starts only if all subjects differ. -/
theorem Document.checkSubjects_eq_ok {doc : Document} {x : Unit} :
    doc.checkSubjects = .ok x ↔ doc.subjects.Nodup := by
  rw [checkSubjects, ← repeatedSubjects_eq_nil]
  cases doc.repeatedSubjects <;> simp

namespace Registry

open Progress

variable {R : Registry} {cfg : Config} {doc : Document} {p q : Progress} {l : List String}
  {es : List Instance} {b : Block}

/-- The document decodes to the instances within the limits. -/
structure DecodesTo (R : Registry) (cfg : Config) (doc : Document) (es : List Instance) :
    Prop where
  /-- No subject has two blocks. -/
  nodup : doc.subjects.Nodup
  /-- Every subject has an instance. -/
  all : ∀ s ∈ doc.subjects, ∃ e, R.Decodes cfg.strict doc s e
  /-- The result are the instances of the roots. -/
  roots : List.Forall₂ (R.Decodes cfg.strict doc) (R.rootSubjects doc) es
  /-- No chain from a root is too long. -/
  depth : ∀ r ∈ R.rootSubjects doc, ∀ n u, R.Reaches doc n r u → n ≤ cfg.maxDepth
  /-- There are not too many entities. -/
  nodes : Instance.countAll es ≤ cfg.maxNodes

/-- A decoding that succeeds has read every block. -/
theorem DecodesTo.readable (h : R.DecodesTo cfg doc es) (hb : b ∈ doc.blocks) :
    ∃ d, R.blockClass? b = some d ∧ R.Readable cfg.strict doc d b := by
  obtain ⟨e, he⟩ := h.all b.subject (List.mem_map.mpr ⟨b, hb, rfl⟩)
  cases he with
  | intro hb' hd hread _ _ =>
    rw [Document.block?_of_mem h.nodup hb] at hb'
    obtain rfl := Option.some.inj hb'
    exact ⟨_, hd, hread⟩

/-! ## Roots and leftovers -/

/-- Roots that are decoded decode, the run accounts for the instances and for all that is
reached, and no chain from a root is too long. -/
theorem decodeRoots_sound (hR : R.Coherent) (hT : R.LeavesTypes)
    (h : R.decodeRoots cfg doc p l = .ok (es, q)) :
    List.Forall₂ (R.Decodes cfg.strict doc) l es ∧
    Advances cfg.maxNodes p (Instance.countAll es)
      (fun u => ∃ r ∈ l, ∃ n, R.Reaches doc n r u) q ∧
    ∀ r ∈ l, ∀ n u, R.Reaches doc n r u → n ≤ cfg.maxDepth := by
  induction l generalizing p es with
  | nil =>
    cases h
    exact ⟨.nil, .refl _ _ (by simp), by simp⟩
  | cons s rest ih =>
    rw [decodeRoots] at h
    obtain ⟨⟨e, mid⟩, he, h⟩ := bind_eq_ok.mp h
    obtain ⟨⟨es', last⟩, hes, h⟩ := bind_eq_ok.mp h
    cases h
    -- the first root, then the others from where that run ended
    obtain ⟨hdec, hadv, hdeep⟩ := decodeAt_sound hR hT he
    obtain ⟨hdecs, hadvs, hdeeps⟩ := ih hes
    refine ⟨.cons hdec hdecs, ?_, List.forall_mem_cons.mpr ⟨fun n u hu => ?_, hdeeps⟩⟩
    · rw [Instance.countAll]
      exact hadv.trans hadvs fun u => by simp
    · simpa using hdeep n u hu

/-- Roots that decode are decoded, as far as chains and room allow. -/
theorem decodeRoots_complete (hR : R.Coherent) (hT : R.LeavesTypes)
    (h : List.Forall₂ (R.Decodes cfg.strict doc) l es)
    (hdepth : ∀ r ∈ l, ∀ n u, R.Reaches doc n r u → n ≤ cfg.maxDepth)
    (hnodes : p.built + Instance.countAll es ≤ cfg.maxNodes) :
    ∃ q, R.decodeRoots cfg doc p l = .ok (es, q) := by
  induction h generalizing p with
  | nil => exact ⟨p, rfl⟩
  | @cons s e rest es' hdec _ ih =>
    obtain ⟨hhead, htail⟩ := List.forall_mem_cons.mp hdepth
    rw [Instance.countAll] at hnodes
    -- a root is decoded with nothing on the path
    have hchains : ∀ n u, R.Reaches doc n s u →
        ([] : List String).length + n ≤ cfg.maxDepth ∧ u ∉ ([] : List String) :=
      fun n u hu => ⟨by simpa using hhead n u hu, by simp⟩
    obtain ⟨mid, hmid⟩ := decodeAt_complete (p := p) hR hT hdec hchains (by omega)
    have hbuilt : mid.built = p.built + e.count := (decodeAt_sound hR hT hmid).2.1.built
    obtain ⟨q, hq⟩ := ih htail (p := mid) (by omega)
    refine ⟨q, ?_⟩
    rw [decodeRoots]
    exact bind_eq_ok.mpr ⟨_, hmid, bind_eq_ok.mpr ⟨_, hq, rfl⟩⟩

/-- Nothing is left over where everything is completed. -/
theorem decodeLeftovers_eq_nil (h : ∀ s ∈ l, s ∈ p.done) :
    R.decodeLeftovers cfg doc p l = .ok ([], p) := by
  induction l with
  | nil => rfl
  | cons s rest ih =>
    obtain ⟨hs, hrest⟩ := List.forall_mem_cons.mp h
    rw [decodeLeftovers, if_pos (by simpa using hs), ih hrest]

/-- If the leftovers decode, then so does each of them. -/
theorem decodeLeftovers_sound (hR : R.Coherent) (hT : R.LeavesTypes)
    (hdone : ∀ u ∈ p.done, ∃ e, R.Decodes cfg.strict doc u e)
    (h : R.decodeLeftovers cfg doc p l = .ok (es, q)) :
    ∀ s ∈ l, ∃ e, R.Decodes cfg.strict doc s e := by
  induction l generalizing p es with
  | nil => simp
  | cons s rest ih =>
    rw [decodeLeftovers] at h
    split at h
    · rename_i hs
      exact List.forall_mem_cons.mpr ⟨hdone s (by simpa using hs), ih hdone h⟩
    · obtain ⟨⟨e, mid⟩, he, h⟩ := bind_eq_ok.mp h
      obtain ⟨⟨es', last⟩, hes, h⟩ := bind_eq_ok.mp h
      cases h
      obtain ⟨hdec, hadv, -⟩ := decodeAt_sound hR hT he
      refine List.forall_mem_cons.mpr ⟨⟨e, hdec⟩, ih (fun u hu => ?_) hes⟩
      -- what the run has completed is reached from a subject that decodes
      rcases (hadv.done u).mp hu with hu | ⟨n, hn⟩
      · exact hdone u hu
      · obtain ⟨x, hx, -⟩ := hdec.reaches hR hn
        exact ⟨x, hx⟩

/-- Where all subjects decode, decoding the roots completes them all. -/
theorem mem_done_of_decodeRoots (hR : R.Coherent) (hT : R.LeavesTypes)
    (hnodup : doc.subjects.Nodup) (hall : ∀ s ∈ doc.subjects, ∃ e, R.Decodes cfg.strict doc s e)
    (h : R.decodeRoots cfg doc p (R.rootSubjects doc) = .ok (es, q)) :
    ∀ s ∈ doc.subjects, s ∈ q.done := by
  obtain ⟨-, hadv, -⟩ := decodeRoots_sound hR hT h
  intro s hs
  obtain ⟨r, hr, n, hn⟩ := exists_root hR hnodup hall hs
  exact (hadv.done s).mpr (Or.inr ⟨r, hr, n, hn⟩)

/-! ## Whole documents -/

/-- Decoding succeeds exactly when the document decodes, and returns what it
decodes to. -/
theorem decode_eq_ok (hR : R.Coherent) (hT : R.LeavesTypes) :
    R.decode cfg doc = .ok es ↔ R.DecodesTo cfg doc es := by
  rw [decode]
  simp only [bind_eq_ok, Document.checkSubjects_eq_ok, referenced_eq_ok]
  constructor
  · rintro ⟨-, hnodup, _, ⟨-, rfl⟩, ⟨roots, mid⟩, hroots, ⟨rest, last⟩, hrest, h⟩
    cases h
    obtain ⟨hdecs, hadv, hdepth⟩ := decodeRoots_sound hR hT hroots
    -- what the roots have completed decodes, and so does the rest
    have hdone : ∀ u ∈ mid.done, ∃ e, R.Decodes cfg.strict doc u e := by
      intro u hu
      rcases (hadv.done u).mp hu with hu | ⟨r, hr, n, hn⟩
      · simp [Progress.start] at hu
      · obtain ⟨e, -, hdec⟩ := exists_partner hdecs hr
        obtain ⟨x, hx, -⟩ := hdec.reaches hR hn
        exact ⟨x, hx⟩
    have hall := decodeLeftovers_sound hR hT hdone hrest
    rw [decodeLeftovers_eq_nil (mem_done_of_decodeRoots hR hT hnodup hall hroots)] at hrest
    cases hrest
    rw [List.append_nil]
    -- with no leftovers, all that was built is in the instances of the roots
    refine ⟨hnodup, hall, hdecs, hdepth, ?_⟩
    have hle : mid.built ≤ cfg.maxNodes := hadv.bounded (Nat.zero_le _)
    rw [hadv.built] at hle
    exact Nat.le_trans (Nat.le_add_left ..) hle
  · intro h
    obtain ⟨mid, hroots⟩ := decodeRoots_complete (p := .start) hR hT h.roots h.depth
      (by simpa [Progress.start] using h.nodes)
    have hcompleted : ∀ s ∈ doc.subjects, s ∈ mid.done :=
      mem_done_of_decodeRoots hR hT h.nodup h.all hroots
    have hclasses : ∀ b ∈ doc.blocks, ∃ d, R.blockClass? b = some d := by
      intro b hb
      obtain ⟨d, hd, -⟩ := h.readable hb
      exact ⟨d, hd⟩
    refine ⟨(), h.nodup, _, ⟨hclasses, rfl⟩, (es, mid), hroots, ([], mid), ?_, ?_⟩
    · exact decodeLeftovers_eq_nil hcompleted
    · rw [List.append_nil]
      rfl

/-- Two blocks with types under a short spelling, a predicate that nothing maps,
and one reference that resolves twice and one that does not resolve. -/
def scattered : Document := ⟨[
  ⟨"urn:p", [("rdf:type", .iri "urn:Part"), ("urn:label", .literal "x")]⟩,
  ⟨"urn:a", [("urn:part", .iri "urn:p"), ("rdf:type", .iri "urn:Asset"),
    ("urn:seen", .literal "1"), ("urn:part", .iri "urn:gone"), ("urn:part", .iri "urn:p")]⟩]⟩

end Registry

end EntityRdf
