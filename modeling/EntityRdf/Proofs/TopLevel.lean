import EntityRdf.Proofs.TypeFields

/-!
# What a decoding decodes at the top

The decoder takes the subjects that nothing refers to, in document order, and then
sweeps over all subjects for what is left over. Which subjects it takes can be told
without a run: the sweep takes a subject if no chain of references leads to it from
one taken before (`Registry.leftovers`, `Registry.tops`).

Where no field is mapped to the type predicate the sweep takes nothing
(`decode_eq_ok`). In general it takes subjects that only a type refers to, since no
run follows a type. So this module describes decoding for all registries:
`Registry.Unfolds` says to what a document decodes, by the instances of its tops in
the registry that leaves types alone.

Main results: `decode_eq_ok_iff`, by which the decoder succeeds exactly when the
document unfolds, and `exists_top` (the tops cover the document).
-/

namespace EntityRdf.Registry

open Progress

variable {R : Registry} {cfg : Config} {doc : Document} {p q : Progress} {l l' : List String}
  {es : List Instance} {s : String} {covered : String → Prop}

open Classical in
/-- The subjects of a list that are not covered. Each of them covers, for those after
it, what chains from it lead to. -/
noncomputable def leftovers (R : Registry) (doc : Document) :
    (String → Prop) → List String → List String
  | _, [] => []
  | covered, s :: rest =>
    if covered s then R.leftovers doc covered rest
    else s :: R.leftovers doc (fun u => covered u ∨ ∃ n, R.Reaches doc n s u) rest

/-- The subjects whose instances a decoding returns: those that nothing refers to, and
then what these leave over. -/
noncomputable def tops (R : Registry) (doc : Document) : List String :=
  R.rootSubjects doc ++ R.leaveTypes.leftovers doc
    (fun u => ∃ r ∈ R.rootSubjects doc, ∃ n, R.leaveTypes.Reaches doc n r u) doc.subjects

/-- The document decodes to the instances of its tops, within the limits. -/
structure Unfolds (R : Registry) (cfg : Config) (doc : Document) (es : List Instance) :
    Prop where
  /-- No subject has two blocks. -/
  nodup : doc.subjects.Nodup
  /-- The result are the instances of the tops. -/
  tops : List.Forall₂ (R.leaveTypes.Decodes cfg.strict doc) (R.tops doc) es
  /-- No chain from a top is too long. -/
  depth : ∀ r ∈ R.tops doc, ∀ n u, R.leaveTypes.Reaches doc n r u → n ≤ cfg.maxDepth
  /-- There are not too many entities. -/
  nodes : Instance.countAll es ≤ cfg.maxNodes

/-! ## The tops cover the document -/

/-- A subject is covered, or it is reached from one that is left over. -/
theorem exists_leftover (R : Registry) (covered : String → Prop) (hs : s ∈ l) :
    covered s ∨ ∃ r ∈ R.leftovers doc covered l, ∃ n, R.Reaches doc n r s := by
  induction l generalizing covered with
  | nil => simp at hs
  | cons t rest ih =>
    rw [leftovers]
    by_cases ht : covered t
    · rw [if_pos ht]
      rcases List.mem_cons.mp hs with rfl | hs
      · exact Or.inl ht
      · exact ih covered hs
    · rw [if_neg ht]
      rcases List.mem_cons.mp hs with rfl | hs
      · exact Or.inr ⟨s, List.mem_cons_self .., 0, .self s⟩
      · -- the rest is covered by what was covered, by this subject, or by a later one
        rcases ih (fun u => covered u ∨ ∃ n, R.Reaches doc n t u) hs with
          (hcovered | hreached) | ⟨r, hr, hreached⟩
        · exact Or.inl hcovered
        · exact Or.inr ⟨t, List.mem_cons_self .., hreached⟩
        · exact Or.inr ⟨r, List.mem_cons_of_mem _ hr, hreached⟩

/-- A chain from a top leads to every subject. -/
theorem exists_top (hs : s ∈ doc.subjects) :
    ∃ r ∈ R.tops doc, ∃ n, R.leaveTypes.Reaches doc n r s := by
  rcases exists_leftover R.leaveTypes
    (fun u => ∃ r ∈ R.rootSubjects doc, ∃ n, R.leaveTypes.Reaches doc n r u) hs with
    ⟨r, hr, hreached⟩ | ⟨r, hr, hreached⟩
  · exact ⟨r, List.mem_append_left _ hr, hreached⟩
  · exact ⟨r, List.mem_append_right _ hr, hreached⟩

/-- Where the tops decode, all subjects do. -/
theorem Unfolds.all (hR : R.Coherent) (h : R.Unfolds cfg doc es) (hs : s ∈ doc.subjects) :
    ∃ e, R.leaveTypes.Decodes cfg.strict doc s e := by
  obtain ⟨r, hr, n, hreached⟩ := exists_top (R := R) hs
  obtain ⟨e, -, he⟩ := exists_partner h.tops hr
  obtain ⟨x, hx, -⟩ := he.reaches (leaveTypes_coherent hR) hreached
  exact ⟨x, hx⟩

/-- Where a document unfolds, every block has been read. -/
theorem Unfolds.readable (hR : R.Coherent) (h : R.Unfolds cfg doc es) {b : Block}
    (hb : b ∈ doc.blocks) :
    ∃ d, R.blockClass? b = some d ∧ R.leaveTypes.Readable cfg.strict doc d.leaveTypes b := by
  obtain ⟨e, he⟩ := h.all hR (List.mem_map.mpr ⟨b, hb, rfl⟩)
  -- the subject has no other block than this one
  cases he with
  | intro hb' hd hread _ _ =>
    rw [Document.block?_of_mem h.nodup hb] at hb'
    obtain rfl := Option.some.inj hb'
    rw [blockClass?_leaveTypes] at hd
    obtain ⟨d', hd', rfl⟩ := Option.map_eq_some_iff.mp hd
    exact ⟨d', hd', hread⟩

/-! ## Runs over several subjects -/

theorem decodeRoots_cons_eq_ok :
    R.decodeRoots cfg doc p (s :: l) = .ok (es, q) ↔ ∃ e mid rest,
      R.decodeAt cfg doc [] p s = .ok (e, mid) ∧
      R.decodeRoots cfg doc mid l = .ok (rest, q) ∧ es = e :: rest := by
  rw [decodeRoots, bind_eq_ok]
  constructor
  · rintro ⟨⟨e, mid⟩, he, h⟩
    obtain ⟨⟨rest, last⟩, hrest, h⟩ := bind_eq_ok.mp h
    cases h
    exact ⟨e, mid, rest, he, hrest, rfl⟩
  · rintro ⟨e, mid, rest, he, hrest, rfl⟩
    exact ⟨(e, mid), he, bind_eq_ok.mpr ⟨(rest, q), hrest, rfl⟩⟩

/-- One list of roots after another. -/
theorem decodeRoots_append :
    R.decodeRoots cfg doc p (l ++ l') = .ok (es, q) ↔ ∃ es₁ mid es₂,
      R.decodeRoots cfg doc p l = .ok (es₁, mid) ∧
      R.decodeRoots cfg doc mid l' = .ok (es₂, q) ∧ es = es₁ ++ es₂ := by
  induction l generalizing p es with
  | nil =>
    constructor
    · intro h
      exact ⟨[], p, es, rfl, h, rfl⟩
    · rintro ⟨es₁, mid, es₂, h, h', rfl⟩
      cases h
      exact h'
  | cons s rest ih =>
    rw [List.cons_append]
    simp only [decodeRoots_cons_eq_ok, ih]
    constructor
    · rintro ⟨e, p', _, he, ⟨es₁, mid, es₂, hfirst, hsecond, rfl⟩, rfl⟩
      exact ⟨e :: es₁, mid, es₂, ⟨e, p', es₁, he, hfirst, rfl⟩, hsecond, rfl⟩
    · rintro ⟨_, mid, es₂, ⟨e, p', es₁, he, hfirst, rfl⟩, hsecond, rfl⟩
      exact ⟨e, p', _, he, ⟨es₁, mid, es₂, hfirst, hsecond, rfl⟩, rfl⟩

/-- The sweep decodes the leftovers and nothing else. -/
theorem decodeLeftovers_eq_ok (hR : R.Coherent) (hT : R.LeavesTypes) :
    R.decodeLeftovers cfg doc p l = .ok (es, q) ↔
      R.decodeRoots cfg doc p (R.leftovers doc (· ∈ p.done) l) = .ok (es, q) := by
  induction l generalizing p es with
  | nil => rfl
  | cons s rest ih =>
    rw [decodeLeftovers, leftovers]
    by_cases hs : s ∈ p.done
    · rw [if_pos (by simpa using hs), if_pos hs, ih]
    · rw [if_neg (by simpa using hs), if_neg hs, decodeRoots_cons_eq_ok, bind_eq_ok]
      -- the run has completed what chains lead to from the subject
      have hdone : ∀ {e mid}, R.decodeAt cfg doc [] p s = .ok (e, mid) →
          (· ∈ mid.done) = fun u => u ∈ p.done ∨ ∃ n, R.Reaches doc n s u := by
        intro e mid he
        funext u
        exact propext ((decodeAt_sound hR hT he).2.1.done u)
      constructor
      · rintro ⟨⟨e, mid⟩, he, h⟩
        obtain ⟨⟨rest', last⟩, hrest, h⟩ := bind_eq_ok.mp h
        cases h
        rw [ih, hdone he] at hrest
        exact ⟨e, mid, rest', he, hrest, rfl⟩
      · rintro ⟨e, mid, rest', he, hrest, rfl⟩
        rw [← hdone he, ← ih] at hrest
        exact ⟨(e, mid), he, bind_eq_ok.mpr ⟨(rest', q), hrest, rfl⟩⟩

/-! ## Whole documents -/

/-- Decoding is a run over the tops, once all blocks have classes. -/
theorem decode_eq_decodeRoots (hR : R.Coherent) :
    R.decode cfg doc = .ok es ↔
      doc.subjects.Nodup ∧ (∀ b ∈ doc.blocks, ∃ d, R.blockClass? b = some d) ∧
        ∃ q, R.leaveTypes.decodeRoots cfg doc .start (R.tops doc) = .ok (es, q) := by
  have hR' : R.leaveTypes.Coherent := leaveTypes_coherent hR
  have hT' : R.leaveTypes.LeavesTypes := leaveTypes_leavesTypes hR
  -- after the roots, what is completed is what chains lead to from them
  have hdone : ∀ {roots mid},
      R.leaveTypes.decodeRoots cfg doc .start (R.rootSubjects doc) = .ok (roots, mid) →
      (· ∈ mid.done) = fun u => ∃ r ∈ R.rootSubjects doc, ∃ n, R.leaveTypes.Reaches doc n r u := by
    intro roots mid h
    funext u
    have hmem := (decodeRoots_sound hR' hT' h).2.1.done u
    simpa [Progress.start] using hmem
  rw [decode]
  simp only [bind_eq_ok, Document.checkSubjects_eq_ok, referenced_eq_ok,
    ← decodeRoots_leaveTypes hR, ← decodeLeftovers_leaveTypes hR, decodeLeftovers_eq_ok hR' hT',
    tops, decodeRoots_append, Prod.exists]
  constructor
  · rintro ⟨-, hnodup, _, ⟨hclasses, rfl⟩, roots, mid, hroots, rest, last, hrest, h⟩
    cases h
    rw [hdone hroots] at hrest
    exact ⟨hnodup, hclasses, last, roots, mid, rest, hroots, hrest, rfl⟩
  · rintro ⟨hnodup, hclasses, last, roots, mid, rest, hroots, hrest, rfl⟩
    rw [← hdone hroots] at hrest
    exact ⟨(), hnodup, _, ⟨hclasses, rfl⟩, roots, mid, hroots, rest, last, hrest, rfl⟩

/-- Decoding succeeds exactly when the document unfolds, and returns what it unfolds
to. -/
theorem decode_eq_ok_iff (hR : R.Coherent) :
    R.decode cfg doc = .ok es ↔ R.Unfolds cfg doc es := by
  have hR' : R.leaveTypes.Coherent := leaveTypes_coherent hR
  have hT' : R.leaveTypes.LeavesTypes := leaveTypes_leavesTypes hR
  rw [decode_eq_decodeRoots hR]
  constructor
  · rintro ⟨hnodup, -, q, hq⟩
    -- the run starts from nothing, so it has counted just what it returns
    obtain ⟨hdecs, hadv, hdepth⟩ := decodeRoots_sound hR' hT' hq
    refine ⟨hnodup, hdecs, hdepth, ?_⟩
    have hle : q.built ≤ cfg.maxNodes := hadv.bounded (Nat.zero_le _)
    have hbuilt : q.built = 0 + Instance.countAll es := hadv.built
    omega
  · intro h
    refine ⟨h.nodup, fun b hb => ?_, ?_⟩
    · obtain ⟨d, hd, -⟩ := h.readable hR hb
      exact ⟨d, hd⟩
    · exact decodeRoots_complete hR' hT' h.tops h.depth (by simpa [Progress.start] using h.nodes)

end EntityRdf.Registry
