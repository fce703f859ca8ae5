import EntityRdf.Proofs.FailedRuns
import Mathlib.Logic.Relation

/-!
# Cycles of references are found, and nothing else is taken for one

Two facts tie a run of the decoder to the links between blocks. A subject that is
decoded is off the active path, and all that it links to is decoded on the path
extended by it (`decodeAt_links`): so walking along links never comes back. And the
active path is at all times a trail to the current subject (`fault_of_decodeAt`): so a
refusal names a loop of the graph (`Trail.isLoop`).

Main result: `decode_detects_cycles`.
-/

namespace EntityRdf

/-! ## Targets and fields, for any child decoder -/

section Child

variable {child : DecodeChild} {strict : Bool} {doc : Document} {subject field : String}
  {p q : Progress} {I : Progress → Prop}

/-- Decoding the targets of a field decodes each of them that has a block, and
keeps what the child decoder keeps. -/
theorem decodeTargets_asks (hchild : ∀ p t c q, child p t = .ok (c, q) → I p → I q)
    {os : List Object} {cs : List Instance}
    (h : decodeTargets child strict doc subject field p os = .ok (cs, q)) :
    (I p → I q) ∧ ∀ t ∈ doc.resolved os, ∃ p' r, child p' t = .ok r := by
  induction os generalizing p cs with
  | nil =>
    cases h
    exact ⟨id, by simp [Document.resolved]⟩
  | cons o rest ih =>
    cases o with
    | literal text => cases h
    | iri t =>
      rw [decodeTargets] at h
      rw [Document.resolved_cons_iri]
      split at h
      · -- the child keeps the property, and the rest starts from where it ended
        rename_i hsub
        obtain ⟨⟨c, mid⟩, hc, h⟩ := bind_eq_ok.mp h
        obtain ⟨⟨cs', last⟩, hcs, h⟩ := bind_eq_ok.mp h
        cases h
        obtain ⟨hkeep, hrest⟩ := ih hcs
        rw [if_pos hsub]
        exact ⟨fun hp => hkeep (hchild p t c mid hc hp),
          List.forall_mem_cons.mpr ⟨⟨p, _, hc⟩, hrest⟩⟩
      · rename_i hsub
        split at h
        · cases h
        · rw [if_neg hsub]
          exact ih h

/-- Decoding the fields of a block decodes each target of an entity field that
has a block. -/
theorem decodeFields_asks (hchild : ∀ p t c q, child p t = .ok (c, q) → I p → I q)
    {groups : List (FieldDescriptor × List Object)} {e e' : Instance}
    (h : decodeFields child strict doc subject p e groups = .ok (e', q)) :
    (I p → I q) ∧ ∀ g ∈ groups, g.1.range? = some .entity →
      ∀ t ∈ doc.resolved g.2, ∃ p' r, child p' t = .ok r := by
  induction groups generalizing p e with
  | nil =>
    cases h
    exact ⟨id, by simp⟩
  | cons g rest ih =>
    obtain ⟨f, os⟩ := g
    rw [decodeFields] at h
    -- the first field keeps the property up to where the others start
    obtain ⟨⟨v?, mid⟩, hv, h⟩ := bind_eq_ok.mp h
    obtain ⟨hkeep, hrest⟩ := ih h
    rw [decodeField] at hv
    split at hv
    · cases hv
    · split at hv
      · obtain ⟨⟨cs, last⟩, hcs, hv⟩ := bind_eq_ok.mp hv
        cases hv
        obtain ⟨hkeep', hfirst⟩ := decodeTargets_asks hchild hcs
        exact ⟨fun hp => hkeep (hkeep' hp), List.forall_mem_cons.mpr ⟨fun _ => hfirst, hrest⟩⟩
      · -- a literal field asks for nothing
        rename_i hr
        cases hv
        exact ⟨hkeep, List.forall_mem_cons.mpr ⟨fun hr' => absurd hr' hr, hrest⟩⟩

end Child

namespace Registry

variable {R : Registry} {cfg : Config} {doc : Document} {strict : Bool} {d : ClassDescriptor}
  {s t u : String} {path loop : List String} {p q : Progress} {e : Instance} {es : List Instance}

/-! ## Loops -/

/-- No chain of links leads from a subject back to it. -/
def Acyclic (R : Registry) (doc : Document) : Prop :=
  ∀ s, ¬ Relation.TransGen (R.Links doc) s s

/-- The path is a chain of links between different subjects whose end links to a
subject on it. -/
structure Loop (R : Registry) (doc : Document) (subject : String) (path : List String) :
    Prop where
  nonempty : path ≠ []
  subjects : ∀ s ∈ path, s ∈ doc.subjects
  distinct : path.Nodup
  chain : path.IsChain (R.Links doc)
  closing : ∀ s ∈ path.getLast?, R.Links doc s subject
  returns : subject ∈ path

/-! ## Runs that succeed -/

/-- The subject was decoded at some point of some run. -/
def Entered (R : Registry) (cfg : Config) (doc : Document) (s : String) : Prop :=
  ∃ path p r, R.decodeAt cfg doc path p s = .ok r

/-- A run completes only subjects that were decoded. -/
theorem done_of_decodeAt (h : R.decodeAt cfg doc path p s = .ok (e, q))
    (hp : ∀ u ∈ p.done, R.Entered cfg doc u) : ∀ u ∈ q.done, R.Entered cfg doc u := by
  -- on the blocks off the path, as the recursion itself
  induction hoff : offPath doc path using Nat.strongRecOn generalizing path p s e q with
  | ind off ih =>
    obtain ⟨-, -, hpath, b, d, pairs, last, hb, -, -, hfields, rfl⟩ := decodeAt_eq_ok.mp h
    have hlt : offPath doc (path ++ [s]) < off := hoff ▸ offPath_lt hb (by simpa using hpath)
    have hchild : ∀ p' t c q', R.decodeAt cfg doc (path ++ [s]) p' t = .ok (c, q') →
        (∀ u ∈ p'.done, R.Entered cfg doc u) → ∀ u ∈ q'.done, R.Entered cfg doc u :=
      fun p' t c q' hc hp' => ih _ hlt hc hp' rfl
    obtain ⟨hkeep, -⟩ := decodeFields_asks hchild hfields
    intro u hu
    rcases Progress.mem_done_complete.mp hu with hu | rfl
    · exact hkeep hp u hu
    · exact ⟨path, p, _, h⟩

/-- A subject that is decoded is off the path, and what it links to is decoded on
the path extended by it. -/
theorem decodeAt_links {r : Instance × Progress} (h : R.decodeAt cfg doc path p s = .ok r) :
    s ∉ path ∧ ∀ t, R.Links doc s t → ∃ p' r', R.decodeAt cfg doc (path ++ [s]) p' t = .ok r' := by
  obtain ⟨e, q⟩ := r
  obtain ⟨-, -, hpath, b, d, pairs, last, hb, hd, hpairs, hfields, -⟩ := decodeAt_eq_ok.mp h
  obtain ⟨-, hasked⟩ := decodeFields_asks (I := fun _ => True) (fun _ _ _ _ _ _ => trivial) hfields
  refine ⟨hpath, fun t ht => ?_⟩
  obtain ⟨g, hg, hr, ht⟩ := (links_iff_group hb hd hpairs).mp ht
  exact hasked g hg hr t ht

/-- No chain of links comes back to a subject that is decoded. -/
theorem Entered.no_return (h : R.Entered cfg doc s) : ¬ Relation.TransGen (R.Links doc) s s := by
  obtain ⟨path, p, r, h⟩ := h
  -- whatever the chain leads to is decoded on a path that has the subject
  have hbelow : ∀ u, Relation.TransGen (R.Links doc) s u →
      ∃ path' p' r', s ∈ path' ∧ R.decodeAt cfg doc path' p' u = .ok r' := by
    intro u hu
    induction hu with
    | single ht =>
      obtain ⟨p', r', hr'⟩ := (decodeAt_links h).2 _ ht
      exact ⟨path ++ [s], p', r', by simp, hr'⟩
    | @tail t u _ htu ih =>
      obtain ⟨path', p', r', hmem, hr'⟩ := ih
      obtain ⟨p'', r'', hr''⟩ := (decodeAt_links hr').2 _ htu
      exact ⟨path' ++ [t], p'', r'', List.mem_append_left _ hmem, hr''⟩
  intro hcycle
  obtain ⟨path', p', r', hmem, hr'⟩ := hbelow s hcycle
  exact (decodeAt_links hr').1 hmem

theorem entered_of_decodeRoots {l : List String} (h : R.decodeRoots cfg doc p l = .ok (es, q))
    (hp : ∀ u ∈ p.done, R.Entered cfg doc u) : ∀ u ∈ q.done, R.Entered cfg doc u := by
  induction l generalizing p es with
  | nil =>
    cases h
    exact hp
  | cons s rest ih =>
    rw [decodeRoots] at h
    obtain ⟨⟨e, mid⟩, he, h⟩ := bind_eq_ok.mp h
    obtain ⟨⟨es', last⟩, hes, h⟩ := bind_eq_ok.mp h
    cases h
    exact ih hes (done_of_decodeAt he hp)

/-- After the pass over the leftovers every subject of the list was decoded, as a
leftover or before. -/
theorem entered_of_decodeLeftovers {l : List String}
    (h : R.decodeLeftovers cfg doc p l = .ok (es, q))
    (hp : ∀ u ∈ p.done, R.Entered cfg doc u) : ∀ s ∈ l, R.Entered cfg doc s := by
  induction l generalizing p es with
  | nil => simp
  | cons s rest ih =>
    rw [decodeLeftovers] at h
    split at h
    · rename_i hs
      exact List.forall_mem_cons.mpr ⟨hp s (by simpa using hs), ih h hp⟩
    · obtain ⟨⟨e, mid⟩, he, h⟩ := bind_eq_ok.mp h
      obtain ⟨⟨es', last⟩, hes, h⟩ := bind_eq_ok.mp h
      cases h
      exact List.forall_mem_cons.mpr ⟨⟨[], p, _, he⟩, ih hes (done_of_decodeAt he hp)⟩

/-- A document that decodes has no cycle. -/
theorem acyclic_of_decode (h : R.decode cfg doc = .ok es) : R.Acyclic doc := by
  rw [decode] at h
  obtain ⟨_, -, h⟩ := bind_eq_ok.mp h
  obtain ⟨targets, -, h⟩ := bind_eq_ok.mp h
  obtain ⟨⟨roots, mid⟩, hroots, h⟩ := bind_eq_ok.mp h
  obtain ⟨⟨rest, last⟩, hrest, -⟩ := bind_eq_ok.mp h
  have hmid : ∀ u ∈ mid.done, R.Entered cfg doc u :=
    entered_of_decodeRoots hroots (by simp [Progress.start])
  have hall : ∀ s ∈ doc.subjects, R.Entered cfg doc s := entered_of_decodeLeftovers hrest hmid
  intro s hcycle
  obtain ⟨t, ht, -⟩ := Relation.TransGen.head'_iff.mp hcycle
  exact (hall s ht.mem_subjects).no_return hcycle

/-! ## Runs that end in a cycle -/

/-- A trail to a subject that is on it is a loop. -/
theorem Trail.isLoop (h : R.Trail doc path u) (hu : u ∈ path) : R.Loop doc u path := by
  obtain ⟨hpre, -, hlast⟩ := List.isChain_append.mp h.chain
  exact ⟨List.ne_nil_of_mem hu, h.subjects, h.distinct, hpre, fun t ht => hlast t ht u (by simp), hu⟩

/-- On a path that is a chain of links to the current subject, a cycle is
reported with a loop. -/
theorem loop_of_decodeAt (hchain : (path ++ [s]).IsChain (R.Links doc)) (hnodup : path.Nodup)
    (hsub : ∀ t ∈ path, t ∈ doc.subjects)
    (h : R.decodeAt cfg doc path p s = .error (.cycle u loop)) : R.Loop doc u loop := by
  rcases fault_of_decodeAt ⟨hnodup, hsub, hchain⟩ h with
    ⟨-, herr⟩ | ⟨b, -, hfault⟩ | ⟨path', s', htrail, hrun⟩
  · cases herr
  · exact absurd rfl (hfault.ne.1 u loop)
  · cases hrun with
    | cycle hmem => exact htrail.isLoop hmem

/-- A cycle that decoding reports was found below some subject that was decoded
with nothing on the path. -/
theorem cycle_of_decode
    (h : R.decode cfg doc = .error (.cycle u loop) ∨
      ∃ s, R.decodeSubject cfg doc s = .error (.cycle u loop)) :
    ∃ p s, R.decodeAt cfg doc [] p s = .error (.cycle u loop) := by
  have hcheck : doc.checkSubjects ≠ .error (.cycle u loop) := by
    rw [Document.checkSubjects]
    cases doc.repeatedSubjects <;> simp
  -- neither the check on subjects nor a missing class is a cycle
  rcases h with h | ⟨s, h⟩
  · rcases decode_error h with h | ⟨b, -, h⟩ | ⟨s, -, p, h⟩
    · exact absurd h hcheck
    · obtain herr | ⟨tag, herr⟩ := error_of_classOf h <;> cases herr
    · exact ⟨p, s, h⟩
  · rw [decodeSubject] at h
    rcases bind_eq_error.mp h with h | ⟨_, -, h⟩
    · exact absurd h hcheck
    split at h
    · rcases bind_eq_error.mp h with h | ⟨_, -, h⟩
      · exact ⟨.start, s, h⟩
      · cases h
    · cases h

/-- A loop is a cycle of the graph. -/
theorem Loop.cycle (h : R.Loop doc u path) : Relation.TransGen (R.Links doc) u u := by
  -- with the closing link the subject comes twice in one chain
  have hchain : (path ++ [u]).IsChain (R.Links doc) := by
    refine List.isChain_append.mpr ⟨h.chain, List.isChain_singleton _, ?_⟩
    intro x hx y hy
    obtain rfl : u = y := by simpa using hy
    exact h.closing x hx
  have hpairs : (path ++ [u]).Pairwise (Relation.TransGen (R.Links doc)) :=
    (hchain.imp fun _ _ => Relation.TransGen.single).pairwise
  exact (List.pairwise_append.mp hpairs).2.2 u h.returns u (List.mem_singleton_self u)

/-! ## Cycle detection -/

/-- Decoding finds every cycle, wherever it hangs and whatever the limits are:
what decodes has none. And what it reports as a cycle is one: the path is a chain
of links between different subjects that closes on one of them. So a document
without cycles is never refused for one. -/
theorem decode_detects_cycles (R : Registry) (cfg : Config) (doc : Document) :
    (∀ es, R.decode cfg doc = .ok es → R.Acyclic doc) ∧
    (∀ s path, (R.decode cfg doc = .error (.cycle s path) ∨
        ∃ root, R.decodeSubject cfg doc root = .error (.cycle s path)) → R.Loop doc s path) ∧
    (R.Acyclic doc → ∀ s path, R.decode cfg doc ≠ .error (.cycle s path) ∧
      ∀ root, R.decodeSubject cfg doc root ≠ .error (.cycle s path)) := by
  have hloop : ∀ s path, (R.decode cfg doc = .error (.cycle s path) ∨
      ∃ root, R.decodeSubject cfg doc root = .error (.cycle s path)) → R.Loop doc s path := by
    intro s path h
    obtain ⟨p, root, hroot⟩ := cycle_of_decode h
    exact loop_of_decodeAt (List.isChain_singleton root) List.nodup_nil (by simp) hroot
  refine ⟨fun es h => acyclic_of_decode h, hloop, fun hacyclic s path => ⟨fun h => ?_, ?_⟩⟩
  · exact hacyclic s (hloop s path (Or.inl h)).cycle
  · exact fun root h => hacyclic s (hloop s path (Or.inr ⟨root, h⟩)).cycle

/-- An asset by itself, beside two that contain each other. -/
def knot : Document := ⟨[
  ⟨"urn:r", [("rdf:type", .iri "urn:Asset")]⟩,
  ⟨"urn:a", [("rdf:type", .iri "urn:Asset"), ("urn:part", .iri "urn:b")]⟩,
  ⟨"urn:b", [("urn:part", .iri "urn:a"), ("rdf:type", .iri "urn:Asset")]⟩]⟩

/-- The two assets are found although no root leads to them. -/
theorem decode_detects_cycles_knot :
    assets.decode .default knot = .error (.cycle "urn:a" ["urn:a", "urn:b"]) ∧
      assets.Loop knot "urn:a" ["urn:a", "urn:b"] := by
  have hrun : assets.decode .default knot = .error (.cycle "urn:a" ["urn:a", "urn:b"]) := by
    decide +kernel
  exact ⟨hrun, (decode_detects_cycles assets .default knot).2.1 _ _ (Or.inl hrun)⟩

end Registry

end EntityRdf
