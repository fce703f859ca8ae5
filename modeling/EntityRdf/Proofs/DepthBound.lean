import EntityRdf.Proofs.FailedRuns
import EntityRdf.Proofs.RoundTrip

/-!
# The depth limit in encoding and in decoding

The encoder compares depths only where it writes a block. It does not look below a
block that is there already, so an instance that occurs again further down takes what
is nested in it below the limit unnoticed. The decoder builds that instance in both
places and refuses the document (`unnoticed_depth`).

The encoder notices all depths if it meets every subject first where it is deepest
(`Registry.FirstDeepest`). Its pending list is a stack, deepest instances first
(`Registry.Stacked`). So when an instance is met again no deeper than before, all that
is nested in its first occurrence has been written, at the depths that count.

In the other direction the references in an encoded document follow the nesting of its
list. A trail is therefore no longer than the list is deep (`Trail.exists_occurrence`),
and the decoder refuses only what is indeed too deep.

Main result: `encodeAll_bounds_depth`.
-/

namespace EntityRdf.Registry

variable {R : Registry} {cfg : Config} {l : List Instance} {doc doc' : Document} {m n : Nat}
  {e x y c : Instance} {b : Block} {s t : String} {path : List String}
  {work rest : List (Nat × Instance)}

/-! ## Depths in the order of the encoder -/

/-- No subject occurs deeper than where it comes first. -/
def FirstDeepest (R : Registry) (occ : List (Nat × Instance)) : Prop :=
  ∀ q ∈ occ, ∀ p ∈ occ.find? (fun p => R.subject p.2 == R.subject q.2), q.1 ≤ p.1

/-- All that occurs in the pending instances, in the order in which the encoder would
meet it. -/
def pending (R : Registry) (work : List (Nat × Instance)) : List (Nat × Instance) :=
  work.flatMap fun w => R.preorder w.1 w.2

theorem pending_cons (R : Registry) (n : Nat) (e : Instance) (rest : List (Nat × Instance)) :
    R.pending ((n, e) :: rest) = R.preorder n e ++ R.pending rest := List.flatMap_cons

/-- A pending instance comes before what is nested in it. -/
theorem pending_cons_nested (R : Registry) (n : Nat) (e : Instance)
    (rest : List (Nat × Instance)) :
    R.pending ((n, e) :: rest) =
      (n, e) :: R.pending ((R.nested e).map (n + 1, ·) ++ rest) := by
  unfold pending
  rw [List.flatMap_cons, preorder_eq, List.flatMap_append, List.flatMap_map, List.cons_append]

/-- When the encoder starts, everything is pending. -/
theorem pending_top (R : Registry) (l : List Instance) :
    R.pending (l.map (0, ·)) = R.occurrences l := List.flatMap_map ..

/-- The encoder in the middle of a run. The pending instances are a stack. A subject
that is written was met at least as deep as it is pending, and what is nested there is
written or pending. -/
structure Stacked (R : Registry) (l : List Instance) (doc : Document)
    (work : List (Nat × Instance)) : Prop where
  /-- The deepest instances come first. -/
  sorted : work.Pairwise fun v w => w.1 ≤ v.1
  /-- What is pending occurs in the list. -/
  occurs : ∀ p ∈ R.pending work, R.OccursIn l p.2
  /-- No new subject is pending deeper than where it comes first. -/
  falling : ∀ q ∈ R.pending work, R.subject q.2 ∈ doc.subjects ∨
    ∀ p ∈ (R.pending work).find? (fun p => R.subject p.2 == R.subject q.2), q.1 ≤ p.1
  /-- Where the subjects of the document were met. -/
  written : ∀ s ∈ doc.subjects, ∃ k y, R.OccursIn l y ∧ R.subject y = s ∧
    (∀ p ∈ R.pending work, R.subject p.2 = s → p.1 ≤ k) ∧
    ∀ c ∈ R.nested y, (k + 1, c) ∈ work ∨ R.subject c ∈ doc.subjects

namespace Stacked

/-- So the encoder starts. -/
theorem start (h : R.FirstDeepest (R.occurrences l)) : R.Stacked l .empty (l.map (0, ·)) := by
  refine ⟨?_, ?_, ?_, ?_⟩
  · rw [List.pairwise_map]
    exact List.pairwise_of_forall fun _ _ => Nat.le_refl 0
  · intro p hp
    rw [pending_top] at hp
    exact ⟨p.1, hp⟩
  · intro q hq
    rw [pending_top] at hq ⊢
    exact Or.inr (h q hq)
  · intro s hs
    simp [Document.empty, Document.subjects] at hs

/-- Where a subject is new, it is pending no deeper than at the top of the stack. -/
theorem le_of_new (h : R.Stacked l doc ((n, e) :: rest)) (hnew : R.subject e ∉ doc.subjects)
    {p : Nat × Instance} (hp : p ∈ R.pending ((n, e) :: rest)) (hs : R.subject p.2 = R.subject e) :
    p.1 ≤ n := by
  rcases h.falling p hp with hold | hfirst
  · exact absurd (hs ▸ hold) hnew
  · refine hfirst (n, e) ?_
    rw [pending_cons_nested]
    exact List.find?_cons_of_pos (by simp [hs])

/-- A new subject is written, and what is nested in the instance comes next. -/
theorem fresh (h : R.Stacked l doc ((n, e) :: rest)) (hs : R.subject e = b.subject)
    (hnew : b.subject ∉ doc.subjects) :
    R.Stacked l (doc.push b) ((R.nested e).map (n + 1, ·) ++ rest) := by
  have hpending := pending_cons_nested R n e rest
  have hlater : ∀ p ∈ R.pending ((R.nested e).map (n + 1, ·) ++ rest),
      p ∈ R.pending ((n, e) :: rest) := by
    intro p hp
    rw [hpending]
    exact List.mem_cons_of_mem _ hp
  have hkept : ∀ {u}, u ∈ doc.subjects → u ∈ (doc.push b).subjects := by
    intro u hu
    rw [Document.subjects_push]
    exact List.mem_append_left _ hu
  have hself : R.subject e ∈ (doc.push b).subjects := by
    rw [Document.subjects_push, hs]
    exact List.mem_append_right _ (List.mem_singleton_self _)
  obtain ⟨hhead, htail⟩ := List.pairwise_cons.mp h.sorted
  refine ⟨?_, fun p hp => h.occurs p (hlater p hp), fun q hq => ?_, fun u hu => ?_⟩
  · -- what is nested is one level deeper than the top, and the rest is not
    refine List.pairwise_append.mpr ⟨?_, htail, ?_⟩
    · rw [List.pairwise_map]
      exact List.pairwise_of_forall fun _ _ => Nat.le_refl _
    · intro v hv w hw
      obtain ⟨c, -, rfl⟩ := List.mem_map.mp hv
      have : w.1 ≤ n := hhead w hw
      show w.1 ≤ n + 1
      omega
  · rcases h.falling q (hlater q hq) with hold | hfirst
    · exact Or.inl (hkept hold)
    · by_cases hq' : R.subject e = R.subject q.2
      · exact Or.inl (hq' ▸ hself)
      · -- the top was not the first of this subject
        rw [hpending, List.find?_cons_of_neg (by simpa using hq')] at hfirst
        exact Or.inr hfirst
  · rw [Document.subjects_push] at hu
    rcases List.mem_append.mp hu with hu | hu
    · obtain ⟨k, y, hy, hys, hdeep, hkids⟩ := h.written u hu
      refine ⟨k, y, hy, hys, fun p hp => hdeep p (hlater p hp), fun c hc => ?_⟩
      -- a nested instance that was on top of the stack has been written now
      rcases hkids c hc with hwork | hold
      · rcases List.mem_cons.mp hwork with htop | hrest
        · obtain ⟨-, rfl⟩ := Prod.mk.inj htop
          exact Or.inr hself
        · exact Or.inl (List.mem_append_right _ hrest)
      · exact Or.inr (hkept hold)
    · obtain rfl := List.mem_singleton.mp hu
      have he : R.OccursIn l e := h.occurs (n, e) (by rw [hpending]; exact List.mem_cons_self ..)
      refine ⟨n, e, he, hs, fun p hp hps => ?_, fun c hc => ?_⟩
      · exact h.le_of_new (hs ▸ hnew) (hlater p hp) (hps.trans hs.symm)
      · exact Or.inl (List.mem_append_left _ (List.mem_map.mpr ⟨c, hc, rfl⟩))

/-- Below an instance whose subject is written, all subjects are. -/
theorem settled (h : R.Stacked l doc ((n, e) :: rest))
    (hkeep : ∀ x, R.OccursIn l x → R.Keeps doc' x) (hold : R.subject e ∈ doc.subjects)
    {p : Nat × Instance} (hp : p ∈ R.preorder n e) : R.subject p.2 ∈ doc.subjects := by
  -- downwards, and never above the depth of the top
  have hwalk : n ≤ p.1 ∧ R.subject p.2 ∈ doc.subjects := by
    refine preorder_induction (motive := fun k x => n ≤ k ∧ R.subject x ∈ doc.subjects)
      ⟨Nat.le_refl n, hold⟩ ?_ hp
    rintro k x c hx ⟨hk, hs⟩ hc
    refine ⟨by omega, ?_⟩
    have hpending : (k, x) ∈ R.pending ((n, e) :: rest) := by
      rw [pending_cons]
      exact List.mem_append_left _ hx
    have hxl : R.OccursIn l x := h.occurs _ hpending
    obtain ⟨j, y, hyl, hys, hdeep, hkids⟩ := h.written _ hs
    have hkj : k ≤ j := hdeep _ hpending rfl
    -- the occurrence that was written has the same block
    obtain ⟨b, hb, -⟩ := hkeep x hxl
    have hyb : R.blockOf y = .ok b := by
      obtain ⟨b', hb', -⟩ := hkeep y hyl
      have hsubject : b'.subject = b.subject := by
        rw [← subject_eq (subjectOf_of_blockOf hb), ← subject_eq (subjectOf_of_blockOf hb'), hys]
      have heq := (hkeep y hyl).blockOf_eq (hkeep x hxl) (subjectOf_of_blockOf hb')
        (hsubject ▸ subjectOf_of_blockOf hb)
      rw [heq, hb]
    obtain ⟨t, iri, hct, hiri⟩ := blockOf_nested hb hc
    obtain ⟨c', hc', hct'⟩ := nested_of_blockOf hyb hiri
    rw [subject_eq hct, ← subject_eq hct']
    refine (hkids c' hc').resolve_left fun hwork => ?_
    -- nothing pending is deeper than the top, but this would be
    have hle : j + 1 ≤ n := by
      rcases List.mem_cons.mp hwork with htop | hrest
      · obtain ⟨rfl, -⟩ := Prod.mk.inj htop
        exact Nat.le_refl _
      · exact (List.pairwise_cons.mp h.sorted).1 _ hrest
    omega
  exact hwalk.2

/-- An instance whose subject is written is dropped with all that is nested in it. -/
theorem again (h : R.Stacked l doc ((n, e) :: rest))
    (hkeep : ∀ x, R.OccursIn l x → R.Keeps doc' x) (hold : R.subject e ∈ doc.subjects) :
    R.Stacked l doc rest := by
  -- nothing is pending that was not so before
  have hlater : ∀ p ∈ R.pending rest, p ∈ R.pending ((n, e) :: rest) := by
    intro p hp
    rw [pending_cons]
    exact List.mem_append_right _ hp
  refine ⟨(List.pairwise_cons.mp h.sorted).2, fun p hp => h.occurs p (hlater p hp),
    fun q hq => ?_, fun u hu => ?_⟩
  · by_cases hq' : R.subject q.2 ∈ doc.subjects
    · exact Or.inl hq'
    · -- a new subject does not come in what is dropped
      have hnone : (R.preorder n e).find? (fun p => R.subject p.2 == R.subject q.2) = none := by
        refine List.find?_eq_none.mpr fun p hp heq => hq' ?_
        rw [← eq_of_beq heq]
        exact h.settled hkeep hold hp
      have hfirst := (h.falling q (hlater q hq)).resolve_left hq'
      rw [pending_cons, List.find?_append, hnone, Option.none_or] at hfirst
      exact Or.inr hfirst
  · obtain ⟨k, y, hy, hys, hdeep, hkids⟩ := h.written u hu
    refine ⟨k, y, hy, hys, fun p hp => hdeep p (hlater p hp), fun c hc => ?_⟩
    rcases hkids c hc with hwork | hold'
    · rcases List.mem_cons.mp hwork with htop | hrest
      · obtain ⟨-, rfl⟩ := Prod.mk.inj htop
        exact Or.inr hold
      · exact Or.inl hrest
    · exact Or.inr hold'

end Stacked

/-- What is pending keeps to the limit, unless its subject was written before. -/
theorem Writes.depth_le (h : R.Writes m doc work doc') (hst : R.Stacked l doc work)
    {final : Document} (hkeep : ∀ x, R.OccursIn l x → R.Keeps final x) :
    ∀ p ∈ R.pending work, p.1 ≤ m ∨ R.subject p.2 ∈ doc.subjects := by
  induction h with
  | done doc => simp [pending]
  | @again doc doc' n e b rest hn hb hold _ ih =>
    -- a block that is there was written for the subject of the instance
    have hs : R.subject e ∈ doc.subjects := by
      obtain ⟨hmem, -⟩ := Document.mem_of_block? hold
      rw [subject_eq (subjectOf_of_blockOf hb)]
      exact List.mem_map.mpr ⟨b, hmem, rfl⟩
    intro p hp
    rw [pending_cons] at hp
    rcases List.mem_append.mp hp with hp | hp
    · exact Or.inr (hst.settled hkeep hs hp)
    · exact ih (hst.again hkeep hs) p hp
  | @fresh doc doc' n e b rest hn hb hnew _ ih =>
    -- a new block is within the limit, and what is nested becomes pending
    have hs : R.subject e = b.subject := subject_eq (subjectOf_of_blockOf hb)
    have hnot : b.subject ∉ doc.subjects := Document.block?_eq_none_iff.mp hnew
    intro p hp
    have hp' := hp
    rw [pending_cons_nested] at hp
    rcases List.mem_cons.mp hp with rfl | hp
    · exact Or.inl hn
    · rcases ih (hst.fresh hs hnot) p hp with hle | hmem
      · exact Or.inl hle
      · rw [Document.subjects_push] at hmem
        rcases List.mem_append.mp hmem with hmem | hmem
        · exact Or.inr hmem
        · -- the subject of the top comes again, but no deeper
          obtain hps := List.mem_singleton.mp hmem
          have hle : p.1 ≤ n := hst.le_of_new (hs ▸ hnot) hp' (hps.trans hs.symm)
          exact Or.inl (Nat.le_trans hle hn)

/-- If nothing is lost and every subject comes first where it is deepest, the encoder
has noticed all depths. -/
theorem encodeAll_depth_le (h : R.encodeAll cfg l = .ok doc) (hl : R.Transparent l)
    (hfirst : R.FirstDeepest (R.occurrences l)) {p : Nat × Instance}
    (hp : p ∈ R.occurrences l) : p.1 ≤ cfg.maxDepth := by
  have hwrites : R.Writes cfg.maxDepth .empty (l.map (0, ·)) doc := encodeAll_eq_ok.mp h
  rw [← pending_top] at hp
  refine (hwrites.depth_le (.start hfirst) ((encodeAll_keeps_iff h).mpr hl) p hp).resolve_right ?_
  simp [Document.empty, Document.subjects]

/-! ## Depths in an encoded document -/

/-- What the block of an occurrence links to is nested in the occurrence. -/
theorem Links.exists_nested (h : R.Links doc s t) (hkeep : R.Keeps doc x)
    (hs : R.subject x = s) : ∃ c ∈ R.nested x, R.subject c = t := by
  obtain ⟨b, hb, hdoc⟩ := hkeep
  rw [← subject_eq (subjectOf_of_blockOf hb), hs] at hdoc
  obtain ⟨-, b', d, iri, f, hb', -, hpair, hne, -⟩ := h
  obtain rfl := Option.some.inj (hdoc.symm.trans hb')
  -- the first pair of the block is its type, which is no link
  have htail : (iri, Object.iri t) ∈ b.pairs.tail := by
    obtain ⟨d', s', -, -, -, rfl⟩ := blockOf_eq_ok.mp hb
    rcases List.mem_cons.mp hpair with htype | hpair
    · obtain ⟨rfl, -⟩ := Prod.mk.inj htype
      exact absurd (Context.expand_rdfType R.context) hne
    · exact hpair
  obtain ⟨c, hc, hct⟩ := nested_of_blockOf hb htail
  exact ⟨c, hc, subject_eq hct⟩

/-- A trail in an encoded document goes no further than the list is deep. -/
theorem Trail.exists_occurrence (h : R.encodeAll cfg l = .ok doc) (hl : R.Transparent l)
    (htrail : R.Trail doc path s) (hs : s ∈ doc.subjects) :
    ∃ n x, (n, x) ∈ R.occurrences l ∧ path.length ≤ n ∧ R.subject x = s := by
  -- from the start of the trail, which may itself be nested somewhere
  induction path using List.reverseRecOn generalizing s with
  | nil =>
    obtain ⟨b, hb, rfl⟩ := List.mem_map.mp hs
    obtain ⟨n, x, hx, -, hxb, -⟩ := encodeAll_source_depth h hb
    exact ⟨n, x, hx, Nat.zero_le n, subject_eq (subjectOf_of_blockOf hxb)⟩
  | append_singleton path r ih =>
    obtain ⟨hbefore, hlink⟩ := htrail.of_append
    obtain ⟨n, x, hx, hlen, hxr⟩ := ih hbefore hlink.mem_subjects
    have hkeep : R.Keeps doc x := (encodeAll_keeps_iff h).mpr hl x ⟨n, hx⟩
    obtain ⟨c, hc, hct⟩ := hlink.exists_nested hkeep hxr
    refine ⟨n + 1, c, mem_occurrences_of_mem_nested hx hc, ?_, hct⟩
    rw [List.length_append, List.length_singleton]
    omega

/-- A document encoded from a list within the limit is not too deep for the decoder. -/
theorem decode_encodeAll_ne_tooDeep (h : R.encodeAll cfg l = .ok doc) (hl : R.Transparent l)
    (hdepth : ∀ n x, (n, x) ∈ R.occurrences l → n ≤ cfg.maxDepth) (s : String) (k : Nat) :
    R.decode cfg doc ≠ .error (.tooDeep s k) := by
  intro hdeep
  obtain ⟨path, htrail, hlong⟩ := trail_of_tooDeep hdeep
  rcases List.eq_nil_or_concat path with rfl | ⟨before, r, rfl⟩
  · simp at hlong
  · rw [List.concat_eq_append] at htrail hlong
    obtain ⟨n, x, hx, hlen, -⟩ := htrail.exists_occurrence h hl htrail.of_append.2.1
    have hle : n ≤ cfg.maxDepth := hdepth n x hx
    omega

/-- What the decoder accepts came from a list within the limit: an occurrence is as
deep as some chain from a root is long, at most. -/
theorem depth_le_of_decode (hR : R.Coherent) (hT : R.LeavesTypes) (h : R.Encodes cfg l doc)
    {es : List Instance} (hdec : R.decode cfg doc = .ok es) (hx : (n, x) ∈ R.occurrences l) :
    n ≤ cfg.maxDepth := by
  have hdecodes : R.DecodesTo cfg doc es := (decode_eq_ok hR hT).mp hdec
  -- each step into an instance is a reference in the document, so chains grow along
  have hchain : ∃ r ∈ R.rootSubjects doc, ∃ k, R.Reaches doc k r (R.subject x) ∧ n ≤ k := by
    refine occurrences_induction
      (motive := fun n x => ∃ r ∈ R.rootSubjects doc, ∃ k, R.Reaches doc k r (R.subject x) ∧ n ≤ k)
      ?_ ?_ hx
    · intro e he
      obtain ⟨r, hr, k, hk⟩ := exists_root hR hdecodes.nodup hdecodes.all
        (h.subject_mem (.of_mem he))
      exact ⟨r, hr, k, hk, Nat.zero_le k⟩
    · rintro n x y hx ⟨r, hr, k, hk, hle⟩ hy
      have hxy : R.Refers doc (R.subject x) (R.subject y) :=
        (h.refers_iff hR hT ⟨n, hx⟩).mpr ⟨y, hy, rfl⟩
      exact ⟨r, hr, k + 1, hk.snoc hxy, by omega⟩
  obtain ⟨r, hr, k, hk, hle⟩ := hchain
  exact Nat.le_trans hle (hdecodes.depth r hr k _ hk)

/-! ## Where the limits agree -/

/-- How far the encoder and the decoder agree about depth. Each block of an encoded
document is written within the limit. If the list is transparent, then all of it is
within the limit as soon as every subject comes first where it is deepest. A
transparent list within the limit is not too deep for the decoder either, and one that
the decoder gives back is within the limit. -/
theorem encodeAll_bounds_depth (hR : R.Reachable) (cfg : Config) (l : List Instance)
    (doc : Document) (h : R.encodeAll cfg l = .ok doc) :
    (∀ b ∈ doc.blocks, ∃ n e, (n, e) ∈ R.occurrences l ∧ n ≤ cfg.maxDepth ∧
      R.blockOf e = .ok b) ∧
    (R.Transparent l →
      (R.FirstDeepest (R.occurrences l) → ∀ n e, (n, e) ∈ R.occurrences l → n ≤ cfg.maxDepth) ∧
      ((∀ n e, (n, e) ∈ R.occurrences l → n ≤ cfg.maxDepth) →
        ∀ s k, R.decode cfg doc ≠ .error (.tooDeep s k)) ∧
      (R.LeavesTypes → (∀ e ∈ l, e.Built) → (∃ es, R.decode cfg doc = .ok es) →
        ∀ n e, (n, e) ∈ R.occurrences l → n ≤ cfg.maxDepth)) := by
  refine ⟨fun b hb => ?_, fun hl => ⟨fun hfirst n e he => ?_, fun hdepth s k => ?_, ?_⟩⟩
  · obtain ⟨n, e, he, hn, heb, -⟩ := encodeAll_source_depth h hb
    exact ⟨n, e, he, hn, heb⟩
  · exact encodeAll_depth_le h hl hfirst he
  · exact decode_encodeAll_ne_tooDeep h hl hdepth s k
  · rintro hT hbuilt ⟨es, hes⟩ n e he
    have hencodes : R.Encodes cfg l doc := ⟨h, fun x hx => (hbuilt x hx).canonical, hl⟩
    exact depth_le_of_decode hR.coherent hT hencodes hes he

/-- The inventory is one level deep, with the shared part first below an asset. -/
theorem encodeAll_bounds_depth_inventory :
    ∃ doc, assets.encodeAll { Config.default with maxDepth := 1 } inventory = .ok doc ∧
      (∀ n e, (n, e) ∈ assets.occurrences inventory → n ≤ 1) ∧
      ∀ s k, assets.decode { Config.default with maxDepth := 1 } doc ≠ .error (.tooDeep s k) := by
  have hpairs : ∀ p ∈ assets.occurrences inventory, ∀ q ∈ assets.occurrences inventory,
      assets.subjectOf p.2 = assets.subjectOf q.2 → assets.blockOf p.2 = assets.blockOf q.2 := by
    decide +kernel
  have hfirst : assets.FirstDeepest (assets.occurrences inventory) := by
    unfold FirstDeepest
    decide +kernel
  have hagrees : assets.Agrees inventory := by
    rintro x y s ⟨n, hx⟩ ⟨m, hy⟩ hxs hys
    exact hpairs (n, x) hx (m, y) hy (hxs.trans hys.symm)
  obtain ⟨doc, hdoc⟩ : ∃ doc,
      assets.encodeAll { Config.default with maxDepth := 1 } inventory = .ok doc :=
    exists_of_isOk (by decide +kernel)
  obtain ⟨hdepth, hdecode, -⟩ :=
    (encodeAll_bounds_depth assets_reachable _ _ _ hdoc).2 hagrees.transparent
  exact ⟨doc, hdoc, hdepth hfirst, hdecode (hdepth hfirst)⟩

/-- One asset by itself, and again as a part of another. Where it is met again it is
not looked at, so that its own part is two levels deep without being noticed. The
decoder refuses the document. -/
theorem unnoticed_depth :
    (¬ ∀ (R : Registry) (cfg : Config) (l : List Instance) (doc : Document), R.Reachable →
      R.encodeAll cfg l = .ok doc → ∀ n e, (n, e) ∈ R.occurrences l → n ≤ cfg.maxDepth) ∧
    ¬ ∀ (R : Registry) (cfg : Config) (l : List Instance) (doc : Document), R.Reachable →
      R.encodeAll cfg l = .ok doc → ∀ s k, R.decode cfg doc ≠ .error (.tooDeep s k) := by
  have hrun : assets.encodeAll { Config.default with maxDepth := 1 }
      [asset "urn:b" [part "urn:c" "x"], asset "urn:a" [asset "urn:b" [part "urn:c" "x"]]] =
      .ok ⟨[
        ⟨"urn:b", [(Vocabulary.rdfType, .iri "urn:Asset"), ("urn:part", .iri "urn:c")]⟩,
        ⟨"urn:c", [(Vocabulary.rdfType, .iri "urn:Part"), ("urn:label", .literal "x")]⟩,
        ⟨"urn:a", [(Vocabulary.rdfType, .iri "urn:Asset"), ("urn:part", .iri "urn:b")]⟩]⟩ := by
    decide +kernel
  constructor
  · intro h
    have hdeep : (2, part "urn:c" "x") ∈ assets.occurrences
        [asset "urn:b" [part "urn:c" "x"], asset "urn:a" [asset "urn:b" [part "urn:c" "x"]]] := by
      decide +kernel
    have hle := h assets _ _ _ assets_reachable hrun _ _ hdeep
    exact absurd hle (by decide)
  · intro h
    refine h assets _ _ _ assets_reachable hrun "urn:c" 1 ?_
    decide +kernel

end EntityRdf.Registry
