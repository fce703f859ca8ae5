import EntityRdf.Proofs.CycleDetection
import EntityRdf.Proofs.Merging
import EntityRdf.Proofs.TopLevel

/-!
# The limits of a decoding

Decoding stops at a depth and at a number of entities. Both limits can be read off
the result: `Instance.height` is the number of levels that are nested in an instance,
`Instance.countAll` the number of instances in a list, nested ones included. A
document that decodes at all decodes within given limits exactly when its result
keeps to them, and is refused for one of them otherwise.

The height of a decoded instance is the length of the longest chain of references
from its subject (`Decodes.height_le_iff`), which is what the decoder compares with
its limit. Nothing but the limits depends on them: a block that was read once has no
fault (`Unfolds.no_fault`).

Main result: `decode_limits`.
-/

namespace EntityRdf

/-! ## Height -/

mutual

/-- The number of levels of instances in a value. -/
def Value.levels : Value → Nat
  | .str _ | .strs _ => 0
  | .entity e => e.height + 1
  | .entities l => Instance.levelsAll l

/-- The number of levels of instances that are nested in an instance. -/
def Instance.height : Instance → Nat
  | .mk _ fields => Value.levelsFields fields

/-- The number of levels of instances in a sequence of instances. -/
def Instance.levelsAll : List Instance → Nat
  | [] => 0
  | e :: rest => max (e.height + 1) (Instance.levelsAll rest)

/-- The number of levels of instances in the values of a list of fields. -/
def Value.levelsFields : List (String × Value) → Nat
  | [] => 0
  | (_, v) :: rest => max v.levels (Value.levelsFields rest)

end

/-- The levels of a sequence are bounded by those of its members. -/
theorem Instance.levelsAll_le_iff {l : List Instance} {n : Nat} :
    levelsAll l ≤ n ↔ ∀ e ∈ l, e.height < n := by
  induction l with
  | nil => simp [levelsAll]
  | cons e rest ih => rw [levelsAll, Nat.max_le, ih, List.forall_mem_cons, Nat.succ_le_iff]

/-- The levels of a value are those of what is nested in it. -/
theorem Value.levels_eq_levelsAll (v : Value) : v.levels = Instance.levelsAll v.nested := by
  cases v with
  | str s => rfl
  | strs l => rfl
  | entity e =>
    show e.height + 1 = max (e.height + 1) 0
    omega
  | entities l => rfl

/-- The levels of fields are bounded by those of what their values nest. -/
theorem Value.levelsFields_le_iff {l : List (String × Value)} {n : Nat} :
    levelsFields l ≤ n ↔ ∀ p ∈ l, ∀ c ∈ p.2.nested, c.height < n := by
  induction l with
  | nil => simp [levelsFields]
  | cons p rest ih =>
    obtain ⟨m, v⟩ := p
    rw [levelsFields, Nat.max_le, ih, List.forall_mem_cons, levels_eq_levelsAll,
      Instance.levelsAll_le_iff]

/-- An instance is as high as what it holds in any field, and one level more. -/
theorem Instance.height_le_iff {e : Instance} {n : Nat} :
    e.height ≤ n ↔ ∀ p ∈ e.fields, ∀ c ∈ p.2.nested, c.height < n := by
  obtain ⟨c, fields⟩ := e
  exact Value.levelsFields_le_iff

namespace Registry

variable {R : Registry} {cfg cfg' : Config} {doc : Document} {strict : Bool}
  {d : ClassDescriptor} {b : Block} {kids : String → Instance} {s : String} {e c : Instance}
  {es : List Instance} {n : Nat}

/-! ## The height of a decoded instance -/

/-- An assembled instance holds other instances in the entity fields of its class
only. -/
theorem Assembled.mem_nested_iff_held (h : R.Assembled doc d b kids e)
    (hclass : R.classes.get? d.name = some d) (hread : R.Readable strict doc d b) :
    c ∈ R.nested e ↔ ∃ p ∈ e.fields, c ∈ p.2.nested := by
  rw [Registry.mem_nested (h.className ▸ hclass)]
  constructor
  · rintro ⟨f, v, hheld, -, hc⟩
    exact ⟨(f.name, v), Entries.mem_of_lookup (ClassDescriptor.mem_held.mp hheld).2, hc⟩
  · rintro ⟨⟨name, v⟩, hmem, hc⟩
    have hv : e.get? name = some v := h.canonical.order.lookup_of_mem hmem
    -- the field belongs to the class, is not the identity, and takes entities
    by_cases hname : ∃ f ∈ d.fields, f.name = name
    · obtain ⟨f, hf, rfl⟩ := hname
      cases hid : f.isIdentity with
      | true =>
        rw [h.identity f hf hid] at hv
        obtain rfl := Option.some.inj hv
        simp [Value.nested] at hc
      | false =>
        have hnested : v.nested = if f.range? = some .entity then
            (doc.resolved (d.objectsFor R.context b f)).map kids else [] := by
          rw [← FieldDescriptor.nested_valueFor (hread.single f), ← h.mapped f hf hid, hv]
          rfl
        have hr : f.range? = some .entity := by
          by_contra hr
          rw [hnested, if_neg hr] at hc
          simp at hc
        have hheld : (f, v) ∈ d.held e :=
          ClassDescriptor.mem_held.mpr ⟨ClassDescriptor.mem_predicateFields.mpr ⟨hf, hid⟩, hv⟩
        exact ⟨f, v, hheld, hr, hc⟩
    · rw [h.unknown name fun f hf heq => hname ⟨f, hf, heq⟩] at hv
      cases hv

/-- The instance of a subject is as high as the chains from the subject are long. -/
theorem Decodes.height_le_iff (hR : R.Coherent) (h : R.Decodes strict doc s e) :
    e.height ≤ n ↔ ∀ k u, R.Reaches doc k s u → k ≤ n := by
  -- on the derivation, so that what the block refers to is known by induction
  induction h generalizing n with
  | @intro s b d kids e hb hd hread hkids he ih =>
    have hclass : R.classes.get? d.name = some d := hR.get?_of_blockClass? hd
    -- below the instance stand exactly those of the subjects that the block refers to
    have hbelow : e.height ≤ n ↔ ∀ t, R.Refers doc s t → (kids t).height < n := by
      rw [Instance.height_le_iff]
      constructor
      · intro hheld t hst
        obtain ⟨ht, hsub⟩ := (refers_iff_of_block hb hd).mp hst
        have hkid : kids t ∈ R.nested e := (he.mem_nested hclass hread).mpr ⟨t, ht, hsub, rfl⟩
        obtain ⟨p, hp, hc⟩ := (he.mem_nested_iff_held hclass hread).mp hkid
        exact hheld p hp _ hc
      · intro hrefs p hp c hc
        have hnested : c ∈ R.nested e := (he.mem_nested_iff_held hclass hread).mpr ⟨p, hp, hc⟩
        obtain ⟨t, ht, hsub, rfl⟩ := (he.mem_nested hclass hread).mp hnested
        exact hrefs t ((refers_iff_of_block hb hd).mpr ⟨ht, hsub⟩)
    rw [hbelow]
    constructor
    · intro hrefs k u hu
      -- a chain that is not empty goes on from a subject that the block refers to
      cases hu with
      | self => exact Nat.zero_le n
      | @step k _ t _ hst htu =>
        obtain ⟨ht, hsub⟩ := (refers_iff_of_block hb hd).mp hst
        have hlt : (kids t).height < n := hrefs t hst
        have hle : k ≤ n - 1 := (ih t ht hsub).mp (by omega) k u htu
        omega
    · intro hchains t hst
      obtain ⟨ht, hsub⟩ := (refers_iff_of_block hb hd).mp hst
      -- the reference itself is a chain, so that there is room for it
      have hone : 1 ≤ n := hchains 1 t (.step hst (.self t))
      have hle : (kids t).height ≤ n - 1 := by
        refine (ih t ht hsub).mpr fun k u hu => ?_
        have : k + 1 ≤ n := hchains (k + 1) u (.step hst hu)
        omega
      omega

/-! ## Within the limits -/

/-- What a document unfolds to is the same within all limits that allow it, and the
limits that do can be told from the result. -/
theorem Unfolds.within_iff (hR : R.Coherent) (h : R.Unfolds cfg' doc es)
    (hstrict : cfg.strict = cfg'.strict) :
    R.Unfolds cfg doc es ↔
      (∀ e ∈ es, e.height ≤ cfg.maxDepth) ∧ Instance.countAll es ≤ cfg.maxNodes := by
  have hR' : R.leaveTypes.Coherent := leaveTypes_coherent hR
  constructor
  · intro hcfg
    refine ⟨fun e he => ?_, hcfg.nodes⟩
    obtain ⟨r, hr, hre⟩ := exists_partner hcfg.tops.flip he
    exact (hre.height_le_iff hR').mpr (hcfg.depth r hr)
  · rintro ⟨hheight, hcount⟩
    refine ⟨h.nodup, by rw [hstrict]; exact h.tops, fun r hr => ?_, hcount⟩
    obtain ⟨e, he, hre⟩ := exists_partner h.tops hr
    exact (hre.height_le_iff hR').mp (hheight e he)

/-- A block that was read has no fault. -/
theorem Unfolds.no_fault (hR : R.Coherent) (h : R.Unfolds cfg doc es) (hb : b ∈ doc.blocks)
    {err : MappingError} : ¬ R.BlockFault cfg.strict doc b err := by
  obtain ⟨d, hd, hread⟩ := h.readable hR hb
  intro hfault
  -- the pairs that the decoder reads are those of the registry that leaves types alone
  have hfields : R.fieldObjects cfg.strict d b.subject b.pairs =
      .ok (d.leaveTypes.readPairs R.context b) := by
    rw [← fieldObjects_leaveTypes]
    exact (fieldObjects_eq_ok d.fieldForPredicate?_leaveTypes_type).mpr ⟨hread.mapped, rfl⟩
  -- the class is known, the pairs are mapped, and the groups are acceptable
  cases hfault with
  | types h =>
    rw [classOf_eq_ok.mpr hd] at h
    cases h
  | pairs hd' h =>
    obtain rfl := Option.some.inj (hd.symm.trans hd')
    rw [hfields] at h
    cases h
  | @group d' pairs g err hd' hpairs hg h =>
    obtain rfl := Option.some.inj (hd.symm.trans hd')
    obtain rfl := Except.ok.inj (hfields.symm.trans hpairs)
    have hacc : Acceptable cfg.strict doc (fun _ => True) g := hread.acceptable (by simp) g hg
    obtain ⟨hsingle, hentity⟩ := hacc
    cases h with
    | count hm hlen =>
      have := hsingle hm
      omega
    | reference hr h =>
      obtain ⟨hrefs, -⟩ := hentity hr
      cases h with
      | literal ho =>
        obtain ⟨t, ht, -⟩ := hrefs _ ho
        cases ht
      | unresolved hs ho ht =>
        obtain ⟨t, heq, hsub⟩ := hrefs _ ho
        obtain rfl := Object.iri.inj heq
        exact ht (hsub hs)

/-- A document that decodes within some limits fails within others only for these. -/
theorem decode_error_of_limits (hR : R.Coherent) (h : R.decode cfg' doc = .ok es)
    (hstrict : cfg.strict = cfg'.strict) {err : MappingError}
    (herr : R.decode cfg doc = .error err) :
    ∃ s, err = .tooDeep s cfg.maxDepth ∨ err = .tooManyEntities s cfg.maxNodes := by
  have hunfolds : R.Unfolds cfg' doc es := (decode_eq_ok_iff hR).mp h
  rcases fault_of_decode herr with hcheck | ⟨b, hb, hfault⟩ | ⟨path, s, htrail, hrun⟩
  · -- subjects are checked without any limits
    rw [(Document.checkSubjects_eq_ok (x := ())).mpr hunfolds.nodup] at hcheck
    cases hcheck
  · rw [hstrict] at hfault
    exact absurd hfault (hunfolds.no_fault hR hb)
  · cases hrun with
    | depth => exact ⟨s, Or.inl rfl⟩
    | nodes => exact ⟨s, Or.inr rfl⟩
    | cycle hs =>
      -- the trail would close to a cycle, which the document does not have
      exact absurd (htrail.isLoop hs).cycle (acyclic_of_decode h s)

/-- With a depth for every block the depth limit is never exceeded: no trail is longer
than the document. -/
theorem decode_ne_tooDeep (hdepth : doc.blocks.length ≤ cfg.maxDepth) (s : String) (k : Nat) :
    R.decode cfg doc ≠ .error (.tooDeep s k) := by
  intro h
  obtain ⟨path, htrail, hlong⟩ := trail_of_tooDeep h
  have hshort : path.length ≤ doc.blocks.length := htrail.length_le
  omega

/-- The limits of a decoding are monotone and exact. What decodes within limits decodes
within wider ones. What decodes within wider limits does so within the given ones if
its result is no higher than the depth limit and has no more instances than the entity
limit, and otherwise fails for one of the two. With a depth for every block the depth
limit plays no role. -/
theorem decode_limits (hR : R.Reachable) (cfg cfg' : Config) (doc : Document)
    (hstrict : cfg.strict = cfg'.strict) (hdepth : cfg.maxDepth ≤ cfg'.maxDepth)
    (hnodes : cfg.maxNodes ≤ cfg'.maxNodes) :
    (∀ es, R.decode cfg doc = .ok es → R.decode cfg' doc = .ok es) ∧
    (∀ es, R.decode cfg' doc = .ok es →
      ((∀ e ∈ es, e.height ≤ cfg.maxDepth) ∧ Instance.countAll es ≤ cfg.maxNodes →
        R.decode cfg doc = .ok es) ∧
      (¬ ((∀ e ∈ es, e.height ≤ cfg.maxDepth) ∧ Instance.countAll es ≤ cfg.maxNodes) →
        ∃ s, R.decode cfg doc = .error (.tooDeep s cfg.maxDepth) ∨
          R.decode cfg doc = .error (.tooManyEntities s cfg.maxNodes))) ∧
    (doc.blocks.length ≤ cfg.maxDepth → ∀ s k, R.decode cfg doc ≠ .error (.tooDeep s k)) := by
  have hcoherent : R.Coherent := hR.coherent
  have hmono : ∀ es, R.decode cfg doc = .ok es → R.decode cfg' doc = .ok es := by
    intro es h
    have hunfolds : R.Unfolds cfg doc es := (decode_eq_ok_iff hcoherent).mp h
    obtain ⟨hheight, hcount⟩ := (hunfolds.within_iff hcoherent rfl).mp hunfolds
    refine (decode_eq_ok_iff hcoherent).mpr ((hunfolds.within_iff hcoherent hstrict.symm).mpr ?_)
    exact ⟨fun e he => Nat.le_trans (hheight e he) hdepth, Nat.le_trans hcount hnodes⟩
  refine ⟨hmono, fun es h => ?_, decode_ne_tooDeep⟩
  have hunfolds : R.Unfolds cfg' doc es := (decode_eq_ok_iff hcoherent).mp h
  -- whether the given limits allow the result is all that success depends on
  have hwithin := (decode_eq_ok_iff hcoherent).trans (hunfolds.within_iff hcoherent hstrict)
  refine ⟨hwithin.mpr, fun hexceeds => ?_⟩
  cases hres : R.decode cfg doc with
  | ok es' =>
    -- a result within the limits would be the same one
    obtain rfl : es' = es := Except.ok.inj ((hmono es' hres).symm.trans h)
    exact absurd (hwithin.mp hres) hexceeds
  | error err =>
    obtain ⟨s, rfl | rfl⟩ := decode_error_of_limits hcoherent h hstrict hres
    · exact ⟨s, Or.inl rfl⟩
    · exact ⟨s, Or.inr rfl⟩

/-- An asset with one part twice is one level high and counts three instances: these
limits allow it, and one instance less does not. -/
theorem decode_limits_scattered :
    assets.decode { Config.default with maxDepth := 1, maxNodes := 3 } scattered =
      assets.decode .default scattered ∧
    ∃ s, assets.decode { Config.default with maxDepth := 1, maxNodes := 2 } scattered =
        .error (.tooDeep s 1) ∨
      assets.decode { Config.default with maxDepth := 1, maxNodes := 2 } scattered =
        .error (.tooManyEntities s 2) := by
  have hrun : assets.decode .default scattered =
      .ok [asset "urn:a" [part "urn:p" "x", part "urn:p" "x"]] := by
    decide +kernel
  have hthree := decode_limits assets_reachable
    { Config.default with maxDepth := 1, maxNodes := 3 } .default scattered rfl (by decide)
    (by decide)
  have htwo := decode_limits assets_reachable
    { Config.default with maxDepth := 1, maxNodes := 2 } .default scattered rfl (by decide)
    (by decide)
  rw [hrun]
  exact ⟨(hthree.2.1 _ hrun).1 (by decide +kernel), (htwo.2.1 _ hrun).2 (by decide +kernel)⟩

end Registry

end EntityRdf
