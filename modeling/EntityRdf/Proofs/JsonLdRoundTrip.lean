import EntityRdf.JsonLd.Reader
import EntityRdf.Proofs.Fallible
import EntityRdf.Proofs.NodeMembers

/-!
# Reading what was written as JSON-LD

Reading walks the members of a node object in the order of their keys, so the
pairs of a block come back in another order. But every predicate has its own key
and its objects stand under it in order: `Block.Restates` says that a block has
the same subject and the same objects of every predicate as another block, with
all terms written out.

Main results: `ownBlock_nodeMembers` (one block), `read_write_of_covers` (a
document, read with a context that the written one covers) and `read_write`.
-/

namespace EntityRdf

/-- The first block says in full what the second says. -/
structure Block.Restates (ctx : Context) (a b : Block) : Prop where
  subject : a.subject = b.subject
  objects : ∀ predicate, valuesOf predicate a.pairs = valuesOf predicate (b.expanded ctx)

/-- Lists with the same values under every key have the same elements. -/
theorem perm_of_valuesOf {κ α : Type*} [DecidableEq κ] [DecidableEq α] {l l' : List (κ × α)}
    (h : ∀ k, valuesOf k l = valuesOf k l') : l.Perm l' := by
  -- a pair is counted among the values under its key
  have hcount : ∀ (l : List (κ × α)) k v, l.count (k, v) = (valuesOf k l).count v := by
    intro l k v
    induction l with
    | nil => rfl
    | cons p rest ih =>
      obtain ⟨k', v'⟩ := p
      by_cases hk : k' = k
      · subst hk
        rw [valuesOf_cons_self, List.count_cons, List.count_cons, ih]
        simp
      · have hne : ((k', v') == (k, v)) = false := by simp [hk]
        rw [valuesOf_cons_of_ne (by exact hk), List.count_cons, hne, ih]
        simp
  refine List.perm_iff_count.mpr fun p => ?_
  rw [hcount, hcount, h]

/-- The values under a key are collected list by list. -/
theorem valuesOf_flatMap_eq {κ α γ : Type*} [DecidableEq κ] (k : κ) (l : List γ)
    (f : γ → List (κ × α)) : valuesOf k (l.flatMap f) = l.flatMap fun x => valuesOf k (f x) := by
  induction l with
  | nil => rfl
  | cons x rest ih => rw [List.flatMap_cons, List.flatMap_cons, valuesOf_append, ih]

/-- If all but one of the elements contribute nothing, the one gives it all. -/
theorem flatMap_eq_of_unique {α β : Type*} {l : List α} {f : α → List β} {x : α}
    (hl : l.Nodup) (hx : x ∈ l) (h : ∀ y ∈ l, y ≠ x → f y = []) : l.flatMap f = f x := by
  induction l with
  | nil => simp at hx
  | cons y rest ih =>
    obtain ⟨hy, hrest⟩ := List.nodup_cons.mp hl
    rw [List.flatMap_cons]
    rcases List.mem_cons.mp hx with rfl | hx
    · have hnil : rest.flatMap f = [] := by
        refine List.flatMap_eq_nil_iff.mpr fun z hz => ?_
        exact h z (List.mem_cons_of_mem _ hz) fun heq => hy (heq ▸ hz)
      rw [hnil, List.append_nil]
    · have hne : y ≠ x := fun heq => hy (heq ▸ hx)
      rw [h y (List.mem_cons_self ..) hne, List.nil_append]
      exact ih hrest hx fun z hz => h z (List.mem_cons_of_mem _ hz)

/-- Merging the block of a new subject puts it at the end. -/
theorem Document.merge_eq_push {doc : Document} {b : Block} (h : b.subject ∉ doc.subjects) :
    doc.merge b = doc.push b := by
  unfold merge push
  rw [subjects] at h
  generalize doc.blocks = blocks at h
  refine congrArg Document.mk ?_
  induction blocks with
  | nil => rfl
  | cons a rest ih =>
    rw [List.map_cons, List.mem_cons, not_or] at h
    rw [mergeInto, if_neg (Ne.symm h.1), ih h.2, List.cons_append]

namespace JsonLd

variable {ctx : Context} {b : Block} {members : List (String × Json)} {key : String} {v : Json}
  {doc : Document}

/-! ## Property values -/

section Values

variable {predicate : String} {os : List Object} {invalid : ValueFault → CodecError}

/-- The value written for an object is read as that object, unless it is a type, whose
tag is a plain string. -/
theorem objects_valueOf {o : Object} (hpredicate : predicate ≠ Vocabulary.rdfType)
    (ho : ∀ t, o = .iri t → ctx.expand t = t) :
    objects ctx invalid (valueOf ctx predicate o) = .ok [o] := by
  unfold valueOf
  rw [if_neg hpredicate]
  cases o with
  | literal s => rfl
  | iri t =>
    have href : reference ctx invalid [("@id", .str t)] = .ok [.iri (ctx.expand t)] := rfl
    rw [ho t rfl] at href
    exact href

/-- The same for an array of values. -/
theorem objectsOfItems_valueOf (hpredicate : predicate ≠ Vocabulary.rdfType)
    (hos : ∀ o ∈ os, ∀ t, o = .iri t → ctx.expand t = t) :
    objectsOfItems ctx invalid (os.map (valueOf ctx predicate)) = .ok os := by
  induction os with
  | nil => rfl
  | cons o rest ih =>
    obtain ⟨ho, hrest⟩ := List.forall_mem_cons.mp hos
    rw [List.map_cons, objectsOfItems, objects_valueOf hpredicate ho, ih hrest]
    rfl

/-- However many values a key has, they are read as its objects. -/
theorem objects_packed (hpredicate : predicate ≠ Vocabulary.rdfType)
    (hos : ∀ o ∈ os, ∀ t, o = .iri t → ctx.expand t = t)
    (hv : packed (os.map (valueOf ctx predicate)) = some v) :
    objects ctx invalid v = .ok os := by
  match os with
  | [] => cases hv
  | [o] =>
    obtain rfl := Option.some.inj hv
    exact objects_valueOf hpredicate (hos o (List.mem_singleton_self o))
  | o :: o' :: rest =>
    obtain rfl := Option.some.inj hv
    exact objectsOfItems_valueOf hpredicate hos

/-- The tags under `@type` are read as they were written, one or several. -/
theorem strings_packed (hv : packed (os.map (valueOf ctx Vocabulary.rdfType)) = some v) :
    strings v = os.map fun o => ctx.compact o.text := by
  have hvalue : valueOf ctx Vocabulary.rdfType = fun o => .str (ctx.compact o.text) := by
    funext o
    exact if_pos rfl
  rw [hvalue] at hv
  -- no value has no key, one stands alone, and several stand in an array
  match os with
  | [] => cases hv
  | [o] =>
    obtain rfl := Option.some.inj hv
    rfl
  | o :: o' :: rest =>
    obtain rfl := Option.some.inj hv
    show (List.map (fun o => Json.str (ctx.compact o.text)) (o :: o' :: rest)).filterMap Json.str? = _
    rw [List.filterMap_map]
    exact congrFun List.filterMap_eq_map (o :: o' :: rest)

/-- Nothing is embedded in what a key holds. -/
theorem embedded_packed (hv : packed (os.map (valueOf ctx predicate)) = some v) :
    embedded v = [] := by
  have hvalue : ∀ o, embedded (valueOf ctx predicate o) = [] := by
    intro o
    unfold valueOf
    split
    · rfl
    · cases o <;> rfl
  match os with
  | [] => cases hv
  | [o] =>
    obtain rfl := Option.some.inj hv
    exact hvalue o
  | o :: o' :: rest =>
    obtain rfl := Option.some.inj hv
    show embeddedInItems ((o :: o' :: rest).map (valueOf ctx predicate)) = []
    induction o :: o' :: rest with
    | nil => rfl
    | cons p ps ih => rw [List.map_cons, embeddedInItems, hvalue p, ih, List.nil_append]

end Values

/-! ## One block -/

/-- What a key of a node object says of the subject. -/
def saidUnder (ctx : Context) (b : Block) (key : String) : List (String × Object) :=
  if key = "@id" then []
  else (valuesOf (predicateOf ctx key) (b.expanded ctx)).map (predicateOf ctx key, ·)

/-- A key speaks of its own predicate only. -/
theorem valuesOf_saidUnder (ctx : Context) (b : Block) (key predicate : String) :
    valuesOf predicate (saidUnder ctx b key) =
      if key ≠ "@id" ∧ predicateOf ctx key = predicate then valuesOf predicate (b.expanded ctx)
      else [] := by
  unfold saidUnder
  by_cases hkey : key = "@id"
  · simp [hkey, valuesOf]
  · rw [if_neg hkey]
    by_cases hpredicate : predicateOf ctx key = predicate
    · subst hpredicate
      rw [if_pos ⟨hkey, rfl⟩]
      simp [valuesOf, List.filter_map, Function.comp_def]
    · rw [if_neg fun h => hpredicate h.2]
      refine valuesOf_eq_nil fun q hq => ?_
      obtain ⟨o, -, rfl⟩ := List.mem_map.mp hq
      exact hpredicate

section Blocks

variable (hctx : ctx.Regular) (hb : ∀ p ∈ b.pairs, Portable ctx p)
include hctx hb

/-- A member is read as the objects of its predicate. -/
theorem memberPairs_of_mem (hmem : (key, v) ∈ nodeMembers ctx b) (subject : String) :
    memberPairs ctx subject (key, v) = .ok (saidUnder ctx b key) := by
  unfold saidUnder
  by_cases hkey : key = "@id"
  · subst hkey
    rfl
  rw [if_neg hkey]
  obtain ⟨p, hp, rfl⟩ := exists_pair_of_mem hb hmem hkey
  have hlookup := (increasing_nodeMembers ctx b).lookup_of_mem hmem
  rw [lookup_keyOf hctx hb (hb p hp)] at hlookup
  rw [predicateOf_keyOf hctx (hb p hp)]
  -- the objects come from pairs with this predicate
  have hsource : ∀ o ∈ valuesOf (ctx.expand p.1) (b.expanded ctx),
      ∃ q ∈ b.pairs, ctx.expand q.1 = ctx.expand p.1 ∧ o = (expandedPair ctx q).2 := by
    intro o ho
    obtain ⟨q, hq, heq⟩ := List.mem_map.mp (mem_valuesOf.mp ho)
    have hfst := congrArg Prod.fst heq
    rw [expandedPair_fst] at hfst
    exact ⟨q, hq, hfst, by rw [heq]⟩
  by_cases htype : ctx.expand p.1 = Vocabulary.rdfType
  · rw [htype] at hlookup hsource ⊢
    have hkeyOf : keyOf ctx Vocabulary.rdfType = "@type" := if_pos rfl
    rw [memberPairs, if_pos hkeyOf, strings_packed hlookup, List.map_map]
    refine congrArg Except.ok (List.map_congr_left fun o ho => ?_)
    obtain ⟨q, hq, hqtype, rfl⟩ := hsource o ho
    rw [expandedPair_of_type hqtype]
    have hback : ctx.expand (ctx.compact (ctx.expand q.2.text)) = ctx.expand q.2.text :=
      Context.expand_compact hctx (Context.expand_expand hctx _) ((hb q hq).tag hqtype)
    show (Vocabulary.rdfType, Object.iri (ctx.expand (ctx.compact (ctx.expand q.2.text)))) = _
    rw [hback]
  · have hkeyOf : keyOf ctx (ctx.expand p.1) = ctx.compact (ctx.expand p.1) := if_neg htype
    have hkeyword : isKeyword (keyOf ctx (ctx.expand p.1)) = false := by
      rw [hkeyOf]
      exact (hb p hp).key htype
    have hne : keyOf ctx (ctx.expand p.1) ≠ "@type" := by
      intro heq
      rw [heq] at hkeyword
      exact absurd hkeyword (by decide)
    have hrefs : ∀ o ∈ valuesOf (ctx.expand p.1) (b.expanded ctx), ∀ t, o = .iri t →
        ctx.expand t = t := by
      intro o ho t ht
      obtain ⟨q, hq, hqp, rfl⟩ := hsource o ho
      have hqtype : ctx.expand q.1 ≠ Vocabulary.rdfType := fun heq => htype (hqp.symm.trans heq)
      rw [expandedPair_of_ne hqtype] at ht
      exact (hb q hq).reference hqtype t ht
    have hexpand : ctx.expand (keyOf ctx (ctx.expand p.1)) = ctx.expand p.1 := by
      have hback := predicateOf_keyOf hctx (hb p hp)
      rwa [predicateOf, if_neg hne] at hback
    rw [memberPairs, if_neg hne, if_neg (by simp [hkeyword]), objects_packed htype hrefs hlookup,
      hexpand]
    rfl

/-- The writer embeds nothing: it lists every block beside the others. -/
theorem embeddedNodes_nodeMembers : embeddedNodes (nodeMembers ctx b) = [] := by
  refine List.flatMap_eq_nil_iff.mpr ?_
  rintro ⟨key, v⟩ hmem
  show (if isKeyword key then [] else embedded v) = []
  split
  · rfl
  · rename_i hkeyword
    have hne : key ≠ "@id" := by
      rintro rfl
      exact hkeyword (by decide)
    obtain ⟨p, hp, rfl⟩ := exists_pair_of_mem hb hmem hne
    have hlookup := (increasing_nodeMembers ctx b).lookup_of_mem hmem
    rw [lookup_keyOf hctx hb (hb p hp)] at hlookup
    exact embedded_packed hlookup

/-- Together the keys say what the block says: a predicate with objects has a key,
and no second one. -/
theorem valuesOf_nodeMembers (predicate : String) :
    valuesOf predicate ((nodeMembers ctx b).flatMap fun e => saidUnder ctx b e.1) =
      valuesOf predicate (b.expanded ctx) := by
  have horder : (nodeMembers ctx b).Pairwise fun e e' => e.1 < e'.1 := increasing_nodeMembers ctx b
  have hnodup : (nodeMembers ctx b).Nodup := by
    refine horder.imp fun hlt heq => ?_
    rw [heq] at hlt
    exact String.lt_irrefl _ hlt
  rw [valuesOf_flatMap_eq]
  simp only [valuesOf_saidUnder]
  by_cases hnil : valuesOf predicate (b.expanded ctx) = []
  · simp [hnil]
  · -- some pair has the predicate, and its key holds the objects
    obtain ⟨o, ho⟩ := List.exists_mem_of_ne_nil _ hnil
    obtain ⟨p, hp, heq⟩ := List.mem_map.mp (mem_valuesOf.mp ho)
    obtain rfl : ctx.expand p.1 = predicate := by rw [← expandedPair_fst, heq]
    obtain ⟨v, hv⟩ : ∃ v, (nodeMembers ctx b).lookup (keyOf ctx (ctx.expand p.1)) = some v := by
      rw [← Option.ne_none_iff_exists', lookup_keyOf hctx hb (hb p hp), Ne, packed_eq_none,
        List.map_eq_nil_iff]
      exact hnil
    have hmem : (keyOf ctx (ctx.expand p.1), v) ∈ nodeMembers ctx b := Entries.mem_of_lookup hv
    refine (flatMap_eq_of_unique hnodup hmem ?_).trans
      (if_pos ⟨keyOf_ne_id (hb p hp), predicateOf_keyOf hctx (hb p hp)⟩)
    rintro ⟨key, w⟩ hmem' hne
    refine if_neg ?_
    rintro ⟨hkey, hpredicate⟩
    -- another member with this predicate would have the same key, hence the same value
    obtain ⟨q, hq, rfl⟩ := exists_pair_of_mem hb hmem' hkey
    rw [predicateOf_keyOf hctx (hb q hq)] at hpredicate
    rw [hpredicate] at hmem' hne
    have hw := (increasing_nodeMembers ctx b).lookup_of_mem hmem'
    rw [hv] at hw
    exact hne (by rw [Option.some.inj hw])

/-- A node object is read as a block that restates the one it was written for. -/
theorem ownBlock_nodeMembers (hs : ctx.expand b.subject = b.subject) (parent : Option String) :
    ∃ b', ownBlock ctx parent (nodeMembers ctx b) = .ok b' ∧ b'.Restates ctx b := by
  have hid : (nodeMembers ctx b).lookup "@id" = some (.str b.subject) := by
    rw [lookup_nodeMembers hb, if_pos rfl]
  have hpairs : (nodeMembers ctx b).mapM (memberPairs ctx (ctx.expand b.subject)) =
      .ok ((nodeMembers ctx b).map fun e => saidUnder ctx b e.1) := by
    rw [mapM_eq_ok, List.forall₂_map_right_iff, List.forall₂_same]
    exact fun e he => memberPairs_of_mem hctx hb he _
  refine ⟨⟨ctx.expand b.subject, (nodeMembers ctx b).flatMap fun e => saidUnder ctx b e.1⟩, ?_,
    hs, valuesOf_nodeMembers hctx hb⟩
  rw [ownBlock, hid]
  dsimp only
  rw [hpairs, List.flatMap_def]
  rfl

end Blocks

/-! ## Documents -/

/-- A document that JSON-LD can carry: its subjects are written out and have one
block each, and every pair comes back. -/
structure Carries (ctx : Context) (doc : Document) : Prop where
  nodup : doc.subjects.Nodup
  subjects : ∀ s ∈ doc.subjects, ctx.expand s = s
  pairs : ∀ b ∈ doc.blocks, ∀ p ∈ b.pairs, Portable ctx p

instance (ctx : Context) (doc : Document) : Decidable (Carries ctx doc) :=
  decidable_of_iff (doc.subjects.Nodup ∧ (∀ s ∈ doc.subjects, ctx.expand s = s) ∧
      ∀ b ∈ doc.blocks, ∀ p ∈ b.pairs, Portable ctx p)
    ⟨fun h => ⟨h.1, h.2.1, h.2.2⟩, fun h => ⟨h.nodup, h.subjects, h.pairs⟩⟩

/-- A written document is read with its own context, if that binds all prefixes
the reader knows. -/
theorem withLocalContext_write {base : Context}
    (hbase : ∀ name, ctx.namespaceOf? name = none → base.namespaceOf? name = none)
    (doc : Document) : withLocalContext base (write ctx doc) = ctx := by
  have hmerge : withLocalContext base (write ctx doc) = base.merge ctx := by
    show (ctx.toList.map fun e => (e.1, Json.str e.2)).foldl _ base = _
    rw [List.foldl_map]
    exact Context.foldl_bind ctx.toList base
  rw [hmerge]
  show Context.mk (base.bindings.merge ctx.bindings) = ⟨ctx.bindings⟩
  refine congrArg Context.mk (StringMap.ext fun name => ?_)
  rw [StringMap.get?_merge]
  cases hname : ctx.bindings.get? name with
  | some ns => rfl
  | none => exact hbase name hname

/-- One node object after the other, each opens a block of its own. -/
theorem foldlM_addNode (hctx : ctx.Regular) {blocks : List Block}
    (hpairs : ∀ b ∈ blocks, ∀ p ∈ b.pairs, Portable ctx p)
    (hsubjects : ∀ b ∈ blocks, ctx.expand b.subject = b.subject)
    (hnodup : (doc.subjects ++ blocks.map Block.subject).Nodup) :
    ∃ blocks', (blocks.map (node ctx)).foldlM (addNode ctx) doc = .ok ⟨doc.blocks ++ blocks'⟩ ∧
      List.Forall₂ (Block.Restates ctx) blocks' blocks := by
  induction blocks generalizing doc with
  | nil => exact ⟨[], by simp [pure, Except.pure], .nil⟩
  | cons b rest ih =>
    obtain ⟨hb, hrest⟩ := List.forall_mem_cons.mp hpairs
    obtain ⟨hs, hsrest⟩ := List.forall_mem_cons.mp hsubjects
    obtain ⟨b', hown, hb'⟩ := ownBlock_nodeMembers hctx hb hs none
    -- the subject is new to the document, so the block is put at its end
    have hnew : b'.subject ∉ doc.subjects := by
      rw [hb'.subject]
      intro hmem
      exact (List.nodup_append.mp hnodup).2.2 _ hmem _ (by simp) rfl
    have hnode : addNode ctx doc (node ctx b) = .ok (doc.push b') := by
      show flatten ctx none doc (nodeMembers ctx b) = _
      rw [flatten_eq, hown, embeddedNodes_nodeMembers hctx hb]
      exact congrArg Except.ok (Document.merge_eq_push hnew)
    have hnodup' : ((doc.push b').subjects ++ rest.map Block.subject).Nodup := by
      rw [Document.subjects_push, hb'.subject, List.append_assoc]
      exact hnodup
    obtain ⟨blocks', hfold, hblocks'⟩ := ih hrest hsrest hnodup'
    refine ⟨b' :: blocks', ?_, .cons hb' hblocks'⟩
    rw [List.map_cons, List.foldlM_cons, hnode, ok_bind, hfold]
    simp [Document.push]

/-- Where the reader starts from bindings that the context of the document covers, the
local context decides how every term is read. -/
theorem read_write_of_covers (base : Context) (hctx : ctx.Regular) (hdoc : Carries ctx doc)
    (hbase : ∀ name, ctx.namespaceOf? name = none → base.namespaceOf? name = none) :
    ∃ doc', read base (write ctx doc) = .ok doc' ∧
      List.Forall₂ (Block.Restates ctx) doc'.blocks doc.blocks := by
  have hsubjects : ∀ b ∈ doc.blocks, ctx.expand b.subject = b.subject :=
    fun b hb => hdoc.subjects _ (List.mem_map.mpr ⟨b, hb, rfl⟩)
  have hnodup : (Document.empty.subjects ++ doc.blocks.map Block.subject).Nodup := hdoc.nodup
  obtain ⟨blocks', hfold, hblocks'⟩ := foldlM_addNode hctx hdoc.pairs hsubjects hnodup
  refine ⟨⟨blocks'⟩, ?_, hblocks'⟩
  have hnodes : topLevel (write ctx doc) = .ok (doc.blocks.map (node ctx)) := rfl
  rw [read, hnodes, ok_bind, withLocalContext_write hbase, hfold]
  simp [Document.empty]

/-- Reading undoes writing. The document that is read has the same subjects in the
same order, and each block has exactly the objects of each predicate, in order,
with all terms written out; so no pair is lost, and none is added. -/
theorem read_write (hctx : ctx.Regular) (hdoc : Carries ctx doc) :
    ∃ doc', read .empty (write ctx doc) = .ok doc' ∧ doc'.subjects = doc.subjects ∧
      List.Forall₂ (fun b' b => b'.subject = b.subject ∧
        (∀ predicate, valuesOf predicate b'.pairs = valuesOf predicate (b.expanded ctx)) ∧
        b'.pairs.Perm (b.expanded ctx)) doc'.blocks doc.blocks := by
  obtain ⟨doc', hread, hblocks⟩ := read_write_of_covers .empty hctx hdoc fun _ _ => rfl
  refine ⟨doc', hread, ?_, hblocks.imp fun b' b h => ?_⟩
  · unfold Document.subjects
    generalize doc'.blocks = blocks', doc.blocks = blocks at hblocks
    induction hblocks with
    | nil => rfl
    | cons h _ ih => rw [List.map_cons, List.map_cons, h.subject, ih]
  · exact ⟨h.subject, h.objects, perm_of_valuesOf h.objects⟩

/-- Two namespaces, one of which begins with the other. -/
def overlapping : Context := .ofList [("ex", "http://example.org/"), ("v", "http://example.org/v/")]

/-- A type and a repeated predicate, each under two spellings, a reference, and a
block without pairs. -/
def spelled : Document := ⟨[
  ⟨"urn:a", [(Vocabulary.rdfType, .iri "v:Asset"), ("v:tag", .literal "x"),
    (Vocabulary.rdfType, .literal "urn:Thing"), ("ex:part", .iri "urn:b"),
    ("http://example.org/v/tag", .literal "y"), ("ex:v/tag", .literal "x")]⟩,
  ⟨"urn:b", []⟩]⟩

/-- Two namespaces of which one starts with the other, and both are cut off in the same
document. -/
theorem read_write_spelled : ∃ doc', read .empty (write overlapping spelled) = .ok doc' ∧
    doc'.subjects = ["urn:a", "urn:b"] ∧
    List.Forall₂ (fun b' b => b'.subject = b.subject ∧
      (∀ predicate, valuesOf predicate b'.pairs = valuesOf predicate (b.expanded overlapping)) ∧
      b'.pairs.Perm (b.expanded overlapping)) doc'.blocks spelled.blocks := by
  have hctx : overlapping.Regular := by decide +kernel
  have hdoc : Carries overlapping spelled := by decide +kernel
  exact read_write hctx hdoc

end JsonLd

end EntityRdf
