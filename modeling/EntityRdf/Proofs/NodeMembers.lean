import EntityRdf.JsonLd.Writer
import EntityRdf.Proofs.BlockReading
import EntityRdf.Proofs.Expansion

/-!
# What a node object holds

A node object is written pair by pair, and a key that comes again collects its
values in an array. Since the keys of an object stand in order, the outcome is
known from its lookups: `"@id"` holds the subject, and every other key holds the
values of the pairs written under it, in the order of the block.

A pair is written as its terms written out are (`property_eq`): the expanded
predicate decides the key (`keyOf`), and under the conditions of `Portable` the
key leads back to the predicate (`predicateOf`).

Main results: `lookup_nodeMembers` and `lookup_keyOf`.
-/

namespace EntityRdf

namespace JsonLd

open Entries

variable {ctx : Context} {b : Block} {members : List (String × Json)} {key k : String} {v : Json}

/-! ## Values under one key -/

/-- Several values as one: none, the only one, or an array. -/
def packed : List Json → Option Json
  | [] => none
  | [v] => some v
  | v :: w :: rest => some (.arr (v :: w :: rest))

/-- Only where there is no value nothing is written. -/
theorem packed_eq_none {vs : List Json} : packed vs = none ↔ vs = [] := by
  match vs with
  | [] => simp [packed]
  | [v] => simp [packed]
  | v :: w :: rest => simp [packed]

/-- A value that is added to those of a key comes last. -/
theorem lookup_addValue_self {vs : List Json} (hvs : ∀ v ∈ vs, ∀ items, v ≠ .arr items)
    (h : members.lookup key = packed vs) :
    (addValue key v members).lookup key = packed (vs ++ [v]) := by
  rw [addValue, h]
  -- the first value stands alone, the second opens an array, later ones extend it
  match vs with
  | [] => exact lookup_insert_self ..
  | [w] =>
    rw [packed]
    split
    · rename_i hnone
      cases hnone
    · rename_i items hitems
      exact absurd (Option.some.inj hitems) (hvs w (List.mem_singleton_self w) items)
    · rename_i old _ hold
      obtain rfl := Option.some.inj hold
      exact lookup_insert_self ..
  | w :: w' :: rest => exact lookup_insert_self ..

theorem lookup_addValue_of_ne (h : k ≠ key) (v : Json) (members : List (String × Json)) :
    (addValue key v members).lookup k = members.lookup k := by
  rw [addValue]
  split <;> exact lookup_insert_of_ne h _ _

/-- The keys stay in order, so the members are an object. -/
theorem increasing_addValue (h : Increasing members) (key : String) (v : Json) :
    Increasing (addValue key v members) := by
  rw [addValue]
  split <;> exact h.insert _ _

/-! ## Keys and predicates -/

/-- The key that an expanded predicate is written under. -/
def keyOf (ctx : Context) (predicate : String) : String :=
  if predicate = Vocabulary.rdfType then "@type" else ctx.compact predicate

/-- The value that an object of an expanded predicate is written as. -/
def valueOf (ctx : Context) (predicate : String) (object : Object) : Json :=
  if predicate = Vocabulary.rdfType then .str (ctx.compact object.text)
  else match object with
    | .literal s => .str s
    | .iri target => .obj [("@id", .str target)]

/-- The predicate that a key is read as. -/
def predicateOf (ctx : Context) (key : String) : String :=
  if key = "@type" then Vocabulary.rdfType else ctx.expand key

/-- A pair is written as its terms written out are. -/
theorem property_eq (ctx : Context) (p : String × Object) :
    property ctx p.1 p.2 =
      (keyOf ctx (expandedPair ctx p).1,
        valueOf ctx (expandedPair ctx p).1 (expandedPair ctx p).2) := by
  by_cases h : ctx.expand p.1 = Vocabulary.rdfType
  · unfold property
    rw [if_pos h, expandedPair_of_type h]
    rfl
  · rw [expandedPair_of_ne h]
    have hkey : keyOf ctx (ctx.expand p.1) = ctx.compact (ctx.expand p.1) := if_neg h
    have hvalue : valueOf ctx (ctx.expand p.1) p.2 = (property ctx p.1 p.2).2 := by
      unfold property
      rw [if_neg h]
      exact if_neg h
    rw [hkey, hvalue]
    unfold property
    rw [if_neg h]

/-- A single value is never written as an array, so several can be told from one. -/
theorem valueOf_ne_arr (ctx : Context) (predicate : String) (object : Object)
    (items : List Json) : valueOf ctx predicate object ≠ .arr items := by
  unfold valueOf
  split
  · simp
  · cases object <;> simp

/-- What it takes for a pair to come back from JSON-LD. -/
structure Portable (ctx : Context) (p : String × Object) : Prop where
  /-- A type tag is abbreviated in a way that can be undone. -/
  tag : ctx.expand p.1 = Vocabulary.rdfType → ctx.Abbreviable (ctx.expand p.2.text)
  /-- So is any other predicate. -/
  predicate : ctx.expand p.1 ≠ Vocabulary.rdfType → ctx.Abbreviable (ctx.expand p.1)
  /-- It is not written as a keyword. -/
  key : ctx.expand p.1 ≠ Vocabulary.rdfType → isKeyword (ctx.compact (ctx.expand p.1)) = false
  /-- A reference is written out. -/
  reference : ctx.expand p.1 ≠ Vocabulary.rdfType → ∀ t, p.2 = .iri t → ctx.expand t = t

instance (ctx : Context) : (o : Object) → Decidable (∀ t, o = .iri t → ctx.expand t = t)
  | .literal _ => .isTrue (by simp)
  | .iri t => decidable_of_iff (ctx.expand t = t) (by simp)

instance (ctx : Context) (p : String × Object) : Decidable (Portable ctx p) :=
  decidable_of_iff
    ((ctx.expand p.1 = Vocabulary.rdfType → ctx.Abbreviable (ctx.expand p.2.text)) ∧
      (ctx.expand p.1 ≠ Vocabulary.rdfType → ctx.Abbreviable (ctx.expand p.1)) ∧
      (ctx.expand p.1 ≠ Vocabulary.rdfType →
        isKeyword (ctx.compact (ctx.expand p.1)) = false) ∧
      (ctx.expand p.1 ≠ Vocabulary.rdfType → ∀ t, p.2 = .iri t → ctx.expand t = t))
    ⟨fun h => ⟨h.1, h.2.1, h.2.2.1, h.2.2.2⟩, fun h => ⟨h.tag, h.predicate, h.key, h.reference⟩⟩

/-- No pair is written under the key of the subject. -/
theorem keyOf_ne_id {p : String × Object} (hp : Portable ctx p) :
    keyOf ctx (ctx.expand p.1) ≠ "@id" := by
  rw [keyOf]
  split
  · decide
  · rename_i htype
    intro heq
    have hkey := hp.key htype
    rw [heq] at hkey
    exact absurd hkey (by decide)

/-- The key of a portable pair leads back to its predicate. -/
theorem predicateOf_keyOf (hctx : ctx.Regular) {p : String × Object} (hp : Portable ctx p) :
    predicateOf ctx (keyOf ctx (ctx.expand p.1)) = ctx.expand p.1 := by
  by_cases htype : ctx.expand p.1 = Vocabulary.rdfType
  · rw [keyOf, if_pos htype, predicateOf, if_pos rfl, htype]
  · have hkey := hp.key htype
    have hne : ctx.compact (ctx.expand p.1) ≠ "@type" := by
      intro heq
      rw [heq] at hkey
      exact absurd hkey (by decide)
    rw [keyOf, if_neg htype, predicateOf, if_neg hne]
    exact Context.expand_compact hctx (Context.expand_expand hctx p.1) (hp.predicate htype)

/-! ## Node objects -/

/-- Whatever is added, the members of a node object stay in order. -/
theorem increasing_nodeMembers (ctx : Context) (b : Block) : Increasing (nodeMembers ctx b) := by
  rw [nodeMembers]
  induction b.pairs using List.reverseRecOn with
  | nil => exact List.pairwise_singleton ..
  | append_singleton l p ih =>
    rw [List.foldl_append]
    exact increasing_addValue ih _ _

/-- A node object holds the subject, and under every other key the values of the
pairs that are written there. -/
theorem lookup_nodeMembers (hb : ∀ p ∈ b.pairs, Portable ctx p) (k : String) :
    (nodeMembers ctx b).lookup k =
      if k = "@id" then some (.str b.subject)
      else packed (valuesOf k (b.pairs.map fun p => property ctx p.1 p.2)) := by
  rw [nodeMembers]
  generalize b.pairs = pairs at hb
  -- on the end of the block, where the last value is added
  induction pairs using List.reverseRecOn generalizing k with
  | nil =>
    by_cases hk : k = "@id"
    · simp [hk]
    · simp [hk, valuesOf, packed]
  | append_singleton l p ih =>
    have hl : ∀ q ∈ l, Portable ctx q := fun q hq => hb q (List.mem_append_left _ hq)
    have hp : Portable ctx p := hb p (by simp)
    have hid : (property ctx p.1 p.2).1 ≠ "@id" := by
      rw [property_eq, expandedPair_fst]
      exact keyOf_ne_id hp
    rw [List.foldl_append, List.map_append, valuesOf_append]
    by_cases hk : k = (property ctx p.1 p.2).1
    · -- the key of the last pair: its earlier values, then this one
      subst hk
      have hvalues : ∀ v ∈ valuesOf (property ctx p.1 p.2).1
          (l.map fun q => property ctx q.1 q.2), ∀ items, v ≠ .arr items := by
        intro v hv items
        obtain ⟨q, -, hq⟩ := List.mem_map.mp (mem_valuesOf.mp hv)
        rw [property_eq] at hq
        obtain ⟨-, rfl⟩ := Prod.mk.inj hq
        exact valueOf_ne_arr ctx _ _ items
      have hearlier := ih (property ctx p.1 p.2).1 hl
      rw [if_neg hid] at hearlier
      have hlast : valuesOf (property ctx p.1 p.2).1 ([p].map fun q => property ctx q.1 q.2) =
          [(property ctx p.1 p.2).2] := valuesOf_cons_self _ (property ctx p.1 p.2).2 []
      rw [if_neg hid, hlast]
      exact lookup_addValue_self hvalues hearlier
    · have hnone : valuesOf k ([p].map fun q => property ctx q.1 q.2) = [] :=
        valuesOf_eq_nil (by simpa using Ne.symm hk)
      rw [hnone, List.append_nil, ← ih k hl]
      exact lookup_addValue_of_ne hk ..

/-- The values under the key of a predicate are those of its objects, in order. -/
theorem valuesOf_keyOf (hctx : ctx.Regular) (hb : ∀ p ∈ b.pairs, Portable ctx p)
    {p : String × Object} (hp : Portable ctx p) :
    valuesOf (keyOf ctx (ctx.expand p.1)) (b.pairs.map fun q => property ctx q.1 q.2) =
      (valuesOf (ctx.expand p.1) (b.expanded ctx)).map (valueOf ctx (ctx.expand p.1)) := by
  rw [Block.expanded]
  generalize b.pairs = pairs at hb
  induction pairs with
  | nil => rfl
  | cons q rest ih =>
    obtain ⟨hq, hrest⟩ := List.forall_mem_cons.mp hb
    have hcons := ih hrest
    -- the key leads back to the predicate, so both sides take this pair or neither does
    rw [List.map_cons, List.map_cons, property_eq, expandedPair_fst]
    by_cases heq : ctx.expand q.1 = ctx.expand p.1
    · have hq' : expandedPair ctx q = (ctx.expand p.1, (expandedPair ctx q).2) := by
        rw [← heq, ← expandedPair_fst]
      rw [heq, hq', valuesOf_cons_self, valuesOf_cons_self, hcons, List.map_cons]
    · have hkey : keyOf ctx (ctx.expand q.1) ≠ keyOf ctx (ctx.expand p.1) := by
        intro hkey
        have hback := congrArg (predicateOf ctx) hkey
        rw [predicateOf_keyOf hctx hq, predicateOf_keyOf hctx hp] at hback
        exact heq hback
      have hq' : (expandedPair ctx q).1 ≠ ctx.expand p.1 := by
        rw [expandedPair_fst]
        exact heq
      rw [valuesOf_cons_of_ne hkey, valuesOf_cons_of_ne hq', hcons]

/-- A node object has under the key of a predicate the objects of the predicate. -/
theorem lookup_keyOf (hctx : ctx.Regular) (hb : ∀ p ∈ b.pairs, Portable ctx p)
    {p : String × Object} (hp : Portable ctx p) :
    (nodeMembers ctx b).lookup (keyOf ctx (ctx.expand p.1)) =
      packed ((valuesOf (ctx.expand p.1) (b.expanded ctx)).map (valueOf ctx (ctx.expand p.1))) := by
  rw [lookup_nodeMembers hb, if_neg (keyOf_ne_id hp), valuesOf_keyOf hctx hb hp]

/-- Every member but the subject was written for a pair. -/
theorem exists_pair_of_mem (hb : ∀ p ∈ b.pairs, Portable ctx p)
    (hmem : (key, v) ∈ nodeMembers ctx b) (hkey : key ≠ "@id") :
    ∃ p ∈ b.pairs, key = keyOf ctx (ctx.expand p.1) := by
  have hlookup := (increasing_nodeMembers ctx b).lookup_of_mem hmem
  rw [lookup_nodeMembers hb, if_neg hkey] at hlookup
  -- some value was written under the key
  have hne : valuesOf key (b.pairs.map fun p => property ctx p.1 p.2) ≠ [] := by
    intro hnil
    rw [packed_eq_none.mpr hnil] at hlookup
    cases hlookup
  obtain ⟨w, hw⟩ := List.exists_mem_of_ne_nil _ hne
  obtain ⟨p, hp, heq⟩ := List.mem_map.mp (mem_valuesOf.mp hw)
  rw [property_eq, expandedPair_fst] at heq
  exact ⟨p, hp, (Prod.mk.inj heq).1.symm⟩

end JsonLd

end EntityRdf
