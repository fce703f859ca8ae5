import EntityRdf.Proofs.DistinctSubjects
import EntityRdf.Proofs.Hoisting
import Mathlib.Data.Set.List

/-!
# What a JSON-LD value states

The node objects of a JSON-LD value are those at its top and those embedded in their
properties (`HasNode`). Each of them states triples about its own subject (`States`). That
is all there is to the meaning of the value, and neither notion mentions an order, a
document or a merge.

The reader turns every node object into a block, which holds what the node object states
(`mem_triples_ownBlock`). The node objects that it comes to are those of the value
(`hasNode_iff`), and the document is their blocks, merged one after the other
(`read_eq_ok`).

Main result: `read_states`.
-/

namespace EntityRdf

namespace JsonLd

open Relation (ReflTransGen)

variable {ctx : Context} {invalid : ValueFault → CodecError} {members n m k : List (String × Json)}
  {v w : Json} {id : String} {os : List Object} {o : Object} {b : Block} {doc : Document}
  {t : Triple}

/-! ## The meaning of a value -/

/-- A value is reached from a property value: it is that value, or is reached from an item
of an array or from a `@list`. -/
inductive Holds : Json → Json → Prop
  | self (v : Json) : Holds v v
  | item {items : List Json} {v w : Json} (hv : v ∈ items) (h : Holds v w) : Holds (.arr items) w
  | list {members : List (String × Json)} {v w : Json} (hvalue : members.lookup "@value" = none)
      (hlist : members.lookup "@list" = some v) (h : Holds v w) : Holds (.obj members) w

/-- A node object holds another one in a property. -/
def Embeds (n m : List (String × Json)) : Prop :=
  ∃ p ∈ n, isKeyword p.1 = false ∧ Holds p.2 (.obj m) ∧ embeddedId? m ≠ none

/-- The node objects at the top of a JSON-LD value: a single one, or those of an array or
of a `@graph`. -/
inductive HasAtTop : Json → List (String × Json) → Prop
  | single {members : List (String × Json)} (h : members.lookup "@graph" = none) :
      HasAtTop (.obj members) members
  | item {items : List Json} {n : List (String × Json)} (hn : .obj n ∈ items) :
      HasAtTop (.arr items) n
  | graph {members n : List (String × Json)} {items : List Json}
      (h : members.lookup "@graph" = some (.arr items)) (hn : .obj n ∈ items) :
      HasAtTop (.obj members) n
  | graphNode {members n : List (String × Json)} (h : members.lookup "@graph" = some (.obj n)) :
      HasAtTop (.obj members) n

/-- The node objects of a JSON-LD value: those at its top and those embedded in them, at any
depth. -/
def HasNode (v : Json) (n : List (String × Json)) : Prop :=
  ∃ k, HasAtTop v k ∧ ReflTransGen Embeds k n

/-- The object that a value stands for by itself: the literal of a scalar or of a `@value`,
or the reference to a node, embedded or not. -/
inductive Denotes (ctx : Context) : Json → Object → Prop
  | scalar {v : Json} {text : String} (h : v.scalarText? = some text) :
      Denotes ctx v (.literal text)
  | value {members : List (String × Json)} {v : Json} {text : String}
      (hvalue : members.lookup "@value" = some v) (h : v.scalarText? = some text) :
      Denotes ctx (.obj members) (.literal text)
  | reference {members : List (String × Json)} {id : String}
      (hvalue : members.lookup "@value" = none) (hlist : members.lookup "@list" = none)
      (hid : members.lookup "@id" = some (.str id)) :
      Denotes ctx (.obj members) (.iri (ctx.expand id))

/-- The triples that a node object states about its subject: a type for each string of its
`@type`, and what the values under its other keys stand for. -/
inductive States (ctx : Context) (n : List (String × Json)) : Triple → Prop
  | type {id tag : String} {v : Json} (hid : n.lookup "@id" = some (.str id))
      (hv : ("@type", v) ∈ n) (htag : v = .str tag ∨ ∃ items, v = .arr items ∧ .str tag ∈ items) :
      States ctx n ⟨ctx.expand id, Vocabulary.rdfType, .iri (ctx.expand tag)⟩
  | property {id key : String} {v w : Json} {o : Object} (hid : n.lookup "@id" = some (.str id))
      (hv : (key, v) ∈ n) (hkey : isKeyword key = false) (hw : Holds v w) (ho : Denotes ctx w o) :
      States ctx n ⟨ctx.expand id, ctx.expand key, o⟩

/-- The value with more nodes at the end of its array of nodes, if it has one. -/
def appendNodes? (more : List Json) : Json → Option Json
  | .arr items => some (.arr (items ++ more))
  | .obj members =>
    match members.lookup "@graph" with
    | some (.arr items) => some (.obj (Entries.insert "@graph" (.arr (items ++ more)) members))
    | _ => none
  | _ => none

/-! ## Property values -/

/-- Strings stand alone or in an array. -/
theorem mem_strings {tag : String} :
    tag ∈ strings v ↔ v = .str tag ∨ ∃ items, v = .arr items ∧ .str tag ∈ items := by
  cases v with
  | str s => simp [strings, eq_comm]
  | arr items =>
    have hstr : ∀ u : Json, u.str? = some tag ↔ u = .str tag := by
      intro u
      cases u <;> simp [Json.str?]
    simp [strings, hstr]
  | null | bool _ | num _ | obj _ => simp [strings]

theorem scalar_eq_ok :
    scalar invalid v = .ok os ↔ ∃ text, v.scalarText? = some text ∧ os = [.literal text] := by
  rw [scalar]
  cases v.scalarText? <;> simp [eq_comm]

/-- A scalar stands for its literal and for nothing else. -/
theorem mem_scalar (h : scalar invalid v = .ok os) :
    o ∈ os ↔ ∃ w, Holds v w ∧ Denotes ctx w o := by
  obtain ⟨text, htext, rfl⟩ := scalar_eq_ok.mp h
  rw [List.mem_singleton]
  constructor
  · rintro rfl
    exact ⟨v, .self v, .scalar htext⟩
  · rintro ⟨w, hw, ho⟩
    cases hw with
    | item | list => cases htext
    | self =>
      cases ho with
      | scalar htext' => rw [Option.some.inj (htext.symm.trans htext')]
      | value | reference => cases htext

/-- An object with a `@value` stands for the literal of that, whatever else is in it. -/
theorem denotes_of_value (hvalue : members.lookup "@value" = some v) :
    (∃ w, Holds (.obj members) w ∧ Denotes ctx w o) ↔
      ∃ text, v.scalarText? = some text ∧ o = .literal text := by
  constructor
  · rintro ⟨w, hw, ho⟩
    cases hw with
    | list hnone => simp [hvalue] at hnone
    | self =>
      cases ho with
      | scalar h => cases h
      | value hvalue' htext =>
        cases hvalue.symm.trans hvalue'
        exact ⟨_, htext, rfl⟩
      | reference hnone => simp [hvalue] at hnone
  · rintro ⟨text, htext, rfl⟩
    exact ⟨_, .self _, .value hvalue htext⟩

/-- An object with a `@list` stands for what the list does. -/
theorem denotes_of_list (hvalue : members.lookup "@value" = none)
    (hlist : members.lookup "@list" = some v) :
    (∃ w, Holds (.obj members) w ∧ Denotes ctx w o) ↔ ∃ w, Holds v w ∧ Denotes ctx w o := by
  constructor
  · rintro ⟨w, hw, ho⟩
    cases hw with
    | list _ hlist' hw =>
      cases hlist.symm.trans hlist'
      exact ⟨w, hw, ho⟩
    | self =>
      cases ho with
      | scalar h => cases h
      | value hvalue' => simp [hvalue] at hvalue'
      | reference _ hnone => simp [hlist] at hnone
  · rintro ⟨w, hw, ho⟩
    exact ⟨w, .list hvalue hlist hw, ho⟩

/-- Any other object stands for the node that it refers to. -/
theorem denotes_of_reference (hvalue : members.lookup "@value" = none)
    (hlist : members.lookup "@list" = none) (hid : members.lookup "@id" = some (.str id)) :
    (∃ w, Holds (.obj members) w ∧ Denotes ctx w o) ↔ o = .iri (ctx.expand id) := by
  constructor
  · rintro ⟨w, hw, ho⟩
    cases hw with
    | list _ hlist' => simp [hlist] at hlist'
    | self =>
      cases ho with
      | scalar h => cases h
      | value hvalue' => simp [hvalue] at hvalue'
      | reference _ _ hid' =>
        cases hid.symm.trans hid'
        rfl
  · rintro rfl
    exact ⟨_, .self _, .reference hvalue hlist hid⟩

mutual

/-- The objects of a property value are those of the values that are reached from it. -/
theorem mem_objects : ∀ {v os}, objects ctx invalid v = .ok os →
    (o ∈ os ↔ ∃ w, Holds v w ∧ Denotes ctx w o)
  | .arr items, os, h => by
    rw [objects] at h
    rw [mem_objectsOfItems h]
    constructor
    · rintro ⟨v, hv, w, hw, ho⟩
      exact ⟨w, .item hv hw, ho⟩
    · rintro ⟨w, hw, ho⟩
      cases hw with
      | self => cases ho with | scalar h => cases h
      | item hv hw => exact ⟨_, hv, w, hw, ho⟩
  | .obj members, os, h => by
    rw [objects] at h
    -- in the order of the reader: `@value`, `@list`, then `@id`
    cases hvalue : members.lookup "@value" with
    | some u =>
      rw [hvalue] at h
      obtain ⟨text, htext, rfl⟩ := scalar_eq_ok.mp h
      rw [List.mem_singleton, denotes_of_value hvalue, htext]
      simp
    | none =>
      cases hlist : members.lookup "@list" with
      | some u =>
        have hitems : objectsOfList ctx invalid members = .ok os := by
          simpa [hvalue, hlist] using h
        rw [mem_objectsOfList hlist hitems, denotes_of_list hvalue hlist]
      | none =>
        have href : reference ctx invalid members = .ok os := by
          simpa [hvalue, hlist] using h
        obtain ⟨id, hid⟩ := reference_eq_ok href
        rw [reference, hid] at href
        cases href
        rw [List.mem_singleton, denotes_of_reference hvalue hlist hid]
  | .null, _, h => by
    cases h
    constructor
    · simp
    · rintro ⟨w, hw, ho⟩
      cases hw
      cases ho with | scalar h => cases h
  | .bool _, _, h | .num _, _, h | .str _, _, h => by
    rw [objects] at h
    exact mem_scalar h

/-- The objects of an array are what its items denote. -/
theorem mem_objectsOfItems : ∀ {items os}, objectsOfItems ctx invalid items = .ok os →
    (o ∈ os ↔ ∃ v ∈ items, ∃ w, Holds v w ∧ Denotes ctx w o)
  | [], _, h => by
    cases h
    simp
  | v :: items, os, h => by
    rw [objectsOfItems] at h
    obtain ⟨l, hl, h⟩ := bind_eq_ok.mp h
    obtain ⟨l', hl', h⟩ := bind_eq_ok.mp h
    cases h
    rw [List.mem_append, mem_objects hl, mem_objectsOfItems hl']
    simp

/-- The objects of a list object are what the items of its list denote. -/
theorem mem_objectsOfList : ∀ {members os v}, members.lookup "@list" = some v →
    objectsOfList ctx invalid members = .ok os → (o ∈ os ↔ ∃ w, Holds v w ∧ Denotes ctx w o)
  | [], _, _, hlist, _ => by simp at hlist
  | (key, u) :: members, os, v, hlist, h => by
    rw [objectsOfList] at h
    by_cases hkey : key = "@list"
    · rw [if_pos hkey] at h
      obtain rfl : u = v := by simpa [hkey] using hlist
      exact mem_objects h
    · have hne : ("@list" == key) = false := by simpa using Ne.symm hkey
      rw [if_neg hkey] at h
      rw [List.lookup_cons, hne] at hlist
      exact mem_objectsOfList hlist h

end

/-! ## Node objects -/

/-- The pairs of a member are its types, or are what its value stands for. -/
theorem mem_memberPairs {subject : String} {p : String × Json} {pairs : List (String × Object)}
    {q : String × Object} (h : memberPairs ctx subject p = .ok pairs) :
    q ∈ pairs ↔
      (p.1 = "@type" ∧ ∃ tag ∈ strings p.2, q = (Vocabulary.rdfType, .iri (ctx.expand tag))) ∨
      (isKeyword p.1 = false ∧ ∃ w o, Holds p.2 w ∧ Denotes ctx w o ∧ q = (ctx.expand p.1, o)) := by
  obtain ⟨key, v⟩ := p
  by_cases htype : key = "@type"
  · subst htype
    -- tags are types, whatever else the value holds
    have hkey : isKeyword "@type" = true := by decide
    cases h
    simp [hkey, eq_comm]
  by_cases hkey : isKeyword key = true
  · -- keywords other than `@type` say nothing
    rw [memberPairs, if_neg htype, if_pos hkey] at h
    cases h
    simp [htype, hkey]
  · have hkey : isKeyword key = false := by simpa using hkey
    rw [memberPairs_property hkey] at h
    obtain ⟨os, hos, h⟩ := bind_eq_ok.mp h
    cases h
    rw [List.mem_map]
    constructor
    · rintro ⟨o, ho, rfl⟩
      obtain ⟨w, hw, hden⟩ := (mem_objects hos).mp ho
      exact Or.inr ⟨hkey, w, o, hw, hden, rfl⟩
    · rintro (⟨heq, -⟩ | ⟨-, w, o, hw, hden, rfl⟩)
      · exact absurd heq htype
      · exact ⟨o, (mem_objects hos).mpr ⟨w, hw, hden⟩, rfl⟩

/-- A node at the top has a block if it has an identifier and all of its members can be
read. -/
theorem ownBlock_eq_ok : ownBlock ctx none n = .ok b ↔
    ∃ id, n.lookup "@id" = some (.str id) ∧ b.subject = ctx.expand id ∧
      ∃ pairs, n.mapM (memberPairs ctx (ctx.expand id)) = .ok pairs ∧ b.pairs = pairs.flatten := by
  rw [ownBlock]
  constructor
  · intro h
    split at h
    · rename_i id hid
      obtain ⟨pairs, hpairs, h⟩ := bind_eq_ok.mp h
      cases h
      exact ⟨id, hid, rfl, pairs, hpairs, rfl⟩
    · cases h
  · rintro ⟨id, hid, hsubject, pairs, hpairs, hflat⟩
    obtain ⟨subject, l⟩ := b
    obtain rfl : subject = ctx.expand id := hsubject
    obtain rfl : l = pairs.flatten := hflat
    rw [hid]
    exact bind_eq_ok.mpr ⟨pairs, hpairs, rfl⟩

/-- The block of a node object holds what the node object states. -/
theorem mem_triples_ownBlock (h : ownBlock ctx none n = .ok b) :
    t ∈ b.triples ↔ States ctx n t := by
  obtain ⟨id, hid, hsubject, pairs, hpairs, hflat⟩ := ownBlock_eq_ok.mp h
  have hall := mapM_eq_ok.mp hpairs
  rw [Block.mem_triples, hflat, List.mem_flatten, hsubject]
  constructor
  · -- a pair of the block comes from some member
    rintro ⟨hs, l, hl, ht⟩
    obtain ⟨⟨key, v⟩, hmem, hp⟩ := exists_partner hall.flip hl
    obtain ⟨s, p, o⟩ := t
    obtain rfl : ctx.expand id = s := hs
    rcases (mem_memberPairs hp).mp ht with ⟨rfl, tag, htag, heq⟩ | ⟨hkey, w, o, hw, hden, heq⟩
    · cases heq
      exact .type hid hmem (mem_strings.mp htag)
    · cases heq
      exact .property hid hmem hkey hw hden
  · -- what a member states is among its pairs
    intro ht
    cases ht with
    | type hid' hmem htag =>
      cases hid.symm.trans hid'
      obtain ⟨l, hl, hp⟩ := exists_partner hall hmem
      exact ⟨rfl, l, hl, (mem_memberPairs hp).mpr (Or.inl ⟨rfl, _, mem_strings.mpr htag, rfl⟩)⟩
    | property hid' hmem hkey hw hden =>
      cases hid.symm.trans hid'
      obtain ⟨l, hl, hp⟩ := exists_partner hall hmem
      exact ⟨rfl, l, hl, (mem_memberPairs hp).mpr (Or.inr ⟨hkey, _, _, hw, hden, rfl⟩)⟩

/-- What is embedded in a node object or is the node object itself. -/
theorem reflTransGen_embeds :
    ReflTransGen Embeds n m ↔ n = m ∨ ∃ p ∈ n, isKeyword p.1 = false ∧
      ∃ c, Holds p.2 (.obj c) ∧ embeddedId? c ≠ none ∧ ReflTransGen Embeds c m := by
  rw [Relation.ReflTransGen.cases_head_iff]
  refine or_congr_right ?_
  constructor
  · rintro ⟨c, ⟨p, hp, hkey, hc, hid⟩, hcm⟩
    exact ⟨p, hp, hkey, c, hc, hid, hcm⟩
  · rintro ⟨p, hp, hkey, c, hc, hid, hcm⟩
    exact ⟨c, ⟨p, hp, hkey, hc, hid⟩, hcm⟩

mutual

/-- The nodes found in a value are those it holds and those embedded in them. -/
theorem mem_nodesIn : ∀ {v}, n ∈ nodesIn v ↔
    ∃ c, Holds v (.obj c) ∧ embeddedId? c ≠ none ∧ ReflTransGen Embeds c n
  | .arr items => by
    rw [nodesIn, mem_nodesInItems]
    constructor
    · rintro ⟨v, hv, c, hc, h⟩
      exact ⟨c, .item hv hc, h⟩
    · rintro ⟨c, hc, h⟩
      cases hc with
      | item hv hc => exact ⟨_, hv, c, hc, h⟩
  | .obj members => by
    rw [nodesIn]
    split
    · -- an embedded node is no list, so the value holds itself and nothing else
      rename_i id hid
      obtain ⟨-, hlist, -, -⟩ := embeddedId?_eq_some.mp hid
      rw [List.mem_cons, mem_nodesBelow, eq_comm, ← reflTransGen_embeds]
      constructor
      · exact fun h => ⟨members, .self _, by simp [hid], h⟩
      · rintro ⟨c, hc, -, h⟩
        cases hc with
        | self => exact h
        | list _ hlist' => simp [hlist] at hlist'
    · -- any other object leads further only through its list
      rename_i hid
      constructor
      · intro h
        split at h
        · cases h
        · rename_i hvalue
          cases hlist : members.lookup "@list" with
          | none => simp [nodesInList_eq_nil hlist] at h
          | some v =>
            obtain ⟨c, hc, h⟩ := (mem_nodesInList hlist).mp h
            exact ⟨c, .list (Option.not_isSome_iff_eq_none.mp hvalue) hlist hc, h⟩
      · rintro ⟨c, hc, hcid, h⟩
        cases hc with
        | self => exact absurd hid hcid
        | list hvalue hlist hc =>
          rw [hvalue]
          exact (mem_nodesInList hlist).mpr ⟨c, hc, hcid, h⟩
  | .null | .bool _ | .num _ | .str _ => by
    rw [nodesIn]
    constructor
    · simp
    · rintro ⟨c, hc, -⟩
      cases hc

/-- The nodes in an array are those that its items hold, and what these embed. -/
theorem mem_nodesInItems : ∀ {items}, n ∈ nodesInItems items ↔
    ∃ v ∈ items, ∃ c, Holds v (.obj c) ∧ embeddedId? c ≠ none ∧ ReflTransGen Embeds c n
  | [] => by simp [nodesInItems]
  | v :: items => by
    rw [nodesInItems, List.mem_append, mem_nodesIn, mem_nodesInItems]
    simp

/-- The nodes in a list object are those that its list holds, and what these embed. -/
theorem mem_nodesInList : ∀ {members v}, members.lookup "@list" = some v →
    (n ∈ nodesInList members ↔
      ∃ c, Holds v (.obj c) ∧ embeddedId? c ≠ none ∧ ReflTransGen Embeds c n)
  | [], _, hlist => by simp at hlist
  | (key, u) :: members, v, hlist => by
    rw [nodesInList]
    by_cases hkey : key = "@list"
    · rw [if_pos hkey]
      obtain rfl : u = v := by simpa [hkey] using hlist
      exact mem_nodesIn
    · have hne : ("@list" == key) = false := by simpa using Ne.symm hkey
      rw [if_neg hkey]
      rw [List.lookup_cons, hne] at hlist
      exact mem_nodesInList hlist

/-- The nodes below a node stand in its members that are no keywords. -/
theorem mem_nodesBelow : ∀ {members}, n ∈ nodesBelow members ↔
    ∃ p ∈ members, isKeyword p.1 = false ∧
      ∃ c, Holds p.2 (.obj c) ∧ embeddedId? c ≠ none ∧ ReflTransGen Embeds c n
  | [] => by simp [nodesBelow]
  | (key, v) :: members => by
    rw [nodesBelow, List.mem_append, mem_nodesBelow, List.exists_mem_cons_iff]
    refine or_congr_left ?_
    cases hkey : isKeyword key with
    | true => simp
    | false => simpa using mem_nodesIn

end

/-- A node and the nodes below it are what it embeds, at whatever depth. -/
theorem mem_cons_nodesBelow : m ∈ n :: nodesBelow n ↔ ReflTransGen Embeds n m := by
  rw [List.mem_cons, mem_nodesBelow, eq_comm, ← reflTransGen_embeds]

/-! ## Reading -/

/-- The blocks of node objects are merged one after the other, unless one is refused. -/
theorem foldlM_merge {l : List (List (String × Json))} {doc : Document} :
    l.foldlM (fun doc m => ownBlock ctx none m >>= fun b => .ok (doc.merge b)) doc =
      l.mapM (ownBlock ctx none) >>= fun bs => .ok (doc.mergeAll bs) := by
  induction l generalizing doc with
  | nil => rfl
  | cons m rest ih =>
    rw [List.foldlM_cons, List.mapM_cons]
    cases ownBlock ctx none m with
    | error e => rfl
    | ok b =>
      rw [ok_bind, ok_bind, ok_bind, ih]
      cases rest.mapM (ownBlock ctx none) <;> rfl

/-- Reading a node object is merging its block and those of the nodes below it. -/
theorem flatten_eq_mergeAll {doc : Document} : flatten ctx none doc n =
    (n :: nodesBelow n).mapM (ownBlock ctx none) >>= fun bs => .ok (doc.mergeAll bs) := by
  rw [← foldlM_hoistedNode, hoistedNode, List.foldlM_map, ← foldlM_merge]
  refine foldlM_congr fun m _ doc => ?_
  -- a detached node has its own block and nothing embedded in it
  rw [addNode, flatten_eq, ownBlock_detached]
  cases hblock : ownBlock ctx none m with
  | error e => rfl
  | ok b =>
    dsimp only
    rw [embeddedNodes_detached (valued_of_ownBlock hblock)]
    rfl

/-- Only objects are read as nodes. -/
theorem exists_map_obj {l : List Json} {doc doc' : Document}
    (h : l.foldlM (addNode ctx) doc = .ok doc') :
    ∃ ns : List (List (String × Json)), l = ns.map .obj := by
  induction l generalizing doc with
  | nil => exact ⟨[], rfl⟩
  | cons w rest ih =>
    rw [List.foldlM_cons] at h
    obtain ⟨mid, hw, h⟩ := bind_eq_ok.mp h
    obtain ⟨ns, rfl⟩ := ih h
    cases w with
    | obj m => exact ⟨m :: ns, rfl⟩
    | null | bool _ | num _ | str _ | arr _ => cases hw

/-- Node objects with the nodes below them, in the order of the reader. -/
def withNodesBelow (ns : List (List (String × Json))) : List (List (String × Json)) :=
  ns.flatMap fun n => n :: nodesBelow n

/-- Adding nodes one by one merges the blocks of all the nodes below them, in order. -/
theorem foldlM_addNode_obj {ns : List (List (String × Json))} {doc : Document} :
    (ns.map .obj).foldlM (addNode ctx) doc =
      (withNodesBelow ns).mapM (ownBlock ctx none) >>= fun bs => .ok (doc.mergeAll bs) := by
  rw [← foldlM_merge, withNodesBelow, foldlM_flatMap, List.foldlM_map]
  refine foldlM_congr fun n _ doc => ?_
  rw [addNode, flatten_eq_mergeAll, ← foldlM_merge]

/-- Reading a value is merging the blocks of all its node objects. -/
theorem read_eq_ok : read ctx v = .ok doc ↔ ∃ ns bs, topLevel v = .ok (ns.map .obj) ∧
    (withNodesBelow ns).mapM (ownBlock (withLocalContext ctx v) none) = .ok bs ∧
    doc = Document.empty.mergeAll bs := by
  rw [read, bind_eq_ok]
  constructor
  · rintro ⟨l, hl, h⟩
    obtain ⟨ns, rfl⟩ := exists_map_obj h
    rw [foldlM_addNode_obj] at h
    obtain ⟨bs, hbs, h⟩ := bind_eq_ok.mp h
    cases h
    exact ⟨ns, bs, hl, hbs, rfl⟩
  · rintro ⟨ns, bs, hns, hbs, rfl⟩
    exact ⟨_, hns, by rw [foldlM_addNode_obj, hbs]; rfl⟩

/-- The values at the top are those that the reader goes through. -/
theorem mem_of_topLevel {l : List Json} (h : topLevel v = .ok l) : .obj n ∈ l ↔ HasAtTop v n := by
  cases v with
  | arr items =>
    cases h
    refine ⟨.item, fun hn => ?_⟩
    cases hn with | item hn => exact hn
  | obj members =>
    rw [topLevel] at h
    -- an object is a graph with its nodes inside, or a node itself
    cases hgraph : members.lookup "@graph" with
    | none =>
      rw [hgraph] at h
      cases h
      rw [List.mem_singleton]
      constructor
      · rintro ⟨⟩
        exact .single hgraph
      · intro hn
        cases hn with
        | single => rfl
        | graph hgraph' | graphNode hgraph' => simp [hgraph] at hgraph'
    | some u =>
      rw [hgraph] at h
      cases u with
      | arr items =>
        cases h
        refine ⟨.graph hgraph, fun hn => ?_⟩
        cases hn with
        | graph hgraph' hn =>
          cases hgraph.symm.trans hgraph'
          exact hn
        | single hgraph' | graphNode hgraph' => simp [hgraph] at hgraph'
      | obj k =>
        cases h
        rw [List.mem_singleton]
        constructor
        · rintro ⟨⟩
          exact .graphNode hgraph
        · intro hn
          cases hn with
          | graphNode hgraph' =>
            cases hgraph.symm.trans hgraph'
            rfl
          | single hgraph' | graph hgraph' => simp [hgraph] at hgraph'
      | null | bool _ | num _ | str _ => cases h
  | null | bool _ | num _ | str _ => cases h

/-- The node objects that are read are those of the value. -/
theorem hasNode_iff {ns : List (List (String × Json))} (h : topLevel v = .ok (ns.map .obj)) :
    HasNode v n ↔ n ∈ withNodesBelow ns := by
  have htop : ∀ k, HasAtTop v k ↔ k ∈ ns := by
    intro k
    rw [← mem_of_topLevel h]
    exact List.mem_map_of_injective fun _ _ => Json.obj.inj
  simp only [HasNode, htop, withNodesBelow, List.mem_flatMap, mem_cons_nodesBelow]

/-- Nodes that the value has already can be read again. -/
theorem mapM_ownBlock_again {ns more : List (List (String × Json))} {bs : List Block}
    (h : (withNodesBelow ns).mapM (ownBlock ctx none) = .ok bs)
    (hmore : ∀ m ∈ more, m ∈ withNodesBelow ns) :
    ∃ again, (withNodesBelow more).mapM (ownBlock ctx none) = .ok again ∧ ∀ b ∈ again, b ∈ bs := by
  have hall := mapM_eq_ok.mp h
  -- the nodes below a node of the value are nodes of the value
  have hbelow : ∀ n ∈ withNodesBelow more, n ∈ withNodesBelow ns := by
    intro n hn
    obtain ⟨m, hm, hmn⟩ := List.mem_flatMap.mp hn
    obtain ⟨k, hk, hkm⟩ := List.mem_flatMap.mp (hmore m hm)
    rw [mem_cons_nodesBelow] at hmn hkm
    exact List.mem_flatMap.mpr ⟨k, hk, mem_cons_nodesBelow.mpr (hkm.trans hmn)⟩
  generalize withNodesBelow more = l at hbelow ⊢
  induction l with
  | nil => exact ⟨[], rfl, by simp⟩
  | cons n rest ih =>
    obtain ⟨hn, hrest⟩ := List.forall_mem_cons.mp hbelow
    obtain ⟨b, hb, hnb⟩ := exists_partner hall hn
    obtain ⟨again, hagain, hmem⟩ := ih hrest
    refine ⟨b :: again, ?_, List.forall_mem_cons.mpr ⟨hb, hmem⟩⟩
    rw [List.mapM_cons, hnb, hagain]
    rfl

/-- Nodes are appended to those at the top, and the local context stays. -/
theorem topLevel_appendNodes {more l : List Json} {v' : Json} (h : appendNodes? more v = some v')
    (hl : topLevel v = .ok l) :
    topLevel v' = .ok (l ++ more) ∧ withLocalContext ctx v' = withLocalContext ctx v := by
  cases v with
  | arr items =>
    cases h
    cases hl
    exact ⟨rfl, rfl⟩
  | obj members =>
    rw [appendNodes?] at h
    split at h
    · rename_i items hgraph
      cases h
      rw [topLevel, hgraph] at hl
      cases hl
      rw [topLevel, Entries.lookup_insert_self, withLocalContext, withLocalContext, membersOf,
        membersOf, Entries.lookup_insert_of_ne (by decide)]
      exact ⟨rfl, rfl⟩
    · cases h
  | null | bool _ | num _ | str _ => cases h

/-- Merging never adds a second block for a subject. -/
theorem nodup_of_read (h : read ctx v = .ok doc) : doc.subjects.Nodup := by
  obtain ⟨ns, bs, -, -, rfl⟩ := read_eq_ok.mp h
  exact Document.nodup_mergeAll Document.nodup_subjects_empty bs

/-- The subjects of the document are the identifiers of the node objects. -/
theorem mem_subjects_of_read (h : read ctx v = .ok doc) {s : String} :
    s ∈ doc.subjects ↔ ∃ n id, HasNode v n ∧ n.lookup "@id" = some (.str id) ∧
      (withLocalContext ctx v).expand id = s := by
  obtain ⟨ns, bs, hns, hbs, rfl⟩ := read_eq_ok.mp h
  have hall := mapM_eq_ok.mp hbs
  rw [Document.mem_subjects_mergeAll]
  constructor
  · rintro (hs | ⟨b, hb, rfl⟩)
    · cases hs
    · obtain ⟨n, hn, hnb⟩ := exists_partner hall.flip hb
      obtain ⟨id, hid, hsubject, -⟩ := ownBlock_eq_ok.mp hnb
      exact ⟨n, id, (hasNode_iff hns).mpr hn, hid, hsubject.symm⟩
  · rintro ⟨n, id, hn, hid, rfl⟩
    obtain ⟨b, hb, hnb⟩ := exists_partner hall ((hasNode_iff hns).mp hn)
    obtain ⟨id', hid', hsubject, -⟩ := ownBlock_eq_ok.mp hnb
    cases hid.symm.trans hid'
    exact Or.inr ⟨b, hb, hsubject.symm⟩

/-- The triples of the document are those that the node objects state. -/
theorem mem_triples_of_read (h : read ctx v = .ok doc) :
    t ∈ doc.triples ↔ ∃ n, HasNode v n ∧ States (withLocalContext ctx v) n t := by
  obtain ⟨ns, bs, hns, hbs, rfl⟩ := read_eq_ok.mp h
  have hall := mapM_eq_ok.mp hbs
  rw [Document.mem_triples_mergeAll]
  constructor
  · rintro (ht | ⟨b, hb, ht⟩)
    · cases ht
    · obtain ⟨n, hn, hnb⟩ := exists_partner hall.flip hb
      exact ⟨n, (hasNode_iff hns).mpr hn, (mem_triples_ownBlock hnb).mp ht⟩
  · rintro ⟨n, hn, ht⟩
    obtain ⟨b, hb, hnb⟩ := exists_partner hall ((hasNode_iff hns).mp hn)
    exact Or.inr ⟨b, hb, (mem_triples_ownBlock hnb).mpr ht⟩

/-- Nodes that the value has already add nothing at its end. -/
theorem read_appendNodes {more : List Json} {v' : Json} (h : read ctx v = .ok doc)
    (hmore : ∀ w ∈ more, ∃ n, w = .obj n ∧ HasNode v n) (happend : appendNodes? more v = some v') :
    read ctx v' = .ok doc := by
  obtain ⟨ns, bs, hns, hbs, rfl⟩ := read_eq_ok.mp h
  obtain ⟨ms, rfl⟩ : more ∈ Set.range (List.map Json.obj) := by
    rw [Set.range_list_map]
    intro w hw
    obtain ⟨n, rfl, -⟩ := hmore w hw
    exact ⟨n, rfl⟩
  have hms : ∀ m ∈ ms, m ∈ withNodesBelow ns := by
    intro m hm
    obtain ⟨n, heq, hn⟩ := hmore _ (List.mem_map_of_mem hm)
    cases heq
    exact (hasNode_iff hns).mp hn
  obtain ⟨again, hagain, hmem⟩ := mapM_ownBlock_again hbs hms
  obtain ⟨htop, hctx⟩ := topLevel_appendNodes happend hns
  refine read_eq_ok.mpr ⟨ns ++ ms, bs ++ again, by rw [htop, List.map_append], ?_, ?_⟩
  · rw [hctx, withNodesBelow, List.flatMap_append, List.mapM_append]
    refine bind_eq_ok.mpr ⟨bs, hbs, bind_eq_ok.mpr ⟨again, hagain, rfl⟩⟩
  · rw [Document.mergeAll_append, Document.mergeAll_again Document.nodup_subjects_empty hmem]

/-- Where a JSON-LD value can be read, the document has one block for each subject, and the
subjects are the identifiers of the node objects of the value. The triples of the document
are those that some node object states. Appending nodes that the value has already changes
nothing. -/
theorem read_states (h : read ctx v = .ok doc) :
    doc.subjects.Nodup ∧
    (∀ (R : Registry) cfg s, R.decode cfg doc ≠ .error (.duplicateSubject s) ∧
      ∀ root, R.decodeSubject cfg doc root ≠ .error (.duplicateSubject s)) ∧
    (Registry.checkSubjects doc).severity = .pass ∧
    (∀ s, s ∈ doc.subjects ↔ ∃ n id, HasNode v n ∧ n.lookup "@id" = some (.str id) ∧
      (withLocalContext ctx v).expand id = s) ∧
    (∀ t, t ∈ doc.triples ↔ ∃ n, HasNode v n ∧ States (withLocalContext ctx v) n t) ∧
    ∀ more v', (∀ w ∈ more, ∃ n, w = .obj n ∧ HasNode v n) → appendNodes? more v = some v' →
      read ctx v' = .ok doc := by
  have hnodup := nodup_of_read h
  have hdecode : ∀ (R : Registry) cfg s, R.decode cfg doc ≠ .error (.duplicateSubject s) ∧
      ∀ root, R.decodeSubject cfg doc root ≠ .error (.duplicateSubject s) := fun R cfg s =>
    ⟨Registry.decode_ne_duplicateSubject hnodup,
      fun _ => Registry.decodeSubject_ne_duplicateSubject hnodup⟩
  exact ⟨hnodup, hdecode, Registry.severity_checkSubjects hnodup, fun _ => mem_subjects_of_read h,
    fun _ => mem_triples_of_read h, fun _ _ => read_appendNodes h⟩

/-- A pipeline in two spellings. Its source is embedded in a list of the first. -/
def pipelineNodes : List (List (String × Json)) := [
  [("@id", .str "ex:pipeline"), ("@type", .arr [.str "ex:Pipeline"]),
    ("ex:steps", .obj [("@list", .arr [
      .obj [("@id", .str "ex:source"), ("ex:enabled", .bool true)], .str "sink"])])],
  [("@id", .str "http://example.org/pipeline"), ("ex:name", .obj [("@value", .str "A")])]]

def twoSpellings : Json := .obj [
  ("@context", .obj [("ex", .str "http://example.org/")]),
  ("@graph", .arr (pipelineNodes.map .obj))]

/-- The document that the two spellings make. -/
def onePipeline : Document := ⟨[
  ⟨"http://example.org/pipeline", [
    (Vocabulary.rdfType, .iri "http://example.org/Pipeline"),
    ("http://example.org/steps", .iri "http://example.org/source"),
    ("http://example.org/steps", .literal "sink"),
    ("http://example.org/name", .literal "A")]⟩,
  ⟨"http://example.org/source", [("http://example.org/enabled", .literal "true")]⟩]⟩

/-- Reading the two spellings states seven things of two subjects. -/
theorem read_states_twoSpellings :
    read .empty twoSpellings = .ok onePipeline ∧
    onePipeline.subjects.Nodup ∧
    (∀ (R : Registry) cfg s, R.decode cfg onePipeline ≠ .error (.duplicateSubject s) ∧
      ∀ root, R.decodeSubject cfg onePipeline root ≠ .error (.duplicateSubject s)) ∧
    (Registry.checkSubjects onePipeline).severity = .pass ∧
    (∀ s, s ∈ onePipeline.subjects ↔ ∃ n id, HasNode twoSpellings n ∧
      n.lookup "@id" = some (.str id) ∧
      (withLocalContext .empty twoSpellings).expand id = s) ∧
    (∀ t, t ∈ onePipeline.triples ↔
      ∃ n, HasNode twoSpellings n ∧ States (withLocalContext .empty twoSpellings) n t) ∧
    ∀ more v', (∀ w ∈ more, ∃ n, w = .obj n ∧ HasNode twoSpellings n) →
      appendNodes? more twoSpellings = some v' → read .empty v' = .ok onePipeline := by
  have h : read .empty twoSpellings = .ok onePipeline := by
    show (pipelineNodes.map Json.obj).foldlM (addNode _) _ = _
    rw [foldlM_addNode_obj]
    decide +kernel
  exact ⟨h, read_states h⟩

end JsonLd

end EntityRdf
