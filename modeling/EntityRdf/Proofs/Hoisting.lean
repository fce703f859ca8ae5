import EntityRdf.JsonLd.Reader
import EntityRdf.Proofs.Fallible

/-!
# Embedded nodes listed flat

A JSON-LD graph may embed the node objects that a property refers to, or list them beside
their parents. `hoisted` turns the first form into the second: it cuts every embedded node
object down to a reference and lists it, hoisted itself, right after its parent.

Reading a node object looks at its own members first and at what is embedded in them
afterwards. Its own block comes out the same from cut down values (`ownBlock_detached`), or
fails the same; where it comes out, the reader goes on with the node objects that were
hoisted (`Valued.accounts`), in the same order.

Main result: `read_hoisted`.
-/

namespace EntityRdf.JsonLd

/-! ## The hoisted form -/

/-- The `@id` of an object that is an embedded node: it has a string as `@id` and another
key, and is neither a `@value` nor a `@list`. -/
def embeddedId? (members : List (String × Json)) : Option String :=
  match members.lookup "@value", members.lookup "@list", members.lookup "@id" with
  | none, none, some (.str id) => if hasContent members then some id else none
  | _, _, _ => none

mutual

/-- A property value with each embedded node cut down to a reference. -/
def detached : Json → Json
  | .null => .null
  | .bool b => .bool b
  | .num n => .num n
  | .str s => .str s
  | .arr items => .arr (detachedItems items)
  | .obj members =>
    match embeddedId? members with
    | some id => .obj [("@id", .str id)]
    | none =>
      -- what a `@value` holds is text, whatever else stands beside it
      if (members.lookup "@value").isSome then .obj members else .obj (detachedList members)

def detachedItems : List Json → List Json
  | [] => []
  | v :: items => detached v :: detachedItems items

/-- The members of an object with the nodes in its `@list` cut down. -/
def detachedList : List (String × Json) → List (String × Json)
  | [] => []
  | (key, v) :: members =>
    if key = "@list" then (key, detached v) :: members else (key, v) :: detachedList members

end

/-- A member of a node object with what it embeds cut down. Keywords embed nothing. -/
def detachedMember : String × Json → String × Json
  | (key, v) => if isKeyword key then (key, v) else (key, detached v)

def detachedMembers (members : List (String × Json)) : List (String × Json) :=
  members.map detachedMember

mutual

/-- The nodes that are embedded in a property value at any depth, each before those that
are embedded in it. -/
def nodesIn : Json → List (List (String × Json))
  | .null | .bool _ | .num _ | .str _ => []
  | .arr items => nodesInItems items
  | .obj members =>
    match embeddedId? members with
    | some _ => members :: nodesBelow members
    | none => if (members.lookup "@value").isSome then [] else nodesInList members

def nodesInItems : List Json → List (List (String × Json))
  | [] => []
  | v :: items => nodesIn v ++ nodesInItems items

/-- The nodes that are embedded in the `@list` of an object. -/
def nodesInList : List (String × Json) → List (List (String × Json))
  | [] => []
  | (key, v) :: members => if key = "@list" then nodesIn v else nodesInList members

/-- The nodes that are embedded in the properties of a node object. -/
def nodesBelow : List (String × Json) → List (List (String × Json))
  | [] => []
  | (key, v) :: members => (if isKeyword key then [] else nodesIn v) ++ nodesBelow members

end

/-- A node object and the nodes embedded in it, side by side. Other values stay as they
are. -/
def hoistedNode : Json → List Json
  | .obj members => (members :: nodesBelow members).map fun n => .obj (detachedMembers n)
  | v => [v]

/-- A graph with all its nodes side by side. -/
def hoisted : Json → Json
  | .arr nodes => .arr (nodes.flatMap hoistedNode)
  | .obj members => .arr (hoistedNode (.obj members))
  | v => v

variable {ctx : Context} {invalid : ValueFault → CodecError} {members n : List (String × Json)}
  {id key subject : String} {v : Json} {os : List Object}

/-! ## Values without their embedded nodes -/

/-- An object is an embedded node when none of the other forms applies, it names a
subject, and it says something of it. -/
theorem embeddedId?_eq_some :
    embeddedId? members = some id ↔ members.lookup "@value" = none ∧
      members.lookup "@list" = none ∧ members.lookup "@id" = some (.str id) ∧
      hasContent members = true := by
  rw [embeddedId?]
  split
  · rename_i id' hvalue hlist hid
    simp [hvalue, hlist, hid, and_comm]
  · rename_i hother
    constructor
    · rintro ⟨⟩
    · rintro ⟨hvalue, hlist, hid, -⟩
      exact absurd hid (hother id hvalue hlist)

/-- Cutting down a list changes nothing beside it. -/
theorem lookup_detachedList (hkey : key ≠ "@list") :
    (detachedList members).lookup key = members.lookup key := by
  induction members with
  | nil => simp [detachedList]
  | cons p rest ih =>
    obtain ⟨k, w⟩ := p
    rw [detachedList]
    split
    · rename_i hk
      have hne : (key == k) = false := by simpa [hk] using hkey
      simp [List.lookup_cons, hne]
    · simp [List.lookup_cons, ih]

/-- An object holds a list after the cut exactly if it did before. -/
theorem isSome_lookup_detachedList :
    ((detachedList members).lookup "@list").isSome = (members.lookup "@list").isSome := by
  induction members with
  | nil => simp [detachedList]
  | cons p rest ih =>
    obtain ⟨k, w⟩ := p
    rw [detachedList]
    split
    · rename_i hk
      simp [hk]
    · rename_i hk
      have hne : ("@list" == k) = false := by simpa using Ne.symm hk
      simpa [List.lookup_cons, hne] using ih

/-- The keys of an object stay when its list is cut down, so it says as much as
before. -/
theorem hasContent_detachedList : hasContent (detachedList members) = hasContent members := by
  induction members with
  | nil => rfl
  | cons p rest ih =>
    rw [detachedList]
    split
    · rfl
    · rw [hasContent, hasContent, List.any_cons, List.any_cons]
      exact congrArg _ ih

/-- Cutting down what a list holds does not make it a node. -/
theorem embeddedId?_detachedList : embeddedId? (detachedList members) = embeddedId? members := by
  -- each of the four conditions reads a key that the cut keeps, or only asks whether it is
  -- there
  have hlist : (detachedList members).lookup "@list" = none ↔ members.lookup "@list" = none := by
    rw [← Option.not_isSome_iff_eq_none, isSome_lookup_detachedList, Option.not_isSome_iff_eq_none]
  refine Option.ext fun id => ?_
  rw [embeddedId?_eq_some, embeddedId?_eq_some, hlist, hasContent_detachedList,
    lookup_detachedList (show "@value" ≠ "@list" by decide),
    lookup_detachedList (show "@id" ≠ "@list" by decide)]

mutual

/-- A value stands for the same objects when its embedded nodes are cut down. -/
theorem objects_detached : ∀ v, objects ctx invalid (detached v) = objects ctx invalid v
  | .arr items => by
    rw [detached, objects, objects, objectsOfItems_detached]
  | .obj members => by
    rw [detached]
    split
    · -- both refer to the same node
      rename_i id hid
      obtain ⟨hvalue, hlist, hid, -⟩ := embeddedId?_eq_some.mp hid
      -- the node as it was counts as a reference, since its other keys are not looked at here
      have hboth : objects ctx invalid (.obj members) = .ok [.iri (ctx.expand id)] := by
        rw [objects, hvalue, hlist]
        simp [reference, hid]
      rw [hboth]
      rfl
    · split
      · rfl
      · rename_i hvalue
        rw [objects, objects, lookup_detachedList (by decide), isSome_lookup_detachedList,
          objectsOfList_detached, reference, reference, lookup_detachedList (by decide)]
  | .null | .bool _ | .num _ | .str _ => rfl

/-- The same for the items of an array. -/
theorem objectsOfItems_detached :
    ∀ items, objectsOfItems ctx invalid (detachedItems items) = objectsOfItems ctx invalid items
  | [] => rfl
  | v :: items => by
    rw [detachedItems, objectsOfItems, objectsOfItems, objects_detached v,
      objectsOfItems_detached items]

/-- The same for what an object holds in a list. -/
theorem objectsOfList_detached :
    ∀ members, objectsOfList ctx invalid (detachedList members) = objectsOfList ctx invalid members
  | [] => rfl
  | (key, v) :: members => by
    rw [detachedList]
    split
    · rename_i hkey
      rw [objectsOfList, objectsOfList, if_pos hkey, if_pos hkey, objects_detached v]
    · rename_i hkey
      rw [objectsOfList, objectsOfList, if_neg hkey, if_neg hkey, objectsOfList_detached members]

end

mutual

/-- What was cut down embeds no more nodes. -/
theorem nodesIn_detached : ∀ v, nodesIn (detached v) = []
  | .arr items => by
    rw [detached, nodesIn, nodesInItems_detached]
  | .obj members => by
    rw [detached]
    split
    · rfl
    · rename_i hid
      split
      · rename_i hvalue
        -- a value object stays, and nothing is looked for in it
        rw [nodesIn, hid]
        exact if_pos hvalue
      · rename_i hvalue
        rw [nodesIn, embeddedId?_detachedList, hid, lookup_detachedList (by decide)]
        exact (if_neg hvalue).trans (nodesInList_detached members)
  | .null | .bool _ | .num _ | .str _ => by simp [detached, nodesIn]

/-- The same for the items of an array. -/
theorem nodesInItems_detached : ∀ items, nodesInItems (detachedItems items) = []
  | [] => by simp [detachedItems, nodesInItems]
  | v :: items => by
    rw [detachedItems, nodesInItems, nodesIn_detached v, nodesInItems_detached items]
    rfl

/-- The same for what an object holds in a list. -/
theorem nodesInList_detached : ∀ members, nodesInList (detachedList members) = []
  | [] => by simp [detachedList, nodesInList]
  | (key, v) :: members => by
    rw [detachedList]
    split
    · rename_i hkey
      rw [nodesInList, if_pos hkey, nodesIn_detached v]
    · rename_i hkey
      rw [nodesInList, if_neg hkey, nodesInList_detached members]

end

/-! ## What the reader finds embedded -/

/-- An object without a list embeds nothing in one. -/
theorem nodesInList_eq_nil (h : members.lookup "@list" = none) : nodesInList members = [] := by
  induction members with
  | nil => rfl
  | cons p rest ih =>
    obtain ⟨k, w⟩ := p
    have hne : k ≠ "@list" := by
      rintro rfl
      simp at h
    rw [nodesInList, if_neg hne]
    refine ih ?_
    have hbeq : ("@list" == k) = false := by simpa using Ne.symm hne
    simpa [List.lookup_cons, hbeq] using h

/-- Only an object with a string as `@id` is a reference. -/
theorem reference_eq_ok (h : reference ctx invalid members = .ok os) :
    ∃ id, members.lookup "@id" = some (.str id) := by
  rw [reference] at h
  split at h
  · exact ⟨_, by assumption⟩
  · cases h

/-- The nodes that the reader has found have subjects, and with all that is embedded in
each of them they are the nodes that are hoisted. -/
structure Accounts (found all : List (List (String × Json))) : Prop where
  all_eq : all = found.flatMap fun n => n :: nodesBelow n
  ids : ∀ n ∈ found, ∃ id, n.lookup "@id" = some (.str id)

theorem Accounts.nil : Accounts [] [] := ⟨rfl, by simp⟩

/-- What is found in two places is hoisted from both, in this order. -/
theorem Accounts.append {found found' all all' : List (List (String × Json))}
    (h : Accounts found all) (h' : Accounts found' all') :
    Accounts (found ++ found') (all ++ all') := by
  refine ⟨?_, List.forall_mem_append.mpr ⟨h.ids, h'.ids⟩⟩
  rw [List.flatMap_append, ← h.all_eq, ← h'.all_eq]

mutual

/-- In a value that stands for objects every object without `@value` and `@list` has a
string as `@id`, so that the reader finds the nodes that are hoisted. -/
theorem accounts_of_objects : ∀ {v os}, objects ctx invalid v = .ok os →
    Accounts (embedded v) (nodesIn v)
  | .arr items, os, h => by
    rw [objects] at h
    rw [embedded, nodesIn]
    exact accounts_of_objectsOfItems h
  | .obj members, os, h => by
    rw [objects] at h
    rw [embedded, nodesIn]
    -- in the order of the reader: `@value`, `@list`, then `@id`
    cases hvalue : members.lookup "@value" with
    | some w => simpa [embeddedId?, hvalue] using Accounts.nil
    | none =>
      cases hlist : members.lookup "@list" with
      | some w =>
        have hitems : objectsOfList ctx invalid members = .ok os := by
          simpa [hvalue, hlist] using h
        simpa [embeddedId?, hvalue, hlist] using accounts_of_objectsOfList hitems
      | none =>
        have href : reference ctx invalid members = .ok os := by
          simpa [hvalue, hlist] using h
        obtain ⟨id, hid⟩ := reference_eq_ok href
        cases hcontent : hasContent members with
        | true =>
          have hone : Accounts [members] (members :: nodesBelow members) :=
            ⟨by simp, fun n hn => ⟨id, List.mem_singleton.mp hn ▸ hid⟩⟩
          simpa [embeddedId?, hvalue, hlist, hid, hcontent] using hone
        | false =>
          simpa [embeddedId?, hvalue, hlist, hid, hcontent, nodesInList_eq_nil hlist]
            using Accounts.nil
  | .null, _, _ | .bool _, _, _ | .num _, _, _ | .str _, _, _ => Accounts.nil

/-- The same for the items of an array. -/
theorem accounts_of_objectsOfItems : ∀ {items os}, objectsOfItems ctx invalid items = .ok os →
    Accounts (embeddedInItems items) (nodesInItems items)
  | [], _, _ => Accounts.nil
  | v :: items, os, h => by
    rw [objectsOfItems] at h
    obtain ⟨l, hl, h⟩ := bind_eq_ok.mp h
    obtain ⟨l', hl', -⟩ := bind_eq_ok.mp h
    rw [embeddedInItems, nodesInItems]
    exact (accounts_of_objects hl).append (accounts_of_objectsOfItems hl')

/-- The same for what an object holds in a list. -/
theorem accounts_of_objectsOfList : ∀ {members os}, objectsOfList ctx invalid members = .ok os →
    Accounts (embeddedInList members) (nodesInList members)
  | [], _, _ => Accounts.nil
  | (key, v) :: members, os, h => by
    rw [objectsOfList] at h
    rw [embeddedInList, nodesInList]
    split
    · rename_i hkey
      rw [if_pos hkey] at h
      exact accounts_of_objects h
    · rename_i hkey
      rw [if_neg hkey] at h
      exact accounts_of_objectsOfList h

end

/-! ## Node objects -/

/-- What the properties of a node object hold stands for objects. -/
def Valued (ctx : Context) (members : List (String × Json)) : Prop :=
  ∀ p ∈ members, isKeyword p.1 = false → ∃ invalid os, objects ctx invalid p.2 = .ok os

/-- The keywords of a node object are not touched. -/
theorem lookup_detachedMembers (hkey : isKeyword key = true) :
    (detachedMembers members).lookup key = members.lookup key := by
  rw [detachedMembers]
  induction members with
  | nil => rfl
  | cons p rest ih =>
    obtain ⟨k, w⟩ := p
    rw [List.map_cons, detachedMember]
    split
    · rw [List.lookup_cons, List.lookup_cons, ih]
    · rename_i hk
      have hne : (key == k) = false := beq_false_of_ne fun heq => hk (heq ▸ hkey)
      rw [List.lookup_cons, List.lookup_cons, hne, ih]

/-- What a member other than a keyword stands for. -/
theorem memberPairs_property (hkey : isKeyword key = false) :
    memberPairs ctx subject (key, v) =
      (objects ctx (.invalidValue subject key) v >>= fun l =>
        .ok (l.map fun object => (ctx.expand key, object))) := by
  -- `@type` is a keyword too, though it has pairs
  have hne : key ≠ "@type" := by
    rintro rfl
    revert hkey
    decide
  rw [memberPairs, if_neg hne, if_neg (by simp [hkey])]
  rfl

/-- A member stands for the same pairs when what it embeds is cut down. -/
theorem memberPairs_detached (p : String × Json) :
    memberPairs ctx subject (detachedMember p) = memberPairs ctx subject p := by
  obtain ⟨key, v⟩ := p
  rw [detachedMember]
  split
  · rfl
  · rename_i hkey
    have hkey : isKeyword key = false := by simpa using hkey
    rw [memberPairs_property hkey, memberPairs_property hkey, objects_detached]

/-- A node object has the same block of its own when its embedded nodes are cut down, or
is refused in the same way. -/
theorem ownBlock_detached (ctx : Context) (parent : Option String)
    (members : List (String × Json)) :
    ownBlock ctx parent (detachedMembers members) = ownBlock ctx parent members := by
  rw [ownBlock, ownBlock, lookup_detachedMembers (by decide)]
  split
  · rw [detachedMembers, List.mapM_map]
    exact congrArg (· >>= _) (mapM_congr fun p _ => memberPairs_detached p)
  · rfl

/-- A node object has a block of its own only if each of its properties stands for
objects. -/
theorem valued_of_ownBlock {parent : Option String} {b : Block}
    (h : ownBlock ctx parent members = .ok b) : Valued ctx members := by
  rw [ownBlock] at h
  split at h
  · obtain ⟨pairs, hpairs, -⟩ := bind_eq_ok.mp h
    rintro ⟨key, v⟩ hp hkey
    obtain ⟨l, -, hl⟩ := exists_partner (mapM_eq_ok.mp hpairs) hp
    rw [memberPairs_property hkey] at hl
    obtain ⟨os, hos, -⟩ := bind_eq_ok.mp hl
    exact ⟨_, os, hos⟩
  · cases h

/-- That is still so after the cut. -/
theorem Valued.detached (h : Valued ctx members) : Valued ctx (detachedMembers members) := by
  intro p hp hkey
  obtain ⟨⟨key, v⟩, hmem, rfl⟩ := List.mem_map.mp hp
  rw [detachedMember] at hkey ⊢
  split at hkey
  · rename_i hkeyword
    rw [hkeyword] at hkey
    cases hkey
  · rename_i hnot
    rw [if_neg hnot]
    obtain ⟨invalid, os, hos⟩ := h _ hmem hkey
    exact ⟨invalid, os, (objects_detached v).trans hos⟩

/-- So the reader finds below a node object just the nodes that are hoisted out of it. -/
theorem Valued.accounts (h : Valued ctx members) :
    Accounts (embeddedNodes members) (nodesBelow members) := by
  induction members with
  | nil => exact Accounts.nil
  | cons p rest ih =>
    obtain ⟨hp, hrest⟩ := List.forall_mem_cons.mp h
    obtain ⟨key, v⟩ := p
    rw [embeddedNodes, List.flatMap_cons, nodesBelow]
    refine Accounts.append ?_ (ih hrest)
    cases hkey : isKeyword key with
    | true => simpa [hkey] using Accounts.nil
    | false =>
      obtain ⟨invalid, os, hv⟩ := hp hkey
      simpa [hkey] using accounts_of_objects hv

/-- A node object that was cut down embeds no nodes. -/
theorem nodesBelow_detached : nodesBelow (detachedMembers members) = [] := by
  rw [detachedMembers]
  induction members with
  | nil => rfl
  | cons p rest ih =>
    obtain ⟨key, v⟩ := p
    rw [List.map_cons, detachedMember]
    split
    · rename_i hkey
      rw [nodesBelow, if_pos hkey, ih]
      rfl
    · rename_i hkey
      rw [nodesBelow, if_neg hkey, nodesIn_detached, ih]
      rfl

/-- Nor does the reader find any in it. -/
theorem embeddedNodes_detached (h : Valued ctx members) :
    embeddedNodes (detachedMembers members) = [] := by
  have hnil := h.detached.accounts.all_eq
  rw [nodesBelow_detached] at hnil
  cases hnodes : embeddedNodes (detachedMembers members) with
  | nil => rfl
  | cons n rest =>
    -- each node found is among those to be hoisted
    rw [hnodes] at hnil
    cases hnil

/-- Where a node object stands only matters to the refusal of one without `@id`. -/
theorem flatten_parent (hid : n.lookup "@id" = some (.str id)) (parent : Option String)
    (doc : Document) : flatten ctx parent doc n = flatten ctx none doc n := by
  rw [flatten_eq, flatten_eq, ownBlock, ownBlock, hid]

/-! ## Reading -/

/-- Reading a node object and then the nodes hoisted out of it is reading it as it was. -/
theorem foldlM_hoistedNode (ctx : Context) (members : List (String × Json)) (doc : Document) :
    (hoistedNode (.obj members)).foldlM (addNode ctx) doc = flatten ctx none doc members := by
  -- on the nesting: the embedded nodes are smaller
  induction hsize : sizeOf members using Nat.strongRecOn generalizing members doc with
  | ind size ih =>
    rw [hoistedNode, List.map_cons, List.foldlM_cons, addNode, flatten_eq, flatten_eq,
      ownBlock_detached]
    cases hblock : ownBlock ctx none members with
    | error e => rfl
    | ok b =>
      have hvalued := valued_of_ownBlock hblock
      dsimp only
      -- on the left the cut down node adds its block only, and the hoisted nodes are next
      rw [embeddedNodes_detached hvalued, List.foldlM_nil, pure_bind,
        hvalued.accounts.all_eq, List.map_flatMap, foldlM_flatMap]
      refine foldlM_congr fun n hn doc => ?_
      -- on the right a node is read below its parent, which changes nothing
      obtain ⟨id, hid⟩ := hvalued.accounts.ids n hn
      rw [flatten_parent hid]
      exact ih _ (hsize ▸ sizeOf_lt_of_mem_embeddedNodes hn) n doc rfl

/-- The same for values that are no node object, which are refused either way. -/
theorem foldlM_hoistedNode_eq (ctx : Context) (v : Json) (doc : Document) :
    (hoistedNode v).foldlM (addNode ctx) doc = addNode ctx doc v := by
  cases v with
  | obj members => exact foldlM_hoistedNode ctx members doc
  | null | bool _ | num _ | str _ | arr _ => rfl

/-- Every node in the hoisted form embeds nothing. -/
theorem nodesBelow_of_mem_hoistedNode {v : Json} (h : .obj n ∈ hoistedNode v) :
    nodesBelow n = [] := by
  cases v with
  | obj members =>
    obtain ⟨m, -, hm⟩ := List.mem_map.mp h
    cases hm
    exact nodesBelow_detached
  | null | bool _ | num _ | str _ | arr _ => cases List.mem_singleton.mp h

/-- Reading a graph is reading its nodes with the local context, where they are a list. -/
theorem read_graph {c nodes : Json} {l : List Json}
    (h : topLevel (.obj [("@context", c), ("@graph", nodes)]) = .ok l) :
    read ctx (.obj [("@context", c), ("@graph", nodes)]) =
      l.foldlM (addNode (withLocalContext ctx (.obj [("@context", c)]))) .empty := by
  rw [read, h]
  rfl

/-- The hoisted form of a graph embeds no nodes, and reads as the graph itself: as the same
document, or as the same error. -/
theorem read_hoisted (ctx : Context) (c nodes : Json) :
    read ctx (.obj [("@context", c), ("@graph", hoisted nodes)]) =
      read ctx (.obj [("@context", c), ("@graph", nodes)]) ∧
    ∀ l, hoisted nodes = .arr l → ∀ n, .obj n ∈ l → nodesBelow n = [] := by
  cases nodes with
  | arr nodes =>
    constructor
    · rw [read_graph (l := nodes.flatMap hoistedNode) rfl, read_graph (l := nodes) rfl,
        foldlM_flatMap]
      exact foldlM_congr fun v _ doc => foldlM_hoistedNode_eq _ v doc
    · rintro _ ⟨⟩ n hn
      obtain ⟨v, -, hv⟩ := List.mem_flatMap.mp hn
      exact nodesBelow_of_mem_hoistedNode hv
  | obj members =>
    constructor
    · -- a single node is a list of one
      rw [read_graph (l := hoistedNode (.obj members)) rfl, foldlM_hoistedNode_eq,
        read_graph (l := [.obj members]) rfl, List.foldlM_cons]
      exact (bind_pure _).symm
    · rintro _ ⟨⟩ n hn
      exact nodesBelow_of_mem_hoistedNode hn
  | null | bool _ | num _ | str _ =>
    refine ⟨rfl, ?_⟩
    rintro _ ⟨⟩

/-- An adapter with a rule in a list, which holds a value in turn: three nodes in a row. -/
example :
    hoisted (.obj [("@id", .str "urn:a"), ("sp:rules", .obj [("@list", .arr [
      .obj [("@id", .str "urn:r"), ("sp:value", .obj [("@id", .str "urn:v"), ("sp:n", .str "1")])],
      .obj [("@id", .str "urn:s")]])])]) =
    .arr [
      .obj [("@id", .str "urn:a"), ("sp:rules", .obj [("@list", .arr [
        .obj [("@id", .str "urn:r")], .obj [("@id", .str "urn:s")]])])],
      .obj [("@id", .str "urn:r"), ("sp:value", .obj [("@id", .str "urn:v")])],
      .obj [("@id", .str "urn:v"), ("sp:n", .str "1")]] := by
  decide

end EntityRdf.JsonLd
