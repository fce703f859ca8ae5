import EntityRdf.Document
import EntityRdf.Json.Basic

/-!
# Reading JSON-LD

A JSON-LD value is a node object, an array of them, or an object with an
`@graph`; the prefixes of its `@context` are added to the given ones. Every
node object becomes a block (`ownBlock`), followed by the blocks of the node
objects embedded in its properties (`embedded`). Blocks of one subject are
merged. Numbers and truth values become literals.
-/

namespace EntityRdf

/-- Why a property value is neither a literal nor a reference. -/
inductive ValueFault where
  /-- The `@value` is no string, number or truth value. -/
  | notScalar
  /-- A node object has no string as `@id`. -/
  | noReference
deriving DecidableEq, Repr

def ValueFault.message : ValueFault → String
  | .notScalar => "@value is not a scalar"
  | .noReference => "node object without a string @id"

/-- Why a JSON value is no document. -/
inductive CodecError where
  /-- A value of another kind stands where node objects are expected. -/
  | notNodes (found : String)
  /-- The `@graph` is neither an array nor an object. -/
  | badGraph
  /-- A node object has no string as `@id`. -/
  | missingId (parent : Option String)
  /-- A property value is neither a literal nor a reference. -/
  | invalidValue (subject key : String) (fault : ValueFault)
deriving DecidableEq, Repr

def CodecError.message : CodecError → String
  | .notNodes found => s!"expected a JSON-LD object or array, found {found}"
  | .badGraph => "expected a JSON-LD object or array, found non-array @graph"
  | .missingId parent =>
    "node object without a string @id inside " ++ parent.getD "the top level"
  | .invalidValue subject key fault =>
    s!"unsupported value for {key} on {subject}: " ++ fault.message

namespace JsonLd

/-! ## Property values -/

/-- The literal of a `@value`. -/
def scalar (invalid : ValueFault → CodecError) (v : Json) : Except CodecError (List Object) :=
  match v.scalarText? with
  | some text => .ok [.literal text]
  | none => .error (invalid .notScalar)

/-- The reference that a node object stands for. -/
def reference (ctx : Context) (invalid : ValueFault → CodecError)
    (members : List (String × Json)) : Except CodecError (List Object) :=
  match members.lookup "@id" with
  | some (.str id) => .ok [.iri (ctx.expand id)]
  | _ => .error (invalid .noReference)

mutual

/-- The objects that a property value stands for, in order. -/
def objects (ctx : Context) (invalid : ValueFault → CodecError) :
    Json → Except CodecError (List Object)
  | .null => .ok []
  | .bool b => scalar invalid (.bool b)
  | .num n => scalar invalid (.num n)
  | .str s => scalar invalid (.str s)
  | .arr items => objectsOfItems ctx invalid items
  | .obj members =>
    -- `@value` goes before `@list`, and both before `@id`
    match members.lookup "@value" with
    | some v => scalar invalid v
    | none =>
      if (members.lookup "@list").isSome then objectsOfList ctx invalid members
      else reference ctx invalid members

/-- The objects of several values. -/
def objectsOfItems (ctx : Context) (invalid : ValueFault → CodecError) :
    List Json → Except CodecError (List Object)
  | [] => .ok []
  | v :: items => do
    let l ← objects ctx invalid v
    return l ++ (← objectsOfItems ctx invalid items)

/-- The objects of the `@list` member. -/
def objectsOfList (ctx : Context) (invalid : ValueFault → CodecError) :
    List (String × Json) → Except CodecError (List Object)
  | [] => .ok []
  | (key, v) :: members =>
    if key = "@list" then objects ctx invalid v else objectsOfList ctx invalid members

end

/-- Whether a node object says more than which node it is. -/
def hasContent (members : List (String × Json)) : Bool := members.any (·.1 ≠ "@id")

mutual

/-- The node objects embedded in a property value, in order. -/
def embedded : Json → List (List (String × Json))
  | .arr items => embeddedInItems items
  | .obj members =>
    if (members.lookup "@value").isSome then []
    else if (members.lookup "@list").isSome then embeddedInList members
    else if hasContent members then [members]
    else []
  | .null | .bool _ | .num _ | .str _ => []

/-- The node objects embedded in several values. -/
def embeddedInItems : List Json → List (List (String × Json))
  | [] => []
  | v :: items => embedded v ++ embeddedInItems items

/-- The node objects embedded in the `@list` member. -/
def embeddedInList : List (String × Json) → List (List (String × Json))
  | [] => []
  | (key, v) :: members => if key = "@list" then embedded v else embeddedInList members

end

/-! ## Nodes -/

/-- Whether a key is reserved by JSON-LD. -/
def isKeyword (key : String) : Bool := key.toList.head? = some '@'

/-- The strings of a value that is one or an array of some. -/
def strings : Json → List String
  | .str s => [s]
  | .arr items => items.filterMap Json.str?
  | _ => []

/-- The pairs that one member of a node object stands for. -/
def memberPairs (ctx : Context) (subject : String) (member : String × Json) :
    Except CodecError (List (String × Object)) :=
  let (key, v) := member
  -- a type that is no string is dropped, not refused
  if key = "@type" then
    .ok ((strings v).map fun tag => (Vocabulary.rdfType, .iri (ctx.expand tag)))
  else if isKeyword key then .ok []
  else do
    let l ← objects ctx (.invalidValue subject key) v
    return l.map fun object => (ctx.expand key, object)

/-- The block of a node object alone. -/
def ownBlock (ctx : Context) (parent : Option String) (members : List (String × Json)) :
    Except CodecError Block :=
  match members.lookup "@id" with
  | some (.str id) => do
    let pairs ← members.mapM (memberPairs ctx (ctx.expand id))
    return ⟨ctx.expand id, pairs.flatten⟩
  | _ => .error (.missingId parent)

/-- The node objects embedded in the properties of a node object, in key
order. -/
def embeddedNodes (members : List (String × Json)) : List (List (String × Json)) :=
  members.flatMap fun (key, v) => if isKeyword key then [] else embedded v

mutual

/-- A node is smaller than the value that embeds it. -/
theorem sizeOf_lt_of_mem_embedded {n : List (String × Json)} :
    ∀ {v : Json}, n ∈ embedded v → sizeOf n < sizeOf v
  | .arr items, h => by
    have hi : n ∈ embeddedInItems items := by simpa [embedded] using h
    have := sizeOf_lt_of_mem_embeddedInItems hi
    simp only [Json.arr.sizeOf_spec]
    omega
  | .obj members, h => by
    simp only [Json.obj.sizeOf_spec]
    rw [embedded] at h
    split at h
    · simp at h
    · split at h
      · have := sizeOf_lt_of_mem_embeddedInList h
        omega
      · split at h
        · rw [List.mem_singleton.mp h]
          omega
        · simp at h
  | .null, h | .bool _, h | .num _, h | .str _, h => by simp [embedded] at h

theorem sizeOf_lt_of_mem_embeddedInItems {n : List (String × Json)} :
    ∀ {items : List Json}, n ∈ embeddedInItems items → sizeOf n < sizeOf items
  | [], h => by simp [embeddedInItems] at h
  | v :: items, h => by
    simp only [List.cons.sizeOf_spec]
    rw [embeddedInItems, List.mem_append] at h
    rcases h with h | h
    · have := sizeOf_lt_of_mem_embedded h
      omega
    · have := sizeOf_lt_of_mem_embeddedInItems h
      omega

theorem sizeOf_lt_of_mem_embeddedInList {n : List (String × Json)} :
    ∀ {members : List (String × Json)}, n ∈ embeddedInList members → sizeOf n < sizeOf members
  | [], h => by simp [embeddedInList] at h
  | (key, v) :: members, h => by
    simp only [List.cons.sizeOf_spec, Prod.mk.sizeOf_spec]
    rw [embeddedInList] at h
    split at h
    · have := sizeOf_lt_of_mem_embedded h
      omega
    · have := sizeOf_lt_of_mem_embeddedInList h
      omega

end

/-- The reader descends to smaller nodes. -/
theorem sizeOf_lt_of_mem_embeddedNodes {n members : List (String × Json)}
    (h : n ∈ embeddedNodes members) : sizeOf n < sizeOf members := by
  obtain ⟨⟨key, v⟩, hm, hn⟩ := List.mem_flatMap.mp h
  change n ∈ (if isKeyword key then [] else embedded v) at hn
  split at hn
  · simp at hn
  · have h₁ := sizeOf_lt_of_mem_embedded hn
    have h₂ := List.sizeOf_lt_of_mem hm
    simp only [Prod.mk.sizeOf_spec] at h₂
    omega

/-- Merges the block of a node object into a document, then the blocks of the
node objects embedded in it. -/
def flatten (ctx : Context) (parent : Option String) (doc : Document)
    (members : List (String × Json)) : Except CodecError Document :=
  match ownBlock ctx parent members with
  | .error e => .error e
  | .ok b =>
    (embeddedNodes members).attach.foldlM (fun doc n => flatten ctx (some b.subject) doc n.1)
      (doc.merge b)
termination_by sizeOf members
decreasing_by exact sizeOf_lt_of_mem_embeddedNodes n.2

/-- The reader without the termination argument: the own block of a node is merged before
those of the nodes that it embeds. -/
theorem flatten_eq (ctx : Context) (parent : Option String) (doc : Document)
    (members : List (String × Json)) :
    flatten ctx parent doc members =
      match ownBlock ctx parent members with
      | .error e => .error e
      | .ok b => (embeddedNodes members).foldlM (flatten ctx (some b.subject)) (doc.merge b) := by
  rw [flatten]
  split
  · rfl
  · simp

/-! ## Documents -/

/-- The members of a value that is an object. -/
def membersOf : Json → List (String × Json)
  | .obj members => members
  | _ => []

/-- Adds the prefixes of a local `@context`; other term definitions are
ignored. -/
def withLocalContext (ctx : Context) (v : Json) : Context :=
  match (membersOf v).lookup "@context" with
  | some (.obj terms) =>
    terms.foldl
      (fun ctx (name, ns) =>
        match ns with
        -- the last binding of a prefix counts
        | .str ns => ctx.bind name ns
        | _ => ctx)
      ctx
  | _ => ctx

/-- The values in the place of node objects. -/
def topLevel : Json → Except CodecError (List Json)
  | .obj members =>
    match members.lookup "@graph" with
    | some (.arr items) => .ok items
    | some (.obj n) => .ok [.obj n]
    | some _ => .error .badGraph
    | none => .ok [.obj members]
  | .arr items => .ok items
  | v => .error (.notNodes v.kind)

/-- Adds one value in the place of a node object to a document. -/
def addNode (ctx : Context) (doc : Document) : Json → Except CodecError Document
  | .obj members => flatten ctx none doc members
  | v => .error (.notNodes v.kind)

/-- Reads a JSON-LD value as a document. -/
def read (ctx : Context) (v : Json) : Except CodecError Document := do
  let nodes ← topLevel v
  nodes.foldlM (addNode (withLocalContext ctx v)) .empty

end JsonLd

end EntityRdf
