import EntityRdf.Context

/-!
# Documents: blocks of triples

A document is an ordered list of blocks, one subject each. Block order carries
no meaning; within a block the order of pairs that share a predicate is the
order of the sequence they encode.
-/

namespace EntityRdf

/-- The object of a triple. -/
inductive Object where
  /-- A literal in its lexical form. -/
  | literal (text : String)
  | iri (target : String)
deriving DecidableEq, Repr

/-- The text of a literal, or the IRI of a reference. -/
def Object.text : Object → String
  | .literal s => s
  | .iri s => s

/-- One statement of a document. -/
structure Triple where
  subject : String
  /-- The predicate, compact or absolute. -/
  predicate : String
  object : Object
deriving DecidableEq, Repr

/-- All statements about one subject. -/
structure Block where
  subject : String
  /-- Predicates with their objects, in order. -/
  pairs : List (String × Object)
deriving DecidableEq, Repr

namespace Block

/-- A block without pairs. -/
def new (subject : String) : Block := ⟨subject, []⟩

def push (b : Block) (predicate : String) (object : Object) : Block :=
  { b with pairs := b.pairs ++ [(predicate, object)] }

def pushType (b : Block) (tag : String) : Block := b.push Vocabulary.rdfType (.iri tag)

/-- The type tags of the block, under any spelling of the type predicate. -/
def types (b : Block) (ctx : Context) : List String :=
  (b.pairs.filter fun p => ctx.expand p.1 == Vocabulary.rdfType).map (·.2.text)

/-- Appends the pairs that the block does not have yet. -/
def addMissing (b : Block) (pairs : List (String × Object)) : Block :=
  pairs.foldl (fun b p => if p ∈ b.pairs then b else b.push p.1 p.2) b

def triples (b : Block) : List Triple := b.pairs.map fun p => ⟨b.subject, p.1, p.2⟩

end Block

/-- An ordered list of blocks. -/
structure Document where
  blocks : List Block
deriving DecidableEq, Repr

namespace Document

/-- The document without blocks. -/
def empty : Document := ⟨[]⟩

instance : Inhabited Document := ⟨empty⟩

def push (doc : Document) (b : Block) : Document := ⟨doc.blocks ++ [b]⟩

/-- Adds the missing pairs of a block to the first block of its subject, or the
whole block at the end if there is none. -/
def mergeInto (b : Block) : List Block → List Block
  | [] => [b]
  | a :: rest =>
    if a.subject = b.subject then a.addMissing b.pairs :: rest
    else a :: mergeInto b rest

/-- Merges a block into a document. -/
def merge (doc : Document) (b : Block) : Document := ⟨mergeInto b doc.blocks⟩

/-- The first block of a subject. -/
def block? (doc : Document) (subject : String) : Option Block :=
  doc.blocks.find? (·.subject == subject)

/-- Whether a block has the subject. -/
def hasSubject (doc : Document) (subject : String) : Bool :=
  doc.blocks.any (·.subject == subject)

/-- The subjects of the blocks, in order. -/
def subjects (doc : Document) : List String := doc.blocks.map (·.subject)

/-- The subjects of blocks whose subject has a block before. -/
def repeatedSubjects (doc : Document) : List String :=
  go [] doc.subjects
where
  /-- Walks the subjects with those seen before. -/
  go (seen : List String) : List String → List String
    | [] => []
    | s :: rest => if seen.contains s then s :: go seen rest else go (s :: seen) rest

/-- Every triple of every block, in order. -/
def triples (doc : Document) : List Triple := doc.blocks.flatMap Block.triples

def tripleCount (doc : Document) : Nat := doc.triples.length

/-! ## Blocks of a growing document -/

variable {doc : Document} {b x : Block} {s : String}

/-- A block that is added does not hide an earlier one of its subject. -/
theorem block?_push_of_some (h : doc.block? s = some x) (b : Block) :
    (doc.push b).block? s = some x := by
  rw [block?, push, List.find?_append]
  rw [block?] at h
  rw [h]
  rfl

/-- A block of a new subject is found. -/
theorem block?_push_self (h : doc.block? b.subject = none) :
    (doc.push b).block? b.subject = some b := by
  rw [block?, push, List.find?_append]
  rw [block?] at h
  rw [h]
  simp

theorem block?_eq_none_iff : doc.block? s = none ↔ s ∉ doc.subjects := by
  rw [block?, List.find?_eq_none, subjects, List.mem_map]
  simp

/-- A block that is found is one of the document, under that subject. -/
theorem mem_of_block? (h : doc.block? s = some b) : b ∈ doc.blocks ∧ b.subject = s :=
  ⟨List.mem_of_find?_eq_some h, by simpa using List.find?_some h⟩

theorem hasSubject_iff_mem : doc.hasSubject s = true ↔ s ∈ doc.subjects := by
  rw [hasSubject, subjects, List.any_eq_true, List.mem_map]
  simp

@[simp] theorem subjects_push (doc : Document) (b : Block) :
    (doc.push b).subjects = doc.subjects ++ [b.subject] := by
  rw [subjects, push, List.map_append]
  rfl

end Document

end EntityRdf
