import EntityRdf.StringMap
import EntityRdf.Vocabulary

/-!
# Contexts: prefix bindings, expansion and compaction

A context binds short prefixes to namespaces. `Context.expand` turns a compact
term such as `sp:mapsTo` into an absolute IRI, `Context.compact` goes back by
the longest namespace that the IRI starts with. Predicates and type tags are
always compared in expanded form, so both spellings name the same thing.
-/

namespace EntityRdf

/-- A prefix table. -/
structure Context where
  /-- Each prefix with the namespace it stands for. -/
  bindings : StringMap String
deriving DecidableEq, Inhabited, Repr

/-- The text before and after the first colon, if there is one. -/
def splitAtColon : List Char → Option (List Char × List Char)
  | [] => none
  | c :: cs =>
    if c = ':' then some ([], cs)
    else (splitAtColon cs).map fun (before, after) => (c :: before, after)

/-- What follows `start` in `text`, when `start` is an initial part of it. -/
def afterStart? : (start text : List Char) → Option (List Char)
  | [], text => some text
  | _ :: _, [] => none
  | c :: start, d :: text => if c = d then afterStart? start text else none

/-- What a namespace leaves of an IRI that properly extends it. -/
def localPart? (ns iri : String) : Option (List Char) :=
  match afterStart? ns.toList iri.toList with
  | some (c :: cs) => some (c :: cs)
  | _ => none

namespace Context

/-- The context that takes every term literally. -/
def empty : Context := ⟨.empty⟩

/-- Binds a prefix, replacing an earlier binding. -/
def bind (ctx : Context) (name ns : String) : Context := ⟨ctx.bindings.insert name ns⟩

/-- Adds every binding of `other`, which wins over those of `ctx`. -/
def merge (ctx other : Context) : Context := ⟨ctx.bindings.merge other.bindings⟩

/-- The namespace a prefix stands for. -/
def namespaceOf? (ctx : Context) (name : String) : Option String := ctx.bindings.get? name

/-- The bindings in prefix order. -/
def toList (ctx : Context) : List (String × String) := ctx.bindings.entries

/-- The context that a list of bindings describes when later ones win. -/
def ofList (l : List (String × String)) : Context := ⟨.ofList l⟩

/-- The prefixes of the StreamPipes JSON-LD context. -/
def streamPipes : Context := ofList [
  ("rdf", Vocabulary.rdf),
  ("rdfs", Vocabulary.rdfs),
  ("xsd", Vocabulary.xsd),
  ("sp", Vocabulary.sp),
  ("spi", Vocabulary.spi),
  ("dc", Vocabulary.dc),
  ("ssn", Vocabulary.ssn),
  ("so", Vocabulary.so),
  ("empire", Vocabulary.empire)]

/-- Expands `prefix:rest` to the prefix's namespace followed by `rest`. A term
without a colon, with an unbound prefix, or whose rest starts with `//` (an
absolute IRI with an authority) stands for itself. -/
def expand (ctx : Context) (term : String) : String :=
  match splitAtColon term.toList with
  | none => term
  | some (name, rest) =>
    if ['/', '/'].isPrefixOf rest then term
    else match ctx.namespaceOf? (String.ofList name) with
      | some ns => ns ++ String.ofList rest
      | none => term

/-- The type predicate is absolute: no prefix can change it. -/
theorem expand_rdfType (ctx : Context) :
    ctx.expand Vocabulary.rdfType = Vocabulary.rdfType := by
  have hsplit : splitAtColon Vocabulary.rdfType.toList =
      some ("http".toList, "//www.w3.org/1999/02/22-rdf-syntax-ns#type".toList) := by decide
  rw [expand, hsplit]
  rfl

/-- Of two ways to abbreviate, the one that leaves less to write; the later one
when they leave the same. -/
def shorter (best : Option (String × List Char)) (next : String × List Char) :
    Option (String × List Char) :=
  match best with
  | none => some next
  | some b => if next.2.length ≤ b.2.length then some next else some b

/-- The prefix whose namespace covers most of an IRI, with what is left. -/
def abbreviation? (ctx : Context) (iri : String) : Option (String × List Char) :=
  (ctx.toList.filterMap fun (name, ns) => (localPart? ns iri).map (name, ·)).foldl
    shorter none

/-- Abbreviates an IRI by the longest namespace it properly extends. -/
def compact (ctx : Context) (iri : String) : String :=
  match ctx.abbreviation? iri with
  | some (name, rest) => name ++ ":" ++ String.ofList rest
  | none => iri

end Context

end EntityRdf
