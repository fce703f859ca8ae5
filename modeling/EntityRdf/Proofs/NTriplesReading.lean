import EntityRdf.NTriples
import EntityRdf.Proofs.TermScanning
import Mathlib.Data.List.ReduceOption

/-!
# N-Triples says what the document says

N-Triples has one triple on a line, which ends at a line feed or a carriage return. The
reader here is the grammar of the format: it cuts the text into lines, a line into tokens,
and takes the tokens of a line as a subject, a predicate, an object and a full stop. It knows
nothing of the writer.

No term that is written has a line end in it (`isLineEnd_of_mem_row`), so the lines of the
output are those of the triples, whatever the literals say (`lines_write`). What a line says
is its triple with the IRIs written out (`readRow_row`).

Main result: `read_write_triples`.
-/

namespace EntityRdf.NTriples

open Terms

/-! ## The reader -/

/-- The subject that a token stands for. -/
def subject? : Token → Option Term
  | .iri iri => some (.iri iri)
  | .blank label => some (.blank label)
  | _ => none

/-- The object that tokens stand for. A literal without a datatype is a string. -/
def object? : List Token → Option Term
  | [.iri iri] => some (.iri iri)
  | [.blank label] => some (.blank label)
  | [.text text] => some (.literal text Vocabulary.xsdString)
  | [.text text, .tag language] => some (.tagged text language)
  | [.text text, .carets, .iri datatype] => some (.literal text datatype)
  | _ => none

/-- What the tokens of a line say, which may be nothing. -/
def statement? : List Token → Option (Option Statement)
  | [] => some none
  | subject :: .iri predicate :: rest =>
    if rest.getLast? = some .dot then do
      return some ⟨← subject? subject, predicate, ← object? rest.dropLast⟩
    else none
  | _ => none

/-- What a line says. -/
def readRow (cs : List Char) : Option (Option Statement) := do statement? (← tokens? cs)

/-- The lines of a text that are not empty. -/
def lines (text : String) : List (List Char) :=
  (text.toList.splitOnP isLineEnd).filter (· ≠ [])

/-- What each line says. -/
def readLines (text : String) : Option (List (Option Statement)) := (lines text).mapM readRow

/-- What a text says, in order. -/
def read (text : String) : Option (List Statement) := (readLines text).map List.reduceOption

/-- Comments, a blank node, a language and escapes. -/
example : read "# Two\n<urn:a> <urn:b> _:c . # here\n\r\n<urn:\\u0061><urn:l>\"\\\"\\u0041\"@fr-CA." =
    some [⟨.iri "urn:a", "urn:b", .blank "c"⟩, ⟨.iri "urn:a", "urn:l", .tagged "\"A" "fr-CA"⟩] := by
  decide +kernel

/-! ## One line -/

variable {ctx : Context} {doc : Document} {t : Triple} {o : Object} {c : Char} {s : String}

/-- The line of a triple without its end. -/
def row (ctx : Context) (t : Triple) : List Char :=
  (bracketIri (ctx.expand t.subject)).toList ++ ' ' :: ((bracketIri (ctx.expand t.predicate)).toList
    ++ ' ' :: ((object ctx t.object).toList ++ ' ' :: ['.']))

theorem toList_line (ctx : Context) (t : Triple) : (line ctx t).toList = row ctx t ++ ['\n'] := by
  simp [line, row]

/-- The tokens of an object in expanded form. -/
def objectTokens : Object → List Token
  | .literal s => [.text s, .carets, .iri Vocabulary.xsdString]
  | .iri target => [.iri target]

/-- The tokens of a triple in expanded form. -/
def rowTokens (t : Triple) : List Token :=
  .iri t.subject :: .iri t.predicate :: (objectTokens t.object ++ [.dot])

/-- A written object lexes to the tokens of the object in expanded form. -/
theorem lexes_object (h : (o.expanded ctx).Legal) :
    Lexes (object ctx o).toList (objectTokens (o.expanded ctx)) := by
  cases o with
  | iri target => exact (scans_bracketIri h).lexes
  | literal s =>
    have htype : Scans (bracketIri Vocabulary.xsdString).toList [.iri Vocabulary.xsdString] :=
      scans_bracketIri (by decide)
    have hall := ((scans_quoteLiteral s).append scans_carets).append htype
    simpa [object, objectTokens, Object.expanded] using hall.lexes

/-- A row lexes to the tokens of its triple: each term ends at a blank, and the dot
closes it. -/
theorem lexes_row (h : (t.expanded ctx).Legal) :
    Lexes (row ctx t) (rowTokens (t.expanded ctx)) := by
  have hobject := (lexes_object h.object).append isBlank_space scans_dot.lexes
  have hpredicate := (scans_bracketIri h.predicate).lexes.append isBlank_space hobject
  exact (scans_bracketIri h.subject).lexes.append isBlank_space hpredicate

/-- The tokens of a triple are parsed as its statement. -/
theorem statement?_rowTokens (t : Triple) : statement? (rowTokens t) = some (some t.statement) := by
  obtain ⟨s, p, o⟩ := t
  cases o <;> rfl

/-- A line says what its triple says. -/
theorem readRow_row (h : (t.expanded ctx).Legal) :
    readRow (row ctx t) = some (some (t.expanded ctx).statement) := by
  rw [readRow, (lexes_row h).tokens?]
  exact statement?_rowTokens _

/-! ## Lines -/

/-- Lines end at either of two characters. -/
theorem isLineEnd_eq_false : isLineEnd c = false ↔ c ≠ '\n' ∧ c ≠ '\r' := by
  simp [isLineEnd]

/-- No character of an IRI ends a line. -/
theorem isLineEnd_of_isIriChar (h : isIriChar c = true) : isLineEnd c = false := by
  refine isLineEnd_eq_false.mpr ⟨?_, ?_⟩
  · rintro rfl
    exact absurd h (by decide)
  · rintro rfl
    exact absurd h (by decide)

/-- Nor does an IRI in brackets. -/
theorem isLineEnd_of_mem_bracketIri (h : IsIri s) (hc : c ∈ (bracketIri s).toList) :
    isLineEnd c = false := by
  have hcases : c = '<' ∨ c ∈ s.toList ∨ c = '>' := by simpa [bracketIri] using hc
  rcases hcases with rfl | hmem | rfl
  · decide
  · exact isLineEnd_of_isIriChar (h c hmem)
  · decide

/-- Line ends are escaped in literals. -/
theorem isLineEnd_of_mem_escape (d : Char) : ∀ c ∈ escapeLiteralChar d, isLineEnd c = false := by
  unfold escapeLiteralChar
  split
  · simp [isLineEnd]
  · simp [isLineEnd]
  · simp [isLineEnd]
  · simp [isLineEnd]
  · rename_i hline hreturn
    intro c hc
    obtain rfl := List.mem_singleton.mp hc
    exact isLineEnd_eq_false.mpr ⟨hline, hreturn⟩

/-- Nor does a quoted literal, whatever its text. -/
theorem isLineEnd_of_mem_quoteLiteral (hc : c ∈ (quoteLiteral s).toList) : isLineEnd c = false := by
  have hcases : c = '"' ∨ (∃ d ∈ s.toList, c ∈ escapeLiteralChar d) ∨ c = '"' := by
    simpa [quoteLiteral] using hc
  rcases hcases with rfl | ⟨d, -, hd⟩ | rfl
  · decide
  · exact isLineEnd_of_mem_escape d c hd
  · decide

/-- No term has a line end in it. -/
theorem isLineEnd_of_mem_row (h : (t.expanded ctx).Legal) :
    ∀ c ∈ row ctx t, isLineEnd c = false := by
  have hobject : ∀ c ∈ (object ctx t.object).toList, isLineEnd c = false := by
    obtain ⟨s, p, o⟩ := t
    cases o with
    | iri target => exact fun c => isLineEnd_of_mem_bracketIri h.object
    | literal text =>
      intro c hc
      have hcases : c ∈ (quoteLiteral text).toList ∨ c = '^' ∨
          c ∈ (bracketIri Vocabulary.xsdString).toList := by simpa [object] using hc
      rcases hcases with hc | rfl | hc
      · exact isLineEnd_of_mem_quoteLiteral hc
      · decide
      · exact isLineEnd_of_mem_bracketIri (by decide) hc
  -- and what stands between the terms is no line end either
  have hblank : isLineEnd ' ' = false := by decide
  simp only [row, List.forall_mem_append, List.forall_mem_cons]
  exact ⟨fun c => isLineEnd_of_mem_bracketIri h.subject, hblank,
    fun c => isLineEnd_of_mem_bracketIri h.predicate, hblank, hobject, hblank, by decide, by simp⟩

/-- The output is one row after the other, each with its end. -/
theorem toList_write (ctx : Context) (doc : Document) :
    (write ctx doc).toList = doc.triples.flatMap fun t => row ctx t ++ ['\n'] := by
  rw [write, String.toList_join, List.flatMap_map]
  exact List.flatMap_congr fun t _ => toList_line ctx t

/-- The lines of the output are those of the triples. -/
theorem lines_write (h : ∀ t ∈ doc.triples, (t.expanded ctx).Legal) :
    lines (write ctx doc) = doc.triples.map (row ctx) := by
  rw [lines, toList_write]
  generalize doc.triples = l at h ⊢
  induction l with
  | nil => simp -- behind the last line end there is an empty line, which is left out
  | cons t rest ih =>
    obtain ⟨ht, hrest⟩ := List.forall_mem_cons.mp h
    have hne : row ctx t ≠ [] := by simp [row]
    rw [List.flatMap_cons, List.append_assoc, List.singleton_append,
      List.splitOnP_append_cons_of_forall_mem (isLineEnd_of_mem_row ht) '\n' (by decide),
      List.filter_cons_of_pos (by simpa using hne), ih hrest]
    rfl

/-- The output has a line end for each triple and no other. -/
theorem countP_isLineEnd_write (h : ∀ t ∈ doc.triples, (t.expanded ctx).Legal) :
    (write ctx doc).toList.countP isLineEnd = doc.triples.length := by
  rw [toList_write]
  generalize doc.triples = l at h ⊢
  induction l with
  | nil => rfl
  | cons t rest ih =>
    obtain ⟨ht, hrest⟩ := List.forall_mem_cons.mp h
    have hrow : (row ctx t).countP isLineEnd = 0 := by
      rw [List.countP_eq_zero]
      exact fun c hc => by simp [isLineEnd_of_mem_row ht c hc]
    have hend : ['\n'].countP isLineEnd = 1 := by decide
    rw [List.flatMap_cons, List.countP_append, List.countP_append, hrow, hend, ih hrest,
      List.length_cons]
    omega

/-! ## The whole text -/

/-- Each line of the output says what its triple says. -/
theorem readLines_write (h : ∀ t ∈ doc.triples, (t.expanded ctx).Legal) :
    readLines (write ctx doc) =
      some (doc.triples.map fun t => some (t.expanded ctx).statement) := by
  rw [readLines, lines_write h, List.mapM_map]
  generalize doc.triples = l at h ⊢
  induction l with
  | nil => rfl
  | cons t rest ih =>
    obtain ⟨ht, hrest⟩ := List.forall_mem_cons.mp h
    rw [List.mapM_cons, Function.comp_apply, readRow_row ht, ih hrest]
    rfl

/-- Read as a whole, the output says what the triples say, since none of its lines is
empty. -/
theorem read_write_eq (h : ∀ t ∈ doc.triples, (t.expanded ctx).Legal) :
    read (write ctx doc) = some (doc.triples.map fun t => (t.expanded ctx).statement) := by
  rw [read, readLines_write h, Option.map_some]
  simp [List.reduceOption]

/-- N-Triples output has a line for each triple, in the order of the document, and the line says
the triple with its IRIs written out and the text of a literal as a string. So documents
that differ in these triples differ in their output. -/
theorem read_write_triples (h : ∀ t ∈ doc.triples, (t.expanded ctx).Legal) :
    (write ctx doc).toList.countP isLineEnd = doc.triples.length ∧
    readLines (write ctx doc) = some (doc.triples.map fun t => some (t.expanded ctx).statement) ∧
    read (write ctx doc) = some (doc.triples.map fun t => (t.expanded ctx).statement) ∧
    ∀ ctx' doc', (∀ t ∈ doc'.triples, (t.expanded ctx').Legal) →
      doc.triples.map (Triple.expanded ctx) ≠ doc'.triples.map (Triple.expanded ctx') →
      write ctx doc ≠ write ctx' doc' := by
  refine ⟨countP_isLineEnd_write h, readLines_write h, read_write_eq h, ?_⟩
  intro ctx' doc' h' hne heq
  -- the same text is read as the triples of both
  have hread : some (doc.triples.map fun t => (t.expanded ctx).statement) =
      some (doc'.triples.map fun t => (t.expanded ctx').statement) := by
    rw [← read_write_eq h, heq, read_write_eq h']
  refine hne (List.map_injective_iff.mpr Triple.statement_injective ?_)
  rw [List.map_map, List.map_map]
  exact Option.some.inj hread

/-- A text that looks like the end of a triple and another one. -/
def misleading : Document := ⟨[⟨"spi:note", [
  (Vocabulary.rdfType, .iri "sp:Note"),
  ("rdfs:label", .literal "\\\" .\n<urn:a> <urn:b> \"c\r\\")]⟩]⟩

/-- Reading goes by the escapes and not by what the text looks like. -/
theorem read_write_triples_misleading :
    (∀ t ∈ misleading.triples, (t.expanded .streamPipes).Legal) ∧
    (write .streamPipes misleading).toList.countP isLineEnd = misleading.triples.length ∧
    readLines (write .streamPipes misleading) =
      some (misleading.triples.map fun t => some (t.expanded .streamPipes).statement) ∧
    read (write .streamPipes misleading) =
      some (misleading.triples.map fun t => (t.expanded .streamPipes).statement) ∧
    ∀ ctx' doc', (∀ t ∈ doc'.triples, (t.expanded ctx').Legal) →
      misleading.triples.map (Triple.expanded .streamPipes) ≠
        doc'.triples.map (Triple.expanded ctx') →
      write .streamPipes misleading ≠ write ctx' doc' := by
  have h : ∀ t ∈ misleading.triples, (t.expanded .streamPipes).Legal := by decide +kernel
  exact ⟨h, read_write_triples h⟩

end EntityRdf.NTriples
