import EntityRdf.Proofs.BlockReading
import EntityRdf.Proofs.NTriplesReading
import EntityRdf.Turtle
import Mathlib.Data.List.Perm.Basic

/-!
# Turtle says what the document says

The reader here is the grammar of Turtle on the tokens of a text, a machine that takes one
token at a time: declarations of prefixes, and statements with their lists of verbs and of
objects. IRIs in angle brackets stand for themselves, prefixed names for what the prefixes
declared so far make of them. It knows nothing of the writer.

`Reads` joins the scanner and the machine: characters take the machine from one state to
another when a blank follows. The pieces of the output are read one after the other, up to
`reads_statement` for a block and `reads_declaration` for a prefix.

The output groups the triples of a block by predicate. `grouped` says how, without the loop
that does it (`groupByKey_eq`).

Main result: `read_write_grouped`.
-/

namespace EntityRdf

/-! ## Groups -/

section Groups

variable {κ : Type u} {α : Type v} [DecidableEq κ]

/-- The keys of the groups are those of the list, each where it first appears. -/
theorem keys_groupByKey (l : List (κ × α)) :
    (groupByKey l).map (·.1) = (l.map (·.1)).eraseDups := by
  induction l using List.reverseRecOn with
  | nil => rfl
  | append_singleton l p ih =>
    -- a new key goes behind the others
    rw [groupByKey_append_singleton, keys_addToGroup, ih, List.map_append, List.eraseDups_append]
    by_cases hp : p.1 ∈ l.map (·.1)
    · rw [if_pos (List.mem_eraseDups.mpr hp)]
      simp [List.removeAll, List.mem_map.mp hp]
    · rw [if_neg (mt List.mem_eraseDups.mp hp)]
      simp [List.removeAll, hp, List.eraseDups_cons]

/-- The groups of a list are its keys, each where it first appears, with their values. -/
theorem groupByKey_eq (l : List (κ × α)) :
    groupByKey l = (l.map (·.1)).eraseDups.map fun k => (k, valuesOf k l) := by
  rw [← keys_groupByKey, List.map_map]
  refine (List.map_id _).symm.trans (List.map_congr_left fun g hg => ?_)
  obtain ⟨k, vs⟩ := g
  obtain ⟨rfl, -⟩ := mem_groupByKey.mp hg
  rfl

/-- Pairs make at least one group. -/
theorem groupByKey_ne_nil {l : List (κ × α)} (h : l ≠ []) : groupByKey l ≠ [] := by
  intro hnil
  obtain ⟨p, hp⟩ := List.exists_mem_of_ne_nil _ h
  have hkey : p.1 ∈ (l.map (·.1)).eraseDups := List.mem_eraseDups.mpr (List.mem_map_of_mem hp)
  rw [← keys_groupByKey, hnil] at hkey
  cases hkey

/-- Sorting a list by keys that do not repeat loses nothing. -/
theorem flatMap_filter_perm {l : List α} {key : α → κ} {ks : List κ} (hks : ks.Nodup)
    (h : ∀ a ∈ l, key a ∈ ks) : (ks.flatMap fun k => l.filter (key · = k)).Perm l := by
  induction ks generalizing l with
  | nil =>
    obtain rfl : l = [] := List.eq_nil_iff_forall_not_mem.mpr fun a ha => by simpa using h a ha
    exact .nil
  | cons k ks ih =>
    obtain ⟨hk, hks⟩ := List.nodup_cons.mp hks
    -- the other keys find their values in what the first one leaves
    have hrest : (ks.flatMap fun k' => l.filter (key · = k')) =
        ks.flatMap fun k' => (l.filter (key · ≠ k)).filter (key · = k') := by
      refine List.flatMap_congr fun k' hk' => ?_
      rw [List.filter_filter]
      refine List.filter_congr fun a _ => ?_
      have hne : k' ≠ k := fun heq => hk (heq ▸ hk')
      by_cases ha : key a = k' <;> simp [ha, hne]
    have hperm := ih (l := l.filter (key · ≠ k)) hks fun a ha => by
      obtain ⟨hmem, hne⟩ := List.mem_filter.mp ha
      exact (List.mem_cons.mp (h a hmem)).resolve_left (by simpa using hne)
    rw [List.flatMap_cons, hrest]
    refine (hperm.append_left _).trans ?_
    simpa using List.filter_append_perm (key · = k) l

end Groups

/-- Triples grouped by predicate: the predicates where they first appear, and the triples of a
predicate in their order. -/
def grouped (ts : List Triple) : List Triple :=
  (ts.map (·.predicate)).eraseDups.flatMap fun p => ts.filter (·.predicate = p)

/-- Grouping loses nothing. -/
theorem grouped_perm (ts : List Triple) : (grouped ts).Perm ts := by
  refine flatMap_filter_perm ?_ fun t ht => List.mem_eraseDups.mpr (List.mem_map_of_mem ht)
  have hkeys := groupByKey_keys_nodup (ts.map fun t => (t.predicate, t))
  rw [keys_groupByKey, List.map_map] at hkeys
  exact hkeys

/-- The target of a reference. -/
def Object.target? : Object → Option String
  | .literal _ => none
  | .iri target => some target

namespace Turtle

open Terms

/-! ## The reader -/

/-- What may come next. -/
inductive Awaiting where
  | statement
  /-- The parts of the declaration of a prefix. -/
  | declaredName
  | declaredIri (name : String)
  | declaredEnd (name ns : String)
  | verb (subject : Term)
  /-- Another verb, or the end of the statement. -/
  | nextVerb (subject : Term)
  | object (subject : Term) (predicate : String)
  /-- The language or the datatype of a literal, or what comes after a string. -/
  | suffix (subject : Term) (predicate text : String)
  | datatype (subject : Term) (predicate text : String)
  | more (subject : Term) (predicate : String) (object : Term)
deriving DecidableEq, Repr

/-- Where a reading stands. -/
structure Reading where
  /-- The prefixes that are declared so far. -/
  declared : Context
  /-- What was said so far, last first. -/
  done : List Statement
  awaiting : Awaiting

/-- The IRI that a token stands for, in brackets or with a prefix that is declared. -/
def iri? (declared : Context) : Token → Option String
  | .iri iri => some iri
  | .name start rest => (declared.namespaceOf? start).map (· ++ rest)
  | _ => none

/-- The predicate that a token stands for. -/
def verb? (declared : Context) : Token → Option String
  | .isA => some Vocabulary.rdfType
  | t => iri? declared t

/-- The subject or the object that a token stands for, unless it is a literal. -/
def node? (declared : Context) : Token → Option Term
  | .blank label => some (.blank label)
  | t => (iri? declared t).map .iri

def startObject (r : Reading) (subject : Term) (t : Token) : Option Reading :=
  (verb? r.declared t).map fun p => { r with awaiting := .object subject p }

/-- Takes the token after an object. -/
def endObject (r : Reading) (st : Statement) : Token → Option Reading
  | .comma => some ⟨r.declared, st :: r.done, .object st.subject st.predicate⟩
  | .semicolon => some ⟨r.declared, st :: r.done, .nextVerb st.subject⟩
  | .dot => some ⟨r.declared, st :: r.done, .statement⟩
  | _ => none

/-- Takes the token at the start of a statement or a declaration. -/
def stepStatement (r : Reading) : Token → Option Reading
  | .tag "prefix" => some { r with awaiting := .declaredName }
  | t => (node? r.declared t).map fun s => { r with awaiting := .verb s }

/-- Takes the name that is declared. -/
def stepName (r : Reading) : Token → Option Reading
  | .name start "" => some { r with awaiting := .declaredIri start }
  | _ => none

/-- Takes the namespace that is declared. -/
def stepNamespace (r : Reading) (name : String) : Token → Option Reading
  | .iri ns => some { r with awaiting := .declaredEnd name ns }
  | _ => none

/-- Takes the end of a declaration. -/
def stepDeclared (r : Reading) (name ns : String) : Token → Option Reading
  | .dot => some ⟨r.declared.bind name ns, r.done, .statement⟩
  | _ => none

/-- Takes the token after a semicolon. -/
def stepNextVerb (r : Reading) (subject : Term) : Token → Option Reading
  | .semicolon => some r
  | .dot => some { r with awaiting := .statement }
  | t => startObject r subject t

def stepObject (r : Reading) (subject : Term) (predicate : String) : Token → Option Reading
  | .text text => some { r with awaiting := .suffix subject predicate text }
  | t => (node? r.declared t).map fun o => { r with awaiting := .more subject predicate o }

/-- Takes the token after a string. -/
def stepSuffix (r : Reading) (subject : Term) (predicate text : String) : Token → Option Reading
  | .tag language => some { r with awaiting := .more subject predicate (.tagged text language) }
  | .carets => some { r with awaiting := .datatype subject predicate text }
  | t => endObject r ⟨subject, predicate, .literal text Vocabulary.xsdString⟩ t

def stepDatatype (r : Reading) (subject : Term) (predicate text : String) (t : Token) :
    Option Reading :=
  (iri? r.declared t).map fun d => { r with awaiting := .more subject predicate (.literal text d) }

def Reading.step (r : Reading) (t : Token) : Option Reading :=
  match r.awaiting with
  | .statement => stepStatement r t
  | .declaredName => stepName r t
  | .declaredIri name => stepNamespace r name t
  | .declaredEnd name ns => stepDeclared r name ns t
  | .verb s => startObject r s t
  | .nextVerb s => stepNextVerb r s t
  | .object s p => stepObject r s p t
  | .suffix s p text => stepSuffix r s p text t
  | .datatype s p text => stepDatatype r s p text t
  | .more s p o => endObject r ⟨s, p, o⟩ t

/-- What a text says, in order. -/
def read (text : String) : Option (List Statement) := do
  let r ← (← tokens? text.toList).foldlM Reading.step ⟨.empty, [], .statement⟩
  if r.awaiting = .statement then some r.done.reverse else none

/-- Declared names with dots in them, a datatype, and marks without blanks. -/
example : read "@prefix ex: <urn:ex#>.\nex:a a ex:B; ;\n  ex:p.q _:b, \"1\"^^ex:n;.\n# no more" =
    some [⟨.iri "urn:ex#a", Vocabulary.rdfType, .iri "urn:ex#B"⟩,
      ⟨.iri "urn:ex#a", "urn:ex#p.q", .blank "b"⟩,
      ⟨.iri "urn:ex#a", "urn:ex#p.q", .literal "1" "urn:ex#n"⟩] := by
  decide +kernel

/-! ## Reading pieces of text -/

variable {ctx : Context} {doc : Document} {b : Block} {cs cs' : List Char} {r r' r'' : Reading}
  {done : List Statement} {t : Token} {c : Char} {s : Term} {p iri : String} {o : Object}

/-- Characters take the reader from one state to another when a blank follows. -/
def Reads (cs : List Char) (r r' : Reading) : Prop :=
  ∃ ts, Lexes cs ts ∧ ts.foldlM Reading.step r = some r'

theorem Reads.nil (r : Reading) : Reads [] r r := ⟨[], Scans.nil.lexes, rfl⟩

/-- A piece that is one token takes the step of that token. -/
theorem Reads.token (h : Lexes cs [t]) (hstep : r.step t = some r') : Reads cs r r' :=
  ⟨[t], h, by rw [List.foldlM_cons, hstep]; rfl⟩

/-- A piece, a blank and what comes after it. -/
theorem Reads.append (h : Reads cs r r') (hc : isBlank c = true) (h' : Reads cs' r' r'') :
    Reads (cs ++ c :: cs') r r'' := by
  obtain ⟨ts, hlex, hfold⟩ := h
  obtain ⟨ts', hlex', hfold'⟩ := h'
  refine ⟨ts ++ ts', hlex.append hc hlex', ?_⟩
  rw [List.foldlM_append, hfold]
  exact hfold'

/-- A blank before a piece changes nothing. -/
theorem Reads.cons (hc : isBlank c = true) (h : Reads cs r r') : Reads (c :: cs) r r' :=
  (Reads.nil r).append hc h

/-- Nor does an indentation. -/
theorem Reads.spaces (h : Reads cs r r') (n : Nat) : Reads (List.replicate n ' ' ++ cs) r r' := by
  induction n with
  | zero => exact h
  | succ n ih => exact ih.cons isBlank_space

/-! ## Names and verbs -/

/-- The prefixes of a context can be declared, and its namespaces stand between brackets. -/
structure Declarable (ctx : Context) : Prop where
  names : ∀ e ∈ ctx.toList, isPrefixName e.1.toList = true
  namespaces : ∀ e ∈ ctx.toList, IsIri e.2

/-- Where an IRI is compacted, what follows the prefix does not begin with a hyphen. -/
def Nameable (ctx : Context) (iri : String) : Prop :=
  ctx.compact iri ≠ iri → ∀ parts ∈ splitAtColon (ctx.compact iri).toList, parts.2.head? ≠ some '-'

instance (ctx : Context) : Decidable (Declarable ctx) :=
  decidable_of_iff
    ((∀ e ∈ ctx.toList, isPrefixName e.1.toList = true) ∧ ∀ e ∈ ctx.toList, IsIri e.2)
    ⟨fun h => ⟨h.1, h.2⟩, fun h => ⟨h.names, h.namespaces⟩⟩

instance (ctx : Context) (iri : String) : Decidable (Nameable ctx iri) :=
  inferInstanceAs (Decidable (ctx.compact iri ≠ iri →
    ∀ parts ∈ splitAtColon (ctx.compact iri).toList, parts.2.head? ≠ some '-'))

/-- An IRI that is compacted is a prefix of the context with a rest. -/
theorem of_splitAtColon_compact (hctx : Declarable ctx) {start rest : List Char}
    (hne : ctx.compact iri ≠ iri)
    (h : splitAtColon (ctx.compact iri).toList = some (start, rest)) :
    isPrefixName start = true ∧ ∃ ns, ctx.namespaceOf? (String.ofList start) = some ns ∧
      ns ++ String.ofList rest = iri := by
  rw [Context.compact] at h hne
  cases habbr : ctx.abbreviation? iri with
  | none => simp [habbr] at hne
  | some best =>
    obtain ⟨name, rest'⟩ := best
    obtain ⟨ns, hns, hlocal⟩ := Context.of_abbreviation? habbr
    have hname := hctx.names _ (Context.mem_toList.mpr hns)
    -- the prefix has no colon, so the first colon is the one behind it
    have hsplit : splitAtColon (name ++ ":" ++ String.ofList rest').toList =
        some (name.toList, rest') :=
      splitAtColon_eq_some.mpr ⟨by simp, (of_isPrefixName hname).1⟩
    rw [habbr] at h
    cases hsplit.symm.trans h
    refine ⟨hname, ns, by rwa [String.ofList_toList], String.toList_inj.mp ?_⟩
    rw [String.toList_append, String.toList_ofList, (localPart?_eq_some.mp hlocal).1]

/-- However an IRI is written, it is one token that stands for it. -/
theorem exists_token_name (hctx : Declarable ctx) (hiri : IsIri iri) (hname : Nameable ctx iri) :
    ∃ t, Lexes (name ctx iri).toList [t] ∧ iri? ctx t = some iri := by
  have hbracket : ∃ t, Lexes (bracketIri iri).toList [t] ∧ iri? ctx t = some iri :=
    ⟨.iri iri, (scans_bracketIri hiri).lexes, rfl⟩
  rw [name]
  split
  · rename_i start rest hsplit
    split
    · rename_i hshort
      -- the reader splits the name where the writer joined it, as no prefix has a colon in it
      obtain ⟨hne, hplain⟩ := hshort
      obtain ⟨hstart, ns, hns, heq⟩ := of_splitAtColon_compact hctx hne hsplit
      have hrest : ∀ c ∈ rest, c.isAlphanum ∨ c = '_' ∨ c = '-' := by
        simpa [isPlain, or_assoc] using (Bool.and_eq_true_iff.mp hplain).2
      refine ⟨.name (String.ofList start) (String.ofList rest), ?_, ?_⟩
      · rw [(splitAtColon_eq_some.mp hsplit).1]
        exact lexes_name hstart hrest (hname hne _ hsplit)
      · simp [iri?, hns, heq]
    · exact hbracket
  · exact hbracket

/-- A token that names an IRI can stand as a verb and as a node. -/
theorem of_iri? (h : iri? ctx t = some iri) :
    verb? ctx t = some iri ∧ node? ctx t = some (.iri iri) := by
  cases t with
  | iri | name => exact ⟨h, congrArg (Option.map Term.iri) h⟩
  | blank | text | tag | carets | isA | comma | semicolon | dot => cases h

/-- After its verb, such a token is an object. Whether the list goes on is not known
yet. -/
theorem step_object (h : iri? ctx t = some iri) :
    Reading.step ⟨ctx, done, .object s p⟩ t = some ⟨ctx, done, .more s p (.iri iri)⟩ := by
  have hnode := (of_iri? h).2
  cases t with
  | iri | name => simp [Reading.step, stepObject, hnode]
  | blank | text | tag | carets | isA | comma | semicolon | dot => cases h

/-- After a semicolon a verb is taken as before the first one. -/
theorem step_verb {a : Awaiting} (ha : a = .verb s ∨ a = .nextVerb s) (h : verb? ctx t = some p) :
    Reading.step ⟨ctx, done, a⟩ t = some ⟨ctx, done, .object s p⟩ := by
  have hstart : startObject ⟨ctx, done, a⟩ s t = some ⟨ctx, done, .object s p⟩ := by
    rw [startObject, h]
    rfl
  rcases ha with rfl | rfl
  · exact hstart
  · cases t with
    | semicolon | dot => cases h
    | iri | name | blank | text | tag | carets | isA | comma => exact hstart

/-- A written predicate is read as its IRI, for the first predicate of a subject and for
later ones. -/
theorem reads_verb (hctx : Declarable ctx) (hp : IsIri p) (hname : Nameable ctx p) {a : Awaiting}
    (ha : a = .verb s ∨ a = .nextVerb s) :
    Reads (verb ctx p).toList ⟨ctx, done, a⟩ ⟨ctx, done, .object s p⟩ := by
  rw [verb]
  split
  · rename_i htype
    exact .token lexes_isA (step_verb ha (by rw [htype]; rfl))
  · obtain ⟨t, hlex, ht⟩ := exists_token_name hctx hp hname
    exact .token hlex (step_verb ha (of_iri? ht).1)

/-! ## Objects -/

/-- Turtle can say an object of a predicate, which is in expanded form. -/
structure Sayable (ctx : Context) (p : String) (o : Object) : Prop where
  predicate : IsIri p
  verb : Nameable ctx p
  object : (o.expanded ctx).Legal
  tag : p = Vocabulary.rdfType → ∀ target ∈ o.target?, Nameable ctx (ctx.expand target)

instance (ctx : Context) (p : String) (o : Object) : Decidable (Sayable ctx p o) :=
  decidable_of_iff (IsIri p ∧ Nameable ctx p ∧ (o.expanded ctx).Legal ∧
      (p = Vocabulary.rdfType → ∀ target ∈ o.target?, Nameable ctx (ctx.expand target)))
    ⟨fun h => ⟨h.1, h.2.1, h.2.2.1, h.2.2.2⟩, fun h => ⟨h.predicate, h.verb, h.object, h.tag⟩⟩

/-- What is said with an object of a predicate. -/
def said (ctx : Context) (s : Term) (p : String) (o : Object) : Statement :=
  ⟨s, p, (o.expanded ctx).term⟩

/-- However a reference is written, it is one token that stands for its target. -/
theorem exists_token_object (hctx : Declarable ctx) {target : String}
    (h : Sayable ctx p (.iri target)) :
    ∃ t, Lexes (object ctx p (.iri target)).toList [t] ∧ iri? ctx t = some (ctx.expand target) := by
  rw [object]
  split
  · rename_i htype
    exact exists_token_name hctx h.object (h.tag htype target rfl)
  · exact ⟨.iri (ctx.expand target), (scans_bracketIri h.object).lexes, rfl⟩

/-- An object and the mark after it say one thing. -/
theorem reads_object (hctx : Declarable ctx) (h : Sayable ctx p o) (hmark : Scans [c] [t])
    (hend : ∀ a, endObject ⟨ctx, done, a⟩ (said ctx s p o) t = some r') :
    Reads ((object ctx p o).toList ++ [' ', c]) ⟨ctx, done, .object s p⟩ r' := by
  cases o with
  | literal text =>
    have htext : Reads (quoteLiteral text).toList ⟨ctx, done, .object s p⟩
        ⟨ctx, done, .suffix s p text⟩ := .token (scans_quoteLiteral text).lexes rfl
    refine htext.append isBlank_space (.token hmark.lexes ?_)
    -- the mark is neither a language nor a datatype, so the literal is a string
    have hend := hend (.suffix s p text)
    cases t with
    | comma | semicolon | dot => exact hend
    | iri | name | blank | text | tag | carets | isA => cases hend
  | iri target =>
    obtain ⟨u, hlex, hu⟩ := exists_token_object hctx h
    exact (Reads.token hlex (step_object hu)).append isBlank_space (.token hmark.lexes (hend _))

/-- A list of objects and the mark after it say one thing for each object. -/
theorem reads_objects (hctx : Declarable ctx) {os : List Object} {next : Awaiting} (hos : os ≠ [])
    (h : ∀ o ∈ os, Sayable ctx p o) (hmark : Scans [c] [t])
    (hend : ∀ done a o, endObject ⟨ctx, done, a⟩ (said ctx s p o) t =
      some ⟨ctx, said ctx s p o :: done, next⟩) :
    Reads ((" , ".intercalate (os.map (object ctx p))).toList ++ [' ', c])
      ⟨ctx, done, .object s p⟩ ⟨ctx, (os.map (said ctx s p)).reverse ++ done, next⟩ := by
  induction os generalizing done with
  | nil => exact absurd rfl hos
  | cons o rest ih =>
    obtain ⟨ho, hrest⟩ := List.forall_mem_cons.mp h
    -- the last object has the mark after it, each of the others a comma
    cases rest with
    | nil => simpa using reads_object hctx ho hmark fun a => hend done a o
    | cons o' rest =>
      have hfirst : Reads ((object ctx p o).toList ++ [' ', ','])
          ⟨ctx, done, .object s p⟩ ⟨ctx, said ctx s p o :: done, .object s p⟩ :=
        reads_object hctx ho scans_comma fun a => rfl
      have hall := hfirst.append isBlank_space (ih (by simp) hrest)
      simpa [String.intercalate_cons_cons] using hall

/-! ## Statements -/

/-- A group says one thing for each of its objects, whatever mark comes after it. -/
theorem reads_groupLine (hctx : Declarable ctx) {g : String × List Object} {a next : Awaiting}
    (ha : a = .verb s ∨ a = .nextVerb s) (hos : g.2 ≠ []) (h : ∀ o ∈ g.2, Sayable ctx g.1 o)
    (hmark : Scans [c] [t])
    (hend : ∀ done a st, st.subject = s →
      endObject ⟨ctx, done, a⟩ st t = some ⟨ctx, st :: done, next⟩) :
    Reads ((groupLine ctx g).toList ++ [' ', c]) ⟨ctx, done, a⟩
      ⟨ctx, (g.2.map (said ctx s g.1)).reverse ++ done, next⟩ := by
  obtain ⟨o, ho⟩ := List.exists_mem_of_ne_nil _ hos
  have hverb : Reads (verb ctx g.1).toList ⟨ctx, done, a⟩ ⟨ctx, done, .object s g.1⟩ :=
    reads_verb hctx (h o ho).predicate (h o ho).verb ha
  have hobjects : Reads _ ⟨ctx, done, .object s g.1⟩ ⟨ctx, _, next⟩ :=
    reads_objects hctx hos h hmark fun done a o => hend done a (said ctx s g.1 o) rfl
  have hall := ((hverb.append isBlank_space hobjects).cons isBlank_space).cons isBlank_space
  simpa [groupLine] using hall

/-- The groups of a block, up to the full stop. -/
theorem reads_groups (hctx : Declarable ctx) {l : List (String × List Object)} {a : Awaiting}
    (hl : l ≠ []) (ha : a = .verb s ∨ a = .nextVerb s)
    (h : ∀ g ∈ l, g.2 ≠ [] ∧ ∀ o ∈ g.2, Sayable ctx g.1 o) :
    Reads ((" ;\n".intercalate (l.map (groupLine ctx))).toList ++ [' ', '.']) ⟨ctx, done, a⟩
      ⟨ctx, (l.flatMap fun g => g.2.map (said ctx s g.1)).reverse ++ done, .statement⟩ := by
  induction l generalizing done a with
  | nil => exact absurd rfl hl
  | cons g rest ih =>
    obtain ⟨⟨hos, hg⟩, hrest⟩ := List.forall_mem_cons.mp h
    cases rest with
    | nil =>
      simpa using reads_groupLine hctx ha hos hg scans_dot fun done a st _ => rfl
    | cons g' rest =>
      have hfirst : Reads _ ⟨ctx, done, a⟩ ⟨ctx, _, .nextVerb s⟩ :=
        reads_groupLine hctx ha hos hg scans_semicolon fun done a st hst => by rw [endObject, hst]
      have hall := hfirst.append isBlank_newline (ih (by simp) (Or.inr rfl) hrest)
      simpa [String.intercalate_cons_cons] using hall

/-- Each group has objects, and they can be said with its predicate. -/
theorem sayable_of_mem_groups (h : ∀ q ∈ b.pairs, Sayable ctx (ctx.expand q.1) q.2)
    {g : String × List Object} (hg : g ∈ groups ctx b) :
    g.2 ≠ [] ∧ ∀ o ∈ g.2, Sayable ctx g.1 o := by
  obtain ⟨p, os⟩ := g
  obtain ⟨rfl, hos⟩ := mem_groupByKey.mp hg
  refine ⟨hos, fun o ho => ?_⟩
  obtain ⟨q, hq, heq⟩ := List.mem_map.mp (mem_valuesOf.mp ho)
  cases heq
  exact h q hq

theorem groups_ne_nil (h : b.pairs ≠ []) : groups ctx b ≠ [] :=
  groupByKey_ne_nil (by simpa using h)

/-- The groups of a block say its triples, grouped by predicate. -/
theorem flatMap_groups (ctx : Context) (b : Block) :
    ((groups ctx b).flatMap fun g => g.2.map (said ctx (.iri (ctx.expand b.subject)) g.1)) =
      (grouped (b.triples.map (Triple.expanded ctx))).map Triple.statement := by
  have htriples : b.triples.map (Triple.expanded ctx) =
      (b.pairs.map fun p => (ctx.expand p.1, p.2)).map
        fun q => ⟨ctx.expand b.subject, q.1, q.2.expanded ctx⟩ := by
    rw [Block.triples, List.map_map, List.map_map]
    rfl
  rw [groups, groupByKey_eq, grouped, htriples]
  generalize (b.pairs.map fun p => (ctx.expand p.1, p.2)) = l
  rw [List.flatMap_map, List.map_flatMap, List.map_map]
  -- the predicates come in the same order, and so do the objects of each
  refine List.flatMap_congr fun k _ => ?_
  rw [valuesOf, List.filter_map, List.map_map, List.map_map]
  refine List.map_congr_left fun q hq => ?_
  have hk : q.1 = k := by simpa using (List.mem_filter.mp hq).2
  rw [← hk]
  rfl

/-- A block says its triples, grouped by predicate. -/
theorem reads_statement (hctx : Declarable ctx) (hpairs : b.pairs ≠ [])
    (hsubject : IsIri (ctx.expand b.subject))
    (h : ∀ q ∈ b.pairs, Sayable ctx (ctx.expand q.1) q.2)
    (hrest : Reads cs ⟨ctx, ((grouped (b.triples.map (Triple.expanded ctx))).map
      Triple.statement).reverse ++ done, .statement⟩ r') :
    Reads ((statement ctx b).toList ++ cs) ⟨ctx, done, .statement⟩ r' := by
  have hfirst : Reads (bracketIri (ctx.expand b.subject)).toList ⟨ctx, done, .statement⟩
      ⟨ctx, done, .verb (.iri (ctx.expand b.subject))⟩ :=
    .token (scans_bracketIri hsubject).lexes rfl
  have hgroups : Reads _ ⟨ctx, done, .verb (.iri (ctx.expand b.subject))⟩ _ :=
    reads_groups hctx (groups_ne_nil hpairs) (Or.inl rfl) fun g => sayable_of_mem_groups h
  rw [flatMap_groups] at hgroups
  have hall := (hfirst.append isBlank_newline hgroups).append isBlank_newline
    (hrest.cons isBlank_newline)
  -- a block with pairs has groups, so the statement is not the one without any
  have htext : (statement ctx b).toList = (bracketIri (ctx.expand b.subject)).toList ++ '\n' ::
      ((" ;\n".intercalate ((groups ctx b).map (groupLine ctx))).toList ++ [' ', '.']) ++
        ['\n', '\n'] := by
    rw [statement]
    split
    · rename_i hnil
      exact absurd hnil (groups_ne_nil hpairs)
    · simp
  rw [htext]
  simpa using hall

/-! ## Declarations -/

/-- The declaration of a prefix binds it. -/
theorem reads_declaration {name ns : String} {declared : Context} (width : Nat)
    (hname : isPrefixName name.toList = true) (hns : IsIri ns)
    (hrest : Reads cs ⟨declared.bind name ns, done, .statement⟩ r') :
    Reads ((declaration width (name, ns)).toList ++ cs) ⟨declared, done, .statement⟩ r' := by
  have hword : Reads "@prefix".toList ⟨declared, done, .statement⟩
      ⟨declared, done, .declaredName⟩ :=
    .token lexes_directive rfl
  have hstart : Reads (name.toList ++ [':']) ⟨declared, done, .declaredName⟩
      ⟨declared, done, .declaredIri name⟩ := by
    have hlex := lexes_name hname (List.forall_mem_nil _) (Option.some_ne_none '-').symm
    rw [String.ofList_toList] at hlex
    exact .token hlex rfl
  have hnamespace : Reads (bracketIri ns).toList ⟨declared, done, .declaredIri name⟩
      ⟨declared, done, .declaredEnd name ns⟩ := .token (scans_bracketIri hns).lexes rfl
  have hend : Reads ['.'] ⟨declared, done, .declaredEnd name ns⟩
      ⟨declared.bind name ns, done, .statement⟩ := .token scans_dot.lexes rfl
  -- between the name and the namespace there are as many spaces as line them up
  have hlast := hnamespace.append isBlank_space (hend.append isBlank_newline hrest)
  have hpadded := (hlast.cons isBlank_space).spaces (width - name.utf8ByteSize)
  have hall := hword.append isBlank_space (hstart.append isBlank_space hpadded)
  have htext : (declaration width (name, ns)).toList ++ cs = "@prefix".toList ++ ' ' ::
      ((name.toList ++ [':']) ++ ' ' :: (List.replicate (width - name.utf8ByteSize) ' ' ++
        ' ' :: ((bracketIri ns).toList ++ ' ' :: (['.'] ++ '\n' :: cs)))) := by
    simp [declaration, List.replicate_succ]
  rw [htext]
  exact hall

/-- What a prefix table binds, bound one after the other, is the table. -/
theorem foldl_bind_toList (ctx : Context) :
    ctx.toList.foldl (fun c e => c.bind e.1 e.2) .empty = ctx := by
  rw [Context.foldl_bind]
  refine congrArg Context.mk (StringMap.ext fun name => ?_)
  exact (StringMap.get?_merge .empty ctx.bindings name).trans (Option.or_none ..)

/-- The declarations bind what the prefix table binds. -/
theorem reads_declarations (hctx : Declarable ctx)
    (hrest : Reads cs ⟨ctx, done, .statement⟩ r') :
    Reads ((declarations ctx).toList ++ cs) ⟨.empty, done, .statement⟩ r' := by
  -- on the entries that are left, with those before them declared
  have hall : ∀ (l : List (String × String)) (declared : Context) width,
      (∀ e ∈ l, isPrefixName e.1.toList = true ∧ IsIri e.2) →
      Reads cs ⟨l.foldl (fun c e => c.bind e.1 e.2) declared, done, .statement⟩ r' →
      Reads ((String.join (l.map (declaration width))).toList ++ cs)
        ⟨declared, done, .statement⟩ r' := by
    intro l
    induction l with
    | nil =>
      intro declared width _ h
      simpa using h
    | cons e rest ih =>
      intro declared width h hlast
      obtain ⟨⟨hname, hns⟩, hmore⟩ := List.forall_mem_cons.mp h
      have hfirst := reads_declaration width hname hns (ih _ width hmore hlast)
      simpa using hfirst
  refine hall ctx.toList .empty _ (fun e he => ⟨hctx.names e he, hctx.namespaces e he⟩) ?_
  rw [foldl_bind_toList]
  exact hrest

/-! ## The whole text -/

/-- Turtle can say a document with the prefixes of a context. -/
structure Writable (ctx : Context) (doc : Document) : Prop where
  declarable : Declarable ctx
  nonempty : ∀ b ∈ doc.blocks, b.pairs ≠ []
  subjects : ∀ b ∈ doc.blocks, IsIri (ctx.expand b.subject)
  pairs : ∀ b ∈ doc.blocks, ∀ q ∈ b.pairs, Sayable ctx (ctx.expand q.1) q.2

instance (ctx : Context) (doc : Document) : Decidable (Writable ctx doc) :=
  decidable_of_iff (Declarable ctx ∧ (∀ b ∈ doc.blocks, b.pairs ≠ []) ∧
      (∀ b ∈ doc.blocks, IsIri (ctx.expand b.subject)) ∧
      ∀ b ∈ doc.blocks, ∀ q ∈ b.pairs, Sayable ctx (ctx.expand q.1) q.2)
    ⟨fun h => ⟨h.1, h.2.1, h.2.2.1, h.2.2.2⟩,
      fun h => ⟨h.declarable, h.nonempty, h.subjects, h.pairs⟩⟩

/-- What can be written as Turtle can be written line by line. -/
theorem Writable.legal (h : Writable ctx doc) : ∀ t ∈ doc.triples, (t.expanded ctx).Legal := by
  intro t ht
  obtain ⟨b, hb, htb⟩ := List.mem_flatMap.mp ht
  obtain ⟨q, hq, rfl⟩ := List.mem_map.mp htb
  have hpair := h.pairs b hb q hq
  exact ⟨h.subjects b hb, hpair.predicate, hpair.object⟩

/-- The statements of the blocks are read one after the other, each from where a
statement may begin. -/
theorem reads_statements (hctx : Declarable ctx) {blocks : List Block}
    (hpairs : ∀ b ∈ blocks, b.pairs ≠ []) (hsubjects : ∀ b ∈ blocks, IsIri (ctx.expand b.subject))
    (h : ∀ b ∈ blocks, ∀ q ∈ b.pairs, Sayable ctx (ctx.expand q.1) q.2) :
    Reads (String.join (blocks.map (statement ctx))).toList ⟨ctx, done, .statement⟩
      ⟨ctx, ((blocks.flatMap fun b => grouped (b.triples.map (Triple.expanded ctx))).map
        Triple.statement).reverse ++ done, .statement⟩ := by
  induction blocks generalizing done with
  | nil => exact .nil _
  | cons b rest ih =>
    obtain ⟨hpair, hpairs⟩ := List.forall_mem_cons.mp hpairs
    obtain ⟨hsubject, hsubjects⟩ := List.forall_mem_cons.mp hsubjects
    obtain ⟨hb, hrest⟩ := List.forall_mem_cons.mp h
    have hall : Reads _ ⟨ctx, done, .statement⟩ _ :=
      reads_statement hctx hpair hsubject hb (ih hpairs hsubjects hrest)
    simpa using hall

/-- The text is read as the triples of the blocks in order, grouped by predicate. -/
theorem read_write_eq (h : Writable ctx doc) :
    read (write ctx doc) = some (doc.blocks.flatMap fun b =>
      (grouped (b.triples.map (Triple.expanded ctx))).map Triple.statement) := by
  have hstatements : Reads _ ⟨ctx, [], .statement⟩ _ :=
    reads_statements h.declarable h.nonempty h.subjects h.pairs
  obtain ⟨ts, hlex, hfold⟩ :=
    reads_declarations h.declarable (hstatements.cons isBlank_newline)
  have htext : (write ctx doc).toList = (declarations ctx).toList ++ '\n' ::
      (String.join (doc.blocks.map (statement ctx))).toList := by
    simp [write]
  rw [read, htext, hlex.tokens?]
  show (ts.foldlM Reading.step _ >>= _) = _
  rw [hfold]
  simp [List.map_flatMap]

/-- Turtle output says the triples of the document in expanded form, block by block, those of
a block grouped by predicate. So it says what the N-Triples output says, each triple as often,
in another order. -/
theorem read_write_grouped (h : Writable ctx doc) :
    read (write ctx doc) = some (doc.blocks.flatMap fun b =>
      (grouped (b.triples.map (Triple.expanded ctx))).map Triple.statement) ∧
    ∃ said listed, read (write ctx doc) = some said ∧
      NTriples.read (NTriples.write ctx doc) = some listed ∧ said.Perm listed := by
  refine ⟨read_write_eq h, _, _, read_write_eq h, NTriples.read_write_eq h.legal, ?_⟩
  -- the two texts differ only within a block
  rw [Document.triples, List.map_flatMap]
  refine List.Perm.flatMap_left _ fun b _ => ?_
  have hperm := (grouped_perm (b.triples.map (Triple.expanded ctx))).map Triple.statement
  rwa [List.map_map] at hperm

/-- An empty prefix, and one that goes further. -/
def notesContext : Context :=
  .ofList [("", "http://example.org/"), ("note", "http://example.org/notes#")]

/-- A note with a predicate in two spellings and with text that looks like Turtle. -/
def notes : Document := ⟨[
  ⟨":first", [
    ("note:text", .literal "\" ;\r\n  a :Lie .\\"),
    (Vocabulary.rdfType, .iri "note:Note"),
    ("note:next", .iri ":second"),
    ("http://example.org/notes#text", .literal "")]⟩,
  ⟨"urn:second", [("urn:p", .iri "note:-"), (Vocabulary.rdfType, .literal "Note")]⟩]⟩

theorem read_write_grouped_notes :
    Writable notesContext notes ∧
    read (write notesContext notes) = some (notes.blocks.flatMap fun b =>
      (grouped (b.triples.map (Triple.expanded notesContext))).map Triple.statement) ∧
    ∃ said listed, read (write notesContext notes) = some said ∧
      NTriples.read (NTriples.write notesContext notes) = some listed ∧ said.Perm listed := by
  have h : Writable notesContext notes := by decide +kernel
  exact ⟨h, read_write_grouped h⟩

end Turtle

end EntityRdf
