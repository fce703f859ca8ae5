import EntityRdf.Document
import EntityRdf.JsonLd.Reader

/-!
# Expansion undoes compaction

Compaction cuts the longest namespace off an IRI and puts its prefix and a colon
in front of the rest. Reading the result back gives the IRI again when the cut is
found at the first colon, and the rest does not look like the authority of an
absolute IRI. `Context.Regular` says this of the prefixes and namespaces,
`Context.Abbreviable` of the IRI.

`Block.expanded` is what a block says when all of its terms are written out.

Main results: `expand_expand` (expansion has nothing more to do on an expanded
term), `expand_compact` and, of both, `compaction_faithful`: no two predicates are
written alike.
-/

namespace EntityRdf

/-! ## Terms as lists of characters -/

/-- A term is split at its first colon. -/
theorem splitAtColon_eq_some {t name rest : List Char} :
    splitAtColon t = some (name, rest) ↔ t = name ++ ':' :: rest ∧ ':' ∉ name := by
  induction t generalizing name with
  | nil => simp [splitAtColon]
  | cons c cs ih =>
    rw [splitAtColon]
    by_cases hc : c = ':'
    · subst hc
      rw [if_pos rfl]
      constructor
      · intro h
        cases h
        simp
      · rintro ⟨heq, hname⟩
        -- the first part is empty, as it has no colon
        cases name with
        | nil => simpa [eq_comm] using heq
        | cons d name =>
          obtain ⟨rfl, -⟩ := List.cons.inj heq
          simp at hname
    · rw [if_neg hc, Option.map_eq_some_iff]
      constructor
      · rintro ⟨⟨before, after⟩, hsplit, heq⟩
        obtain ⟨rfl, rfl⟩ := Prod.mk.inj heq
        obtain ⟨rfl, hnot⟩ := ih.mp hsplit
        exact ⟨rfl, by simp [Ne.symm hc, hnot]⟩
      · rintro ⟨heq, hname⟩
        cases name with
        | nil =>
          obtain ⟨rfl, -⟩ := List.cons.inj heq
          exact absurd rfl hc
        | cons d name =>
          obtain ⟨rfl, rfl⟩ := List.cons.inj heq
          exact ⟨(name, rest), ih.mpr ⟨rfl, fun h => hname (List.mem_cons_of_mem _ h)⟩, rfl⟩

theorem splitAtColon_append {t name rest : List Char} (h : splitAtColon t = some (name, rest))
    (u : List Char) : splitAtColon (t ++ u) = some (name, rest ++ u) := by
  obtain ⟨rfl, hname⟩ := splitAtColon_eq_some.mp h
  exact splitAtColon_eq_some.mpr ⟨by simp, hname⟩

/-- What stands after the start of a text, if the text starts so. -/
theorem afterStart?_eq_some {start text rest : List Char} :
    afterStart? start text = some rest ↔ text = start ++ rest := by
  induction start generalizing text with
  | nil => simp [afterStart?]
  | cons c start ih =>
    cases text with
    | nil => simp [afterStart?]
    | cons d text =>
      rw [afterStart?]
      by_cases hcd : c = d
      · rw [if_pos hcd, ih]
        simp [hcd]
      · rw [if_neg hcd]
        simp [Ne.symm hcd]

/-- An IRI can be cut after a namespace that it starts with and goes on from. -/
theorem localPart?_eq_some {ns iri : String} {rest : List Char} :
    localPart? ns iri = some rest ↔ iri.toList = ns.toList ++ rest ∧ rest ≠ [] := by
  rw [← afterStart?_eq_some, localPart?]
  cases h : afterStart? ns.toList iri.toList with
  | none => simp
  | some r =>
    cases r with
    | nil =>
      simp only [Option.some.injEq, reduceCtorEq, false_iff, not_and, Classical.not_not]
      exact fun h => h.symm
    | cons c cs =>
      simp only [Option.some.injEq]
      constructor
      · rintro rfl
        exact ⟨rfl, by simp⟩
      · exact fun h => h.1

namespace Context

variable {ctx : Context} {t iri : String}

/-! ## Expansion -/

/-- The bindings of a context are what looking up prefixes finds. -/
theorem mem_toList {name ns : String} : (name, ns) ∈ ctx.toList ↔ ctx.namespaceOf? name = some ns :=
  (StringMap.get?_eq_some_iff _).symm

/-- Binding prefixes one after the other is inserting them into the table. -/
theorem foldl_bind (l : List (String × String)) (c : Context) :
    l.foldl (fun c e => c.bind e.1 e.2) c =
      ⟨l.foldl (fun m e => m.insert e.1 e.2) c.bindings⟩ := by
  induction l generalizing c with
  | nil => rfl
  | cons e rest ih => exact ih (c.bind e.1 e.2)

/-- A term is expanded by replacing a bound prefix, or stands for itself. -/
theorem expand_cases (ctx : Context) (t : String) :
    (∃ name rest ns, splitAtColon t.toList = some (name, rest) ∧
      ¬ ['/', '/'] <+: rest ∧ ctx.namespaceOf? (String.ofList name) = some ns ∧
      ctx.expand t = ns ++ String.ofList rest) ∨
    (ctx.expand t = t ∧ ∀ name rest, splitAtColon t.toList = some (name, rest) →
      ['/', '/'] <+: rest ∨ ctx.namespaceOf? (String.ofList name) = none) := by
  -- the three tests of the expansion: a colon, an authority, a bound prefix
  rw [expand]
  split
  · rename_i hsplit
    exact Or.inr ⟨rfl, by simp [hsplit]⟩
  · rename_i name rest hsplit
    split
    · rename_i hauthority
      exact Or.inr ⟨rfl, by simp [hsplit, List.isPrefixOf_iff_prefix.mp hauthority]⟩
    · rename_i hauthority
      split
      · rename_i ns hns
        exact Or.inl ⟨name, rest, ns, hsplit, mt List.isPrefixOf_iff_prefix.mpr hauthority, hns, rfl⟩
      · rename_i hns
        exact Or.inr ⟨rfl, by simp [hsplit, hns]⟩

/-- A bound prefix is replaced by its namespace. -/
theorem expand_of_bound {name rest : List Char} {ns : String}
    (hsplit : splitAtColon t.toList = some (name, rest))
    (hauthority : ¬ ['/', '/'] <+: rest)
    (hns : ctx.namespaceOf? (String.ofList name) = some ns) :
    ctx.expand t = ns ++ String.ofList rest := by
  rw [expand, hsplit]
  dsimp only
  rw [if_neg (mt List.isPrefixOf_iff_prefix.mp hauthority), hns]

/-- A term without a bound prefix stands for itself, and so does one with an
authority. -/
theorem expand_of_unbound
    (h : ∀ name rest, splitAtColon t.toList = some (name, rest) →
      ['/', '/'] <+: rest ∨ ctx.namespaceOf? (String.ofList name) = none) :
    ctx.expand t = t := by
  rcases expand_cases ctx t with ⟨name, rest, ns, hsplit, hauthority, hns, -⟩ | ⟨hself, -⟩
  · -- the hypothesis excludes a prefix that is bound
    rcases h name rest hsplit with hyes | hno
    · exact absurd hyes hauthority
    · rw [hns] at hno
      cases hno
  · exact hself

/-- Prefixes have no colon, so that a compact term splits behind its prefix. And
each namespace is an absolute IRI in the context itself: it has a colon, and what
stands before the first one is no prefix unless an authority follows. -/
structure Regular (ctx : Context) : Prop where
  names : ∀ e ∈ ctx.toList, ':' ∉ e.1.toList
  namespaces : ∀ e ∈ ctx.toList, ∃ parts ∈ splitAtColon e.2.toList,
    ctx.namespaceOf? (String.ofList parts.1) = none ∨ ['/', '/'] <+: parts.2

/-- A regular context in which no prefix looks like a keyword. -/
structure Stable (ctx : Context) : Prop extends ctx.Regular where
  keywords : ∀ e ∈ ctx.toList, JsonLd.isKeyword e.1 = false

instance (ctx : Context) : Decidable ctx.Regular :=
  decidable_of_iff
    ((∀ e ∈ ctx.toList, ':' ∉ e.1.toList) ∧ ∀ e ∈ ctx.toList, ∃ parts ∈ splitAtColon e.2.toList,
      ctx.namespaceOf? (String.ofList parts.1) = none ∨ ['/', '/'] <+: parts.2)
    ⟨fun h => ⟨h.1, h.2⟩, fun h => ⟨h.names, h.namespaces⟩⟩

instance (ctx : Context) : Decidable ctx.Stable :=
  decidable_of_iff (ctx.Regular ∧ ∀ e ∈ ctx.toList, JsonLd.isKeyword e.1 = false)
    ⟨fun h => ⟨h.1, h.2⟩, fun h => ⟨h.toRegular, h.keywords⟩⟩

/-- An expanded term stands for itself. -/
theorem expand_expand (h : ctx.Regular) (t : String) :
    ctx.expand (ctx.expand t) = ctx.expand t := by
  rcases expand_cases ctx t with ⟨name, rest, ns, -, -, hns, heq⟩ | ⟨heq, -⟩
  · rw [heq]
    -- the expansion begins with a namespace, which is what decides
    obtain ⟨⟨first, later⟩, hsplit, hfirst⟩ := h.namespaces (_, ns) (mem_toList.mpr hns)
    refine expand_of_unbound fun name' rest' hsplit' => ?_
    rw [String.toList_append, splitAtColon_append hsplit] at hsplit'
    cases hsplit'
    rcases hfirst with hfree | hauthority
    · exact Or.inr hfree
    · exact Or.inl (hauthority.trans (List.prefix_append ..))
  · rw [heq, heq]

/-! ## Compaction -/

/-- No namespace leaves of the IRI a rest that looks like an authority. -/
def Abbreviable (ctx : Context) (iri : String) : Prop :=
  ∀ e ∈ ctx.toList, ∀ rest ∈ localPart? e.2 iri, ¬ ['/', '/'] <+: rest

instance (ctx : Context) (iri : String) : Decidable (ctx.Abbreviable iri) :=
  inferInstanceAs (Decidable (∀ e ∈ ctx.toList, ∀ rest ∈ localPart? e.2 iri, ¬ ['/', '/'] <+: rest))

/-- The best of some abbreviations is one of them. -/
theorem mem_of_foldl_shorter {l : List (String × List Char)} {x : String × List Char}
    (h : l.foldl shorter none = some x) : x ∈ l := by
  -- the fold may start from any best one so far
  suffices ∀ best, l.foldl shorter best = some x → best = some x ∨ x ∈ l by
    simpa using this none h
  clear h
  induction l with
  | nil => exact fun best h => Or.inl h
  | cons y rest ih =>
    intro best h
    rcases ih _ h with heq | hmem
    · unfold shorter at heq
      split at heq
      · cases heq
        exact Or.inr (List.mem_cons_self ..)
      · split at heq
        · cases heq
          exact Or.inr (List.mem_cons_self ..)
        · exact Or.inl heq
    · exact Or.inr (List.mem_cons_of_mem _ hmem)

/-- Of some abbreviations one is the best. -/
theorem isSome_foldl_shorter {l : List (String × List Char)} (best : Option (String × List Char))
    (h : best.isSome ∨ l ≠ []) : (l.foldl shorter best).isSome := by
  induction l generalizing best with
  | nil => simpa using h
  | cons x rest ih =>
    have hfirst : (shorter best x).isSome := by
      unfold shorter
      split
      · rfl
      · split <;> rfl
    exact ih _ (Or.inl hfirst)

/-- An abbreviation is a prefix with what its namespace leaves. -/
theorem of_abbreviation? {name : String} {rest : List Char}
    (h : ctx.abbreviation? iri = some (name, rest)) :
    ∃ ns, ctx.namespaceOf? name = some ns ∧ localPart? ns iri = some rest := by
  obtain ⟨⟨name', ns⟩, hmem, heq⟩ := List.mem_filterMap.mp (mem_of_foldl_shorter h)
  obtain ⟨rest', hrest, heq⟩ := Option.map_eq_some_iff.mp heq
  cases heq
  exact ⟨ns, mem_toList.mp hmem, hrest⟩

/-- Expansion undoes the compaction of an expanded IRI. -/
theorem expand_compact (h : ctx.Regular) (hiri : ctx.expand iri = iri)
    (hrest : ctx.Abbreviable iri) : ctx.expand (ctx.compact iri) = iri := by
  rw [compact]
  cases habbr : ctx.abbreviation? iri with
  | none => exact hiri
  | some best =>
    obtain ⟨name, rest⟩ := best
    obtain ⟨ns, hns, hlocal⟩ := of_abbreviation? habbr
    have hmem : (name, ns) ∈ ctx.toList := mem_toList.mpr hns
    -- names have no colon, so the compact form is split where it was joined
    have hsplit : splitAtColon (name ++ ":" ++ String.ofList rest).toList =
        some (name.toList, rest) :=
      splitAtColon_eq_some.mpr ⟨by simp, h.names _ hmem⟩
    have hexpand : ctx.expand (name ++ ":" ++ String.ofList rest) = ns ++ String.ofList rest :=
      expand_of_bound hsplit (hrest _ hmem rest hlocal) (by rwa [String.ofList_toList])
    refine hexpand.trans (String.toList_inj.mp ?_)
    rw [String.toList_append, String.toList_ofList, (localPart?_eq_some.mp hlocal).1]

/-- What a prefix starts is a keyword only if the prefix is one. -/
theorem isKeyword_abbreviation {name : String} (h : JsonLd.isKeyword name = false)
    (rest : List Char) : JsonLd.isKeyword (name ++ ":" ++ String.ofList rest) = false := by
  have hchars : (name ++ ":" ++ String.ofList rest).toList = name.toList ++ ':' :: rest := by simp
  unfold JsonLd.isKeyword at h ⊢
  rw [hchars]
  cases hname : name.toList with
  | nil => rfl
  | cons c cs => rwa [hname] at h

/-- In a stable context a term that is no keyword is not written as one either,
unless it is a bare prefix. -/
theorem isKeyword_compact_expand (h : ctx.Stable) (ht : JsonLd.isKeyword t = false)
    (hbare : ∀ name, splitAtColon t.toList ≠ some (name, [])) :
    JsonLd.isKeyword (ctx.compact (ctx.expand t)) = false := by
  rw [compact]
  cases habbr : ctx.abbreviation? (ctx.expand t) with
  | some best =>
    obtain ⟨name, rest⟩ := best
    obtain ⟨ns, hns, -⟩ := of_abbreviation? habbr
    exact isKeyword_abbreviation (h.keywords _ (mem_toList.mpr hns)) rest
  | none =>
    -- an expansion by a prefix could be abbreviated by the same prefix
    rcases expand_cases ctx t with ⟨name, rest, ns, hsplit, -, hns, hexpand⟩ | ⟨hself, -⟩
    · have hlocal : localPart? ns (ctx.expand t) = some rest := by
        refine localPart?_eq_some.mpr ⟨by simp [hexpand], ?_⟩
        rintro rfl
        exact hbare name hsplit
      have hsome : (ctx.abbreviation? (ctx.expand t)).isSome := by
        unfold abbreviation?
        refine isSome_foldl_shorter none (Or.inr fun hnil => ?_)
        have hnone := List.filterMap_eq_nil_iff.mp hnil _ (mem_toList.mpr hns)
        simp [hlocal] at hnone
      rw [habbr] at hsome
      cases hsome
    · rwa [hself]

/-- In a regular context a key is read back as the predicate that it was written
for, so that no two predicates share a key. -/
theorem compaction_faithful (h : ctx.Regular) :
    (∀ t, ctx.expand (ctx.expand t) = ctx.expand t) ∧
    (∀ t, ctx.Abbreviable (ctx.expand t) →
      ctx.expand (ctx.compact (ctx.expand t)) = ctx.expand t) ∧
    ∀ t u, ctx.Abbreviable (ctx.expand t) → ctx.Abbreviable (ctx.expand u) →
      (ctx.compact (ctx.expand t) = ctx.compact (ctx.expand u) ↔ ctx.expand t = ctx.expand u) := by
  have hback : ∀ t, ctx.Abbreviable (ctx.expand t) →
      ctx.expand (ctx.compact (ctx.expand t)) = ctx.expand t :=
    fun t ht => expand_compact h (expand_expand h t) ht
  refine ⟨expand_expand h, hback, fun t u ht hu => ⟨fun heq => ?_, congrArg ctx.compact⟩⟩
  -- equal keys are read back as equal predicates
  calc ctx.expand t = ctx.expand (ctx.compact (ctx.expand t)) := (hback t ht).symm
    _ = ctx.expand (ctx.compact (ctx.expand u)) := by rw [heq]
    _ = ctx.expand u := hback u hu

/-- Namespaces that extend each other, one under two prefixes, one that is a whole
IRI, and the empty prefix. -/
def overlaid : Context := .ofList [
  ("", "http://x.org/"),
  ("a", "http://x.org/v/"),
  ("b", "http://x.org/v/"),
  ("c", "http://x.org/v/name"),
  ("d", "urn:d:")]

/-- Two spellings of one predicate, and one of another. -/
theorem compaction_faithful_overlaid :
    overlaid.Regular ∧ overlaid.Abbreviable (overlaid.expand "a:name") ∧
      overlaid.Abbreviable (overlaid.expand ":v/name") ∧
      overlaid.Abbreviable (overlaid.expand "d:name") ∧
      overlaid.expand (overlaid.compact (overlaid.expand "a:name")) =
        overlaid.expand "a:name" ∧
      overlaid.compact (overlaid.expand "a:name") =
        overlaid.compact (overlaid.expand ":v/name") ∧
      overlaid.compact (overlaid.expand "a:name") ≠
        overlaid.compact (overlaid.expand "d:name") := by
  have hregular : overlaid.Regular := by decide +kernel
  have hname : overlaid.Abbreviable (overlaid.expand "a:name") := by decide +kernel
  have hpath : overlaid.Abbreviable (overlaid.expand ":v/name") := by decide +kernel
  have hother : overlaid.Abbreviable (overlaid.expand "d:name") := by decide +kernel
  obtain ⟨-, hback, hiff⟩ := compaction_faithful hregular
  refine ⟨hregular, hname, hpath, hother, hback _ hname, (hiff _ _ hname hpath).mpr ?_,
    mt (hiff _ _ hname hother).mp ?_⟩
  · decide +kernel
  · decide +kernel

end Context

/-! ## Blocks -/

/-- A pair with its terms written out: the predicate, and the tag of a type, which
becomes a reference. -/
def expandedPair (ctx : Context) (p : String × Object) : String × Object :=
  if ctx.expand p.1 = Vocabulary.rdfType then (Vocabulary.rdfType, .iri (ctx.expand p.2.text))
  else (ctx.expand p.1, p.2)

/-- The pairs of a block with their terms written out. -/
def Block.expanded (ctx : Context) (b : Block) : List (String × Object) :=
  b.pairs.map (expandedPair ctx)

/-- A pair under the type predicate has its tag written out, as a reference. -/
theorem expandedPair_of_type {ctx : Context} {p : String × Object}
    (h : ctx.expand p.1 = Vocabulary.rdfType) :
    expandedPair ctx p = (Vocabulary.rdfType, .iri (ctx.expand p.2.text)) := if_pos h

theorem expandedPair_of_ne {ctx : Context} {p : String × Object}
    (h : ctx.expand p.1 ≠ Vocabulary.rdfType) :
    expandedPair ctx p = (ctx.expand p.1, p.2) := if_neg h

/-- Whatever a pair says, its expanded predicate is the expansion of its
predicate. -/
@[simp] theorem expandedPair_fst (ctx : Context) (p : String × Object) :
    (expandedPair ctx p).1 = ctx.expand p.1 := by
  by_cases h : ctx.expand p.1 = Vocabulary.rdfType
  · rw [expandedPair_of_type h, h]
  · rw [expandedPair_of_ne h]

end EntityRdf
