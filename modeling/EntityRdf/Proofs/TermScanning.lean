import EntityRdf.Numeral.Digits
import EntityRdf.Proofs.Expansion
import EntityRdf.Text.Term
import Mathlib.Data.List.Basic

/-!
# The tokens of Turtle and N-Triples

Turtle and N-Triples have their terms in common. This module reads them as the grammars of
the two formats have it, knowing nothing of how they are written here: the characters of an
IRI, of a name and of a literal, the escapes in each of them, and comments. The scanner takes
one character at a time, like those of the other formats, and the end of the text counts as
the end of a line.

Of the terms of Turtle it leaves out the other quotes, numbers and truth values. A text with
one of these has no tokens, so what is read is what the full grammar reads.

`Lexes` says that some characters are scanned as some tokens when a blank follows, and
`Scans` that they are when anything does. An IRI, a literal and a prefixed name are scanned
as written (`lexes_bracketIri`, `lexes_quoteLiteral`, `lexes_name`).
-/

namespace EntityRdf

/-! ## Terms -/

/-- What stands as the subject or the object of a statement. -/
inductive Term where
  | iri (iri : String)
  | blank (label : String)
  | literal (text datatype : String)
  | tagged (text language : String)
deriving DecidableEq, Repr

/-- What a Turtle or an N-Triples text says, one triple at a time. -/
structure Statement where
  subject : Term
  predicate : String
  object : Term
deriving DecidableEq, Repr

/-- An object with its IRI written out. Literals are text. -/
def Object.expanded (ctx : Context) : Object → Object
  | .literal s => .literal s
  | .iri target => .iri (ctx.expand target)

/-- A triple with its IRIs written out. -/
def Triple.expanded (ctx : Context) (t : Triple) : Triple :=
  ⟨ctx.expand t.subject, ctx.expand t.predicate, t.object.expanded ctx⟩

/-- The term of an object in expanded form. A literal is a string. -/
def Object.term : Object → Term
  | .literal s => .literal s Vocabulary.xsdString
  | .iri target => .iri target

/-- What a triple in expanded form says. -/
def Triple.statement (t : Triple) : Statement := ⟨.iri t.subject, t.predicate, t.object.term⟩

/-- A term says whether it was an IRI or a literal, and its text. -/
theorem Object.term_injective : Function.Injective Object.term := by
  intro o o' h
  cases o <;> cases o' <;> cases h <;> rfl

/-- Different triples in expanded form say different things. -/
theorem Triple.statement_injective : Function.Injective Triple.statement := by
  rintro ⟨s, p, o⟩ ⟨s', p', o'⟩ h
  obtain ⟨hs, hp, ho⟩ := Statement.mk.inj h
  obtain rfl : s = s' := Term.iri.inj hs
  obtain rfl : p = p' := hp
  obtain rfl : o = o' := Object.term_injective ho
  rfl

namespace Terms

/-! ## Characters -/

/-- Whether a character lies in a range of codes. -/
def isWithin (c : Char) (range : Nat × Nat) : Bool := range.1 ≤ c.toNat && c.toNat ≤ range.2

/-- Whether a character can stand in an IRI as it is. -/
def isIriChar (c : Char) : Bool :=
  ' ' < c && !(['<', '>', '"', '\x7b', '\x7d', '|', '^', '\x60', '\\'].contains c)

/-- A text that can stand between angle brackets as it is. -/
def IsIri (s : String) : Prop := ∀ c ∈ s.toList, isIriChar c = true

instance (s : String) : Decidable (IsIri s) :=
  List.decidableBAll (fun c => isIriChar c = true) s.toList

/-- Whether a character is a letter of names. -/
def isNameBase (c : Char) : Bool :=
  c.isAlpha || [(0xC0, 0xD6), (0xD8, 0xF6), (0xF8, 0x2FF), (0x370, 0x37D), (0x37F, 0x1FFF),
    (0x200C, 0x200D), (0x2070, 0x218F), (0x2C00, 0x2FEF), (0x3001, 0xD7FF), (0xF900, 0xFDCF),
    (0xFDF0, 0xFFFD), (0x10000, 0xEFFFF)].any (isWithin c)

/-- Whether a name can begin with a character, if not with a digit. -/
def isNameStart (c : Char) : Bool := isNameBase c || c = '_'

/-- Whether a character can stand inside a name. -/
def isNameChar (c : Char) : Bool :=
  isNameStart c || c.isDigit || c = '-' ||
    [(0xB7, 0xB7), (0x300, 0x36F), (0x203F, 0x2040)].any (isWithin c)

/-- Whether a text can be declared as a prefix: it is empty, or begins with a letter, goes on
with name characters and dots, and does not end in a dot. -/
def isPrefixName : List Char → Bool
  | [] => true
  | c :: cs => isNameBase c && cs.all (fun c => isNameChar c || c = '.') && cs.getLast? ≠ some '.'

/-- Whether a text can label a blank node. -/
def isLabel : List Char → Bool
  | [] => false
  | c :: cs => (isNameStart c || c.isDigit) && cs.all (fun c => isNameChar c || c = '.') &&
    cs.getLast? ≠ some '.'

/-- Whether a text is a language tag: letters, and then letters and digits after hyphens. -/
def isTag (cs : List Char) : Bool :=
  match cs.splitOn '-' with
  | [] => false
  | main :: subs => main ≠ [] && main.all Char.isAlpha &&
    subs.all fun sub => sub ≠ [] && sub.all Char.isAlphanum

/-- The characters that a backslash can precede in a local name. -/
def isLocalEscape (c : Char) : Bool := "_~.-!$&'()*+,;=/?#@%".toList.contains c

/-- The text of a local name behind its first character. Codes after a percent sign stay. -/
def localTail? : List Char → Option (List Char)
  | [] => some []
  | '\\' :: c :: cs => if isLocalEscape c then (localTail? cs).map (c :: ·) else none
  | '%' :: c :: d :: cs =>
    if isHexDigit c && isHexDigit d then (localTail? cs).map ('%' :: c :: d :: ·) else none
  | c :: cs =>
    if isNameChar c || c = '.' || c = ':' then (localTail? cs).map (c :: ·) else none

/-- The text of a local name, which may be empty. -/
def localName? : List Char → Option (List Char)
  | [] => some []
  | c :: cs =>
    if isNameStart c || c.isDigit || c = ':' || c = '%' || c = '\\' then localTail? (c :: cs)
    else none

/-! ## Tokens -/

/-- The units of the texts. -/
inductive Token where
  /-- An IRI in angle brackets. -/
  | iri (iri : String)
  /-- A prefix and a local name with a colon between them. -/
  | name (start rest : String)
  | blank (label : String)
  /-- A literal in quotes, with its escapes resolved. -/
  | text (text : String)
  /-- A word after an at sign: the language of a literal, or a directive. -/
  | tag (word : String)
  /-- The sign before a datatype. -/
  | carets
  /-- The word `a`, which stands for the type predicate. -/
  | isA
  | comma
  | semicolon
  | dot
deriving DecidableEq, Repr

/-- The token of a word without dots at its end. -/
def wordToken? : List Char → Option Token
  | ['a'] => some .isA
  | '@' :: cs => if isTag cs then some (.tag (String.ofList cs)) else none
  | '_' :: ':' :: cs => if isLabel cs then some (.blank (String.ofList cs)) else none
  | cs => do
    let (name, rest) ← splitAtColon cs
    let rest ← localName? rest
    if isPrefixName name then some (.name (String.ofList name) (String.ofList rest)) else none

/-- The tokens of a word, both last first. Dots at its end are no part of it unless they are
escaped. -/
def wordTokens? : List Char → Option (List Token)
  | '.' :: '\\' :: cs => (wordToken? ('.' :: '\\' :: cs).reverse).map ([·])
  | '.' :: cs => (wordTokens? cs).map (.dot :: ·)
  | cs => (wordToken? cs.reverse).map ([·])

/-- What stands between delimiters: an IRI or a literal. -/
inductive Quoted where
  | iri
  | text
deriving DecidableEq, Repr

def Quoted.close : Quoted → Char
  | .iri => '>'
  | .text => '"'

/-- Whether a character stands for itself. -/
def Quoted.allows : Quoted → Char → Bool
  | .iri, c => isIriChar c
  | .text, c => c ≠ '"' && c ≠ '\\' && c ≠ '\n' && c ≠ '\r'

/-- The character that a one-letter escape stands for. -/
def Quoted.escaped? : Quoted → Char → Option Char
  | .text, 't' => some '\t'
  | .text, 'b' => some '\x08'
  | .text, 'n' => some '\n'
  | .text, 'r' => some '\r'
  | .text, 'f' => some '\x0c'
  | .text, '"' => some '"'
  | .text, '\'' => some '\''
  | .text, '\\' => some '\\'
  | _, _ => none

def Quoted.token : Quoted → String → Token
  | .iri => .iri
  | .text => .text

/-- Where a scan stands between delimiters. -/
inductive Part where
  | plain
  | escape
  /-- Inside a code with so many digits missing. -/
  | code (missing value : Nat)
deriving DecidableEq, Repr

/-- Where a scan stands; characters and tokens are kept last first. -/
inductive Scan where
  | between (done : List Token)
  | quoted (done : List Token) (q : Quoted) (cs : List Char) (part : Part)
  | word (done : List Token) (cs : List Char)
  /-- After a backslash in a word. -/
  | escape (done : List Token) (cs : List Char)
  /-- After the first of two carets. -/
  | caret (done : List Token)
  | comment (done : List Token)
deriving DecidableEq, Repr

def isLineEnd (c : Char) : Bool := c = '\n' || c = '\r'

def isBlank (c : Char) : Bool := c = ' ' || c = '\t' || isLineEnd c

/-- Whether a word can begin with a character. -/
def isWordStart (c : Char) : Bool := isNameChar c || c = ':' || c = '@'

/-- Whether a word can go on with a character. -/
def isWordChar (c : Char) : Bool := isNameChar c || c = ':' || c = '.' || c = '%'

/-- The token that a single character is. -/
def mark? : Char → Option Token
  | ',' => some .comma
  | ';' => some .semicolon
  | '.' => some .dot
  | _ => none

def stepBetween (done : List Token) (c : Char) : Option Scan :=
  if isBlank c then some (.between done)
  else if c = '<' then some (.quoted done .iri [] .plain)
  else if c = '"' then some (.quoted done .text [] .plain)
  else if c = '^' then some (.caret done)
  else if c = '#' then some (.comment done)
  else if isWordStart c then some (.word done [c])
  else (mark? c).map fun t => .between (t :: done)

def stepQuoted (done : List Token) (q : Quoted) (cs : List Char) (part : Part) (c : Char) :
    Option Scan :=
  match part with
  | .plain =>
    if c = q.close then some (.between (q.token (String.ofList cs.reverse) :: done))
    else if c = '\\' then some (.quoted done q cs .escape)
    else if q.allows c then some (.quoted done q (c :: cs) .plain)
    else none
  | .escape =>
    if c = 'u' then some (.quoted done q cs (.code 4 0))
    else if c = 'U' then some (.quoted done q cs (.code 8 0))
    else (q.escaped? c).map fun d => .quoted done q (d :: cs) .plain
  | .code missing value => do
    let value := 16 * value + (← hexValue? c)
    if missing > 1 then some (.quoted done q cs (.code (missing - 1) value))
    else if value.isValidChar then some (.quoted done q (Char.ofNat value :: cs) .plain)
    else none

def Scan.step (s : Scan) (c : Char) : Option Scan :=
  match s with
  | .between done => stepBetween done c
  | .quoted done q cs part => stepQuoted done q cs part c
  | .word done cs =>
    if isWordChar c then some (.word done (c :: cs))
    else if c = '\\' then some (.escape done cs)
    else do stepBetween ((← wordTokens? cs) ++ done) c
  | .escape done cs => some (.word done (c :: '\\' :: cs))
  | .caret done => if c = '^' then some (.between (.carets :: done)) else none
  | .comment done => some (if isLineEnd c then .between done else .comment done)

/-- The tokens of a text. -/
def tokens? (cs : List Char) : Option (List Token) :=
  match (cs ++ ['\n']).foldlM Scan.step (.between []) with
  | some (.between done) => some done.reverse
  | _ => none

/-! ## Scanning pieces of text -/

variable {cs cs' rest name : List Char} {ts ts' : List Token} {b c : Char} {s : String}

/-- Characters are scanned as tokens, whatever comes before and after them. -/
def Scans (cs : List Char) (ts : List Token) : Prop :=
  ∀ done, cs.foldlM Scan.step (.between done) = some (.between (ts.reverse ++ done))

/-- Characters are scanned as tokens when a blank comes after them. -/
def Lexes (cs : List Char) (ts : List Token) : Prop :=
  ∀ b, isBlank b = true → Scans (cs ++ [b]) ts

theorem Scans.nil : Scans [] [] := fun _ => rfl

/-- Pieces that are scanned on their own are scanned one after the other. -/
theorem Scans.append (h : Scans cs ts) (h' : Scans cs' ts') : Scans (cs ++ cs') (ts ++ ts') := by
  intro done
  rw [List.foldlM_append, h done]
  simpa using h' (ts.reverse ++ done)

theorem Scans.blank (hb : isBlank b = true) : Scans [b] [] := by
  intro done
  show stepBetween done b >>= pure = _
  rw [stepBetween, if_pos hb]
  rfl

/-- What needs nothing after it does not need the blank either. -/
theorem Scans.lexes (h : Scans cs ts) : Lexes cs ts := fun b hb => by
  simpa using h.append (.blank hb)

/-- A piece, a blank and what comes after it. -/
theorem Lexes.scans (h : Lexes cs ts) (hb : isBlank b = true) (h' : Scans cs' ts') :
    Scans (cs ++ b :: cs') (ts ++ ts') := by
  simpa using (h b hb).append h'

theorem Lexes.append (h : Lexes cs ts) (hb : isBlank b = true) (h' : Lexes cs' ts') :
    Lexes (cs ++ b :: cs') (ts ++ ts') := fun b' hb' => by
  simpa using h.scans hb (h' b' hb')

theorem isBlank_space : isBlank ' ' = true := by decide

theorem isBlank_newline : isBlank '\n' = true := by decide

/-- The end of a text is like a line end. -/
theorem Lexes.tokens? (h : Lexes cs ts) : tokens? cs = some ts := by
  rw [Terms.tokens?, h '\n' isBlank_newline []]
  simp

theorem scans_comma : Scans [','] [.comma] := fun _ => rfl

theorem scans_semicolon : Scans [';'] [.semicolon] := fun _ => rfl

theorem scans_dot : Scans ['.'] [.dot] := fun _ => rfl

theorem scans_carets : Scans ['^', '^'] [.carets] := fun _ => rfl

/-! ### IRIs and literals -/

/-- Where each character is written so that it is read back, the text between delimiters is
one token. -/
theorem scans_quoted {q : Quoted} {f : Char → List Char}
    (hopen : ∀ done, Scan.step (.between done) c = some (.quoted done q [] .plain))
    (h : ∀ d ∈ cs, ∀ done acc, (f d).foldlM Scan.step (.quoted done q acc .plain) =
      some (.quoted done q (d :: acc) .plain)) :
    Scans (c :: (cs.flatMap f ++ [q.close])) [q.token (String.ofList cs)] := by
  intro done
  -- on the text, with more and more of it read
  have hfold : ∀ acc, (cs.flatMap f).foldlM Scan.step (.quoted done q acc .plain) =
      some (.quoted done q (cs.reverse ++ acc) .plain) := by
    induction cs with
    | nil => exact fun acc => rfl
    | cons d rest ih =>
      intro acc
      obtain ⟨hd, hrest⟩ := List.forall_mem_cons.mp h
      rw [List.flatMap_cons, List.foldlM_append, hd]
      simpa using ih hrest (d :: acc)
  rw [List.foldlM_cons, hopen]
  show (cs.flatMap f ++ [q.close]).foldlM Scan.step _ = _
  rw [List.foldlM_append, hfold]
  show Scan.step (.quoted done q (cs.reverse ++ []) .plain) q.close >>= pure = _
  simp [Scan.step, stepQuoted]

/-- A character that stands for itself is read as it is. -/
theorem foldlM_allowed {q : Quoted} (hclose : c ≠ q.close) (hescape : c ≠ '\\')
    (hallowed : q.allows c = true) (done : List Token) (acc : List Char) :
    [c].foldlM Scan.step (.quoted done q acc .plain) = some (.quoted done q (c :: acc) .plain) := by
  show stepQuoted done q acc .plain c >>= pure = _
  rw [stepQuoted, if_neg hclose, if_neg hescape, if_pos hallowed]
  rfl

/-- An IRI in angle brackets is one token. -/
theorem scans_bracketIri (h : IsIri s) : Scans (bracketIri s).toList [.iri s] := by
  have hchars : ∀ d ∈ s.toList, ∀ done acc, [d].foldlM Scan.step (.quoted done .iri acc .plain) =
      some (.quoted done .iri (d :: acc) .plain) := by
    intro d hd
    -- no character of the IRI closes it or begins an escape
    have hne : ∀ e, isIriChar e = false → d ≠ e := by
      rintro e he rfl
      rw [h d hd] at he
      cases he
    exact foldlM_allowed (hne '>' (by decide)) (hne '\\' (by decide)) (h d hd)
  have htext : (bracketIri s).toList = '<' :: (s.toList.flatMap ([·]) ++ ['>']) := by
    simp [bracketIri]
  have hopen : ∀ done, Scan.step (.between done) '<' = some (.quoted done .iri [] .plain) :=
    fun _ => rfl
  have hscans := scans_quoted hopen hchars
  rw [htext]
  rwa [String.ofList_toList] at hscans

/-- A character of a literal is read back, escaped or not. -/
theorem foldlM_escapeLiteralChar (c : Char) (done : List Token) (acc : List Char) :
    (escapeLiteralChar c).foldlM Scan.step (.quoted done .text acc .plain) =
      some (.quoted done .text (c :: acc) .plain) := by
  unfold escapeLiteralChar
  split
  · rfl
  · rfl
  · rfl
  · rfl
  · -- no other character closes a literal, escapes in it or is forbidden
    rename_i hescape hquote hline hreturn
    refine foldlM_allowed hquote hescape ?_ done acc
    simp only [Quoted.allows, ne_eq, Bool.and_eq_true, decide_eq_true_eq]
    exact ⟨⟨⟨hquote, hescape⟩, hline⟩, hreturn⟩

/-- A literal in quotes is one token, whatever its text. -/
theorem scans_quoteLiteral (s : String) : Scans (quoteLiteral s).toList [.text s] := by
  have hopen : ∀ done, Scan.step (.between done) '"' = some (.quoted done .text [] .plain) :=
    fun _ => rfl
  have hscans := scans_quoted hopen fun d (_ : d ∈ s.toList) => foldlM_escapeLiteralChar d
  rw [String.ofList_toList] at hscans
  rwa [quoteLiteral, String.toList_ofList, List.cons_append]

/-! ### Words -/

/-- A blank ends a word, and no escape begins with it. -/
theorem not_word_of_isBlank (hb : isBlank b = true) :
    isWordStart b = false ∧ isWordChar b = false ∧ b ≠ '\\' := by
  have hcases : b = ' ' ∨ b = '\t' ∨ b = '\n' ∨ b = '\r' := by
    simpa [isBlank, isLineEnd, or_assoc] using hb
  rcases hcases with rfl | rfl | rfl | rfl <;> decide

/-- None of the characters that begin other tokens begins a word. -/
theorem stepBetween_of_isWordStart (hc : isWordStart c = true) (done : List Token) :
    stepBetween done c = some (.word done [c]) := by
  -- no other thing begins like a word
  have hne : ∀ d, isWordStart d = false → c ≠ d := by
    rintro d hd rfl
    rw [hc] at hd
    cases hd
  have hblank : ¬ isBlank c = true := fun hb => by
    rw [(not_word_of_isBlank hb).1] at hc
    cases hc
  rw [stepBetween, if_neg hblank, if_neg (hne '<' (by decide)), if_neg (hne '"' (by decide)),
    if_neg (hne '^' (by decide)), if_neg (hne '#' (by decide)), if_pos hc]

/-- A word goes on until it is followed by something else. -/
theorem foldlM_word (h : ∀ c ∈ cs, isWordChar c = true) (done : List Token) (acc : List Char) :
    cs.foldlM Scan.step (.word done acc) = some (.word done (cs.reverse ++ acc)) := by
  induction cs generalizing acc with
  | nil => rfl
  | cons c cs ih =>
    obtain ⟨hc, hcs⟩ := List.forall_mem_cons.mp h
    have hstep : Scan.step (.word done acc) c = some (.word done (c :: acc)) := if_pos hc
    rw [List.foldlM_cons, hstep]
    simpa using ih hcs (c :: acc)

/-- A word before a blank is the token that it stands for. -/
theorem lexes_word {t : Token} (hc : isWordStart c = true) (hcs : ∀ d ∈ cs, isWordChar d = true)
    (hlast : (c :: cs).getLast? ≠ some '.') (ht : wordToken? (c :: cs) = some t) :
    Lexes (c :: cs) [t] := by
  intro b hb done
  -- the word has no dot at its end, so all of it is the token
  have hword : wordTokens? (cs.reverse ++ [c]) = some [t] := by
    rw [← List.head?_reverse, List.reverse_cons] at hlast
    have hback : (cs.reverse ++ [c]).reverse = c :: cs := by simp
    generalize cs.reverse ++ [c] = back at hlast hback
    unfold wordTokens?
    split
    · simp at hlast
    · simp at hlast
    · rw [hback, ht]
      rfl
  -- and the blank after it ends it
  obtain ⟨-, hend, hescape⟩ := not_word_of_isBlank hb
  have hstep : Scan.step (.word done (cs.reverse ++ [c])) b = some (.between (t :: done)) := by
    rw [Scan.step, hend, if_neg (by simp), if_neg hescape, hword]
    show stepBetween (t :: done) b = _
    rw [stepBetween, if_pos hb]
  show (stepBetween done c >>= fun s => (cs ++ [b]).foldlM Scan.step s) = _
  rw [stepBetween_of_isWordStart hc]
  show (cs ++ [b]).foldlM Scan.step _ = _
  rw [List.foldlM_append, foldlM_word hcs]
  show Scan.step _ b >>= pure = _
  rw [hstep]
  rfl

theorem lexes_isA : Lexes ['a'] [.isA] :=
  lexes_word (by decide) (by simp) (by decide) (by decide)

theorem lexes_directive : Lexes "@prefix".toList [.tag "prefix"] :=
  lexes_word (by decide) (List.all_eq_true.mp (by decide)) (by decide) (by decide)

/-! ### Prefixed names -/

/-- A letter or a digit can begin a local name. -/
theorem isNameStart_or_isDigit (h : c.isAlphanum = true) :
    isNameStart c = true ∨ c.isDigit = true := by
  rw [Char.isAlphanum, Bool.or_eq_true] at h
  exact h.imp_left fun halpha => by simp [isNameStart, isNameBase, halpha]

/-- Letters, digits, underscores and hyphens stand in names as they are. -/
theorem isNameChar_of_plain (h : c.isAlphanum ∨ c = '_' ∨ c = '-') : isNameChar c = true := by
  rcases h with h | rfl | rfl
  · rcases isNameStart_or_isDigit h with h | h
    · simp [isNameChar, h]
    · simp [isNameChar, h]
  · decide
  · decide

/-- A plain local name has nothing to resolve. -/
theorem localTail?_plain (h : ∀ c ∈ rest, c.isAlphanum ∨ c = '_' ∨ c = '-') :
    localTail? rest = some rest := by
  induction rest with
  | nil => rfl
  | cons c cs ih =>
    obtain ⟨hc, hcs⟩ := List.forall_mem_cons.mp h
    -- neither a backslash nor a percent sign is plain
    unfold localTail?
    split
    · contradiction
    · rename_i heq
      cases heq
      exact absurd hc (by decide)
    · rename_i heq
      cases heq
      exact absurd hc (by decide)
    · rename_i heq
      cases heq
      rw [if_pos (by simp [isNameChar_of_plain hc]), ih hcs]
      rfl

/-- A local name without escapes is its own text, unless it begins with a hyphen. -/
theorem localName?_plain (h : ∀ c ∈ rest, c.isAlphanum ∨ c = '_' ∨ c = '-')
    (hhead : rest.head? ≠ some '-') : localName? rest = some rest := by
  cases rest with
  | nil => rfl
  | cons c cs =>
    have hc : c ≠ '-' := by simpa using hhead
    have hstart : isNameStart c = true ∨ c.isDigit = true := by
      rcases h c (List.mem_cons_self ..) with hc | rfl | rfl
      · exact isNameStart_or_isDigit hc
      · exact Or.inl (by decide)
      · exact absurd rfl hc
    rw [localName?, if_pos (by rcases hstart with h | h <;> simp [h]), localTail?_plain h]

/-- A legal prefix has no colon, and a name begins with it like a word. -/
theorem of_isPrefixName (h : isPrefixName name = true) :
    ':' ∉ name ∧ (∀ c ∈ name, isWordChar c = true) ∧
      ∀ c cs, name = c :: cs → isNameBase c = true := by
  cases name with
  | nil => simp
  | cons c cs =>
    simp only [isPrefixName, Bool.and_eq_true, List.all_eq_true] at h
    obtain ⟨⟨hc, hcs⟩, -⟩ := h
    -- a prefix may have dots inside, which words may have as well
    have hname : ∀ d ∈ c :: cs, isNameChar d = true ∨ d = '.' := by
      refine List.forall_mem_cons.mpr ⟨Or.inl ?_, fun d hd => by simpa using hcs d hd⟩
      simp [isNameChar, isNameStart, hc]
    refine ⟨fun hcolon => ?_, fun d hd => ?_, fun c' cs' heq => ?_⟩
    · exact absurd (hname _ hcolon) (by decide)
    · rcases hname d hd with hd | rfl
      · simp [isWordChar, hd]
      · decide
    · cases heq
      exact hc

/-- A word with a colon is a prefixed name, split at the first colon. -/
theorem wordToken?_name (hname : isPrefixName name = true)
    (hrest : ∀ c ∈ rest, c.isAlphanum ∨ c = '_' ∨ c = '-') (hhead : rest.head? ≠ some '-') :
    wordToken? (name ++ ':' :: rest) = some (.name (String.ofList name) (String.ofList rest)) := by
  obtain ⟨hcolon, -, hfirst⟩ := of_isPrefixName hname
  have hsplit : splitAtColon (name ++ ':' :: rest) = some (name, rest) :=
    splitAtColon_eq_some.mpr ⟨rfl, hcolon⟩
  -- the other words begin with characters that no prefix begins with
  have hother : ∀ c cs, name ++ ':' :: rest = c :: cs → c = ':' ∨ isNameBase c = true := by
    intro c cs heq
    cases name with
    | nil => exact Or.inl (List.cons.inj heq).1.symm
    | cons d name => exact Or.inr ((List.cons.inj heq).1 ▸ hfirst d name rfl)
  unfold wordToken?
  split
  · rename_i heq
    have hmem : ':' ∈ ['a'] := heq ▸ by simp
    exact absurd hmem (by decide)
  · rename_i heq
    exact absurd (hother _ _ heq) (by decide)
  · rename_i heq
    exact absurd (hother _ _ heq) (by decide)
  · rw [hsplit]
    simp [localName?_plain hrest hhead, hname]

/-- A prefixed name with a plain local part, or with none, is one token. -/
theorem lexes_name (hname : isPrefixName name = true)
    (hrest : ∀ c ∈ rest, c.isAlphanum ∨ c = '_' ∨ c = '-') (hhead : rest.head? ≠ some '-') :
    Lexes (name ++ ':' :: rest) [.name (String.ofList name) (String.ofList rest)] := by
  obtain ⟨-, hchars, hfirst⟩ := of_isPrefixName hname
  have htoken := wordToken?_name hname hrest hhead
  have hall : ∀ c ∈ name ++ ':' :: rest, isWordChar c = true := by
    refine List.forall_mem_append.mpr ⟨hchars, List.forall_mem_cons.mpr ⟨by decide, fun c hc => ?_⟩⟩
    simp [isWordChar, isNameChar_of_plain (hrest c hc)]
  -- the last character is the colon or one of the plain local name
  have hlast : (name ++ ':' :: rest).getLast? ≠ some '.' := by
    rw [List.getLast?_append_cons]
    intro hdot
    rcases List.mem_cons.mp (List.mem_of_getLast? hdot) with heq | hmem
    · exact absurd heq (by decide)
    · exact absurd (hrest _ hmem) (by decide)
  cases name with
  | nil =>
    exact lexes_word (by decide) (fun d hd => hall d (List.mem_cons_of_mem _ hd)) hlast htoken
  | cons c cs =>
    have hc : isWordStart c = true := by
      simp [isWordStart, isNameChar, isNameStart, hfirst c cs rfl]
    exact lexes_word hc (fun d hd => hall d (List.mem_cons_of_mem _ hd)) hlast htoken

end Terms

/-! ## Legal triples -/

/-- The target of a reference has no character that is forbidden in an IRI. -/
def Object.Legal : Object → Prop
  | .literal _ => True
  | .iri target => Terms.IsIri target

/-- The IRIs of a triple have no character that is forbidden in an IRI. Literals may have any
text. -/
structure Triple.Legal (t : Triple) : Prop where
  subject : Terms.IsIri t.subject
  predicate : Terms.IsIri t.predicate
  object : t.object.Legal

instance : (o : Object) → Decidable o.Legal
  | .literal _ => inferInstanceAs (Decidable True)
  | .iri target => inferInstanceAs (Decidable (Terms.IsIri target))

instance (t : Triple) : Decidable t.Legal :=
  decidable_of_iff (Terms.IsIri t.subject ∧ Terms.IsIri t.predicate ∧ t.object.Legal)
    ⟨fun h => ⟨h.1, h.2.1, h.2.2⟩, fun h => ⟨h.subject, h.predicate, h.object⟩⟩

end EntityRdf
