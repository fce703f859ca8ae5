import EntityRdf.Toml.Scalar
import EntityRdf.Toml.Token

/-!
# Reading TOML

The reader is a machine on tokens. It carries the document so far, the path of
the table that entries go to, and, inside a value, a stack of open arrays and
inline tables. Values nest at most 79 deep, and a dotted key has at most 79
parts.
-/

namespace EntityRdf.Toml

/-- A document with the path of the table that entries go to. -/
structure Draft where
  root : Table
  place : List String
deriving Repr

namespace Draft

def empty : Draft := ⟨[], []⟩

/-- Adds an entry to the open table. -/
def add (d : Draft) (path : List String) (name : String) (v : Toml) : Option Draft :=
  (changeAt (fun t => addValue name v true t path) d.root d.place).map fun root => { d with root }

/-- Opens a table or an element of an array of tables. -/
def openAt (d : Draft) (element : Bool) (path : List String) (name : String) : Option Draft :=
  (changeAt (if element then openElement name else openTable name) d.root path).map
    fun root => ⟨root, path ++ [name]⟩

end Draft

/-- An open array or inline table. -/
inductive Frame where
  /-- An array with its items so far, last first. -/
  | array (items : List Toml)
  /-- An inline table with its entries so far, and the key of the awaited
  value. -/
  | inline (entries : Table) (path : List String) (name : String)
deriving Repr

/-- An entry of the open table whose value is awaited. -/
structure Pending where
  /-- The document so far. -/
  draft : Draft
  path : List String
  name : String
deriving Repr

/-- What a key is for. -/
inductive KeyUse where
  | header (d : Draft)
  /-- The header of an element of an array of tables. -/
  | elementHeader (d : Draft)
  | entry (d : Draft)
  /-- An entry of an inline table, which may be empty if it is the first. -/
  | inline (p : Pending) (stack : List Frame) (entries : Table) (first : Bool)
deriving Repr

/-- What may come next. -/
inductive Awaiting where
  | line (d : Draft)
  /-- A key or another bracket, after a bracket at the start of a line. -/
  | header (d : Draft)
  /-- A part of a key, after the parts so far, last first. -/
  | keyPart (use : KeyUse) (parts : List String)
  | keyEnd (use : KeyUse) (parts : List String)
  /-- The second bracket that ends the header of an element. -/
  | closing (d : Draft) (parts : List String)
  | value (p : Pending) (stack : List Frame)
  /-- A value or the end of the array on top of the stack. -/
  | item (p : Pending) (stack : List Frame)
  /-- More of an unquoted value, last character first. -/
  | scalar (p : Pending) (stack : List Frame) (cs : List Char)
  /-- A time, after a date and a space. -/
  | time (p : Pending) (stack : List Frame) (cs : List Char)
  /-- A separator after a value inside the frame on top of the stack. -/
  | separator (p : Pending) (stack : List Frame)
  | lineEnd (d : Draft)
deriving Repr

/-- The most open arrays and inline tables, and the most parts of a key. -/
def depthLimit : Nat := 79

def complete (p : Pending) (v : Toml) : List Frame → Option Awaiting
  | [] => (p.draft.add p.path p.name v).map .lineEnd
  | .array items :: stack => some (.separator p (.array (v :: items) :: stack))
  | .inline entries path name :: stack =>
    (addValue name v true entries path).map fun entries =>
      .separator p (.inline entries path name :: stack)

/-- Opens an array or inline table unless too many are open. -/
def openFrame (stack : List Frame) (next : Awaiting) : Option Awaiting :=
  if stack.length < depthLimit then some next else none

/-- Takes the first token of a value. -/
def startValue (p : Pending) (stack : List Frame) : Token → Option Awaiting
  | .text s _ => complete p (.str s) stack
  | .bare cs => some (.scalar p stack cs.reverse)
  | .mark '[' => openFrame stack (.item p (.array [] :: stack))
  | .mark '\x7b' => openFrame stack (.keyPart (.inline p stack [] true) [])
  | .mark '+' => some (.scalar p stack ['+'])
  | _ => none

/-- Takes a token where a part of a key is awaited. -/
def keyStep (use : KeyUse) (parts : List String) : Token → Option Awaiting
  | .blank _ => some (.keyPart use parts)
  | .bare cs => some (.keyEnd use (String.ofList cs :: parts))
  | .text s false => some (.keyEnd use (s :: parts))
  | .mark '\x7d' =>
    match use, parts with
    | .inline p stack _ true, [] => complete p (.inline []) stack
    | _, _ => none
  | _ => none

/-- The key that parts make, last first: the path and the name in it. -/
def splitKey : List String → Option (List String × String)
  | [] => none
  | name :: path => if path.length < depthLimit then some (path.reverse, name) else none

/-- Takes the token that ends a key. -/
def endKey (use : KeyUse) (parts : List String) (c : Char) : Option Awaiting := do
  let (path, name) ← splitKey parts
  match use with
  | .header d => if c = ']' then (d.openAt false path name).map .lineEnd else none
  | .elementHeader d => if c = ']' then some (.closing d parts) else none
  | .entry d => if c = '=' then some (.value ⟨d, path, name⟩ []) else none
  | .inline p stack entries _ =>
    if c = '=' then some (.value p (.inline entries path name :: stack)) else none

/-- Takes a token that cannot be part of an unquoted value or a blank before
one, after a value inside a frame or at the end of an entry. -/
def continueFrame (p : Pending) (stack : List Frame) (t : Token) : Option Awaiting :=
  match stack, t with
  | .array items :: stack, .mark ',' => some (.item p (.array items :: stack))
  | .array items :: stack, .mark ']' => complete p (.array items.reverse) stack
  | .array items :: stack, .newline => some (.separator p (.array items :: stack))
  | .inline entries _ _ :: stack, .mark ',' => some (.keyPart (.inline p stack entries false) [])
  | .inline entries _ _ :: stack, .mark '\x7d' => complete p (.inline entries) stack
  | stack, .blank _ => some (.separator p stack)
  | _, _ => none

/-- Takes the token after a value. -/
def afterValue (a : Awaiting) (t : Token) : Option Awaiting :=
  match a, t with
  | .lineEnd d, .blank _ => some (.lineEnd d)
  | .lineEnd d, .newline => some (.line d)
  | .separator p stack, t => continueFrame p stack t
  | _, _ => none

/-- Ends an unquoted value before a token. -/
def endScalar (p : Pending) (stack : List Frame) (cs : List Char) (t : Token) :
    Option Awaiting := do
  let v ← scalar? cs.reverse
  afterValue (← complete p v stack) t

/-- Takes one token; none if it cannot stand there. -/
def Awaiting.step (a : Awaiting) (t : Token) : Option Awaiting :=
  match a with
  | .line d =>
    match t with
    | .blank _ => some (.line d)
    | .newline => some (.line d)
    | .mark '[' => some (.header d)
    | t => keyStep (.entry d) [] t
  | .header d =>
    match t with
    | .mark '[' => some (.keyPart (.elementHeader d) [])
    | t => keyStep (.header d) [] t
  | .keyPart use parts => keyStep use parts t
  | .keyEnd use parts =>
    match t with
    | .blank _ => some (.keyEnd use parts)
    | .mark '.' => some (.keyPart use parts)
    | .mark c => endKey use parts c
    | _ => none
  | .closing d parts =>
    match t with
    | .mark ']' => do
      let (path, name) ← splitKey parts
      let d ← d.openAt true path name
      return .lineEnd d
    | _ => none
  | .value p stack =>
    match t with
    | .blank _ => some (.value p stack)
    | t => startValue p stack t
  | .item p stack =>
    match t with
    | .blank _ | .newline => some (.item p stack)
    | .mark ']' => continueFrame p stack t
    | t => startValue p stack t
  | .scalar p stack cs =>
    match t with
    | .bare ds => some (.scalar p stack (ds.reverse ++ cs))
    | .mark '+' => some (.scalar p stack ('+' :: cs))
    | .mark '.' => some (.scalar p stack ('.' :: cs))
    | .mark ':' => some (.scalar p stack (':' :: cs))
    | .blank [' '] => if isDate cs.reverse then some (.time p stack cs) else endScalar p stack cs t
    | t => endScalar p stack cs t
  | .time p stack cs =>
    match t with
    | .bare (c :: ds) =>
      if c.isDigit then some (.scalar p stack (ds.reverse ++ c :: ' ' :: cs)) else none
    | t => endScalar p stack cs t
  | .separator p stack => continueFrame p stack t
  | .lineEnd d => afterValue (.lineEnd d) t

/-- The document, if it may end here. -/
def Awaiting.finish : Awaiting → Option Table
  | .line d | .lineEnd d => some d.root
  | .scalar p [] cs | .time p [] cs => do
    let v ← scalar? cs.reverse
    let d ← p.draft.add p.path p.name v
    return d.root
  | _ => none

/-- Reads a text as a TOML document. -/
def read? (text : String) : Option Table := do
  let ts ← tokens? text
  let a ← ts.foldlM Awaiting.step (.line .empty)
  a.finish

end EntityRdf.Toml
