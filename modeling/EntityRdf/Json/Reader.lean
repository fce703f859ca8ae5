import EntityRdf.Json.Basic
import EntityRdf.Json.Token

/-!
# Reading JSON

The reader is a machine on tokens whose state is a stack of open arrays and
objects, at most 127 of them. `read` accepts exactly one value, surrounded by
blanks only.
-/

namespace EntityRdf.Json

/-- An open array or object that waits for a value. -/
inductive Frame where
  /-- An array with its items so far, last first. -/
  | array (items : List Json)
  /-- An object with its members so far, and the key of the awaited value. -/
  | object (members : List (String × Json)) (key : String)
deriving Repr

/-- What may come next; the stack holds the innermost frame first. -/
inductive Awaiting where
  | value (stack : List Frame)
  /-- A value, or the end of an empty array. -/
  | firstItem (stack : List Frame)
  /-- A key, or the end of an empty object. -/
  | firstKey (stack : List Frame)
  | key (members : List (String × Json)) (stack : List Frame)
  | colon (members : List (String × Json)) (key : String) (stack : List Frame)
  /-- A comma or a closer after a value, or the end. -/
  | more (value : Json) (stack : List Frame)
deriving Repr

/-- The most arrays and objects that may be open at once. -/
def depthLimit : Nat := 127

/-- Opens an array or object unless too many are open. -/
def openFrame (stack : List Frame) (next : Awaiting) : Except SyntaxError Awaiting :=
  if stack.length < depthLimit then .ok next else .error .tooDeep

/-- Takes the first token of a value. The frame of an opened array or object is
added to the stack when its first value is awaited. -/
def startValue (stack : List Frame) : Token → Except SyntaxError Awaiting
  | .openArray => openFrame stack (.firstItem stack)
  | .openObject => openFrame stack (.firstKey stack)
  | .str s => .ok (.more (.str s) stack)
  | .num n => .ok (.more (.num n) stack)
  | .bool b => .ok (.more (.bool b) stack)
  | .null => .ok (.more .null stack)
  | t => .error (.misplaced t.text)

/-- Takes the token after a value inside a frame. -/
def continueFrame (v : Json) (stack : List Frame) : Frame → Token → Except SyntaxError Awaiting
  | .array items, .comma => .ok (.value (.array (v :: items) :: stack))
  | .array items, .closeArray => .ok (.more (.arr (v :: items).reverse) stack)
  | .object members key, .comma => .ok (.key (Entries.insert key v members) stack)
  | .object members key, .closeObject => .ok (.more (.obj (Entries.insert key v members)) stack)
  | _, t => .error (.misplaced t.text)

def Awaiting.step (a : Awaiting) (t : Token) : Except SyntaxError Awaiting :=
  match a with
  | .value stack => startValue stack t
  | .firstItem stack =>
    match t with
    | .closeArray => .ok (.more (.arr []) stack)
    | t => startValue (.array [] :: stack) t
  | .firstKey stack =>
    match t with
    | .closeObject => .ok (.more (.obj []) stack)
    | .str s => .ok (.colon [] s stack)
    | t => .error (.misplaced t.text)
  | .key members stack =>
    match t with
    | .str s => .ok (.colon members s stack)
    | t => .error (.misplaced t.text)
  | .colon members name stack =>
    match t with
    | .colon => .ok (.value (.object members name :: stack))
    | t => .error (.misplaced t.text)
  | .more v stack =>
    match stack with
    | [] => .error (.misplaced t.text)
    | f :: stack => continueFrame v stack f t

/-- The value, once everything is closed. -/
def Awaiting.finish : Awaiting → Except SyntaxError Json
  | .more v [] => .ok v
  | _ => .error .unexpectedEnd

/-- The value that a sequence of tokens describes. -/
def ofTokens (ts : List Token) : Except SyntaxError Json := do
  let a ← ts.foldlM Awaiting.step (.value [])
  a.finish

/-- Reads a text as one JSON value. -/
def read (text : String) : Except SyntaxError Json := do
  ofTokens (← tokens text)

end EntityRdf.Json
