import HealthMonitor.Library.Json
import HealthMonitor.Library.Text

/-!
# JsonValue

Values of JSON. `pointer` reads the value at a path of names and positions, `assign` puts
a value under a path of names, and `write` is the compact text of a value. The fields of an
object stand in the order of their names.
-/

namespace Json

inductive Value where
  | null
  | bool (b : Bool)
  | number (text : String)
  | string (text : String)
  | array (values : List Value)
  | object (fields : List (String × Value))

namespace Value

mutual

def write : Value → String
  | null => "null"
  | bool b => if b then "true" else "false"
  | number text => text
  | string text => quote text
  | array values => "[" ++ ",".intercalate (writeAll values) ++ "]"
  | object fields => "\x7b" ++ ",".intercalate (writeFields fields) ++ "\x7d"

def writeAll : List Value → List String
  | [] => []
  | v :: vs => v.write :: writeAll vs

def writeFields : List (String × Value) → List String
  | [] => []
  | (name, v) :: rest => (quote name ++ ":" ++ v.write) :: writeFields rest

end

def asStr : Value → Option String
  | string text => some text
  | _ => none

def asBool : Value → Option Bool
  | bool b => some b
  | _ => none

def asArray : Value → Option (List Value)
  | array values => some values
  | _ => none

def asObject : Value → Option (List (String × Value))
  | object fields => some fields
  | _ => none

/-! ## Reading -/

/-- The position that a token of a path stands for: digits without a leading zero. -/
def position (token : List Char) : Option Nat :=
  if token.isEmpty || !token.all Char.isDigit || (token.head? == some '0' && token.length != 1)
  then none
  else some (Nat.ofDigitChars 10 token 0)

def child (token : List Char) : Value → Option Value
  | object fields => fields.lookup (String.ofList token)
  | array values => (position token).bind (values[·]?)
  | _ => none

/-- `~1` stands for a slash and `~0` for a tilde, which is put in last. -/
def unescape : List Char → List Char
  | '~' :: '1' :: rest => '/' :: unescape rest
  | '~' :: '0' :: rest => '~' :: unescape rest
  | c :: rest => c :: unescape rest
  | [] => []

def pointer (v : Value) (path : String) : Option Value :=
  match path.toList with
  | [] => some v
  | '/' :: tokens => ((tokens.splitOn '/').map unescape).foldlM (fun v token => child token v) v
  | _ => none

/-! ## Writing -/

/-- The fields with this name set, in the order of the names. -/
def insert (name : String) (v : Value) : List (String × Value) → List (String × Value)
  | [] => [(name, v)]
  | (other, w) :: rest =>
      if name = other then (name, v) :: rest
      else if name < other then (name, v) :: (other, w) :: rest
      else (other, w) :: insert name v rest

/-- What indexing by a name starts from: null becomes an empty object, and nothing else but
an object has names. -/
def fields : Value → Option (List (String × Value))
  | null => some []
  | object fields => some fields
  | _ => none

/-- `value[name][name]… = v`, which panics where there are no names. -/
def assign (v : Value) : List String → Value → Option Value
  | [], _ => some v
  | name :: names, w =>
      w.fields.bind fun fields =>
        (assign v names ((fields.lookup name).getD null)).map fun inner =>
          object (insert name inner fields)

end Value

end Json
