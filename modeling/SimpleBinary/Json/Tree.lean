import SimpleBinary.Json.Basic
import SimpleBinary.Number.Shortest

namespace SimpleBinary

inductive JsonNumber where
  | natural (value : UInt64)
  | negative (value : Int64)
  | float (value : Binary64)
  deriving DecidableEq

inductive JsonTree where
  | null
  | bool (value : Bool)
  | number (value : JsonNumber)
  | string (value : String)
  | array (items : List JsonTree)
  | object (members : List (String × JsonTree))

namespace JsonTree

def insertMember (name : String) (value : JsonTree) :
    List (String × JsonTree) → List (String × JsonTree)
  | [] => [(name, value)]
  | (other, old) :: rest =>
    if name = other then (name, value) :: rest
    else if name < other then (name, value) :: (other, old) :: rest
    else (other, old) :: insertMember name value rest

def ofMembers (members : List (String × JsonTree)) : JsonTree :=
  object (members.foldl (fun sorted (name, value) => insertMember name value sorted) [])

def get (json : JsonTree) (name : String) : JsonTree :=
  match json with
  | object members => (members.lookup name).getD null
  | _ => null

def ofInt64 (value : Int64) : JsonTree :=
  number (if value < 0 then .negative value else .natural value.toUInt64)

def ofBinary64 (value : Binary64) : JsonTree :=
  match value.classify with
  | .finite .. => number (.float value)
  | _ => null

def view : JsonTree → JsonView JsonTree
  | null => .null
  | string value => .string value
  | array items => .array items
  | _ => .other

def toString? : JsonTree → Option String
  | string value => some value
  | _ => none

def toList? : JsonTree → Option (List JsonTree)
  | array items => some items
  | _ => none

def toUInt64? : JsonTree → Option UInt64
  | number (.natural value) => some value
  | _ => none

def toInt64? : JsonTree → Option Int64
  | number (.natural value) => if value < 0x8000000000000000 then some value.toInt64 else none
  | number (.negative value) => some value
  | _ => none

def toBinary64? : JsonTree → Option Binary64
  | number (.natural value) => some (.ofInt value.toNat)
  | number (.negative value) => some (.ofInt value.toInt)
  | number (.float value) => some value
  | _ => none

def decimalStyle : DecimalStyle := ⟨-4, 16, ['+'], .even⟩

def numberText : JsonNumber → String
  | .natural value => String.ofList (Nat.toDigits 10 value.toNat)
  | .negative value => String.ofList ('-' :: Nat.toDigits 10 value.toInt.natAbs)
  | .float value =>
    match value.classify with
    | .finite negative significand exponent =>
      Binary64.spellFinite decimalStyle negative significand exponent
    | _ => "null"

def escapeChar (c : Char) : List Char :=
  match c with
  | '"' => ['\\', '"']
  | '\\' => ['\\', '\\']
  | '\x08' => ['\\', 'b']
  | '\x0c' => ['\\', 'f']
  | '\n' => ['\\', 'n']
  | '\r' => ['\\', 'r']
  | '\t' => ['\\', 't']
  | c =>
    if c.toNat < 0x20 then
      '\\' :: 'u' :: '0' :: '0' :: [Nat.digitChar (c.toNat / 16), Nat.digitChar (c.toNat % 16)]
    else [c]

def quote (text : String) : String :=
  String.ofList ('"' :: text.toList.flatMap escapeChar ++ ['"'])

mutual

def compact : JsonTree → String
  | .null => "null"
  | .bool true => "true"
  | .bool false => "false"
  | .number n => numberText n
  | .string s => quote s
  | .array items => "[" ++ ",".intercalate (compactItems items) ++ "]"
  | .object members => "\x7b" ++ ",".intercalate (compactMembers members) ++ "\x7d"

def compactItems : List JsonTree → List String
  | [] => []
  | item :: rest => item.compact :: compactItems rest

def compactMembers : List (String × JsonTree) → List String
  | [] => []
  | (name, value) :: rest => (quote name ++ ":" ++ value.compact) :: compactMembers rest

end

def newline (level : Nat) : String :=
  String.ofList ('\n' :: List.replicate (2 * level) ' ')

def bracketed (first last : String) (level : Nat) (parts : List String) : String :=
  if parts.isEmpty then first ++ last
  else first ++ newline (level + 1) ++ ("," ++ newline (level + 1)).intercalate parts ++
    newline level ++ last

mutual

def indented (level : Nat) : JsonTree → String
  | .null => "null"
  | .bool true => "true"
  | .bool false => "false"
  | .number n => numberText n
  | .string s => quote s
  | .array items => bracketed "[" "]" level (indentedItems (level + 1) items)
  | .object members => bracketed "\x7b" "\x7d" level (indentedMembers (level + 1) members)

def indentedItems (level : Nat) : List JsonTree → List String
  | [] => []
  | item :: rest => indented level item :: indentedItems level rest

def indentedMembers (level : Nat) : List (String × JsonTree) → List String
  | [] => []
  | (name, value) :: rest =>
    (quote name ++ ": " ++ indented level value) :: indentedMembers level rest

end

instance : JsonValues JsonTree where
  null := null
  string := string
  array := array
  object := ofMembers
  ofInt64 := ofInt64
  ofUInt64 value := number (.natural value)
  ofBinary64 := ofBinary64
  view := view
  member := get
  toString? := toString?
  toList? := toList?
  toInt64? := toInt64?
  toUInt64? := toUInt64?
  toBinary64? := toBinary64?
  compact := compact
  indented := indented 0

end JsonTree

end SimpleBinary
