import PassThrough.Json.Basic

/-! Writing JSON text, on one line or indented by two spaces. -/

namespace PassThrough.Json

def hexDigit (n : Nat) : Char :=
  if n < 10 then Char.ofNat ('0'.toNat + n) else Char.ofNat ('a'.toNat + n - 10)

def escape (c : Char) : List Char :=
  if c == '"' then ['\\', '"']
  else if c == '\\' then ['\\', '\\']
  else if c == '\n' then ['\\', 'n']
  else if c == '\r' then ['\\', 'r']
  else if c == '\t' then ['\\', 't']
  else if c == '\x08' then ['\\', 'b']
  else if c == '\x0c' then ['\\', 'f']
  else if c.toNat < 0x20 then
    ['\\', 'u', '0', '0', hexDigit (c.toNat / 16), hexDigit (c.toNat % 16)]
  else [c]

def quote (s : String) : String :=
  "\"" ++ String.ofList (s.toList.flatMap escape) ++ "\""

mutual
/-- The value on one line, without blanks. -/
def render : Json → String
  | .null => "null"
  | .bool b => if b then "true" else "false"
  | .natural n => toString n
  | .number literal => literal
  | .string s => quote s
  | .array items => "[" ++ ",".intercalate (renderItems items) ++ "]"
  | .object members => "\x7b" ++ ",".intercalate (renderMembers members) ++ "\x7d"
def renderItems : List Json → List String
  | [] => []
  | j :: rest => j.render :: renderItems rest
def renderMembers : List (String × Json) → List String
  | [] => []
  | (name, j) :: rest => (quote name ++ ":" ++ j.render) :: renderMembers rest
end

/-- The start of a line `level` containers deep. -/
def newLine (level : Nat) : String :=
  "\n" ++ String.ofList (List.replicate (2 * level) ' ')

mutual
/-- The value over several lines; an empty array or object stays on one line. -/
def pretty (level : Nat) : Json → String
  | .array [] => "[]"
  | .array (j :: rest) =>
    "[" ++ ",".intercalate (prettyItems (level + 1) (j :: rest)) ++ newLine level ++ "]"
  | .object [] => "\x7b\x7d"
  | .object (m :: rest) =>
    "\x7b" ++ ",".intercalate (prettyMembers (level + 1) (m :: rest)) ++ newLine level ++ "\x7d"
  | .null => "null"
  | .bool b => if b then "true" else "false"
  | .natural n => toString n
  | .number literal => literal
  | .string s => quote s
def prettyItems (level : Nat) : List Json → List String
  | [] => []
  | j :: rest => (newLine level ++ j.pretty level) :: prettyItems level rest
def prettyMembers (level : Nat) : List (String × Json) → List String
  | [] => []
  | (name, j) :: rest =>
    (newLine level ++ quote name ++ ": " ++ j.pretty level) :: prettyMembers level rest
end

end PassThrough.Json
