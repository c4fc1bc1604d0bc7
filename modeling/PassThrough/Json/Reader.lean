import PassThrough.Json.Number

/-! Reading JSON text. The first value is read on its own, so that a caller can judge it before it
looks at what follows. -/

namespace PassThrough.Json

def isGap (c : Char) : Bool :=
  c == ' ' || c == '\n' || c == '\t' || c == '\r'

def hexValue? (c : Char) : Option Nat :=
  if '0' ≤ c && c ≤ '9' then some (c.toNat - '0'.toNat)
  else if 'a' ≤ c && c ≤ 'f' then some (c.toNat - 'a'.toNat + 10)
  else if 'A' ≤ c && c ≤ 'F' then some (c.toNat - 'A'.toNat + 10)
  else none

def hex4? (a b c d : Char) : Option Nat := do
  return (((← hexValue? a) * 16 + (← hexValue? b)) * 16 + (← hexValue? c)) * 16 + (← hexValue? d)

def escaped? : Char → Option Char
  | '"' => some '"'
  | '\\' => some '\\'
  | '/' => some '/'
  | 'b' => some '\x08'
  | 'f' => some '\x0c'
  | 'n' => some '\n'
  | 'r' => some '\r'
  | 't' => some '\t'
  | _ => none

/-- The character of a surrogate pair. -/
def pair? (high low : Nat) : Option Char :=
  if 0xD800 ≤ high && high < 0xDC00 && 0xDC00 ≤ low && low < 0xE000 then
    some (Char.ofNat (0x10000 + (high - 0xD800) * 0x400 + (low - 0xDC00)))
  else none

/-- The rest of a string after its opening quote. Refuses control characters, unknown escapes and
surrogates that do not form a pair. -/
def readString : List Char → List Char → Option (String × List Char)
  | _, [] => none
  | done, '"' :: rest => some (String.ofList done.reverse, rest)
  | done, '\\' :: 'u' :: a :: b :: c :: d :: '\\' :: 'u' :: e :: f :: g :: h :: rest => do
    let n ← hex4? a b c d
    if 0xD800 ≤ n && n < 0xE000 then
      readString ((← pair? n (← hex4? e f g h)) :: done) rest
    else
      readString (Char.ofNat n :: done) ('\\' :: 'u' :: e :: f :: g :: h :: rest)
  | done, '\\' :: 'u' :: a :: b :: c :: d :: rest => do
    let n ← hex4? a b c d
    if 0xD800 ≤ n && n < 0xE000 then none else readString (Char.ofNat n :: done) rest
  | done, '\\' :: c :: rest => do readString ((← escaped? c) :: done) rest
  | done, c :: rest => if c.toNat < 0x20 || c == '\\' then none else readString (c :: done) rest

mutual
/-- A value that nests at most `depth` arrays and objects. -/
def readValue : Nat → Nat → List Char → Option (Json × List Char)
  | 0, _, _ => none
  | fuel + 1, depth, cs =>
    match cs.dropWhile isGap with
    | 'n' :: 'u' :: 'l' :: 'l' :: rest => some (.null, rest)
    | 't' :: 'r' :: 'u' :: 'e' :: rest => some (.bool true, rest)
    | 'f' :: 'a' :: 'l' :: 's' :: 'e' :: rest => some (.bool false, rest)
    | '"' :: rest => do
      let (s, rest) ← readString [] rest
      return (.string s, rest)
    | '[' :: rest =>
      match depth, rest.dropWhile isGap with
      | 0, _ => none
      | _ + 1, ']' :: rest => some (.array [], rest)
      | depth + 1, rest => readItems fuel depth [] rest
    | '{' :: rest =>
      match depth, rest.dropWhile isGap with
      | 0, _ => none
      | _ + 1, '}' :: rest => some (.object [], rest)
      | depth + 1, rest => readMembers fuel depth [] rest
    | cs => readNumber cs
def readItems : Nat → Nat → List Json → List Char → Option (Json × List Char)
  | 0, _, _, _ => none
  | fuel + 1, depth, done, cs => do
    let (j, rest) ← readValue fuel depth cs
    match rest.dropWhile isGap with
    | ',' :: rest => readItems fuel depth (j :: done) rest
    | ']' :: rest => return (.array (j :: done).reverse, rest)
    | _ => none
def readMembers : Nat → Nat → List (String × Json) → List Char → Option (Json × List Char)
  | 0, _, _, _ => none
  | fuel + 1, depth, done, cs =>
    match cs.dropWhile isGap with
    | '"' :: rest => do
      let (name, rest) ← readString [] rest
      match rest.dropWhile isGap with
      | ':' :: rest =>
        let (j, rest) ← readValue fuel depth rest
        match rest.dropWhile isGap with
        | ',' :: rest => readMembers fuel depth ((name, j) :: done) rest
        | '}' :: rest => return (.object ((name, j) :: done).reverse, rest)
        | _ => none
      | _ => none
    | _ => none
end

/-- Arrays and objects may be nested this deep in a text. -/
def maxDepth : Nat := 127

/-- The first value of a text and what follows it. Each step of the reader takes a character or
moves to a part of the value, so twice the length bounds the steps. -/
def first? (depth : Nat) (text : String) : Option (Json × List Char) :=
  let cs := text.toList
  readValue (2 * cs.length + 2) depth cs

/-- A text that holds one value and nothing else. -/
def parse? (depth : Nat) (text : String) : Option Json :=
  match first? depth text with
  | some (j, rest) => if rest.all isGap then some j else none
  | none => none

end PassThrough.Json
