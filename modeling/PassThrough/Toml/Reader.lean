import PassThrough.Toml.Document
import PassThrough.Toml.Quoted
import PassThrough.Toml.Scalar

/-! Reading TOML text. -/

namespace PassThrough.Toml

def isBareKeyChar (c : Char) : Bool := c.isAlphanum || c == '_' || c == '-'

/-- What follows a comment, which must be printable up to the end of its line. -/
def afterComment? (cs : List Char) : Option (List Char) :=
  match cs.dropWhile isPrintable with
  | [] => some []
  | '\n' :: rest => some ('\n' :: rest)
  | '\r' :: '\n' :: rest => some ('\n' :: rest)
  | _ => none

/-- What follows blanks, line breaks and comments. -/
def afterGaps? : Nat → List Char → Option (List Char)
  | 0, _ => none
  | fuel + 1, cs =>
    match cs.dropWhile isSpace with
    | '\n' :: rest => afterGaps? fuel rest
    | '\r' :: '\n' :: rest => afterGaps? fuel rest
    | '#' :: rest => (afterComment? rest).bind (afterGaps? fuel)
    | cs => some cs

def simpleKey? (cs : List Char) : Option (String × List Char) :=
  match cs with
  | '"' :: rest => basicFrom [] 0 rest
  | '\x27' :: rest => literalFrom [] rest
  | _ =>
    match cs.span isBareKeyChar with
    | ([], _) => none
    | (key, rest) => some (String.ofList key, rest)

/-- Arrays and inline tables may be nested this deep, and no dotted key has more parts. -/
def maxDepth : Nat := 80

/-- A dotted key of at most `parts` parts, and what follows it and its blanks. -/
def key? : Nat → List Char → Option (List String × List Char)
  | 0, _ => none
  | parts + 1, cs => do
    let (k, cs) ← simpleKey? (cs.dropWhile isSpace)
    match cs.dropWhile isSpace with
    | '.' :: cs =>
      let (ks, cs) ← key? parts cs
      return (k :: ks, cs)
    | cs => return ([k], cs)

mutual
/-- A value that nests at most `depth` arrays and inline tables. -/
def value? : Nat → Nat → List Char → Option (Toml × List Char)
  | 0, _, _ => none
  | fuel + 1, depth, cs =>
    match quoted? cs with
    | some result => result.map fun (s, rest) => (.string s, rest)
    | none =>
      match cs, depth with
      | '[' :: rest, depth + 1 => items? fuel depth [] rest
      | '{' :: rest, depth + 1 => entries? fuel depth [] rest
      | cs, _ => do
        let (w, rest) := wordFrom [] cs
        return (← scalar? w, rest)
def items? : Nat → Nat → List Toml → List Char → Option (Toml × List Char)
  | 0, _, _, _ => none
  | fuel + 1, depth, done, cs => do
    match ← afterGaps? (fuel + 1) cs with
    | ']' :: rest => return (.array done.reverse, rest)
    | cs =>
      let (v, cs) ← value? fuel depth cs
      match ← afterGaps? (fuel + 1) cs with
      | ',' :: rest => items? fuel depth (v :: done) rest
      | ']' :: rest => return (.array (v :: done).reverse, rest)
      | _ => none
def entries? : Nat → Nat → List (List String × Toml) → List Char → Option (Toml × List Char)
  | 0, _, _, _ => none
  | fuel + 1, depth, done, cs => do
    match ← afterGaps? (fuel + 1) cs with
    | '}' :: rest => return (← inlineTable? done.reverse, rest)
    | cs =>
      let (key, cs) ← key? maxDepth cs
      match ← afterGaps? (fuel + 1) cs with
      | '=' :: cs =>
        let (v, cs) ← value? fuel depth (← afterGaps? (fuel + 1) cs)
        match ← afterGaps? (fuel + 1) cs with
        | ',' :: rest => entries? fuel depth ((key, v) :: done) rest
        | '}' :: rest => return (← inlineTable? ((key, v) :: done).reverse, rest)
        | _ => none
      | _ => none
end

/-- What follows a line whose content has been read. -/
def afterLine? (cs : List Char) : Option (List Char) :=
  match cs.dropWhile isSpace with
  | [] => some []
  | '\n' :: rest => some rest
  | '\r' :: '\n' :: rest => some rest
  | '#' :: rest =>
    (afterComment? rest).map fun cs =>
      match cs with
      | '\n' :: rest => rest
      | cs => cs
  | _ => none

/-- The tables of a document from here on; `header` names the table that is open. -/
def lines? : Nat → List String → Entries → List Char → Option Entries
  | 0, _, _, _ => none
  | fuel + 1, header, es, cs =>
    match cs.dropWhile isSpace with
    | [] => some es
    | '\n' :: rest => lines? fuel header es rest
    | '\r' :: '\n' :: rest => lines? fuel header es rest
    | '#' :: rest => do lines? fuel header es (← afterLine? ('#' :: rest))
    | '[' :: '[' :: rest => do
      let (path, rest) ← key? maxDepth rest
      match rest with
      | ']' :: ']' :: rest => lines? fuel path (← Entries.pushTable path es) (← afterLine? rest)
      | _ => none
    | '[' :: rest => do
      let (path, rest) ← key? maxDepth rest
      match rest with
      | ']' :: rest => lines? fuel path (← Entries.openTable path es) (← afterLine? rest)
      | _ => none
    | cs => do
      let (key, cs) ← key? maxDepth cs
      match cs with
      | '=' :: cs =>
        let (v, cs) ← value? (fuel + 1) maxDepth (cs.dropWhile isSpace)
        lines? fuel header (← Entries.insertUnder header key v es) (← afterLine? cs)
      | _ => none

/-- The table that a text describes. A byte order mark may stand before it. -/
def parse? (text : String) : Option Toml :=
  let cs := match text.toList with
    | '\uFEFF' :: rest => rest
    | cs => cs
  (lines? (2 * cs.length + 2) [] [] cs).map fun es => .table (entriesToToml es)

end PassThrough.Toml
