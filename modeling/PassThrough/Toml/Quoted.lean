import PassThrough.Json.Reader
import PassThrough.Toml.Basic

/-! Quoted TOML strings, on one line or over several. Each reader starts after the opening quotes. -/

namespace PassThrough.Toml

/-- Characters that may stand for themselves in strings and comments. -/
def isPrintable (c : Char) : Bool :=
  c == '\t' || (0x20 ≤ c.toNat && c.toNat != 0x7F)

def scalarValue? (n : Nat) : Option Char :=
  if n < 0xD800 || (0xE000 ≤ n && n < 0x110000) then some (Char.ofNat n) else none

def hexNumber? (cs : List Char) : Option Nat :=
  cs.foldlM (fun n c => (Json.hexValue? c).map (n * 16 + ·)) 0

def hexEscape? (width : Nat) (cs : List Char) : Option Char :=
  if cs.length < width then none else (hexNumber? (cs.take width)).bind scalarValue?

/-- The character that an escape stands for, and how many characters follow the backslash. -/
def escape? : List Char → Option (Char × Nat)
  | 'b' :: _ => some ('\x08', 1)
  | 't' :: _ => some ('\t', 1)
  | 'n' :: _ => some ('\n', 1)
  | 'f' :: _ => some ('\x0c', 1)
  | 'r' :: _ => some ('\r', 1)
  | 'e' :: _ => some ('\x1b', 1)
  | '"' :: _ => some ('"', 1)
  | '\\' :: _ => some ('\\', 1)
  | 'x' :: rest => (hexEscape? 2 rest).map (·, 3)
  | 'u' :: rest => (hexEscape? 4 rest).map (·, 5)
  | 'U' :: rest => (hexEscape? 8 rest).map (·, 9)
  | _ => none

/-- A string in double quotes. `skip` characters belong to an escape that is read already. -/
def basicFrom (done : List Char) : Nat → List Char → Option (String × List Char)
  | _, [] => none
  | skip + 1, _ :: rest => basicFrom done skip rest
  | 0, '"' :: rest => some (String.ofList done.reverse, rest)
  | 0, '\\' :: rest =>
    match escape? rest with
    | some (c, n) => basicFrom (c :: done) n rest
    | none => none
  | 0, c :: rest => if isPrintable c then basicFrom (c :: done) 0 rest else none

/-- A string in single quotes. -/
def literalFrom (done : List Char) : List Char → Option (String × List Char)
  | [] => none
  | '\x27' :: rest => some (String.ofList done.reverse, rest)
  | c :: rest => if isPrintable c then literalFrom (c :: done) rest else none

def isSpace (c : Char) : Bool := c == ' ' || c == '\t'

/-- How many characters a backslash at the end of a line swallows: the rest of the line, which must
be blank, and all blanks and line breaks after it. -/
def foldedLength? (cs : List Char) : Option Nat :=
  let blanks := cs.takeWhile isSpace
  match cs.dropWhile isSpace with
  | '\n' :: rest => some (blanks.length + 1 + gap rest)
  | '\r' :: '\n' :: rest => some (blanks.length + 2 + gap rest)
  | _ => none
where
  gap : List Char → Nat
    | '\r' :: '\n' :: rest => gap rest + 2
    | c :: rest => if isSpace c || c == '\n' then gap rest + 1 else 0
    | [] => 0

/-- The end of a string over several lines: up to two quotes may stand before the closing three. -/
def closing? (quote : Char) : List Char → Option (List Char × List Char)
  | a :: b :: c :: rest =>
    if a == quote && b == quote && c == quote then
      match rest with
      | d :: e :: rest =>
        if d == quote && e == quote then some ([quote, quote], rest)
        else if d == quote then some ([quote], e :: rest)
        else some ([], d :: e :: rest)
      | [d] => if d == quote then some ([quote], []) else some ([], [d])
      | [] => some ([], [])
    else none
  | _ => none

/-- A string in three double quotes. Line breaks are kept as they are written. -/
def basicLinesFrom (done : List Char) : Nat → List Char → Option (String × List Char)
  | _, [] => none
  | skip + 1, _ :: rest => basicLinesFrom done skip rest
  | 0, '\\' :: rest =>
    match foldedLength? rest with
    | some n => basicLinesFrom done n rest
    | none =>
      match escape? rest with
      | some (c, n) => basicLinesFrom (c :: done) n rest
      | none => none
  | 0, '\r' :: '\n' :: rest => basicLinesFrom ('\n' :: '\r' :: done) 1 ('\n' :: rest)
  | 0, c :: rest =>
    match closing? '"' (c :: rest) with
    | some (quotes, rest) => some (String.ofList (done.reverse ++ quotes), rest)
    | none =>
      if isPrintable c || c == '\n' then basicLinesFrom (c :: done) 0 rest else none

/-- A string in three single quotes. -/
def literalLinesFrom (done : List Char) : List Char → Option (String × List Char)
  | [] => none
  | '\r' :: '\n' :: rest => literalLinesFrom ('\n' :: '\r' :: done) rest
  | c :: rest =>
    match closing? '\x27' (c :: rest) with
    | some (quotes, rest) => some (String.ofList (done.reverse ++ quotes), rest)
    | none =>
      if isPrintable c || c == '\n' then literalLinesFrom (c :: done) rest else none

/-- A line break right after the opening quotes does not count. -/
def afterFirstBreak : List Char → List Char
  | '\n' :: rest => rest
  | '\r' :: '\n' :: rest => rest
  | cs => cs

/-- A quoted string and what follows it; `none` if the text starts with no quote. -/
def quoted? : List Char → Option (Option (String × List Char))
  | '"' :: '"' :: '"' :: rest => some (basicLinesFrom [] 0 (afterFirstBreak rest))
  | '"' :: rest => some (basicFrom [] 0 rest)
  | '\x27' :: '\x27' :: '\x27' :: rest => some (literalLinesFrom [] (afterFirstBreak rest))
  | '\x27' :: rest => some (literalFrom [] rest)
  | _ => none

end PassThrough.Toml
