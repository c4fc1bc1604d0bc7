import PassThrough.Json.Number
import PassThrough.Toml.Quoted

/-! Unquoted TOML scalars: booleans, integers, floats, dates and times. -/

namespace PassThrough.Toml

/-- Digits with single underscores between them; the digits alone are returned. -/
def digits? (isDigit : Char → Bool) : List Char → Option (List Char)
  | [] => none
  | [c] => if isDigit c then some [c] else none
  | c :: '_' :: rest => if isDigit c then (digits? isDigit rest).map (c :: ·) else none
  | c :: d :: rest => if isDigit c then (digits? isDigit (d :: rest)).map (c :: ·) else none

/-- Digits of a whole number: a lone zero, or digits that do not start with one. -/
def whole? (cs : List Char) : Option (List Char) :=
  match digits? Char.isDigit cs with
  | some ('0' :: _ :: _) => none
  | ds => ds

def radixValue (radix : Nat) (c : Char) : Nat :=
  if c.isDigit then c.toNat - '0'.toNat
  else if 'a' ≤ c && c ≤ 'z' then c.toNat - 'a'.toNat + 10
  else if 'A' ≤ c && c ≤ 'Z' then c.toNat - 'A'.toNat + 10
  else radix

def natural (radix : Nat) (ds : List Char) : Nat :=
  ds.foldl (fun n c => n * radix + radixValue radix c) 0

/-- The integer with a given value, if any, that fits in 128 bits. -/
def ofValue : Option Int → Toml
  | some n => if -(Nat.pow 2 127) ≤ n && n < Nat.pow 2 128 then .integer n else .unreadable
  | none => .unreadable

/-- An integer in another radix than ten, after the mark of its radix. Without digits it has no
value. -/
def radixed? (radix : Nat) (cs : List Char) : Option Toml :=
  if cs.isEmpty then some .unreadable
  else
    (digits? (fun c => radixValue radix c < radix) cs).map fun ds =>
      ofValue (some (natural radix ds))

def unsigned : List Char → Bool × List Char
  | '-' :: rest => (true, rest)
  | '+' :: rest => (false, rest)
  | cs => (false, cs)

def isHexDigit (c : Char) : Bool := radixValue 16 c < 16

def isExponentMark (c : Char) : Bool := c == 'e' || c == 'E'

/-- Whether each underscore stands between two hexadecimal digits. -/
def underscoresFit : List Char → Bool
  | a :: '_' :: b :: rest => isHexDigit a && isHexDigit b && underscoresFit (b :: rest)
  | [_, '_'] => false
  | _ :: rest => underscoresFit rest
  | [] => true

/-- Whether a word without a sign stands for a decimal integer: a lone zero, or digits that do not
start with one. Behind an underscore anything may stand that is no part of a float and no blank, as
long as the underscores fit; the integer then has no value unless all else are digits. -/
def isDecimal (cs : List Char) : Bool :=
  match cs, cs.dropWhile Char.isDigit with
  | [], _ => false
  | ['0'], _ => true
  | '0' :: _, _ => false
  | '_' :: _, _ => false
  | _, [] => true
  | _, '_' :: tail =>
    underscoresFit cs && !tail.any fun c => c == ' ' || c == '.' || isExponentMark c
  | _, _ => false

def decimalValue? (cs : List Char) : Option Nat :=
  let ds := cs.filter (· != '_')
  if ds.all Char.isDigit then some (natural 10 ds) else none

/-- A decimal integer with an optional sign, or one of another radix without. -/
def integer? : List Char → Option Toml
  | '0' :: 'x' :: rest => radixed? 16 rest
  | '0' :: 'o' :: rest => radixed? 8 rest
  | '0' :: 'b' :: rest => radixed? 2 rest
  | cs =>
    let (negative, cs) := unsigned cs
    if isDecimal cs then
      some (ofValue ((decimalValue? cs).map fun n => if negative then -n else n))
    else none

/-- Whether a decimal is too large for a double. -/
def exceedsDouble (ds : List Char) (exponent : Int) : Bool :=
  let n := natural 10 ds
  if n == 0 then false
  else if exponent < 0 then n / Nat.pow 10 (min exponent.natAbs (ds.length + 1)) ≥ Json.doubleLimit
  else if exponent > 400 then true
  else n * Nat.pow 10 exponent.toNat ≥ Json.doubleLimit

/-- A float, if a double can hold it. -/
def float? (cs : List Char) : Option Toml :=
  let (_, cs) := unsigned cs
  if cs == ['i', 'n', 'f'] || cs == ['n', 'a', 'n'] then some .float
  else
    let mantissa := cs.takeWhile (!isExponentMark ·)
    let mark := cs.dropWhile (!isExponentMark ·)
    let whole := mantissa.takeWhile (· != '.')
    let point := mantissa.dropWhile (· != '.')
    let fraction? := match point with
      | [] => some []
      | _ :: rest => digits? Char.isDigit rest
    let exponent? : Option Int := match mark with
      | [] => some 0
      | _ :: rest =>
        let (negative, ds) := unsigned rest
        (digits? Char.isDigit ds).map fun ds =>
          let n : Int := natural 10 ds
          if negative then -n else n
    match whole? whole, fraction?, exponent? with
    | some whole, some fraction, some exponent =>
      if point.isEmpty && mark.isEmpty then none
      else if exceedsDouble (whole ++ fraction) (exponent - fraction.length) then
        some .unreadable
      else some .float
    | _, _, _ => none

def two? : List Char → Option (Nat × List Char)
  | a :: b :: rest => if a.isDigit && b.isDigit then some (natural 10 [a, b], rest) else none
  | _ => none

def daysIn (year month : Nat) : Nat :=
  if month == 2 then
    if year % 4 == 0 && (year % 100 != 0 || year % 400 == 0) then 29 else 28
  else if month == 4 || month == 6 || month == 9 || month == 11 then 30
  else 31

/-- What follows a valid date. -/
def afterDate? (cs : List Char) : Option (List Char) := do
  let (century, cs) ← two? cs
  let (rest, cs) ← two? cs
  let year := century * 100 + rest
  match cs with
  | '-' :: cs =>
    let (month, cs) ← two? cs
    match cs with
    | '-' :: cs =>
      let (day, cs) ← two? cs
      if 1 ≤ month && month ≤ 12 && 1 ≤ day && day ≤ daysIn year month then some cs else none
    | _ => none
  | _ => none

/-- What follows a valid time of day. Seconds and their fraction may be left out. -/
def afterTime? (cs : List Char) : Option (List Char) := do
  let (hour, cs) ← two? cs
  match cs with
  | ':' :: cs =>
    let (minute, cs) ← two? cs
    if hour ≤ 23 && minute ≤ 59 then
      match cs with
      | ':' :: cs =>
        let (second, cs) ← two? cs
        if second ≤ 60 then
          match cs with
          | '.' :: cs =>
            if (cs.takeWhile Char.isDigit).isEmpty then none
            else some (cs.dropWhile Char.isDigit)
          | cs => some cs
        else none
      | cs => some cs
    else none
  | _ => none

def isOffset : List Char → Bool
  | [] => true
  | ['Z'] => true
  | ['z'] => true
  | c :: cs =>
    (c == '+' || c == '-') &&
      match two? cs with
      | some (hour, ':' :: cs) =>
        match two? cs with
        | some (minute, []) => hour ≤ 23 && minute ≤ 59
        | _ => false
      | _ => false

def isDatetime (cs : List Char) : Bool :=
  match afterDate? cs with
  | some [] => true
  | some (c :: rest) =>
    (c == 'T' || c == 't' || c == ' ') &&
      match afterTime? rest with
      | some rest => isOffset rest
      | none => false
  | none => afterTime? cs == some []

/-- The value that an unquoted word stands for. -/
def scalar? (word : List Char) : Option Toml :=
  if word == ['t', 'r', 'u', 'e'] then some (.boolean true)
  else if word == ['f', 'a', 'l', 's', 'e'] then some (.boolean false)
  else
    match integer? word with
    | some t => some t
    | none =>
      match float? word with
      | some t => some t
      | none => if isDatetime word then some .datetime else none

/-- Characters that end an unquoted word; blanks do not always. -/
def isDelimiter (c : Char) : Bool :=
  c == ',' || c == '=' || c == '#' || c == '[' || c == ']' || c == '\x7b' || c == '\x7d' ||
    c == '\r' || c == '\n'

/-- Whether a word goes on after blanks. -/
def goesOn (cs : List Char) : Bool :=
  match cs.dropWhile isSpace with
  | [] => false
  | c :: _ => !isDelimiter c && c != '.' && c != '"' && c != '\x27'

/-- An unquoted word and what follows it. Blanks inside belong to it. -/
def wordFrom (done : List Char) : List Char → List Char × List Char
  | [] => (done.reverse, [])
  | c :: rest =>
    if isDelimiter c || (isSpace c && !goesOn rest) then (done.reverse, c :: rest)
    else wordFrom (c :: done) rest

end PassThrough.Toml
