import PassThrough.Json.Basic

/-! Number literals. A number is refused when its value in double precision is infinite. -/

namespace PassThrough.Json
open Text

/-- The nearest number with 53 significant bits, a half going to the even neighbour. -/
def roundToDouble (n : Nat) : Nat :=
  let shift := n.log2 + 1 - 53
  let unit := Nat.pow 2 shift
  let low := n % unit
  let q := n / unit
  if 2 * low > unit || (2 * low == unit && q % 2 == 1) then (q + 1) * unit else q * unit

/-- The least value that rounds to infinity. -/
def doubleLimit : Nat := Nat.pow 2 1024 - Nat.pow 2 970

/-- The longest start of a digit string whose value fits in 64 bits, and how many digits follow. -/
def significand (value : Nat) : List Nat → Nat × Nat
  | [] => (value, 0)
  | d :: rest =>
    if value * 10 + d < Text.countLimit then significand (value * 10 + d) rest
    else (value, rest.length + 1)

/-- Whether the decimal `whole.fraction` times ten to the `exponent` exceeds the doubles: the digits
that fit in 64 bits, times a power of ten, in double precision. -/
def overflows (whole fraction : List Nat) (exponent : Int) : Bool :=
  let (s, left) := significand 0 (whole ++ fraction)
  let e := exponent - fraction.length + left
  if s == 0 || e < 0 then false
  else if e > 308 then true
  else roundToDouble s * roundToDouble (Nat.pow 10 e.toNat) ≥ doubleLimit

/-- The whole part: a lone zero, or digits that do not start with one. -/
def readWhole (cs : List Char) : Option (List Char × List Char) :=
  match cs.span Char.isDigit with
  | ([], _) => none
  | ('0' :: _ :: _, _) => none
  | (ds, rest) => some (ds, rest)

def readFraction : List Char → Option (List Char × List Char)
  | '.' :: rest =>
    match rest.span Char.isDigit with
    | ([], _) => none
    | (ds, rest) => some (ds, rest)
  | cs => some ([], cs)

/-- An exponent with the text it was written in. -/
def readExponent : List Char → Option (Option (List Char × Int) × List Char)
  | c :: rest =>
    if c == 'e' || c == 'E' then
      let (sign, rest) :=
        match rest with
        | '-' :: rest => (['-'], rest)
        | '+' :: rest => (['+'], rest)
        | rest => ([], rest)
      match rest.span Char.isDigit with
      | ([], _) => none
      | (ds, rest) =>
        let n : Int := naturalOfDigits ds
        some (some (c :: sign ++ ds, if sign == ['-'] then -n else n), rest)
    else some (none, c :: rest)
  | [] => some (none, [])

def readNumber (cs : List Char) : Option (Json × List Char) := do
  let (sign, cs) :=
    match cs with
    | '-' :: rest => (['-'], rest)
    | cs => ([], cs)
  let (whole, cs) ← readWhole cs
  let (fraction, cs) ← readFraction cs
  let (exponent, cs) ← readExponent cs
  let power := match exponent with
    | some (_, e) => e
    | none => 0
  if overflows (whole.map digitValue) (fraction.map digitValue) power then none
  else if sign.isEmpty && fraction.isEmpty && exponent.isNone then
    some (.natural (naturalOfDigits whole), cs)
  else
    let point := if fraction.isEmpty then [] else '.' :: fraction
    let tail := match exponent with
      | some (t, _) => t
      | none => []
    some (.number (String.ofList (sign ++ whole ++ point ++ tail)), cs)

end PassThrough.Json
