/-! Decimal digits, and the range of counts. -/

namespace PassThrough.Text

/-- Counts fit in 64 bits: they are below this number. -/
def countLimit : Nat := 0x10000000000000000

def digitValue (c : Char) : Nat := c.toNat - '0'.toNat

def naturalOfDigits (ds : List Char) : Nat :=
  ds.foldl (fun n c => n * 10 + digitValue c) 0

end PassThrough.Text
