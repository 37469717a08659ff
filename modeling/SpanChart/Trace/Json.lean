/-
  JSON — the text format that traces are kept in.

  The grammar is the standard one: blanks are four characters, strings hold no control characters,
  numbers have no leading zeros, and nothing follows the value.  A number is kept as it is written,
  sign, digits and power of ten, because a reader may ask whether it was written as an integer.

  A scanner takes characters off the front of the text, or gets stuck and says what was left then.
  Values nest, so their scanners carry a fuel.  Of any two steps one takes a character, so twice the
  length of the text lasts to its end, with as much to spare as there are characters left.
-/
namespace SpanChart

/-- A number as it is written: `± digits · 10 ^ exponent`. -/
structure Json.Number where
  negative : Bool
  digits : Nat
  exponent : Int
  /-- Whether it has neither a point nor an exponent. -/
  integral : Bool
  deriving Repr, DecidableEq

/-- What a text in this format says. -/
inductive Json where
  | null
  | bool (b : Bool)
  | number (n : Json.Number)
  | string (s : String)
  | array (items : List Json)
  | object (fields : List (String × Json))
  deriving Repr

namespace Json

/-! ## Scanning -/

/-- A scanner: what it makes of the front of a text, or the text at which it got stuck. -/
abbrev Scan := StateT (List Char) (Except (List Char))

/-- Gets stuck where it is. -/
def stuck {β : Type} : Scan β := fun cs => .error cs

/-- Takes a character if it comes next, and says whether it did. -/
def accept (c : Char) : Scan Bool
  | [] => .ok (false, [])
  | d :: cs => .ok (if d = c then (true, cs) else (false, d :: cs))

/-- Takes a character, which has to come next. -/
def expect (c : Char) : Scan Unit := do
  unless ← accept c do stuck

/-- Takes the characters of a word, which have to come next. -/
def spell : List Char → Scan Unit
  | [] => pure ()
  | c :: cs => do
    expect c
    spell cs

/-- Blanks are these four and no others. -/
def isBlank (c : Char) : Bool := c == ' ' || c == '\t' || c == '\n' || c == '\r'

/-- Takes all blanks that come next. -/
def blanks : Scan Unit := fun cs => .ok ((), cs.dropWhile isBlank)

/-! ## Numbers -/

/-- The value of decimal digits. -/
def ofDigits (cs : List Char) : Nat := cs.foldl (fun n c => 10 * n + (c.toNat - '0'.toNat)) 0

/-- Takes all digits that come next, at least one. -/
def digits : Scan (List Char) := fun cs =>
  match cs.takeWhile Char.isDigit with
  | [] => .error cs
  | ds => .ok (ds, cs.dropWhile Char.isDigit)

/-- The integer part of a number: a zero, or digits that do not start with one. -/
def whole : Scan (List Char) := do
  if ← accept '0' then return ['0']
  digits

/-- The digits after the point, if there is one. -/
def fraction : Scan (List Char) := do
  if ← accept '.' then digits
  else return []

/-- The sign and the size of an exponent. -/
def power : Scan Int := do
  if ← accept '-' then return -(ofDigits (← digits) : Int)
  let _ ← accept '+'
  return ofDigits (← digits)

/-- The exponent, if there is one. -/
def exponent : Scan (Option Int) := do
  if ← accept 'e' then return some (← power)
  if ← accept 'E' then return some (← power)
  return none

/-- A number. -/
def numeric : Scan Number := do
  let negative ← accept '-'
  let before ← whole
  let after ← fraction
  let e ← exponent
  return {
    negative
    digits := ofDigits (before ++ after)
    exponent := e.getD 0 - after.length
    integral := after.isEmpty && e.isNone }

/-! ## Strings -/

/-- The value of a hexadecimal digit. -/
def hexDigit? (c : Char) : Option Nat :=
  if c.isDigit then some (c.toNat - '0'.toNat)
  else if 'a' ≤ c ∧ c ≤ 'f' then some (c.toNat - 'a'.toNat + 10)
  else if 'A' ≤ c ∧ c ≤ 'F' then some (c.toNat - 'A'.toNat + 10)
  else none

/-- The value of hexadecimal digits, which are as many as asked for. -/
def hex (sofar : Nat) : Nat → Scan Nat
  | 0 => pure sofar
  | n + 1 => fun cs =>
    match cs with
    | [] => .error []
    | c :: rest =>
      match hexDigit? c with
      | none => .error cs
      | some d => hex (16 * sofar + d) n rest

/-- The character that an escape by number stands for.  One outside the first plane is escaped as
    two halves, and a half without its other one stands for none. -/
def unicode : Scan Char := do
  let high ← hex 0 4
  if 0xDC00 ≤ high ∧ high < 0xE000 then stuck
  if 0xD800 ≤ high ∧ high < 0xDC00 then
    spell ['\\', 'u']
    let low ← hex 0 4
    if low < 0xDC00 ∨ 0xE000 ≤ low then stuck
    return Char.ofNat (0x10000 + (high - 0xD800) * 1024 + (low - 0xDC00))
  return Char.ofNat high

/-- The characters that stand for themselves or for one other behind a backslash. -/
def escapes : List (Char × Char) :=
  [('"', '"'), ('\\', '\\'), ('/', '/'), ('b', '\x08'), ('f', '\x0c'), ('n', '\n'), ('r', '\r'),
   ('t', '\t')]

/-- The character that an escape stands for, from behind the backslash on. -/
def escape : Scan Char
  | 'u' :: cs => unicode cs
  | cs =>
    match cs with
    | [] => .error []
    | c :: rest =>
      match escapes.lookup c with
      | none => .error cs
      | some d => .ok (d, rest)

/-- The characters of a string up to its closing quote. -/
def characters : Nat → Scan (List Char)
  | 0 => stuck
  | fuel + 1 => do
    if ← accept '"' then return []
    let c ← if ← accept '\\' then escape else fun cs =>
      match cs with
      | c :: rest => if c.toNat < 0x20 then .error cs else .ok (c, rest)
      | [] => .error []
    return c :: (← characters fuel)

/-- A string with its quotes. -/
def quoted (fuel : Nat) : Scan String := do
  expect '"'
  return String.ofList (← characters fuel)

/-! ## Values -/

mutual

/-- A value, from its first character on. -/
def value : Nat → Scan Json
  | 0 => stuck
  | fuel + 1 => fun cs =>
    match cs.head? with
    | some 'n' => (do spell ['n', 'u', 'l', 'l']; return null : Scan Json) cs
    | some 't' => (do spell ['t', 'r', 'u', 'e']; return bool true : Scan Json) cs
    | some 'f' => (do spell ['f', 'a', 'l', 's', 'e']; return bool false : Scan Json) cs
    | some '"' => (string <$> quoted fuel) cs
    | some '[' =>
      (do
        expect '['
        blanks
        if ← accept ']' then return array []
        return array (← items fuel) : Scan Json) cs
    | some '\x7b' =>
      (do
        expect '\x7b'
        blanks
        if ← accept '\x7d' then return object []
        return object (← fields fuel) : Scan Json) cs
    | _ => (number <$> numeric) cs

/-- The items of an array that is not empty, and its end. -/
def items : Nat → Scan (List Json)
  | 0 => stuck
  | fuel + 1 => do
    let item ← value fuel
    blanks
    if ← accept ',' then
      blanks
      return item :: (← items fuel)
    expect ']'
    return [item]

/-- The fields of an object that is not empty, and its end. -/
def fields : Nat → Scan (List (String × Json))
  | 0 => stuck
  | fuel + 1 => do
    let key ← quoted fuel
    blanks
    expect ':'
    blanks
    let item ← value fuel
    blanks
    if ← accept ',' then
      blanks
      return (key, item) :: (← fields fuel)
    expect '\x7d'
    return [(key, item)]

end

/-- A value with nothing but blanks around it, and perhaps a byte order mark before. -/
def document (fuel : Nat) : Scan Json := do
  let _ ← accept '\ufeff'
  blanks
  let v ← value fuel
  blanks
  unless (← get).isEmpty do stuck
  return v

/-- What a whole text says, or the number of the character that does not fit, from one on. -/
def parse (text : String) : Except Nat Json :=
  let cs := text.toList
  match document (2 * cs.length + 2) cs with
  | .error rest => .error (cs.length - rest.length + 1)
  | .ok (v, _) => .ok v

/-- The value of a field.  Of several with one name the last counts. -/
def field? (fields : List (String × Json)) (key : String) : Option Json :=
  (fields.reverse.find? fun f => f.1 == key).map Prod.snd

end Json

end SpanChart
