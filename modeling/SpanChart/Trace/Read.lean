/-
  READING — a trace from its text.

  A trace is an array of records, one for each span: `ID`, `parent` and `thread` are machine words,
  `start` and `end` numbers, and `tag`, which may be missing or null, a string.  Other fields are
  passed over.  Only the form is looked at here; what the spans say is checked when they are laid
  out.
-/
import SpanChart.Trace.Json
import SpanChart.Span
import SpanChart.Numeral.Significant

namespace SpanChart

/-- Why no trace was read.  Spans are counted from zero. -/
inductive ReadError where
  /-- There is no such file, or it may not be read. -/
  | cannotOpen (path : String)
  /-- The bytes are no text. -/
  | notText
  /-- The text breaks off its grammar at this character. -/
  | grammar (character : Nat)
  | notArray
  | notObject (span : Nat)
  | notWord (span : Nat) (key : String)
  | notNumber (span : Nat) (key : String)
  | notString (span : Nat) (key : String)
  deriving Repr, DecidableEq

namespace ReadError

/-- How a complaint about one field of a span starts. -/
def atField (span : Nat) (key : String) : String :=
  "Error: span #" ++ toString span ++ ": \"" ++ key ++ "\" must be "

/-- What is reported where no trace was read. -/
def message : ReadError → String
  | cannotOpen path => "Error: Could not open " ++ path ++ "\n"
  | notText => "Error: invalid JSON trace: the text is not UTF-8\n"
  | grammar character =>
    "Error: invalid JSON trace: unexpected input at character " ++ toString character ++ "\n"
  | notArray => "Error: trace must be a JSON array of spans\n"
  | notObject span => "Error: span #" ++ toString span ++ " is not an object\n"
  | notWord span key => atField span key ++ "a non-negative integer\n"
  | notNumber span key => atField span key ++ "a number\n"
  | notString span key => atField span key ++ "a string\n"

end ReadError

/-! ## Numbers -/

namespace Json.Number

/-- The machine word that is written, if one is: an integer without a sign, and not too large. -/
def word? (n : Json.Number) : Option UInt64 :=
  if n.integral && !n.negative && decide (n.digits < UInt64.size) then some (UInt64.ofNat n.digits)
  else none

/-- No finite binary64 number has as many digits before its point, nor does the smallest one start
    as many places after it. -/
def farAway : Int := 400

/-- The nearest binary64 number, if there is a finite one. -/
def float? (n : Json.Number) : Option Float :=
  let top : Int := Numeral.digitCount n.digits + n.exponent
  let size : Float :=
    if n.digits = 0 ∨ top < -farAway then 0
    else if farAway < top then 1 / 0
    else Float.ofScientific (n.digits * Nat.pow 10 n.exponent.toNat) true (-n.exponent).toNat
  if size.isFinite then some (if n.negative then -size else size) else none

end Json.Number

/-! ## Spans -/

namespace Trace

open Json (field?)

/-- A field that holds a machine word. -/
def wordField (position : Nat) (fields : List (String × Json)) (key : String) :
    Except ReadError UInt64 :=
  match field? fields key with
  | some (.number n) =>
    match n.word? with
    | some w => .ok w
    | none => .error (.notWord position key)
  | _ => .error (.notWord position key)

/-- A field that holds a number. -/
def numberField (position : Nat) (fields : List (String × Json)) (key : String) :
    Except ReadError Float :=
  match field? fields key with
  | some (.number n) =>
    match n.float? with
    | some x => .ok x
    | none => .error (.notNumber position key)
  | _ => .error (.notNumber position key)

/-- A field that holds a string, and no string at all where it is missing or null. -/
def stringField (position : Nat) (fields : List (String × Json)) (key : String) :
    Except ReadError String :=
  match field? fields key with
  | none | some .null => .ok ""
  | some (.string s) => .ok s
  | some _ => .error (.notString position key)

/-- The span that a record describes. -/
def ofRecord (position : Nat) : Json → Except ReadError (Span Float)
  | .object fields => do
    let id ← wordField position fields "ID"
    let parent ← wordField position fields "parent"
    let start ← numberField position fields "start"
    let finish ← numberField position fields "end"
    let thread ← wordField position fields "thread"
    let tag ← stringField position fields "tag"
    return { id, parent, start, finish, thread, tag }
  | _ => .error (.notObject position)

/-- The spans of records from a position on. -/
def ofRecords (position : Nat) : List Json → Except ReadError (Trace Float)
  | [] => .ok []
  | record :: records => do
    let s ← ofRecord position record
    return s :: (← ofRecords (position + 1) records)

/-- The trace that a text holds. -/
def read (text : String) : Except ReadError (Trace Float) :=
  match Json.parse text with
  | .error character => .error (.grammar character)
  | .ok (.array records) => ofRecords 0 records
  | .ok _ => .error .notArray

/-- The trace that the bytes of a file hold. -/
def readBytes (bytes : ByteArray) : Except ReadError (Trace Float) :=
  match String.fromUTF8? bytes with
  | none => .error .notText
  | some text => read text

end Trace

end SpanChart
