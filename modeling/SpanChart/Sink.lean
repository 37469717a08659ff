/-
  SINK — where text goes: what was written so far, and how numbers are written.

  Whatever text is written to keeps the number of significant digits that numbers get.  Whoever
  needs another one sets it and has to set it back, because the sink belongs to somebody else.  What
  has failed takes nothing any more, and says so instead of complaining.

  Of all that may be set of the form of numbers and texts only this precision is kept: numbers are
  written in the general notation, nothing is padded or aligned, and no sign or point is added.  A
  `Sink` takes every piece as long as it has not failed, so it is one with room for all that is
  written; where room may run out, and that is noticed late, is the matter of `Spool`.
-/
import SpanChart.Numeral.General

namespace SpanChart

open Numeral (general readable)

/-- One thing to be written. -/
inductive Piece (α : Type) where
  | text (s : String)
  | number (x : α)
  deriving Repr, DecidableEq

/-- How a piece reads where numbers have so many digits. -/
def Piece.render (precision : Nat) : Piece Float → String
  | .text s => s
  | .number x => general precision x

/-! ## Writing -/

/-- What text can be written to. -/
class Writable (σ : Type) where
  /-- Writes a piece. -/
  put : σ → Piece Float → σ
  /-- How many significant digits a number is written with. -/
  precision : σ → Nat
  /-- Writes numbers with so many digits from now on. -/
  setPrecision : σ → Nat → σ
  /-- Whether writing is over. -/
  failed : σ → Bool

namespace Writable

variable {σ : Type} [Writable σ]

/-- Writes pieces one after the other. -/
def putAll (out : σ) (pieces : List (Piece Float)) : σ := pieces.foldl put out

/-- Writes pieces with numbers of the given precision, and leaves the precision as it was. -/
def putAllWith (out : σ) (digits : Nat) (pieces : List (Piece Float)) : σ :=
  setPrecision (putAll (setPrecision out digits) pieces) (precision out)

end Writable

/-! ## Text -/

/-- Text under way. -/
structure Sink where
  /-- What was written. -/
  text : String := ""
  /-- How many significant digits a number is written with. -/
  precision : Nat := readable
  /-- Whether writing is over. -/
  failed : Bool := false
  deriving Repr, DecidableEq

namespace Sink

/-- Writes a piece, unless writing is over. -/
def put (sink : Sink) (piece : Piece Float) : Sink :=
  if sink.failed then sink
  else { sink with text := sink.text ++ piece.render sink.precision }

instance : Writable Sink where
  put := put
  precision := precision
  setPrecision sink digits := { sink with precision := digits }
  failed := failed

end Sink

end SpanChart
