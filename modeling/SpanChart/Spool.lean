/-
  SPOOL — text on its way to a file, through a buffer.

  A file is not written to with every piece.  Pieces wait in a buffer until it is full, and then all
  that waits is passed on together.  The place where it goes may have no room for it, and only then
  does writing fail: what still waits has been taken without anybody knowing whether there is room
  for it.  The last of it is passed on when the file is closed, which nobody hears of.
-/
import SpanChart.Sink

namespace SpanChart

/-- Text under way to a file. -/
structure Spool extends Sink where
  /-- How many bytes have to come together before they are passed on. -/
  buffer : Nat
  /-- How many bytes there is room for, if not for any number. -/
  room : Option Nat := none
  /-- How many bytes wait to be passed on. -/
  waiting : Nat := 0
  deriving Repr, DecidableEq

namespace Spool

/-- The usual size of a buffer. -/
def usualBuffer : Nat := 8191

/-- Whether a text fits where there is so much room. -/
def fits (room : Option Nat) (text : String) : Bool := room.all (text.utf8ByteSize ≤ ·)

/-- Writes a piece, unless writing is over.  It waits with the pieces before it if they leave room
    in the buffer, and else all of them are passed on. -/
def put (spool : Spool) (piece : Piece Float) : Spool :=
  if spool.failed then spool
  else
    let added := piece.render spool.precision
    let text := spool.text ++ added
    let waiting := spool.waiting + added.utf8ByteSize
    if waiting < spool.buffer then { spool with text, waiting }
    else { spool with text, waiting := 0, failed := !fits spool.room text }

instance : Writable Spool where
  put := put
  precision spool := spool.precision
  setPrecision spool digits := { spool with precision := digits }
  failed spool := spool.failed

/-- As much of a text as there is room for. -/
def firstBytes (room : Option Nat) (text : String) : ByteArray :=
  room.elim text.toUTF8 (text.toUTF8.extract 0 ·)

end Spool

/-! ## Places -/

/-- What a path leads to. -/
inductive Place where
  /-- Nothing that can be opened for writing. -/
  | closed
  /-- A file, or a device that is written like one: what is in it, and how many bytes it takes, if
      not any number. -/
  | file (content : ByteArray) (room : Option Nat)

namespace Place

/-- What is written to when a place is opened for writing.  It is empty, whatever was there. -/
def opened (buffer : Nat) : Place → Option Spool
  | closed => none
  | file _ room => some { buffer, room }

/-- What is at a place once what it was opened as is closed: all that was written and there was room
    for. -/
def closing (place : Place) : Option Spool → Place
  | none => place
  | some spool => file (Spool.firstBytes spool.room spool.text) spool.room

end Place

end SpanChart
