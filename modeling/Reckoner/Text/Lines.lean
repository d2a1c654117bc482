/-! Lines of a byte stream. A line ends with a line feed, and a carriage return directly before that
    line feed belongs to the end of the line. What follows the last line feed is a line of its own
    unless it is empty, and keeps its carriage return. -/

namespace Reckoner.Text

/-- The line feed. -/
def lineFeed : UInt8 := 10

/-- The carriage return. -/
def carriageReturn : UInt8 := 13

/-- A line collected backwards, without the carriage return that was read last. -/
def dropReturn : List UInt8 → List UInt8
  | [] => []
  | b :: line => if b = carriageReturn then line else b :: line

/-- The lines of a stream of which the bytes `line`, latest first, have been read since the last line
    feed. -/
def linesAfter (line : List UInt8) : List UInt8 → List (List UInt8)
  | [] => if line.isEmpty then [] else [line.reverse]
  | b :: stream =>
    if b = lineFeed then (dropReturn line).reverse :: linesAfter [] stream
    else linesAfter (b :: line) stream

/-- The lines of a stream, without their ends. -/
def lines (stream : List UInt8) : List (List UInt8) := linesAfter [] stream

/-- The text that `bytes` encode in UTF-8, if they encode one. -/
def decode? (bytes : List UInt8) : Option String := String.fromUTF8? ⟨bytes.toArray⟩

end Reckoner.Text
