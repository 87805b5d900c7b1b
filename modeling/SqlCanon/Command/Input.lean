import SqlCanon.Text.Blank
import SqlCanon.Text.Utf8

/-!
# Input lines

Statements come from standard input line by line. A line ends at a newline, and a carriage return
before it is no part of the line. Each line has to be text by itself.
-/

namespace SqlCanon.Input

def dropReturn (line : Bytes) : Bytes :=
  if line.getLast? = some Byte.carriageReturn then line.dropLast else line

/-- The lines of the input, where `read` holds what has been read of the first one, last byte first.
Input that ends in a newline has no line after it. -/
def linesAfter (read : Bytes) : Bytes → List Bytes
  | [] => if read.isEmpty then [] else [read.reverse]
  | b :: rest =>
    if b = Byte.newline then dropReturn read.reverse :: linesAfter [] rest
    else linesAfter (b :: read) rest

def lines (input : Bytes) : List Bytes := linesAfter [] input

/-- The statements of the input, blank lines left out. A line that is no text stands as `none`. -/
def statements (input : Bytes) : List (Option String) :=
  ((lines input).map Utf8.text?).filter fun line => !(line.any Blank.isBlankText)

end SqlCanon.Input
