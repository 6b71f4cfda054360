import RenderLog.Value

/-!
# Lines

One line of log as it is handed to a sink. A styled line is a format string with
directives and the list of arguments that they consume, `%c` a style and `%o` an
object, while `%%` is a percent sign. A plain line is a list of pieces.

The number of directives and the text that a console would show are read from
the format string by two readers. They go on differently after a percent sign
that starts no directive, and formats written by hand may have any form. The text
is handed on in chunks, as it is read.
-/
namespace RenderLog

/-- What a directive of a format string consumes. -/
inductive Arg where
  | style (css : String)
  | object (o : Object)
  deriving DecidableEq, Repr

def Arg.object? : Arg → Option Object
  | .style _ => none
  | .object o => some o

/-- Part of a line without styles. -/
inductive Piece where
  | text (s : String)
  | value (v : Value)
  deriving DecidableEq, Repr

def Piece.object? : Piece → Option Object
  | .text _ => none
  | .value v => v.object?

def Piece.display : Piece → String
  | .text s => s
  | .value v => v.display

inductive Line where
  | styled (format : String) (args : List Arg)
  | plain (pieces : List Piece)
  deriving DecidableEq, Repr

/-- Counts the directives of a format string. -/
def countDirectives : List Char → Nat
  | [] => 0
  | [_] => 0
  | c :: d :: rest =>
    if c = '%' then (if d = 'c' ∨ d = 'o' then 1 else 0) + countDirectives rest
    else countDirectives (d :: rest)

/-- What an object directive shows for the argument that it meets. -/
def objectText : Option Arg → List Char
  | some (.object o) => o.text.toList
  | _ => ['%', 'o']

/-- What a format string shows with its arguments. -/
def displayFormat : List Char → List Arg → List Char
  | [], _ => []
  | [c], _ => [c]
  | c :: d :: rest, args =>
    if c = '%' ∧ d = '%' then '%' :: displayFormat rest args
    else if c = '%' ∧ d = 'c' then displayFormat rest args.tail
    else if c = '%' ∧ d = 'o' then objectText args.head? ++ displayFormat rest args.tail
    else c :: displayFormat (d :: rest) args

/-- Puts a character in front of the first chunk. -/
def leadChunk (c : Char) : List (List Char) → List (List Char)
  | [] => [[c]]
  | chunk :: rest => (c :: chunk) :: rest

/-- The chunks in which a format is shown: the text up to each percent sign, what is shown for
the sign, and the text behind the last one. A style is no chunk. -/
def formatChunks : List Char → List Arg → List (List Char)
  | [], _ => [[]]
  | [c], _ => if c = '%' then [[], ['%'], []] else [[c]]
  | c :: d :: rest, args =>
    if c = '%' ∧ d = '%' then [] :: ['%'] :: formatChunks rest args
    else if c = '%' ∧ d = 'c' then [] :: formatChunks rest args.tail
    else if c = '%' ∧ d = 'o' then [] :: objectText args.head? :: formatChunks rest args.tail
    else if c = '%' then [] :: ['%'] :: formatChunks (d :: rest) args
    else leadChunk c (formatChunks (d :: rest) args)

namespace Line

def format? : Line → Option String
  | .styled format _ => some format
  | .plain _ => none

def args : Line → List Arg
  | .styled _ args => args
  | .plain _ => []

def directiveCount : Line → Nat
  | .styled format _ => countDirectives format.toList
  | .plain _ => 0

/-- The objects that the line carries, in order. -/
def objects : Line → List Object
  | .styled _ args => args.filterMap Arg.object?
  | .plain pieces => pieces.filterMap Piece.object?

/-- The text that a console shows. Pieces are separated by one blank. -/
def display : Line → String
  | .styled format args => String.ofList (displayFormat format.toList args)
  | .plain pieces => String.ofList (List.intercalate [' '] (pieces.map fun p => p.display.toList))

/-- The chunks in which the text is handed on. The blank between two pieces is one of its own. -/
def chunks : Line → List String
  | .styled format args => (formatChunks format.toList args).map String.ofList
  | .plain pieces => (pieces.map Piece.display).intersperse " "

end Line
end RenderLog
