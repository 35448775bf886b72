import CommandText.Value.Json
import CommandText.Value.Yaml.Scalar

/-!
# Places in a document

A document is read line by line, since its structure hangs on how far its lines are indented. A
place knows what is left of its line and the lines below it. Between any two marks there may be
blanks, ends of lines and comments. Scalars are read from a place: quoted ones end in their line,
plain ones may go on in lines below.
-/

namespace CommandText

namespace Value

namespace Yaml

def unifyLineEnds : Text → Text
  | [] => []
  | 0x0D :: 0x0A :: rest => Text.newline :: unifyLineEnds rest
  | u :: rest => (if u = 0x0D then Text.newline else u) :: unifyLineEnds rest

structure Place where
  /-- What is left of the line. -/
  here : Text
  /-- The lines below. -/
  below : List Text
  /-- How many spaces the line starts with. -/
  indent : Nat
  /-- A tab was passed over in this line. -/
  tabbed : Bool

namespace Place

/-- The place behind the spaces that a line starts with. -/
def ofLine (line : Text) (below : List Text) : Place where
  here := line.dropWhile (· == Text.space)
  below := below
  indent := (line.takeWhile (· == Text.space)).length
  tabbed := false

def sameLine (p q : Place) : Bool := p.below.length == q.below.length

def skipBlanks (p : Place) : Place :=
  { p with
    here := p.here.dropWhile isWhite
    tabbed := p.tabbed || (p.here.takeWhile isWhite).contains 0x09 }

def skipComment (p : Place) : Place :=
  if p.here.head? = some 0x23 then { p with here := [] } else p

/-- Passes over blanks and comments in this line and in the lines given to be below it. -/
def skipLines (p : Place) : List Text → Place
  | [] => p.skipBlanks.skipComment
  | line :: below =>
    let q := p.skipBlanks.skipComment
    if q.here.isEmpty then skipLines (ofLine line below) below else q

/-- The next mark, or the end of the document. -/
def skip (p : Place) : Place := p.skipLines p.below

/-- The first line among some that is not blank, and how many line ends lead to it. -/
def nextLine? : List Text → Option (Nat × Place)
  | [] => none
  | line :: below =>
    let p := (ofLine line below).skipBlanks
    if p.here.isEmpty then (nextLine? below).map fun (breaks, p) => (breaks + 1, p)
    else some (1, p)

end Place

def isFlowMark (u : UInt16) : Bool :=
  u == 0x2C || u == 0x5B || u == 0x5D || u == 0x7B || u == 0x7D

/-- The marks that no plain scalar starts with. -/
def isIndicator (u : UInt16) : Bool :=
  isFlowMark u || u == 0x23 || u == 0x26 || u == 0x2A || u == 0x21 || u == 0x7C || u == 0x3E ||
    u == 0x27 || u == 0x22 || u == 0x25 || u == 0x40 || u == 0x60

/-- Nothing that belongs to a plain scalar follows. -/
def isPlainBreak (inFlow : Bool) : Text → Bool
  | [] => true
  | u :: _ => isWhite u || inFlow && isFlowMark u

def startsPlain (inFlow : Bool) : Text → Bool
  | [] => false
  | u :: rest =>
    if u == 0x3F || u == 0x2D || u == 0x3A then !isPlainBreak inFlow rest else !isIndicator u

/-- Cuts a line where a plain scalar ends: at a colon with a break behind it, at a number sign with
a blank before it, and inside lists and objects at their marks. -/
def cutPlain (inFlow : Bool) : (blankBefore : Bool) → Text → Text × Text
  | _, [] => ([], [])
  | blankBefore, u :: rest =>
    if u == 0x3A && isPlainBreak inFlow rest || u == 0x23 && blankBefore ||
        inFlow && isFlowMark u then ([], u :: rest)
    else
      let (scalar, rest) := cutPlain inFlow (isWhite u) rest
      (u :: scalar, rest)

def isPrintable (u : UInt16) : Bool :=
  u == 0x09 || u == 0x0A || u == 0x0D || u == 0x85 || (0x20 ≤ u && u ≤ 0x7E) ||
    (0xA0 ≤ u && u ≤ 0xFFFD)

def dropBlanksAtEnd (t : Text) : Text := (t.reverse.dropWhile isWhite).reverse

/-- What stands for a number of line ends in a scalar: a space for one, and otherwise one line end
less. -/
def folded (breaks : Nat) : Text :=
  if breaks ≤ 1 then [Text.space] else List.replicate (breaks - 1) Text.newline

/-- Reads the rest of a plain scalar from the lines below that are indented far enough. -/
def readMore (inFlow : Bool) (least : Nat) : (budget : Nat) → Place → Text × Place
  | 0, p => ([], p)
  | budget + 1, p =>
    match if p.here.isEmpty then Place.nextLine? p.below else none with
    | none => ([], p)
    | some (breaks, q) =>
      let (scalar, rest) := cutPlain inFlow true q.here
      if q.indent < least ∨ scalar = [] then ([], p)
      else
        let (more, last) := readMore inFlow least budget { q with here := rest }
        (folded breaks ++ dropBlanksAtEnd scalar ++ more, last)

/-- Reads a plain scalar; lines below continue it if they are indented by `least` spaces. -/
def readPlain (inFlow : Bool) (least : Nat) (p : Place) : Option (Value × Place) :=
  let (scalar, rest) := cutPlain inFlow false p.here
  let (more, last) := readMore inFlow least p.below.length { p with here := rest }
  let t := dropBlanksAtEnd scalar ++ more
  if t.isPaired && t.all isPrintable then some (resolve t, last) else none

def isQuotable (u : UInt16) : Bool := u == 0x09 || 0x20 ≤ u

/-- Reads a text from behind its opening single quote; two quotes stand for one. -/
def readSingleQuoted : Text → Option (Text × Text)
  | [] => none
  | 0x27 :: 0x27 :: rest => (readSingleQuoted rest).map fun (t, rest) => (0x27 :: t, rest)
  | u :: rest =>
    if u = 0x27 then some ([], rest)
    else if isQuotable u then (readSingleQuoted rest).map fun (t, rest) => (u :: t, rest)
    else none

/-- Reads a scalar in quotes, which does not leave its line. -/
def readQuoted (p : Place) : Option (Value × Place) :=
  let read := match p.here with
    | 0x27 :: rest => readSingleQuoted rest
    | 0x22 :: rest => Json.readText isQuotable rest
    | _ => none
  read.map fun (t, rest) => (.text t, { p with here := rest })

end Yaml

end Value

end CommandText
