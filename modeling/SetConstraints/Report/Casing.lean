/-!
# Letter cases of names

A name is split into words, which are joined again in one of fourteen letter cases.  Letters are those of ASCII;
any other character is neither upper nor lower case.

Words end at the separators `_`, `-` and blank, which belong to no word, and where the kind of character changes
between lower case and upper case, or between letters and digits.  In a run of capitals before a small letter the
last capital begins a word.
-/

namespace SetConstraints

inductive Casing
  | upper
  | lower
  | title
  | toggle
  | camel
  | pascal
  | snake
  | upperSnake
  | kebab
  | cobol
  | train
  | flat
  | upperFlat
  | alternating
  deriving DecidableEq, Repr

namespace Casing

def all : List Casing :=
  [.upper, .lower, .title, .toggle, .camel, .pascal, .snake, .upperSnake, .kebab, .cobol, .train, .flat,
    .upperFlat, .alternating]

def text : Casing → String
  | .upper => "Upper"
  | .lower => "Lower"
  | .title => "Title"
  | .toggle => "Toggle"
  | .camel => "Camel"
  | .pascal => "Pascal"
  | .snake => "Snake"
  | .upperSnake => "UpperSnake"
  | .kebab => "Kebab"
  | .cobol => "Cobol"
  | .train => "Train"
  | .flat => "Flat"
  | .upperFlat => "UpperFlat"
  | .alternating => "Alternating"

def ofText? (s : String) : Option Casing := all.find? (·.text = s)

/-! ### Words -/

def isSeparator (c : Char) : Bool := c = '_' || c = '-' || c = ' '

/-- Whether a word ends between `c` and the characters after it. -/
def endsWord (c : Char) : List Char → Bool
  | [] => false
  | d :: rest =>
    (c.isLower && d.isUpper) || (c.isUpper && d.isDigit) || (c.isDigit && d.isUpper) ||
      (c.isDigit && d.isLower) || (c.isLower && d.isDigit) ||
      (c.isUpper && d.isUpper && rest.head?.any Char.isLower)

/-- The words of a text, with empty ones at separators; the first word of what follows is the head. -/
def split : List Char → List (List Char)
  | [] => [[]]
  | c :: rest =>
    if isSeparator c then [] :: split rest
    else if endsWord c rest then [c] :: split rest
    else
      match split rest with
      | [] => [[c]]
      | word :: words => (c :: word) :: words

def words (cs : List Char) : List (List Char) := (split cs).filter fun w => !w.isEmpty

/-! ### Letter cases -/

def raise (w : List Char) : List Char := w.map Char.toUpper

def sink (w : List Char) : List Char := w.map Char.toLower

/-- The first letter large and the others small. -/
def capitalize : List Char → List Char
  | [] => []
  | c :: w => c.toUpper :: sink w

/-- The first letter small and the others large. -/
def invert : List Char → List Char
  | [] => []
  | c :: w => c.toLower :: raise w

/-- The first word small and the others capitalized. -/
def hump : List (List Char) → List (List Char)
  | [] => []
  | w :: ws => sink w :: ws.map capitalize

/-- Letters small and large by turns; other characters do not count. -/
def alternate : Bool → List Char → List Char
  | _, [] => []
  | large, c :: cs =>
    if c.isAlpha then (if large then c.toUpper else c.toLower) :: alternate (!large) cs
    else c :: alternate large cs

/-- A name in a letter case. -/
def apply (casing : Casing) (name : String) : String :=
  let ws := words name.toList
  let join (sep : String) (ws : List (List Char)) : List Char := sep.toList.intercalate ws
  String.ofList <|
    match casing with
    | .upper => join " " (ws.map raise)
    | .lower => join " " (ws.map sink)
    | .title => join " " (ws.map capitalize)
    | .toggle => join " " (ws.map invert)
    | .camel => join "" (hump ws)
    | .pascal => join "" (ws.map capitalize)
    | .snake => join "_" (ws.map sink)
    | .upperSnake => join "_" (ws.map raise)
    | .kebab => join "-" (ws.map sink)
    | .cobol => join "-" (ws.map raise)
    | .train => join "-" (ws.map capitalize)
    | .flat => join "" (ws.map sink)
    | .upperFlat => join "" (ws.map raise)
    | .alternating => alternate false (join " " ws)

end Casing

end SetConstraints
