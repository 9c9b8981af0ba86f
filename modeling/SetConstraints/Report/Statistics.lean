import SetConstraints.Report.Casing
import SetConstraints.Solver.Basic

/-!
# Written statistics

Statistics are written one a line, as a label, a name and a value.  Nothing is written before the report is
configured, and only the first configuration counts.  Names are composed of parts joined by `_`.
-/

namespace SetConstraints

structure ReportOptions where
  label : String
  /-- The line that ends a report. -/
  closing : Option String := none
  /-- The letter case of names; without one they stay as they are. -/
  casing : Option Casing := none
  deriving DecidableEq, Repr

structure Report where
  options : Option ReportOptions := none
  /-- What has been written. -/
  output : String := ""
  deriving DecidableEq, Repr

/-- Composes a name of parts. -/
def statisticName (parts : List String) : String := "_".intercalate parts

/-- Adds a part to a name, which may be empty as yet. -/
def attachPart (name part : String) : String := if name.isEmpty then part else name ++ "_" ++ part

/-- The counters with their names, in the order in which they are written. -/
def Statistics.entries (s : Statistics) : List (String × Nat) :=
  [("num_propagator_calls_from_scratch", s.scratchCalls),
    ("num_incremental_propagator_calls", s.incrementalCalls),
    ("num_contradictions", s.contradictions),
    ("num_decisions", s.decisions),
    ("num_solutions", s.solutions)]

namespace ReportOptions

/-- The control characters, in two blocks: those before the blank, and those from delete to 159. -/
def isControl (c : Char) : Bool := c.toNat < 32 || (127 ≤ c.toNat && c.toNat < 160)

/-- A character as it stands between quotation marks.  Four control characters have a mark of their own, and the
others are given by their number in hexadecimal digits.  Quoted texts are ASCII texts, so that outside the control
characters, the quotation mark and the backslash every character stands for itself. -/
def quotedChar (c : Char) : List Char :=
  match c with
  | '\\' => ['\\', '\\']
  | '"' => ['\\', '"']
  | '\n' => ['\\', 'n']
  | '\r' => ['\\', 'r']
  | '\t' => ['\\', 't']
  | '\x00' => ['\\', '0']
  | c => if isControl c then ['\\', 'u', '\x7b'] ++ Nat.toDigits 16 c.toNat ++ ['\x7d'] else [c]

/-- A text between quotation marks. -/
def quoted (s : String) : String := "\"" ++ String.ofList (s.toList.flatMap quotedChar) ++ "\""

def optional : Option String → String
  | none => "None"
  | some s => s!"Some({s})"

/-- The options as they are displayed. -/
def text (o : ReportOptions) : String :=
  "StatisticOptions \x7b prefix: " ++ quoted o.label ++ ", closing_line: " ++ optional (o.closing.map quoted) ++
    ", casing: " ++ optional (o.casing.map Casing.text) ++ ", .. \x7d"

/-- A name in the letter case of the options. -/
def nameText (o : ReportOptions) (name : String) : String :=
  match o.casing with
  | none => name
  | some casing => casing.apply name

end ReportOptions

namespace Report

def isConfigured (r : Report) : Bool := r.options.isSome

def configure (r : Report) (o : ReportOptions) : Report :=
  match r.options with
  | none => { r with options := some o }
  | some _ => r

/-- Writes one statistic. -/
def write (r : Report) (name value : String) : Report :=
  match r.options with
  | none => r
  | some o => { r with output := r.output ++ s!"{o.label} {o.nameText name}={value}\n" }

/-- Writes the closing line, if there is one. -/
def close (r : Report) : Report :=
  match r.options.bind ReportOptions.closing with
  | none => r
  | some line => { r with output := r.output ++ line ++ "\n" }

/-- Writes all counters under a name. -/
def writeCounters (r : Report) (name : String) (s : Statistics) : Report :=
  s.entries.foldl (fun r e => r.write (attachPart name e.1) (toString e.2)) r

/-- Writes the statistics of a solver and ends the report. -/
def writeSolver (r : Report) (s : Solver) : Report := (r.writeCounters "" s.statistics).close

end Report

end SetConstraints
