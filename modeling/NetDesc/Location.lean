namespace NetDesc

/-- The bytes from `start` up to but not including `stop`. -/
structure Span where
  start : UInt32 := 0
  stop : UInt32 := 0
deriving DecidableEq, Inhabited

namespace Span

/-- The span of an expression that was built rather than read. -/
def none : Span := {}

def isEmpty (s : Span) : Bool :=
  s.stop ≤ s.start

/-- The two ends with two points between them. -/
def text (s : Span) : String :=
  s!"{s.start}..{s.stop}"

end Span

/-- A line and a column, both counted from one, with the bytes they stand for. -/
structure Location where
  span : Span := {}
  line : UInt32 := 0
  column : UInt32 := 0
deriving DecidableEq, Inhabited

namespace Location

/-- The location of trees that were not read from text. Error reports put the nearest known
    location in its place. -/
def unknown : Location := {}

/-- A location known by line and column only. -/
def ofLine (line column : UInt32) : Location :=
  { line, column }

/-- Lines are counted from one, so line zero marks an unknown location, whatever the column. -/
def isUnknown (l : Location) : Bool :=
  l.line == 0

/-- Line and column as they stand in messages. -/
def text (l : Location) : String :=
  if l.isUnknown then "<unknown>" else s!"{l.line}:{l.column}"

/-- The text of a location together with its bytes. -/
def describe (l : Location) : String :=
  s!"Location({l.text} @ {l.span.text})"

/-- The first location unless it is unknown, else the second. -/
def orElse (l fallback : Location) : Location :=
  if l.isUnknown then fallback else l

end Location

end NetDesc
