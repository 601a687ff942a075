import TreeLint.Text.Offset

/-!
# Spans

A span is a half-open range of byte offsets into a source text. Any two numbers make a span;
one whose end comes before its start is inverted and covers nothing.
-/

namespace TreeLint

/-- The bytes from `start` up to, but not including, `stop`. -/
structure Span where
  start : Nat
  stop : Nat
  deriving DecidableEq, Repr, Inhabited

namespace Span

/-- The empty span at `offset`. -/
def point (offset : Nat) : Span := ⟨offset, offset⟩

/-- Number of bytes that `s` covers; an inverted span covers none. -/
def length (s : Span) : Nat := s.stop - s.start

/-- Whether `s` covers no byte. -/
def isEmpty (s : Span) : Bool := s.stop ≤ s.start

/-- Whether `inner` lies between the ends of `outer`. -/
def contains (outer inner : Span) : Bool := outer.start ≤ inner.start && inner.stop ≤ outer.stop

/-- Spans are ordered by their start, then by their end. -/
def compare (a b : Span) : Ordering := (Ord.compare a.start b.start).then (Ord.compare a.stop b.stop)

/-- Whether `a` comes at or before `b` in the order of `compare`. -/
def atOrBefore (a b : Span) : Bool := a.start < b.start || (a.start == b.start && a.stop ≤ b.stop)

/-- A span is written with two dots between its ends. -/
instance : ToString Span := ⟨fun s => s!"{s.start}..{s.stop}"⟩

/-- Whether the ends of the span are boundaries of `text`, in order. -/
def fits (s : Span) (text : List Char) : Bool :=
  s.start ≤ s.stop && Text.isBoundary text s.start && Text.isBoundary text s.stop

end Span

end TreeLint
