import Verbatim.Fault
import Verbatim.Text.Cut

/-!
# Spans of a text

A span is a pair of byte offsets. All offsets in this library count the bytes of the UTF-8 form.
-/

namespace Verbatim.Text

/-- The half-open stretch of bytes from `start` to `stop`. -/
structure Span where
  /-- Offset of the first byte. -/
  start : Nat
  /-- Offset just after the last byte. -/
  stop : Nat
  deriving DecidableEq, Repr, Inhabited

namespace Span

/-- The span of `width` bytes that begins at `start`. -/
def ofWidth (start width : Nat) : Span := ⟨start, start + width⟩

/-- The empty span at an offset. -/
def emptyAt (offset : Nat) : Span := ⟨offset, offset⟩

/-- Number of bytes. -/
def width (s : Span) : Nat := s.stop - s.start

/-- Whether no byte lies between the ends. -/
def isEmpty (s : Span) : Bool := s.start == s.stop

/-- Whether an offset lies on the span or on one of its ends. -/
def touches (s : Span) (offset : Nat) : Bool := s.start ≤ offset && offset ≤ s.stop

/-- Whether both ends of `t` lie on the span. -/
def covers (s t : Span) : Bool := s.start ≤ t.start && t.stop ≤ s.stop

/-- The part of a text that stands at a span, if there is such a place in the text. -/
def cut (s : Span) (text : String) : Except Fault String :=
  match slice? text s.start s.stop with
  | some part => .ok part
  | none =>
    .error (if text.utf8ByteSize < s.stop then .stopPastText s.stop text.utf8ByteSize
      else .cutCharacter)

/-- A span as it is written in dumps and messages. -/
def render (s : Span) : String := s!"{s.start}..{s.stop}"

@[simp] theorem start_ofWidth (start width : Nat) : (ofWidth start width).start = start := rfl

@[simp] theorem stop_ofWidth (start width : Nat) : (ofWidth start width).stop = start + width := rfl

theorem cut_eq_ok {s : Span} {text part : String} (h : slice? text s.start s.stop = some part) :
    s.cut text = .ok part := by
  rw [cut, h]

end Span

end Verbatim.Text
