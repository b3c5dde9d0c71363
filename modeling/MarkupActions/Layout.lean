import MarkupActions.Text.Basic

/-!
# Layouts

A text cut at some of its parts. There is always one gap more than there are parts, which is why a
layout is not a list of pairs.
-/

namespace MarkupActions

/-- Parts of a text and the gaps around them, from left to right. -/
inductive Layout (Part : Type) where
  | last (gap : Text)
  | next (gap : Text) (part : Part) (rest : Layout Part)
deriving DecidableEq

/-- First and one past last byte. -/
structure Span where
  start : Nat
  stop : Nat
deriving DecidableEq

namespace Layout

variable {Part : Type}

def prepend (front : Text) : Layout Part → Layout Part
  | last gap => last (front ++ gap)
  | next gap part rest => next (front ++ gap) part rest

def parts : Layout Part → List Part
  | last _ => []
  | next _ part rest => part :: rest.parts

def text (write : Part → Text) : Layout Part → Text
  | last gap => gap
  | next gap part rest => gap ++ write part ++ rest.text write

def gaps : Layout Part → Text := text fun _ => []

/-- Changes each gap on its own and leaves the parts alone. -/
def mapGaps (f : Text → Text) : Layout Part → Layout Part
  | last gap => last (f gap)
  | next gap part rest => next (f gap) part (rest.mapGaps f)

/-- Only the parts with the property; the others become part of the gaps around them. -/
def select (p : Part → Bool) (write : Part → Text) : Layout Part → Layout Part
  | last gap => last gap
  | next gap part rest =>
    if p part then next gap part (rest.select p write)
    else (rest.select p write).prepend (gap ++ write part)

/-- The parts with the bytes they take up, counted from `offset`. -/
def spans (write : Part → Text) (offset : Nat) : Layout Part → List (Part × Span)
  | last _ => []
  | next gap part rest =>
    let start := offset + Text.byteSize gap
    let stop := start + Text.byteSize (write part)
    (part, ⟨start, stop⟩) :: rest.spans write stop

/-- A text cut at given spans of bytes, where the byte `cursor` is the first that is left. A span
that starts before the cursor is passed over. Every other span puts the cursor to where it stops, be
that before its start. -/
def ofSpans (s : Text) : (cursor : Nat) → List Span → Layout Text
  | cursor, [] => last (Text.splitAtByte cursor s).2
  | cursor, span :: spans =>
    if span.start < cursor then ofSpans s cursor spans
    else
      next (Text.slice cursor span.start s) (Text.slice span.start span.stop s)
        (ofSpans s span.stop spans)

end Layout

def Text.removeSpans (s : Text) (spans : List Span) : Text := (Layout.ofSpans s 0 spans).gaps

end MarkupActions
