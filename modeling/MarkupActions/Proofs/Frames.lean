import MarkupActions.Proofs.Edges
import MarkupActions.Proofs.Shells

/-!
# Frames

A frame is a shell whose marks no pass takes for a tag of its own: no tag stands in the row that
opens its fence, and the tags of its literal block are bare. What a frame holds, and what comes
behind it, can then be mended and renamed as if the marks were not there.
-/

namespace MarkupActions

open Code (tick StaysOpen)

namespace Code

variable {mark : Char} {run : Nat} {row : Text}

/-- A row that closes a fence is white space and then marks. -/
theorem closesFence_inv (positive : 0 < run) (closes : closesFence mark run row = true) :
    ∃ blanks past, row = blanks ++ mark :: past ∧ ∀ c ∈ blanks, Text.isBlank c = true := by
  have inside : mark ∈ row :=
    (marks_of_closesFence closes).subset (List.mem_replicate.mpr ⟨by omega, rfl⟩)
  obtain ⟨blanks, past, rfl, first⟩ := List.eq_append_cons_of_mem inside
  refine ⟨blanks, past, rfl, fun c early => ?_⟩
  cases dark : Text.isBlank c with
  | true => rfl
  | false =>
    have other : c ≠ mark := fun same => first (same ▸ early)
    rw [closesFence_of_mem (List.mem_append_left _ early) dark other] at closes
    cases closes

theorem not_mem_of_closesFence {c : Char} (closes : closesFence mark run row = true)
    (dark : Text.isBlank c = false) (other : c ≠ mark) : c ∉ row := by
  intro inside
  rw [closesFence_of_mem inside dark other] at closes
  cases closes

/-- Marks with spaces in front of them close a fence of as many. -/
theorem closesFence_row (known : mark = tick ∨ mark = '~') (long : 3 ≤ run) (indent : Nat) :
    closesFence mark run (List.replicate indent ' ' ++ List.replicate run mark) = true := by
  obtain ⟨n, rfl⟩ := Nat.exists_eq_add_of_le' (Nat.le_trans (by decide : 1 ≤ 3) long)
  have dark : Text.isBlank mark = false := by rcases known with rfl | rfl <;> decide
  have spaces : ∀ c ∈ List.replicate indent ' ', Text.isBlank c = true := by
    intro c inside
    rw [(List.mem_replicate.mp inside).2]
    decide
  have trimmed : Text.trim (List.replicate indent ' ' ++ (List.replicate (n + 1) mark ++ [])) =
      List.replicate (n + 1) mark := by
    refine Text.trim_append spaces (by simp) (by simp) ?_ ?_
    · simp [List.replicate_succ, dark]
    · simp [List.replicate_succ', dark]
  rw [List.append_nil] at trimmed
  simp [closesFence, trimmed]

end Code

namespace Shell

/-- What the text between the marks ends with when its last row is to be a row. -/
def rowEnd : Shell → Text
  | fence .. => ['\n']
  | _ => []

/-- Whether the marks can be taken for no other tag. -/
def Plain : Shell → Prop
  | fence first _ _ _ _ _ _ _ => '<' ∉ first
  | span _ _ => True
  | literal _ stop _ blanks _ _ _ _ => stop = '>' ∧ blanks = []

def isFence : Shell → Bool
  | fence .. => true
  | _ => false

def isLiteral : Shell → Bool
  | literal .. => true
  | _ => false

end Shell

structure Frame where
  shell : Shell
  plain : shell.Plain

namespace Frame

def opening (frame : Frame) : Text := frame.shell.opening

/-- What closes the region. In a fence that is a row of its own. -/
def closing (frame : Frame) : Text := frame.shell.rowEnd ++ frame.shell.closing

def wrap (frame : Frame) (content : Text) : Text := frame.opening ++ (content ++ frame.closing)

/-- A content without what would end the frame before its time. -/
def Holds (frame : Frame) (content : Text) : Prop :=
  frame.shell.Holds (content ++ frame.shell.rowEnd)

instance (frame : Frame) (content : Text) : Decidable (frame.Holds content) :=
  inferInstanceAs (Decidable (frame.shell.Holds (content ++ frame.shell.rowEnd)))

def codeBlock : Frame where
  shell := .fence [tick, tick, tick] [tick, tick, tick] tick 3 (by decide) (by decide) (by decide)
    (by decide)
  plain := by unfold Shell.Plain; decide

def codeSpan : Frame := ⟨.span 1 (by decide), trivial⟩

def literal : Frame where
  shell := .literal Inert.literalName '>' Inert.literalName [] (by decide) (.inl rfl) (by decide)
    (by simp)
  plain := ⟨rfl, rfl⟩

end Frame

/-- The marks of a fence: three or more of one kind, at most three spaces in front, and words that
say what is shown. -/
structure FenceMark where
  indent : Nat
  mark : Char
  run : Nat
  words : Text
  /-- How far the row that closes the fence is indented. -/
  outdent : Nat
  shallow : indent ≤ 3
  known : mark = tick ∨ mark = '~'
  long : 3 ≤ run
  one : '\n' ∉ words
  tags : '<' ∉ words
  ticks : tick ∉ words
  tildes : '~' ∉ words

namespace FenceMark

variable (fence : FenceMark)

def row : Text :=
  List.replicate fence.indent ' ' ++ (List.replicate fence.run fence.mark ++ fence.words)

def lastRow : Text :=
  List.replicate fence.outdent ' ' ++ List.replicate fence.run fence.mark

theorem mark_not_in_words : fence.mark ∉ fence.words := by
  rcases fence.known with same | same <;> rw [same]
  · exact fence.ticks
  · exact fence.tildes

theorem not_mem_marks {c : Char} (space : c ≠ ' ') (other : c ≠ tick) (tilde : c ≠ '~') :
    ∀ n m, c ∉ List.replicate n ' ' ++ List.replicate m fence.mark := by
  have mark : c ≠ fence.mark := by
    rcases fence.known with same | same <;> rw [same] <;> assumption
  simp [space, mark]

def frame : Frame where
  shell := .fence fence.row fence.lastRow fence.mark fence.run
    (Code.fence?_row fence.known fence.shallow fence.long fence.mark_not_in_words)
    (Code.closesFence_row fence.known fence.long fence.outdent)
    (by
      have marks := fence.not_mem_marks (c := '\n') (by decide) (by decide) (by decide)
        fence.indent fence.run
      simpa [row, fence.one] using marks)
    (fence.not_mem_marks (by decide) (by decide) (by decide) _ _)
  plain := by
    have marks := fence.not_mem_marks (c := '<') (by decide) (by decide) (by decide)
      fence.indent fence.run
    simpa [Shell.Plain, row, fence.tags] using marks

end FenceMark

namespace Frame

theorem wrap_eq (frame : Frame) (content : Text) :
    frame.wrap content = frame.shell.wrap (content ++ frame.shell.rowEnd) := by
  simp [wrap, opening, closing, Shell.wrap]

/-- No pass finds anything at the mark that opens a frame. -/
theorem transparent_opening (frame : Frame) : Transparent frame.opening := by
  obtain ⟨shell, plain⟩ := frame
  cases shell with
  | fence first =>
    refine .prose ?_
    have unmarked : '<' ∉ first := plain
    simp [opening, Shell.opening, unmarked]
  | span => exact .prose (by simp [opening, Shell.opening, tick])
  | literal first stop last blanks opens =>
    obtain ⟨rfl, _⟩ := plain
    exact .literal_opening opens

/-- A closing mark is perhaps the end of a row, and then white space until there is a backtick, a
tilde or an angle bracket. -/
theorem closing_eq (frame : Frame) : ∃ row stop past, frame.closing = row ++ stop :: past ∧
    (row = [] ∨ ∃ blanks, row = '\n' :: blanks) ∧ (∀ c ∈ row, Text.isBlank c = true) ∧
    (stop = tick ∨ stop = '~' ∨ stop = '<') ∧ '<' ∉ past ∧ (row = [] → stop ≠ '~') := by
  obtain ⟨shell, plain⟩ := frame
  cases shell with
  | fence first last mark run opens closes =>
    obtain ⟨long, known⟩ := Code.fence?_inv opens
    obtain ⟨blanks, past, rfl, blank⟩ := Code.closesFence_inv (by omega) closes
    have tags : '<' ∉ blanks ++ mark :: past :=
      Code.not_mem_of_closesFence closes (by decide) (by rcases known with rfl | rfl <;> decide)
    simp only [List.mem_append, List.mem_cons, not_or] at tags
    refine ⟨'\n' :: blanks, mark, past, rfl, .inr ⟨blanks, rfl⟩, ?_, by tauto, tags.2.2, by simp⟩
    intro c inside
    rcases List.mem_cons.mp inside with rfl | inside
    · decide
    · exact blank c inside
  | span run positive =>
    obtain ⟨n, rfl⟩ : ∃ n, run = n + 1 := ⟨run - 1, by omega⟩
    exact ⟨[], tick, List.replicate n tick, rfl, .inl rfl, by simp, .inl rfl, by simp [tick],
      fun _ => by decide⟩
  | literal first stop last blanks opens stops closes =>
    obtain ⟨_, rfl⟩ := plain
    have letters := Inert.not_mem_of_literal closes
      (by decide : Text.isPlainLetter '<'.toLower = false)
    exact ⟨[], '<', '/' :: (last ++ ['>']), rfl, .inl rfl, by simp, .inr (.inr rfl),
      by simp [letters], fun _ => by decide⟩

theorem transparent_closing (frame : Frame) : Transparent frame.closing := by
  obtain ⟨shell, plain⟩ := frame
  cases shell with
  | fence first last mark run opens closes =>
    obtain ⟨_, known⟩ := Code.fence?_inv opens
    refine .prose ?_
    have tags : '<' ∉ last :=
      Code.not_mem_of_closesFence closes (by decide) (by rcases known with rfl | rfl <;> decide)
    simp [closing, Shell.rowEnd, Shell.closing, tags]
  | span => exact .prose (by simp [closing, Shell.rowEnd, Shell.closing, tick])
  | literal first stop last blanks opens stops closes =>
    obtain ⟨_, rfl⟩ := plain
    exact .literal_closing closes

/-- The characters that no closing mark begins with. -/
def Solid (c : Char) : Prop := c ≠ '\n' ∧ c ≠ tick ∧ c ≠ '<'

/-- What is solid does not reach into the closing mark. -/
theorem solid_before {frame : Frame} {u rest content after : Text} (solid : ∀ c ∈ u, Solid c)
    (whole : u ++ rest = content ++ (frame.closing ++ after)) :
    ∃ m, content = u ++ m ∧ rest = m ++ (frame.closing ++ after) := by
  obtain ⟨h, tail, closing, first⟩ : ∃ h tail, frame.closing = h :: tail ∧ ¬ Solid h := by
    obtain ⟨row, stop, past, closing, rows, _, stops, _, level⟩ := frame.closing_eq
    rcases rows with rfl | ⟨blanks, rfl⟩
    · refine ⟨stop, past, closing, ?_⟩
      have other := level rfl
      rcases stops with rfl | rfl | rfl <;> simp_all [Solid]
    · exact ⟨'\n', blanks ++ stop :: past, closing, by simp [Solid]⟩
  rw [closing, List.cons_append] at whole ⊢
  rcases Text.append_eq_append_cons whole with ⟨m, rfl, _⟩ | ⟨m, rfl, rfl⟩
  · exact False.elim (first (solid h (by simp)))
  · exact ⟨m, rfl, rfl⟩

theorem solid_of_isNameChar {c : Char} (named : Text.isNameChar c = true) : Solid c := by
  refine ⟨?_, ?_, ?_⟩
  all_goals
    rintro rfl
    revert named
    decide

theorem solid_of_isQuote {c : Char} (quote : Attribute.isQuote c = true) : Solid c := by
  refine ⟨?_, ?_, ?_⟩
  all_goals
    rintro rfl
    revert quote
    decide

end Frame

end MarkupActions
