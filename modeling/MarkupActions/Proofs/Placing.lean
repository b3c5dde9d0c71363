import MarkupActions.Block.Placed
import MarkupActions.Proofs.Covers
import MarkupActions.Proofs.Layouts
import MarkupActions.Proofs.Letters

/-!
# Where blocks are, and what they consist of

The spans of a layout are cut from its text one behind the other, whatever its parts are. What a
block consists of is said of its text alone and for any matcher: an opening tag, and if the block is
closed a body and a closing tag.
-/

namespace MarkupActions

namespace Text

@[simp] theorem byteSize_append (a b : Text) : byteSize (a ++ b) = byteSize a + byteSize b := by
  induction a with
  | nil => simp [byteSize]
  | cons c a ih =>
    have step : ∀ s : Text, byteSize (c :: s) = c.utf8Size + byteSize s := fun _ => rfl
    rw [List.cons_append, step, step, ih, Nat.add_assoc]

theorem byteSize_pos {s : Text} (some : s ≠ []) : 0 < byteSize s := by
  obtain ⟨c, rest, rfl⟩ := List.exists_cons_of_ne_nil some
  exact Nat.lt_of_lt_of_le c.utf8Size_pos (Nat.le_add_right _ _)

/-- A text is split between the characters that reach the byte and the others. -/
theorem splitAtByte_append (a b : Text) : splitAtByte (byteSize a) (a ++ b) = (a, b) := by
  induction a with
  | nil => cases b <;> rfl
  | cons c a ih =>
    have pos := c.utf8Size_pos
    obtain ⟨n, size⟩ : ∃ n, byteSize (c :: a) = n + 1 :=
      Nat.exists_eq_add_one_of_ne_zero (Nat.ne_of_gt (byteSize_pos (by simp)))
    have left : n + 1 - c.utf8Size = byteSize a := by
      have whole : byteSize (c :: a) = c.utf8Size + byteSize a := rfl
      omega
    rw [size, List.cons_append, splitAtByte, left, ih]

/-- The bytes between two places are the characters between them. -/
theorem slice_append (a b c : Text) :
    slice (byteSize a) (byteSize a + byteSize b) (a ++ (b ++ c)) = b := by
  rw [slice, splitAtByte_append, Nat.add_sub_cancel_left, splitAtByte_append]

end Text

namespace Layout

variable {Part : Type} {write : Part → Text}

theorem spans_prepend (a : Text) (offset : Nat) (l : Layout Part) :
    (l.prepend a).spans write offset = l.spans write (offset + Text.byteSize a) := by
  cases l with
  | last gap => rfl
  | next gap part rest => simp [spans, Nat.add_assoc]

theorem map_spans (offset : Nat) (l : Layout Part) :
    (l.spans write offset).map (·.1) = l.parts := by
  induction l generalizing offset with
  | last gap => rfl
  | next gap part rest ih => simp [spans, parts, ih]

theorem le_start_of_mem_spans {offset : Nat} {l : Layout Part} {entry : Part × Span}
    (inside : entry ∈ l.spans write offset) : offset ≤ entry.2.start := by
  induction l generalizing offset with
  | last gap => cases inside
  | next gap part rest ih =>
    rcases List.mem_cons.mp inside with rfl | later
    · exact Nat.le_add_right _ _
    · have behind := ih later
      omega

/-- Every part begins where the part before it has ended, or behind that. -/
theorem pairwise_spans (offset : Nat) (l : Layout Part) :
    (l.spans write offset).Pairwise fun a b => a.2.stop ≤ b.2.start := by
  induction l generalizing offset with
  | last gap => exact .nil
  | next gap part rest ih => exact .cons (fun _ later => le_start_of_mem_spans later) (ih _)

end Layout

/-- A closing tag of a lower case name: the name in any letter case, and nothing but white space
before the bracket. -/
def ClosingTag.IsOf (name closing : Text) : Prop :=
  ∃ written blanks, closing = "</".toList ++ written ++ blanks ++ ">".toList ∧
    Text.lower written = name ∧
    ∀ c ∈ blanks, Text.isBlank c = true

/-- Somewhere in a text a tag of a lower case name opens: the name stands behind a bracket, in any
letter case, and does not go on. -/
def OpeningTag.OpensIn (name s : Text) : Prop :=
  ∃ front written c back, s = front ++ '<' :: (written ++ c :: back) ∧ Text.lower written = name ∧
    (Text.isBlank c = true ∨ c = '/' ∨ c = '>')

structure Block.Sound (m : Matcher) (block : Block) : Prop where
  named : m.contains block.name = true
  bare : block.body? = none → block.text = block.tag.text
  closed : ∀ body, block.body? = some body →
    ∃ closing, ClosingTag.IsOf block.name closing ∧ block.text = block.tag.text ++ body ++ closing
  once : m.mode? block.name = some .structural → ∀ body, block.body? = some body →
    ¬ OpeningTag.OpensIn block.name body
  selfClosing : block.isSelfClosing = block.tag.closesItself

variable {name body rest back : Text} {mode : ScanMode}

theorem opensAgain_of_opensIn (opens : OpeningTag.OpensIn name body) :
    opensAgain name body = true := by
  obtain ⟨front, written, c, back, rfl, lower, stops⟩ := opens
  induction front with
  | nil =>
    have after : Text.afterLower? ('<' :: name) ('<' :: (written ++ c :: back)) =
      some (c :: back) :=
      Text.afterLower?_eq_some.mpr ⟨'<' :: written, rfl, by rw [← lower]; rfl⟩
    have opens : OpeningTag.opens name ('<' :: (written ++ c :: back)) = true := by
      simpa [OpeningTag.opens, after, or_assoc] using stops
    simp [opensAgain, opens]
  | cons d front ih => simp [opensAgain, ih]

theorem ClosingTag.isOf_of_length? {n : Nat} (found : ClosingTag.length? name back = some n) :
    ClosingTag.IsOf name (back.take n) := by
  obtain ⟨front, blanks, shape, lower, blank⟩ := ClosingTag.take_of_length? found
  obtain ⟨c, tail, rfl, head, more⟩ := List.map_eq_cons_iff.mp lower
  obtain ⟨d, written, rfl, slash, name⟩ := List.map_eq_cons_iff.mp more
  obtain rfl := Text.eq_of_toLower_eq (by decide) head
  obtain rfl := Text.eq_of_toLower_eq (by decide) slash
  exact ⟨written, blanks, by rw [shape]; simp, name, blank⟩

theorem not_opensAgain_of_extentOf {tag : OpeningTag} {closing : Text}
    (found : extentOf .structural tag rest = .closed body closing) :
    opensAgain tag.key body = false := by
  unfold extentOf at found
  split at found
  · cases found
  · split at found
    · cases found
    · simp only [true_and] at found
      split at found
      · cases found
      · rename_i once
        obtain ⟨rfl, _⟩ := Extent.closed.inj found
        simpa using once

theorem extentOf_eq_closesItself {tag : OpeningTag} :
    extentOf mode tag rest = .closesItself ↔ tag.closesItself = true := by
  unfold extentOf
  split
  · rename_i closes
    exact iff_of_true rfl closes
  · rename_i opens
    refine iff_of_false (fun same => ?_) opens
    split at same
    · cases same
    · simp only at same
      split at same <;> cases same

namespace Matcher

variable {m : Matcher} {s : Text} {block : Block}

/-- A block that is read where it stands is made of its tag, and of a body and a closing tag if it
is closed. -/
theorem sound_of_blockAt? (found : m.blockAt? (block.text ++ back) = some block) :
    block.Sound m := by
  obtain ⟨tag, _, matched⟩ := Option.bind_eq_some_iff.mp found
  obtain ⟨mode, known, shape⟩ := Option.map_eq_some_iff.mp matched
  obtain ⟨tag', extent⟩ := block
  obtain ⟨rfl, ends⟩ := Block.mk.inj shape
  refine ⟨?_, ?_, ?_, ?_, ?_⟩
  · have lowered : Text.lower (Block.name ⟨tag, extent⟩) = tag.key := Text.lower_lower tag.name
    rw [contains, lowered, known]
    rfl
  · intro open'
    cases extent with
    | closed body closing => cases open'
    | closesItself => rfl
    | unclosed => rfl
  · rintro body closes
    cases extent with
    | closed body' closing =>
      obtain rfl := Option.some.inj closes
      obtain ⟨_, n, behind, _, rfl, length, _⟩ := extentOf_eq_closed ends
      exact ⟨behind.take n, ClosingTag.isOf_of_length? length,
        by rw [Block.text, List.append_assoc]⟩
    | closesItself => cases closes
    | unclosed => cases closes
  · intro structural body closes opens
    obtain rfl := Option.some.inj (known.symm.trans structural)
    cases extent with
    | closed body' closing =>
      obtain rfl := Option.some.inj closes
      exact Bool.false_ne_true ((not_opensAgain_of_extentOf ends).symm.trans
        (opensAgain_of_opensIn opens))
    | closesItself => cases closes
    | unclosed => cases closes
  · rw [Bool.eq_iff_iff, ← extentOf_eq_closesItself, ends, Block.isSelfClosing, beq_iff_eq]

/-- Every block that is placed stands in the text at its place, and is what is read there. -/
theorem mem_spans_layout {offset : Nat} {span : Span}
    (inside : (block, span) ∈ (m.layout s).spans Block.text offset) :
    ∃ front back, s = front ++ (block.text ++ back) ∧ m.blockAt? (block.text ++ back) = some block ∧
      span = ⟨offset + Text.byteSize front,
        offset + Text.byteSize front + Text.byteSize block.text⟩ := by
  induction s using layout_induct m generalizing offset with
  | nil => simp [layout, Layout.spans] at inside
  | keep c s unread ih =>
    rw [layout_cons unread, Layout.spans_prepend] at inside
    obtain ⟨front, back, rfl, found, rfl⟩ := ih inside
    refine ⟨c :: front, back, rfl, found, ?_⟩
    rw [Nat.add_assoc offset, ← Text.byteSize_append]
    rfl
  | tag tag s read unknown ih =>
    rw [layout_tag read unknown, Layout.spans_prepend] at inside
    obtain ⟨front, back, rfl, found, rfl⟩ := ih inside
    refine ⟨tag.text ++ front, back, by rw [List.append_assoc], found, ?_⟩
    rw [Text.byteSize_append, ← Nat.add_assoc]
  | block first s found ih =>
    rw [layout_block found] at inside
    rcases List.mem_cons.mp inside with same | later
    · obtain ⟨rfl, rfl⟩ := Prod.mk.inj same
      exact ⟨[], s, rfl, found, rfl⟩
    · obtain ⟨front, back, rfl, found, rfl⟩ := ih later
      refine ⟨first.text ++ front, back, by rw [List.append_assoc], found, ?_⟩
      rw [Text.byteSize_append, ← Nat.add_assoc]
      rfl

/-- What stands at a place is what is read there. -/
theorem placedAt?_append {front : Text} (found : m.blockAt? (block.text ++ back) = some block) :
    m.placedAt? (front ++ (block.text ++ back)) (Text.byteSize front) =
      some (block, ⟨Text.byteSize front, Text.byteSize front + Text.byteSize block.text⟩) := by
  simp only [placedAt?, Text.splitAtByte_append, if_true, found, Option.map_some]

/-- The blocks of a text, placed by whichever matcher: their places are parts of the text, none of
them empty, one behind the other; there stands the text of the block, which is sound; and the block
is read again at its place. -/
theorem placed_sound (m : Matcher) (s : Text) :
    (m.placed s).map (·.1) = m.blocks s ∧
      (m.placed s).Pairwise (fun a b => a.2.stop ≤ b.2.start) ∧
      ∀ block span, (block, span) ∈ m.placed s →
        block.Sound m ∧ span.start < span.stop ∧ span.stop ≤ Text.byteSize s ∧
          (∃ front back, s = front ++ block.text ++ back ∧ span.start = Text.byteSize front ∧
            span.stop = Text.byteSize (front ++ block.text)) ∧
          Text.slice span.start span.stop s = block.text ∧ m.placedAt? s span.start = some
            (block, span) := by
  refine ⟨Layout.map_spans 0 _, Layout.pairwise_spans 0 _, fun block span inside => ?_⟩
  obtain ⟨front, back, rfl, found, rfl⟩ := mem_spans_layout inside
  simp only [Nat.zero_add]
  have pos := Text.byteSize_pos (List.ne_nil_of_length_pos block.text_length_pos)
  refine ⟨sound_of_blockAt? found, by omega, ?_, ⟨front, back, by simp, rfl, by simp⟩,
    Text.slice_append front block.text back, placedAt?_append found⟩
  simp only [Text.byteSize_append]
  omega

end Matcher

end MarkupActions
