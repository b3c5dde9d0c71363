import MarkupActions.Block.Extent
import MarkupActions.Proofs.Texts

/-!
# Layouts and the texts they cut

Layouts are joined end to end: the last gap of one runs into the first gap of the next. What is said
here about selecting parts and changing gaps is said of any parts; that a matcher's layout writes
back the text it was made from is all that is asserted of blocks.
-/

namespace MarkupActions

namespace Layout

variable {Part : Type} {write : Part → Text}

def append : Layout Part → Layout Part → Layout Part
  | last gap, m => m.prepend gap
  | next gap part rest, m => next gap part (rest.append m)

@[simp] theorem prepend_last (a gap : Text) :
    (last gap : Layout Part).prepend a = last (a ++ gap) := rfl

@[simp] theorem prepend_next (a gap : Text) (part : Part) (rest : Layout Part) :
    (next gap part rest).prepend a = next (a ++ gap) part rest := rfl

@[simp] theorem prepend_nil (l : Layout Part) : l.prepend [] = l := by
  cases l with
  | last gap => rfl
  | next gap part rest => rfl

@[simp] theorem prepend_prepend (a b : Text) (l : Layout Part) :
    (l.prepend b).prepend a = l.prepend (a ++ b) := by
  cases l with
  | last gap => simp
  | next gap part rest => simp

@[simp] theorem parts_prepend (a : Text) (l : Layout Part) : (l.prepend a).parts = l.parts := by
  cases l with
  | last gap => rfl
  | next gap part rest => rfl

@[simp] theorem text_prepend (a : Text) (l : Layout Part) :
    (l.prepend a).text write = a ++ l.text write := by
  cases l with
  | last gap => rfl
  | next gap part rest => simp [text]

@[simp] theorem gaps_prepend (a : Text) (l : Layout Part) : (l.prepend a).gaps = a ++ l.gaps :=
  text_prepend a l

theorem select_prepend (p : Part → Bool) (a : Text) (l : Layout Part) :
    (l.prepend a).select p write = (l.select p write).prepend a := by
  cases l with
  | last gap => rfl
  | next gap part rest =>
    by_cases chosen : p part
    · simp [select, chosen]
    · simp [select, chosen]

theorem prepend_append (a : Text) (l m : Layout Part) :
    (l.prepend a).append m = (l.append m).prepend a := by
  cases l with
  | last gap => simp [append]
  | next gap part rest => simp [append]

theorem select_append (p : Part → Bool) (l m : Layout Part) :
    (l.append m).select p write = (l.select p write).append (m.select p write) := by
  induction l with
  | last gap => simp [append, select, select_prepend]
  | next gap part rest ih =>
    by_cases chosen : p part
    · simp [append, select, chosen, ih]
    · simp [append, select, chosen, ih, prepend_append]

theorem text_select (p : Part → Bool) (l : Layout Part) :
    (l.select p write).text write = l.text write := by
  induction l with
  | last gap => rfl
  | next gap part rest ih =>
    by_cases chosen : p part
    · simp [select, text, chosen, ih]
    · simp [select, text, chosen, ih]

theorem mem_parts_select {p : Part → Bool} {l : Layout Part} {part : Part} :
    part ∈ (l.select p write).parts ↔ part ∈ l.parts ∧ p part = true := by
  induction l with
  | last gap => simp [select, parts]
  | next gap q rest ih =>
    by_cases chosen : p q
    · simp only [select, chosen, if_true, parts, List.mem_cons, ih]
      constructor
      · rintro (rfl | ⟨inside, holds⟩)
        · exact ⟨.inl rfl, chosen⟩
        · exact ⟨.inr inside, holds⟩
      · rintro ⟨rfl | inside, holds⟩
        · exact .inl rfl
        · exact .inr ⟨inside, holds⟩
    · simp only [select, chosen, Bool.false_eq_true, if_false, parts_prepend, ih, parts,
        List.mem_cons]
      constructor
      · rintro ⟨inside, holds⟩
        exact ⟨.inr inside, holds⟩
      · rintro ⟨rfl | inside, holds⟩
        · exact False.elim (chosen holds)
        · exact ⟨inside, holds⟩

theorem text_append (l m : Layout Part) :
    (l.append m).text write = l.text write ++ m.text write := by
  induction l with
  | last gap => simp [append, text]
  | next gap part rest ih => simp [append, text, ih]

theorem gaps_next (gap : Text) (part : Part) (rest : Layout Part) :
    (next gap part rest).gaps = gap ++ rest.gaps := by
  simp [gaps, text]

theorem parts_append (l m : Layout Part) : (l.append m).parts = l.parts ++ m.parts := by
  induction l with
  | last gap => simp [append, parts]
  | next gap part rest ih => simp [append, parts, ih]

theorem mem_of_mem_gaps {c : Char} {l : Layout Part} (inside : c ∈ l.gaps) :
    c ∈ l.text write := by
  induction l with
  | last gap => exact inside
  | next gap part rest ih =>
    rw [gaps_next] at inside
    rcases List.mem_append.mp inside with here | later
    · simp [text, here]
    · simp [text, ih later]

/-- Without parts a text is one gap. -/
theorem gaps_of_parts_nil {l : Layout Part} (empty : l.parts = []) : l.gaps = l.text write := by
  cases l with
  | last gap => rfl
  | next gap part rest => simp [parts] at empty

end Layout

namespace OpeningTag

theorem attributes?_split {quote : Option Char} {s found : Text}
    (read : attributes? quote s = some found) : ∃ rest, s = found ++ '>' :: rest := by
  induction s generalizing quote found with
  | nil => cases quote <;> simp [attributes?] at read
  | cons c s ih =>
    cases quote with
    | some q =>
      simp only [attributes?, Option.map_eq_some_iff] at read
      obtain ⟨tail, inner, rfl⟩ := read
      obtain ⟨rest, rfl⟩ := ih inner
      exact ⟨rest, rfl⟩
    | none =>
      by_cases closes : c = '>'
      · simp only [attributes?, closes, if_true, Option.some.injEq] at read
        exact ⟨s, by simp [closes, ← read]⟩
      · by_cases opens : c = '<'
        · simp [attributes?, opens] at read
        · simp only [attributes?, closes, opens, if_false, Option.map_eq_some_iff] at read
          obtain ⟨tail, inner, rfl⟩ := read
          obtain ⟨rest, rfl⟩ := ih inner
          exact ⟨rest, rfl⟩

/-- A tag that is read stands at the head of the text. Its name begins with a letter and ends where
its attributes begin, and these end with it. -/
theorem inv_read? {s : Text} {tag : OpeningTag} (read : read? s = some tag) :
    ∃ rest, s = tag.text ++ rest ∧
      (∃ c name, tag.name = c :: name ∧ c.isAlpha = true ∧ ∀ d ∈ name, Text.isNameChar d = true) ∧
      attributes? none (tag.attributes ++ '>' :: rest) = some tag.attributes ∧
      (tag.attributes ++ '>' :: rest).head?.any Text.isNameChar = false := by
  unfold read? at read
  split at read
  · rename_i c s
    split at read
    · rename_i letter
      obtain ⟨attributes, ends, rfl⟩ := Option.map_eq_some_iff.mp read
      obtain ⟨rest, split⟩ := attributes?_split ends
      have whole := List.takeWhile_append_dropWhile (p := Text.isNameChar) (l := s)
      have stop := Text.head_dropWhile (p := Text.isNameChar) s
      rw [split] at whole stop ends
      refine ⟨rest, ?_, ⟨c, _, rfl, letter, fun d inside =>
        List.all_eq_true.mp List.all_takeWhile d inside⟩, ends, stop⟩
      simp only [text, List.cons_append, List.append_assoc, List.nil_append, whole]
    · cases read
  · cases read

theorem read?_split {s : Text} {tag : OpeningTag} (read : read? s = some tag) :
    ∃ rest, s = tag.text ++ rest := by
  obtain ⟨rest, whole, _⟩ := inv_read? read
  exact ⟨rest, whole⟩

/-- What is read of a tag and a text after it. -/
theorem inv_read?_text {tag : OpeningTag} {s : Text} (read : read? (tag.text ++ s) = some tag) :
    attributes? none (tag.attributes ++ '>' :: s) = some tag.attributes ∧
      (tag.attributes ++ '>' :: s).head?.any Text.isNameChar = false := by
  obtain ⟨rest, whole, _, ends, stop⟩ := inv_read? read
  obtain rfl := List.append_cancel_left whole
  exact ⟨ends, stop⟩

theorem text_length_pos (tag : OpeningTag) : 0 < tag.text.length := by
  simp [text]

/-- At a name a tag opens if its attributes end. -/
theorem read?_name {c : Char} {name s : Text} (letter : c.isAlpha = true)
    (letters : ∀ d ∈ name, Text.isNameChar d = true) (stop : s.head?.any Text.isNameChar = false) :
    read? ('<' :: (c :: name ++ s)) = (attributes? none s).map (⟨c :: name, ·⟩) := by
  rw [List.cons_append, read?, if_pos letter, Text.takeWhile_exact letters stop,
    Text.dropWhile_exact letters stop]

/-- A tag is read back if its attributes part from its name and are read back. -/
theorem read?_text {tag : OpeningTag} {c d : Char} {name rest s : Text}
    (shape : tag.name = c :: name)
    (letter : c.isAlpha = true) (letters : ∀ e ∈ name, Text.isNameChar e = true)
    (parts : tag.attributes ++ '>' :: s = d :: rest) (stop : Text.isNameChar d = false)
    (ends : attributes? none (tag.attributes ++ '>' :: s) = some tag.attributes) :
    read? (tag.text ++ s) = some tag := by
  have whole : tag.text ++ s = '<' :: (c :: name ++ d :: rest) := by
    rw [← parts]
    simp [text, shape]
  rw [whole, read?_name letter letters (by simpa using stop), ← parts, ends, ← shape]
  rfl

theorem read?_of_ne {c : Char} (other : c ≠ '<') (s : Text) : read? (c :: s) = none := by
  unfold read?
  split
  · rename_i whole
    exact False.elim (other (List.cons.inj whole).1)
  · rfl

end OpeningTag

theorem Block.text_length_pos (block : Block) : 0 < block.text.length := by
  have tag := block.tag.text_length_pos
  unfold Block.text
  split
  · simp only [List.length_append]
    omega
  · exact tag

namespace Matcher

theorem blockOf?_tag {m : Matcher} {tag : OpeningTag} {s : Text} {block : Block}
    (found : m.blockOf? tag s = some block) : block.tag = tag := by
  simp only [blockOf?, Option.map_eq_some_iff] at found
  obtain ⟨mode, _, rfl⟩ := found
  rfl

/-- A block that is found stands at the head of the text. -/
theorem blockOf?_split {m : Matcher} {tag : OpeningTag} {s rest : Text} {block : Block}
    (head : s = tag.text ++ rest) (found : m.blockOf? tag s = some block) :
    ∃ tail, s = block.text ++ tail := by
  simp only [blockOf?, Option.map_eq_some_iff] at found
  obtain ⟨mode, _, rfl⟩ := found
  subst head
  simp only [List.drop_left]
  unfold extentOf
  split
  · exact ⟨rest, rfl⟩
  · split
    · exact ⟨rest, rfl⟩
    · rename_i pos n _
      by_cases again : mode = .structural ∧ opensAgain tag.key (rest.take pos) = true
      · exact ⟨rest, by simp [Block.text, again]⟩
      · refine ⟨rest.drop (pos + n), ?_⟩
        simp only [Block.text, again, if_false, List.append_assoc]
        rw [← List.append_assoc (rest.take pos), ← List.take_add, List.take_append_drop]

theorem blockAt?_split {m : Matcher} {s : Text} {block : Block}
    (found : m.blockAt? s = some block) :
    ∃ tail, s = block.text ++ tail := by
  obtain ⟨tag, read, matched⟩ := Option.bind_eq_some_iff.mp found
  obtain ⟨rest, head⟩ := OpeningTag.read?_split read
  exact blockOf?_split head matched

theorem layout_cons {m : Matcher} {c : Char} {s : Text}
    (unread : OpeningTag.read? (c :: s) = none) :
    m.layout (c :: s) = (m.layout s).prepend [c] := by
  rw [layout, unread]

theorem layout_tag {m : Matcher} {tag : OpeningTag} {s : Text}
    (read : OpeningTag.read? (tag.text ++ s) = some tag)
    (unknown : m.mode? tag.key = none) :
    m.layout (tag.text ++ s) = (m.layout s).prepend tag.text := by
  obtain ⟨c, front, whole⟩ := List.exists_cons_of_length_pos tag.text_length_pos
  have other : m.blockOf? tag (tag.text ++ s) = none := by simp [blockOf?, unknown]
  rw [whole, List.cons_append] at read other ⊢
  rw [layout, read]
  simp only [other, whole, List.length_cons, Nat.add_sub_cancel, List.drop_left]

theorem layout_block {m : Matcher} {block : Block} {s : Text}
    (found : m.blockAt? (block.text ++ s) = some block) :
    m.layout (block.text ++ s) = .next [] block (m.layout s) := by
  obtain ⟨tag, read, matched⟩ := Option.bind_eq_some_iff.mp found
  obtain ⟨c, front, whole⟩ := List.exists_cons_of_length_pos block.text_length_pos
  rw [whole, List.cons_append] at read matched ⊢
  rw [layout, read]
  simp only [matched, whole, List.length_cons, Nat.add_sub_cancel, List.drop_left]

/-- Induction along a layout: it goes on character by character, past a tag that is not looked for,
and past a block at once. -/
theorem layout_induct (m : Matcher) {motive : Text → Prop} (nil : motive [])
    (keep : ∀ c s, OpeningTag.read? (c :: s) = none → motive s → motive (c :: s))
    (tag : ∀ tag s, OpeningTag.read? (tag.text ++ s) = some tag → m.mode? tag.key = none →
      motive s →
      motive (tag.text ++ s))
    (block : ∀ block s, m.blockAt? (Block.text block ++ s) = some block → motive s →
      motive (block.text ++ s))
    (s : Text) : motive s := by
  induction s using layout.induct m with
  | case1 => exact nil
  | case2 c s unread ih => exact keep c s unread ih
  | case3 c s opening read found matched ih =>
    have here : m.blockAt? (c :: s) = some found := by
      rw [blockAt?, read, Option.bind_some, matched]
    obtain ⟨rest, whole⟩ := blockAt?_split here
    rw [Text.drop_front whole found.text_length_pos] at ih
    rw [whole] at here ⊢
    exact block found rest here ih
  | case4 c s opening read other ih =>
    obtain ⟨rest, whole⟩ := OpeningTag.read?_split read
    have unknown : m.mode? opening.key = none := Option.map_eq_none_iff.mp other
    rw [Text.drop_front whole opening.text_length_pos] at ih
    rw [whole] at read ⊢
    exact tag opening rest read unknown ih

/-- A layout writes back the text that it was made from. -/
theorem layout_text (m : Matcher) (s : Text) : (m.layout s).text Block.text = s := by
  induction s using layout_induct m with
  | nil => rw [layout, Layout.text]
  | keep c s unread ih =>
    rw [layout_cons unread, Layout.text_prepend, ih]
    rfl
  | tag tag s read unknown ih => rw [layout_tag read unknown, Layout.text_prepend, ih]
  | block block s found ih =>
    rw [layout_block found, Layout.text, ih]
    rfl

/-- Before the first angle bracket nothing is cut. -/
theorem layout_prose {m : Matcher} {v : Text} (tags : '<' ∉ v) (s : Text) :
    m.layout (v ++ s) = (m.layout s).prepend v := by
  induction v with
  | nil => simp
  | cons c v ih =>
    simp only [List.mem_cons, not_or] at tags
    rw [List.cons_append, layout_cons (OpeningTag.read?_of_ne (Ne.symm tags.1) _), ih tags.2]
    simp

/-- A block of a text is read as itself where it stands. -/
theorem blockAt?_of_mem_blocks {m : Matcher} {s : Text} {block : Block}
    (inside : block ∈ m.blocks s) :
    ∃ rest, m.blockAt? (block.text ++ rest) = some block := by
  unfold blocks at inside
  induction s using layout_induct m with
  | nil => simp [layout, Layout.parts] at inside
  | keep c s unread ih =>
    rw [layout_cons unread, Layout.parts_prepend] at inside
    exact ih inside
  | tag tag s read unknown ih =>
    rw [layout_tag read unknown, Layout.parts_prepend] at inside
    exact ih inside
  | block first s found ih =>
    rw [layout_block found, Layout.parts, List.mem_cons] at inside
    rcases inside with rfl | later
    · exact ⟨s, found⟩
    · exact ih later

/-- A block that is read is one of the matcher's own. -/
theorem mode?_of_blockAt? {m : Matcher} {s : Text} {block : Block}
    (found : m.blockAt? s = some block) :
    ∃ mode, m.mode? block.name = some mode := by
  obtain ⟨tag, _, matched⟩ := Option.bind_eq_some_iff.mp found
  obtain ⟨mode, known, _⟩ := Option.map_eq_some_iff.mp matched
  rw [← blockOf?_tag matched] at known
  exact ⟨mode, known⟩

/-- The blocks of a text are the matcher's own. -/
theorem mode?_of_mem_blocks {m : Matcher} {s : Text} {block : Block} (inside : block ∈ m.blocks s) :
    ∃ mode, m.mode? block.name = some mode := by
  obtain ⟨rest, found⟩ := blockAt?_of_mem_blocks inside
  exact mode?_of_blockAt? found

/-- Another matcher cuts a text alike if it knows the blocks that are found, and no other names. -/
theorem layout_congr {m m' : Matcher} {s : Text}
    (found : ∀ block ∈ m.blocks s, m'.mode? block.name = m.mode? block.name)
    (fewer : ∀ name, m.mode? name = none → m'.mode? name = none) : m'.layout s = m.layout s := by
  unfold blocks at found
  induction s using layout_induct m with
  | nil => simp [layout]
  | keep c s unread ih =>
    rw [layout_cons unread, Layout.parts_prepend] at found
    rw [layout_cons unread, layout_cons unread, ih found]
  | tag tag s read unknown ih =>
    rw [layout_tag read unknown, Layout.parts_prepend] at found
    rw [layout_tag read unknown, layout_tag read (fewer _ unknown), ih found]
  | block block s here ih =>
    rw [layout_block here, Layout.parts, List.forall_mem_cons] at found
    obtain ⟨known, later⟩ := found
    have here' : m'.blockAt? (block.text ++ s) = some block := by
      obtain ⟨tag, read, matched⟩ := Option.bind_eq_some_iff.mp here
      obtain rfl := blockOf?_tag matched
      rw [blockAt?, read, Option.bind_some, ← matched, blockOf?, blockOf?, ← Block.name, known]
    rw [layout_block here, layout_block here', ih later]

theorem mode?_add (mode : ScanMode) (m : Matcher) (name key : Text) :
    (m.add mode name).mode? key = (m.mode? key).or
    (if key = Text.lower name then some mode else none) := by
  unfold add
  by_cases known : (m.mode? (Text.lower name)).isSome
  · by_cases same : key = Text.lower name
    · subst same
      obtain ⟨old, held⟩ := Option.isSome_iff_exists.mp known
      simp [held]
    · simp [known, same]
  · rw [if_neg known]
    simp only [mode?, Option.not_isSome_iff_eq_none, List.lookup_append] at known ⊢
    by_cases same : key = Text.lower name
    · subst same
      simp [known]
    · have other : (key == Text.lower name) = false := by simpa using same
      simp [same, List.lookup_cons, other]

theorem mode?_addAll (mode : ScanMode) (m : Matcher) (names : List Text) (key : Text) :
    (m.addAll names mode).mode? key =
      (m.mode? key).or (if key ∈ names.map Text.lower then some mode else none) := by
  unfold addAll
  induction names generalizing m with
  | nil => simp
  | cons name names ih =>
    rw [List.foldl_cons, ih, mode?_add, Option.or_assoc]
    congr 1
    by_cases same : key = Text.lower name
    · simp [same]
    · simp [same]

/-- A matcher of some names knows these in the one mode, and no others. -/
theorem mode?_of (mode : ScanMode) (names : List Text) (key : Text) :
    (Matcher.of mode names).mode? key = if key ∈ names.map Text.lower then some mode else none := by
  rw [Matcher.of, mode?_addAll]
  rfl

end Matcher

end MarkupActions
