import MarkupActions.Proofs.Bodies
import MarkupActions.Proofs.Joins

/-!
# Reading around blocks

A matcher reads a text in which parts stand that mean nothing to it, whole, stripped or cut out. It
finds the same blocks of its own in all of these, if none of them is left open in front of such a
part and no tag is torn there.
-/

namespace MarkupActions

open Code (tick)
open OpeningTag (untorn)

/-- Whether a block closes itself, or is closed behind a body in which no code is marked up. -/
def Block.isUncoded (block : Block) : Bool :=
  match block.extent with
  | .closesItself => true
  | .unclosed => false
  | .closed body _ => body.all fun c => c != tick && c != '~'

theorem Block.stays_of_isUncoded {m : Matcher} {block : Block} {s : Text}
    (inside : block ∈ m.blocks s) (uncoded : block.isUncoded = true) (x : Text) :
    block.Stays x := by
  obtain ⟨y, found⟩ := Matcher.blockAt?_of_mem_blocks inside
  obtain ⟨tag, _, matched⟩ := Option.bind_eq_some_iff.mp found
  obtain ⟨mode, _, shape⟩ := Option.map_eq_some_iff.mp matched
  obtain ⟨tag', extent⟩ := block
  obtain ⟨rfl, ends⟩ := Block.mk.inj shape
  cases extent with
  | closesItself => trivial
  | unclosed => cases uncoded
  | closed body closing =>
    simp only [Block.text, List.append_assoc, List.drop_left] at ends
    obtain ⟨_, n, back, whole, cut, length, _⟩ := extentOf_eq_closed ends
    obtain rfl := List.append_cancel_left whole
    obtain ⟨⟨_, bracket⟩, _⟩ := length?_of_take cut length
    have unmarked : ∀ c ∈ body, c ≠ tick ∧ c ≠ '~' := by
      simpa [Block.isUncoded, List.all_eq_true] using uncoded
    have level : Level body := .of_unmarked (fun inside => (unmarked _ inside).1 rfl)
      fun inside => (unmarked _ inside).2 rfl
    intro t
    rw [bracket]
    exact level.shadow false _

namespace Layout

/-- A text cut at blocks of one kind. Of the other blocks those of another kind stay where they
stand, and the rest are gone. -/
def around (off own : Block → Bool) (l : Layout Block) : Layout Block :=
  l.select off fun block => if own block then block.text else []

/-- Whether no tag is torn in front of a part, and every block that is found there keeps its end
when the parts are gone. -/
def Spaced (m : Matcher) : Layout Block → Prop
  | last _ => True
  | next gap _ rest => (untorn gap = true ∧ (m.layout gap).Remains rest.gaps) ∧ rest.Spaced m

/-- Whether the parts are blocks that a matcher finds where they stand, and those that it finds in
front of them keep their ends. -/
def Bound (m : Matcher) : Layout Block → Prop
  | last _ => True
  | next gap block rest =>
    (untorn gap = true ∧ (m.layout gap).Remains (block.text ++ rest.text Block.text) ∧
      m.blockAt? (block.text ++ rest.text Block.text) = some block) ∧ rest.Bound m

/-- Whether no tag is torn in front of a part, and no code is marked up in any block found there. -/
def uncoded (m : Matcher) : Layout Block → Bool
  | last _ => true
  | next gap _ rest => untorn gap && (m.blocks gap).all Block.isUncoded && rest.uncoded m

variable {off own : Block → Bool} {m : Matcher} {l : Layout Block}

theorem remains_of_stays {x : Text} (stays : ∀ block ∈ l.parts, ∀ y, block.Stays y) :
    l.Remains x := by
  induction l with
  | last gap => trivial
  | next gap block rest ih =>
    rw [parts, List.forall_mem_cons] at stays
    exact ⟨stays.1 _, ih stays.2⟩

theorem spaced_of_uncoded (uncoded : l.uncoded m = true) : l.Spaced m := by
  induction l with
  | last gap => trivial
  | next gap block rest ih =>
    simp only [Layout.uncoded, Bool.and_eq_true, List.all_eq_true] at uncoded
    obtain ⟨⟨whole, blocks⟩, later⟩ := uncoded
    exact ⟨⟨whole, remains_of_stays fun block inside =>
      Block.stays_of_isUncoded inside (blocks block inside)⟩, ih later⟩

theorem gaps_append {Part : Type} (l k : Layout Part) : (l.append k).gaps = l.gaps ++ k.gaps :=
  text_append l k

theorem mem_parts_around {block : Block} (inside : block ∈ (l.around off own).parts) :
    block ∈ l.parts ∧ off block = true :=
  mem_parts_select.mp inside

theorem text_around :
    (l.around off own).text Block.text =
      ((l.select (fun block => !off block) Block.text).select (fun block => !own block)
        Block.text).gaps := by
  unfold around
  induction l with
  | last gap => rfl
  | next gap block rest ih =>
    cases gone : off block with
    | true => simp [select, gone, text, ih, select_prepend]
    | false =>
      cases mine : own block with
      | true => simp [select, gone, mine, ih]
      | false => simp [select, gone, mine, ih, gaps_next]

theorem gaps_around (apart : ∀ block, own block = true → off block = false) :
    (l.around off own).gaps = (l.select (fun block => !own block) Block.text).gaps := by
  unfold around
  induction l with
  | last gap => rfl
  | next gap block rest ih =>
    cases mine : own block with
    | true => simp [select, apart block mine, mine, ih]
    | false =>
      cases gone : off block with
      | true => simp [select, gone, mine, ih, gaps_next]
      | false => simp [select, gone, mine, ih, gaps_next]

theorem gaps_select {Part : Type} {write : Part → Text} (p : Part → Bool) (l : Layout Part) :
    (l.select p write).gaps = l.text fun part => if p part then [] else write part := by
  induction l with
  | last gap => rfl
  | next gap part rest ih =>
    rw [select]
    cases chosen : p part with
    | true => rw [if_pos rfl, gaps_next, ih, text, chosen, if_pos rfl, List.append_nil]
    | false => simp [gaps_prepend, ih, text, chosen]

theorem parts_mapGaps {Part : Type} (f : Text → Text) (l : Layout Part) :
    (l.mapGaps f).parts = l.parts := by
  induction l with
  | last gap => rfl
  | next gap part rest ih => rw [Layout.mapGaps, Layout.parts, ih, Layout.parts]

theorem select_all {Part : Type} {write : Part → Text} (l : Layout Part) :
    l.select (fun _ => true) write = l := by
  induction l with
  | last gap => rfl
  | next gap part rest ih => rw [select, if_pos rfl, ih]

end Layout

/-- Whether a matcher passes over a text: it opens no block there and closes none, and no tag is
torn at its end. -/
structure Matcher.Skips (m : Matcher) (u : Text) : Prop where
  whole : untorn u = true
  opens : m.blocks u = []
  closes : ∀ name mode, m.mode? name = some mode → ClosingTag.firstEnd? name u = none

theorem Matcher.skips_nil (m : Matcher) : m.Skips [] :=
  ⟨rfl, by simp [Matcher.blocks, Matcher.layout, Layout.parts],
    fun _ _ _ => ClosingTag.firstEnd?_eq_none.mpr fun front tail split => by
      rw [(List.append_eq_nil_iff.mp split.symm).2]
      rfl⟩

namespace ClosingTag

variable {name u s : Text}

theorem firstEnd?_suffix (absent : firstEnd? name (u ++ s) = none) : firstEnd? name s = none := by
  rw [firstEnd?_eq_none] at absent ⊢
  exact fun front tail split => absent (u ++ front) tail (by rw [split, List.append_assoc])

/-- What closes nowhere in a text, and nowhere in another one, closes nowhere in both, if no tag is
torn between them. -/
theorem firstEnd?_join (plain : Text.IsPlain name) (whole : untorn u = true) {x y : Text}
    (absent : firstEnd? name (u ++ x) = none) (absent' : firstEnd? name y = none) :
    firstEnd? name (u ++ y) = none := by
  refine firstEnd?_cut (fun a b split => ?_) absent absent'
  rw [split] at whole
  exact length?_untorn plain (OpeningTag.untorn_suffix whole) _ _

end ClosingTag

namespace Layout

variable {m : Matcher} {write : Block → Text}

/-- What closes nowhere in the gaps closes nowhere in the text, if parts are written that are passed
over. -/
theorem Spaced.firstEnd?_text {name : Text} {mode : ScanMode} (plain : Text.IsPlain name)
    (known : m.mode? name = some mode) {l : Layout Block}
    (skips : ∀ block ∈ l.parts, m.Skips (write block)) (spaced : l.Spaced m)
    (absent : ClosingTag.firstEnd? name l.gaps = none) :
    ClosingTag.firstEnd? name (l.text write) = none := by
  induction l with
  | last gap => exact absent
  | next gap block rest ih =>
    obtain ⟨⟨whole, _⟩, later⟩ := spaced
    rw [parts, List.forall_mem_cons] at skips
    obtain ⟨skipped, skips⟩ := skips
    rw [gaps_next] at absent
    have behind := ih skips later (ClosingTag.firstEnd?_suffix absent)
    have quiet : ClosingTag.firstEnd? name (write block ++ []) = none := by
      rw [List.append_nil]
      exact skipped.closes name mode known
    rw [text, List.append_assoc]
    exact ClosingTag.firstEnd?_join plain whole absent
      (ClosingTag.firstEnd?_join plain skipped.whole quiet behind)

/-- Blocks keep their ends in front of another text in which nothing closes that closed nowhere. -/
theorem Remains.before {u x y : Text} {l : Layout Block} (whole : untorn u = true)
    (cut : ∃ front, u = front ++ l.text Block.text)
    (plain : ∀ block ∈ l.parts, Text.IsPlain block.name)
    (absent : ∀ block ∈ l.parts, ClosingTag.firstEnd? block.name x = none →
      ClosingTag.firstEnd? block.name y = none)
    (remains : l.Remains x) : l.Remains y := by
  induction l with
  | last gap => trivial
  | next gap block rest ih =>
    obtain ⟨front, rfl⟩ := cut
    rw [parts, List.forall_mem_cons] at plain absent
    have cut' : front ++ text Block.text (next gap block rest) =
        front ++ gap ++ block.text ++ rest.text Block.text := by
      simp [text]
    refine ⟨remains.1.before fun none => ?_, ih ⟨_, cut'⟩ plain.2 absent.2 remains.2⟩
    rw [cut'] at whole
    exact ClosingTag.firstEnd?_join plain.1 (OpeningTag.untorn_suffix whole) none
      (absent.1 (ClosingTag.firstEnd?_suffix none))

/-- Whether the parts are blocks that a matcher finds where they stand. -/
def found (m : Matcher) : Layout Block → Bool
  | last _ => true
  | next _ block rest =>
    m.blockAt? (block.text ++ rest.text Block.text) == some block && rest.found m

theorem bound_of_uncoded {l : Layout Block} (uncoded : l.uncoded m = true)
    (found : l.found m = true) : l.Bound m := by
  induction l with
  | last gap => trivial
  | next gap block rest ih =>
    simp only [Layout.uncoded, Layout.found, Bool.and_eq_true, beq_iff_eq,
      List.all_eq_true] at uncoded found
    obtain ⟨⟨whole, blocks⟩, later⟩ := uncoded
    exact ⟨⟨whole, remains_of_stays fun other inside =>
      Block.stays_of_isUncoded inside (blocks other inside), found.1⟩, ih later found.2⟩

theorem Bound.firstEnd?_gaps {name : Text} (plain : Text.IsPlain name) {l : Layout Block}
    (bound : l.Bound m) (absent : ClosingTag.firstEnd? name (l.text Block.text) = none) :
    ClosingTag.firstEnd? name l.gaps = none := by
  induction l with
  | last gap => exact absent
  | next gap block rest ih =>
    obtain ⟨⟨whole, _⟩, later⟩ := bound
    rw [text, List.append_assoc] at absent
    have behind := ClosingTag.firstEnd?_suffix (ClosingTag.firstEnd?_suffix absent)
    rw [gaps_next]
    exact ClosingTag.firstEnd?_join plain whole absent (ih later behind)

/-- Blocks that keep their ends in front of the parts keep them without these. -/
theorem Bound.spaced (plain : ∀ name mode, m.mode? name = some mode → Text.IsPlain name)
    {l : Layout Block} (bound : l.Bound m) : l.Spaced m := by
  induction l with
  | last gap => trivial
  | next gap block rest ih =>
    obtain ⟨⟨whole, remains, _⟩, later⟩ := bound
    have named : ∀ block ∈ (m.layout gap).parts, Text.IsPlain block.name := by
      intro block inside
      obtain ⟨mode, known⟩ := Matcher.mode?_of_mem_blocks inside
      exact plain _ _ known
    refine ⟨⟨whole, ?_⟩, ih later⟩
    exact remains.before whole ⟨[], (m.layout_text gap).symm⟩ named fun other inside absent =>
      later.firstEnd?_gaps (named other inside) (ClosingTag.firstEnd?_suffix absent)

end Layout

namespace Matcher

variable {m : Matcher} {l : Layout Block} {write write' : Block → Text}

/-- A text with the blocks of one kind cut out. -/
def cut (m : Matcher) (off : Block → Bool) (s : Text) : Text :=
  ((m.layout s).select off Block.text).gaps

theorem cut_all : m.cut (fun _ => true) = m.removeBlocks :=
  funext fun s => congrArg Layout.gaps (Layout.select_all (m.layout s))

theorem layout_next (plain : ∀ name mode, m.mode? name = some mode → Text.IsPlain name)
    {gap : Text} {part : Block} {rest : Layout Block} (skips : m.Skips (write part))
    (skips' : ∀ part ∈ rest.parts, m.Skips (write part))
    (spaced : (Layout.next gap part rest).Spaced m) :
    m.layout ((Layout.next gap part rest).text write) =
      (m.layout gap).append ((m.layout (rest.text write)).prepend (write part)) := by
  obtain ⟨⟨whole, remains⟩, later⟩ := spaced
  have known : ∀ block ∈ (m.layout gap).parts, ∃ mode, m.mode? block.name = some mode :=
    fun block inside => mode?_of_mem_blocks inside
  have remains' : (m.layout gap).Remains (write part ++ rest.text write) := by
    refine remains.before whole ⟨[], (m.layout_text gap).symm⟩ (fun block inside => ?_)
      fun block inside absent => ?_
    · obtain ⟨mode, known⟩ := known block inside
      exact plain _ _ known
    · obtain ⟨mode, known⟩ := known block inside
      have quiet : ClosingTag.firstEnd? block.name (write part ++ []) = none := by
        rw [List.append_nil]
        exact skips.closes _ _ known
      exact ClosingTag.firstEnd?_join (plain _ _ known) skips.whole quiet
        (later.firstEnd?_text (plain _ _ known) known skips' absent)
  rw [Layout.text, List.append_assoc, layout_join plain whole remains',
    layout_pass plain skips.whole skips.opens]

/-- A matcher finds the same blocks however parts are written that it passes over. -/
theorem blocks_spaced (plain : ∀ name mode, m.mode? name = some mode → Text.IsPlain name)
    (skips : ∀ block ∈ l.parts, m.Skips (write block))
    (skips' : ∀ block ∈ l.parts, m.Skips (write' block)) (spaced : l.Spaced m) :
    m.blocks (l.text write) = m.blocks (l.text write') := by
  induction l with
  | last gap => rfl
  | next gap block rest ih =>
    rw [Layout.parts, List.forall_mem_cons] at skips skips'
    have later := ih skips.2 skips'.2 spaced.2
    unfold blocks at later ⊢
    rw [layout_next plain skips.1 skips.2 spaced, layout_next plain skips'.1 skips'.2 spaced]
    rw [Layout.parts_append, Layout.parts_append, Layout.parts_prepend, Layout.parts_prepend, later]

/-- What it leaves of a text, if it cuts some of its blocks out, it leaves around these parts. -/
theorem cut_spaced (plain : ∀ name mode, m.mode? name = some mode → Text.IsPlain name)
    (skips : ∀ block ∈ l.parts, m.Skips (write block)) (spaced : l.Spaced m)
    (off : Block → Bool) : m.cut off (l.text write) = (l.mapGaps (m.cut off)).text write := by
  induction l with
  | last gap => rfl
  | next gap block rest ih =>
    rw [Layout.parts, List.forall_mem_cons] at skips
    have later := ih skips.2 spaced.2
    rw [cut, layout_next plain skips.1 skips.2 spaced, Layout.select_append, Layout.gaps_append,
      Layout.select_prepend, Layout.gaps_prepend, ← cut, ← cut, later, Layout.mapGaps, Layout.text,
      List.append_assoc]

/-- With blocks that it finds there it cuts them out too. -/
theorem cut_bound (plain : ∀ name mode, m.mode? name = some mode → Text.IsPlain name)
    {off : Block → Bool} (all : ∀ block ∈ l.parts, off block = true) (bound : l.Bound m) :
    m.cut off (l.text Block.text) = m.cut off l.gaps := by
  have without : m.cut off l.gaps = (l.mapGaps (m.cut off)).gaps :=
    @cut_spaced _ _ (fun _ => []) plain (fun _ _ => m.skips_nil) (bound.spaced plain) off
  rw [without]
  clear without
  induction l with
  | last gap => rfl
  | next gap block rest ih =>
    obtain ⟨⟨whole, remains, found⟩, later⟩ := bound
    rw [Layout.parts, List.forall_mem_cons] at all
    have behind := ih all.2 later
    have with' : m.layout ((Layout.next gap block rest).text Block.text) =
        (m.layout gap).append (.next [] block (m.layout (rest.text Block.text))) := by
      rw [Layout.text, List.append_assoc, layout_join plain whole remains, layout_block found]
    rw [cut, with', Layout.select_append, Layout.gaps_append, Layout.select, if_pos all.1,
      Layout.gaps_next, List.nil_append, ← cut, ← cut, behind, Layout.mapGaps, Layout.gaps_next]

end Matcher

end MarkupActions
