import MarkupActions.Proofs.Cuts
import MarkupActions.Proofs.Kinds
import MarkupActions.Proofs.Placing
import MarkupActions.Proofs.Reading
import MarkupActions.Proofs.Tables

/-!
# What a family sees of a text

A family that bears content reads a text from which the content blocks of the others have been cut.
Cutting joins what stood around a block, so it may put together a tag from two pieces, or bring a
backtick behind a closing tag that pairs with one before it. Where no tag is torn and every block of
the family ends where it ends whatever follows, the family finds in its view the very blocks that
are its own in the whole text.
-/

namespace MarkupActions

open Code (tick)
open OpeningTag (untorn)

/-- Whether a block in front of `rest` ends where it does whatever is cut out behind it: the closing
tag of a closed one is bare in front of any text, and behind one that is left open no tag of its
name closes. -/
def Block.Stays (block : Block) (rest : Text) : Prop :=
  match block.extent with
  | .closesItself => True
  | .unclosed => ClosingTag.firstEnd? block.name rest = none
  | .closed body closing => ∀ t, Code.shadow false (body ++ (closing ++ t)) body.length = none

/-- Whether a block ends where it does in front of `rest`. -/
def Block.EndsBefore (block : Block) (rest : Text) : Prop :=
  match block.extent with
  | .closesItself => True
  | .unclosed => ClosingTag.firstEnd? block.name rest = none
  | .closed body closing => Code.shadow false (body ++ (closing ++ rest)) body.length = none

theorem Block.Stays.ends {block : Block} {x : Text} (stays : block.Stays x) :
    block.EndsBefore x := by
  obtain ⟨tag, extent⟩ := block
  cases extent with
  | closesItself => trivial
  | unclosed => exact stays
  | closed body closing => exact stays x

theorem Block.Stays.before {block : Block} {x y : Text} (stays : block.Stays x)
    (absent : ClosingTag.firstEnd? block.name x = none → ClosingTag.firstEnd? block.name y = none) :
    block.Stays y := by
  obtain ⟨tag, extent⟩ := block
  cases extent with
  | closesItself => trivial
  | unclosed => exact absent stays
  | closed body closing => exact stays

namespace Layout

/-- Whether no tag is torn in front of a block, and all of one's own blocks stay as they are. -/
def Separable (own : Block → Bool) : Layout Block → Prop
  | last _ => True
  | next gap block rest =>
    untorn gap = true ∧ (own block = true → block.Stays (rest.text Block.text)) ∧ rest.Separable own

theorem Separable.of_prepend {own : Block → Bool} {a : Text} {layout : Layout Block}
    (separable : (layout.prepend a).Separable own) : layout.Separable own := by
  cases layout with
  | last gap => trivial
  | next gap block rest => exact ⟨OpeningTag.untorn_suffix separable.1, separable.2⟩

end Layout

namespace Registry

variable {family : Family}

@[simp] theorem view_last (gap : Text) : view (.last gap) family = gap := rfl

theorem view_prepend (a : Text) (layout : Layout Block) :
    view (layout.prepend a) family = a ++ view layout family := by
  rw [view, Layout.select_prepend, Layout.gaps_prepend]
  rfl

/-- Of the blocks in a text a family sees its own. -/
theorem view_next (gap : Text) (block : Block) (rest : Layout Block) :
    view (.next gap block rest) family = gap ++
      ((if family.owns block.name then block.text else []) ++ view rest family) := by
  cases own : family.owns block.name with
  | true => simp [view, Layout.select, own, Layout.gaps_prepend]
  | false => simp [view, Layout.select, own, Layout.gaps, Layout.text]

end Registry

/-- Whether a place is covered depends on what code covers it and on the hunks before it. -/
theorem shadow_congr {mode : ScanMode} {s t : Text} {p : Nat}
    (code : Code.shadow false s p = Code.shadow false t p) (front : s.take p = t.take p) :
    (shadow mode s p).isSome = (shadow mode t p).isSome := by
  have hunk : (Hunk.shadow s p).isSome = (Hunk.shadow t p).isSome := by
    simp only [Hunk.shadow, front]
    split <;> rfl
  unfold shadow
  rw [code]
  cases Code.shadow false t p with
  | some stop => rfl
  | none =>
    cases mode with
    | content => exact hunk
    | structural => rfl

theorem code_shadow_of_bare {mode : ScanMode} {s : Text} {p : Nat} (bare : shadow mode s p = none) :
    Code.shadow false s p = none := by
  unfold shadow at bare
  cases covered : Code.shadow false s p with
  | none => rfl
  | some stop =>
    rw [covered] at bare
    cases bare

/-- A closed block ends in front of another text where it ended, if code does not cover its closing
tag there. -/
theorem extentOf_stays {mode : ScanMode} {tag : OpeningTag} {body closing x y : Text}
    (plain : Text.IsPlain tag.key)
    (found : extentOf mode tag (body ++ (closing ++ x)) = .closed body closing)
    (bare : Code.shadow false (body ++ (closing ++ y)) body.length = none) :
    extentOf mode tag (body ++ (closing ++ y)) = .closed body closing := by
  obtain ⟨open', n, back, whole, cut, length, closes⟩ := extentOf_eq_closed found
  obtain rfl := List.append_cancel_left whole
  obtain ⟨⟨_, shape⟩, rfl, closing'⟩ := length?_of_take cut length
  obtain ⟨w, bracket⟩ : ∃ w, closing = '<' :: w := ⟨_, shape⟩
  have sees := seesTags_length? tag.key
  have bareHere := (closing?_at closes).2
  have code := code_shadow_of_bare bareHere
  have alike : ∀ p ≤ body.length, (shadow mode (body ++ (closing ++ x)) p).isSome =
      (shadow mode (body ++ (closing ++ y)) p).isSome := by
    intro p before
    rw [bracket] at code bare ⊢
    refine shadow_congr (Code.shadow_agree code bare before) ?_
    rw [List.take_append_of_le_length before, List.take_append_of_le_length before]
  have place : closing? mode (ClosingTag.length? tag.key) (body ++ (closing ++ y)) =
      some (body.length, closing.length) := by
    refine closing?_of_earlier sees rfl (closing' y) ?_ fun a b m split closes' before => ?_
    · have same := alike body.length (Nat.le_refl _)
      rwa [bareHere, Option.isSome_none, eq_comm, Option.isSome_eq_false_iff,
        Option.isNone_iff_eq_none] at same
    · rcases List.append_eq_append_iff.mp split with ⟨k, rfl, _⟩ | ⟨k, rfl, rfl⟩
      · rw [List.length_append] at before
        omega
      · cases k with
        | nil => simp at before
        | cons c k =>
          obtain ⟨t, head⟩ := sees _ m closes'
          obtain rfl := (List.cons.inj head).1
          have same := ClosingTag.length?_cut (u := k ++ closing) plain
            (.inl (by rw [bracket]; simp)) y x
          simp only [List.append_assoc, List.cons_append] at same closes'
          rw [same] at closes'
          rw [← alike _ (Nat.le_of_lt before)]
          exact closing?_earlier sees closes (List.append_assoc a ('<' :: k) _) closes' before
  have once : (mode = .structural ∧ opensAgain tag.key body = true) = False := by
    refine eq_false ?_
    rintro ⟨rfl, again⟩
    rw [not_opensAgain_of_extentOf found] at again
    cases again
  simp only [extentOf, open', place, Bool.false_eq_true, if_false, List.take_left, List.drop_left,
    once]

/-- A block of a text is read as itself before any other text that leaves its end in place. -/
theorem blockAt?_ends {m m' : Matcher} {block : Block} {x y : Text}
    (plain : Text.IsPlain block.name) (found : m.blockAt? (block.text ++ x) = some block)
    (mode : m'.mode? block.name = m.mode? block.name) (stays : block.EndsBefore y) :
    m'.blockAt? (block.text ++ y) = some block := by
  obtain ⟨tag, read, matched⟩ := Option.bind_eq_some_iff.mp found
  obtain ⟨mode', known, shape⟩ := Option.map_eq_some_iff.mp matched
  obtain ⟨tag', extent⟩ := block
  obtain ⟨rfl, ends⟩ := Block.mk.inj shape
  simp only [Block.name] at mode plain
  rw [known] at mode
  cases extent with
  | closesItself =>
    simp only [Block.text] at read ends ⊢
    have closes := extentOf_eq_closesItself.mp ends
    rw [Matcher.blockAt?, OpeningTag.read?_cut read y, Option.bind_some, Matcher.blockOf?, mode,
      Option.map_some, extentOf, closes]
    rfl
  | unclosed =>
    simp only [Block.text, List.drop_left] at read ends ⊢
    have slash : tag.closesItself = false := by
      cases slash : tag.closesItself with
      | false => rfl
      | true => simp [extentOf, slash] at ends
    have never := (@ClosingTag.firstEnd?_eq_none tag.key _).mp stays
    have open' : closing? mode' (ClosingTag.length? tag.key) y = none :=
      closing?_of_covered fun front tail n whole closes => by
        rw [never front tail whole] at closes
        cases closes
    rw [Matcher.blockAt?, OpeningTag.read?_cut read y, Option.bind_some, Matcher.blockOf?, mode,
      List.drop_left, Option.map_some, extentOf, slash, open']
    rfl
  | closed body closing =>
    simp only [Block.text, List.append_assoc, List.drop_left] at read ends ⊢
    rw [Matcher.blockAt?, OpeningTag.read?_cut read, Option.bind_some, Matcher.blockOf?, mode,
      List.drop_left, Option.map_some, extentOf_stays plain ends stays]

/-- A closed block whose body ends with a row stays as it is. -/
theorem stays_of_rows {m : Matcher} {tag : OpeningTag} {body closing x : Text}
    (mode : m.mode? tag.key = some .content)
    (found : m.blockAt? ((Block.mk tag (.closed (body ++ ['\n']) closing)).text ++ x) =
      some ⟨tag, .closed (body ++ ['\n']) closing⟩) :
    (Block.mk tag (.closed (body ++ ['\n']) closing)).Stays x := by
  intro t
  obtain ⟨tag', _, matched⟩ := Option.bind_eq_some_iff.mp found
  obtain ⟨mode', known, shape⟩ := Option.map_eq_some_iff.mp matched
  obtain ⟨rfl, ends⟩ := Block.mk.inj shape
  rw [mode] at known
  obtain rfl := Option.some.inj known
  simp only [Block.text, List.append_assoc, List.drop_left] at ends
  rw [← List.append_assoc body] at ends
  obtain ⟨_, n, back, whole, cut, length, closes⟩ := extentOf_eq_closed ends
  obtain rfl := List.append_cancel_left whole
  obtain ⟨⟨_, bracket⟩, _⟩ := length?_of_take cut length
  have more : ∀ y, closing ++ y ≠ [] := by
    intro y
    rw [bracket]
    simp
  have bare := (shadow_content_eq_none.mp (closing?_at closes).2).1
  rw [List.append_assoc, List.length_append] at bare ⊢
  exact Code.shadow_newline (more x) (more t) bare

namespace ClosingTag

variable {name : Text}

/-- Where each closing tag is told before the end of a text, none is made by another text behind it.
-/
theorem firstEnd?_cut {u x y : Text}
    (told : ∀ a b, u = a ++ '<' :: b → length? name ('<' :: (b ++ x)) =
      length? name ('<' :: (b ++ y)))
    (absent : firstEnd? name (u ++ x) = none) (absent' : firstEnd? name y = none) :
    firstEnd? name (u ++ y) = none := by
  rw [firstEnd?_eq_none] at absent absent' ⊢
  intro front tail whole
  rcases List.append_eq_append_iff.mp whole with ⟨k, rfl, rest⟩ | ⟨k, rfl, rfl⟩
  · exact absent' k tail rest
  · cases k with
    | nil => exact absent' [] y rfl
    | cons c k =>
      by_cases bracket : c = '<'
      · subst bracket
        have same := told front k rfl
        rw [List.cons_append, ← same]
        exact absent front _ (by simp)
      · exact length?_of_ne bracket _

end ClosingTag

/-- What closes nowhere in a text closes nowhere in a view of it. -/
theorem firstEnd?_view {family : Family} {name : Text} (plain : Text.IsPlain name)
    {layout : Layout Block}
    (separable : layout.Separable fun block => family.owns block.name)
    (ends : ∀ block ∈ layout.parts, ∃ u, block.text = u ++ ['>'])
    (absent : ClosingTag.firstEnd? name (layout.text Block.text) = none) :
    ClosingTag.firstEnd? name (Registry.view layout family) = none := by
  induction layout with
  | last gap => exact absent
  | next gap block rest ih =>
    obtain ⟨whole, _, later⟩ := separable
    have behind : ∀ u s, ClosingTag.firstEnd? name (u ++ s) = none →
      ClosingTag.firstEnd? name s = none := by
      intro u s none
      rw [ClosingTag.firstEnd?_eq_none] at none ⊢
      exact fun front tail split => none (u ++ front) tail (by rw [split, List.append_assoc])
    rw [Layout.text, List.append_assoc] at absent
    have absent' := behind _ _ absent
    have rest' := ih later (fun other inside => ends other (List.mem_cons_of_mem _ inside))
      (behind _ _ absent')
    rw [Registry.view_next]
    refine ClosingTag.firstEnd?_cut (fun a b split => ?_) absent ?_
    · rw [split] at whole
      exact ClosingTag.length?_untorn plain (OpeningTag.untorn_suffix whole) _ _
    · split
      · refine ClosingTag.firstEnd?_cut (fun a b split => ?_) absent' rest'
        obtain ⟨u, shape⟩ := ends block List.mem_cons_self
        have last : '>' ∈ b := by
          have bracket := congrArg List.getLast? (split.symm.trans shape)
          cases b with
          | nil => simp at bracket
          | cons c b =>
            simp only [List.getLast?_append, List.getLast?_cons_cons, List.getLast?_singleton]
              at bracket
            exact List.mem_of_getLast? (by simpa using bracket)
        exact ClosingTag.length?_cut plain (.inr last) _ _
      · exact rest'

/-- Where no tag opens in a text, none opens in a view of it. -/
theorem read?_view {m : Matcher} {family : Family} {c : Char} {s : Text}
    (separable : ((m.layout s).prepend [c]).Separable fun block => family.owns block.name)
    (unread : OpeningTag.read? (c :: s) = none) :
    OpeningTag.read? (c :: Registry.view (m.layout s) family) = none := by
  by_cases bracket : c = '<'
  · subst bracket
    have whole := m.layout_text s
    cases cut : m.layout s with
    | last gap =>
      rw [cut] at whole
      rw [← whole] at unread
      exact unread
    | next gap block rest =>
      rw [cut] at whole separable
      rw [← whole, Layout.text, List.append_assoc] at unread
      rw [Registry.view_next, ← unread]
      exact OpeningTag.read?_untorn separable.1 _ _
  · exact OpeningTag.read?_of_ne bracket _

/-- A family finds in its view the blocks that are its own in the whole text. -/
theorem blocks_view {m m' : Matcher} {family : Family}
    (content : ∀ name mode, m.mode? name = some mode → mode = .content ∧ Text.IsPlain name)
    (fewer : ∀ name, m.mode? name = none → m'.mode? name = none)
    (own : ∀ name, m.mode? name = some .content → family.owns name = true →
      m'.mode? name = some .content) {s : Text}
    (separable : (m.layout s).Separable fun block => family.owns block.name) :
    m'.blocks (Registry.view (m.layout s) family) = (m.blocks s).filter fun block =>
      family.owns block.name := by
  unfold Matcher.blocks
  induction s using Matcher.layout_induct m with
  | nil => simp [Matcher.layout, Layout.parts]
  | keep c s unread ih =>
    rw [Matcher.layout_cons unread] at separable ⊢
    rw [Registry.view_prepend, List.singleton_append,
      Matcher.layout_cons (read?_view separable unread), Layout.parts_prepend, Layout.parts_prepend,
      ih separable.of_prepend]
  | tag tag s read unknown ih =>
    rw [Matcher.layout_tag read unknown] at separable ⊢
    rw [Registry.view_prepend, Matcher.layout_tag (OpeningTag.read?_cut read _) (fewer _ unknown),
      Layout.parts_prepend, Layout.parts_prepend, ih separable.of_prepend]
  | block block s found ih =>
    rw [Matcher.layout_block found] at separable ⊢
    obtain ⟨_, stays, later⟩ := separable
    have rest := ih later
    rw [m.layout_text] at stays
    obtain ⟨mode, known⟩ := Matcher.mode?_of_blockAt? found
    obtain ⟨rfl, plain⟩ := content _ _ known
    rw [Registry.view_next, List.nil_append, Layout.parts]
    cases mine : family.owns block.name with
    | true =>
      have stays' := (stays mine).before fun absent => firstEnd?_view plain later
        (fun other inside => by
          obtain ⟨_, found⟩ := Matcher.blockAt?_of_mem_blocks inside
          exact text_of_blockAt? found)
        (by rwa [m.layout_text])
      have found' := blockAt?_ends plain found ((own _ known mine).trans known.symm) stays'.ends
      rw [if_pos rfl, Matcher.layout_block found', Layout.parts, rest, List.filter_cons]
      simp [mine]
    | false =>
      rw [if_neg (by simp), List.nil_append, rest, List.filter_cons]
      simp [mine]

namespace Registry

/-- Whether a family finds in its view of a text the content blocks that are its own, in their
order, and no others. -/
def SeesOwn (family : Family) (s : Text) : Prop :=
  (Matcher.of .content family.canonicalTags).blocks
    (view (builtIn.table.contentMatcher.layout s) family) =
    (builtIn.table.contentMatcher.blocks s).filter fun block => family.owns block.name

instance (family : Family) (s : Text) : Decidable (SeesOwn family s) :=
  inferInstanceAs (Decidable (_ = _))

theorem contentTags_plain : ∀ tag ∈ builtIn.table.contentTags, Repair.fits tag = true := by
  decide

theorem contentTags_owned : ∀ tag ∈ builtIn.table.contentTags,
    builtIn.contentFamilies.countP (·.owns tag) = 1 := by
  decide

/-- What the content matcher of the built-in families knows. -/
theorem mode?_builtIn {name : Text} {mode : ScanMode} :
    builtIn.table.contentMatcher.mode? name = some mode ↔ name ∈ builtIn.table.contentTags ∧
      mode = .content := by
  have same := Text.map_lower fun tag inside =>
    Text.lower_of_isPlain (Repair.isPlain_of_fits (contentTags_plain tag inside))
  rw [SpellingTable.contentMatcher, Matcher.mode?_of, same, Option.ite_none_right_eq_some,
    Option.some.injEq, eq_comm (a := ScanMode.content)]

/-- Each content block is one of exactly one family. -/
theorem countP_owns {s : Text} {block : Block}
    (inside : block ∈ builtIn.table.contentMatcher.blocks s) :
    builtIn.contentFamilies.countP (·.owns block.name) = 1 := by
  obtain ⟨mode, known⟩ := Matcher.mode?_of_mem_blocks inside
  exact contentTags_owned _ (mode?_builtIn.mp known).1

/-- Each family that bears content reads the blocks of its own tags. -/
theorem content_reads {family : Family} (member : family ∈ builtIn.contentFamilies) :
    ∃ actions : Screening → Block → List Action, ∀ screening s,
      family.extract screening s = ((Matcher.of .content family.canonicalTags).blocks s).flatMap
        (actions screening) := by
  obtain ⟨listed, bears⟩ := List.mem_filter.mp member
  obtain ⟨actions, reads, _⟩ := Family.builtIn_readsOwn listed
  have own : family.matcher = Matcher.of .content family.canonicalTags := by
    rw [Family.matcher, if_pos bears]
  exact ⟨actions, fun screening s => by rw [reads, own]⟩

/-- A family that bears content finds its own blocks if no tag is torn and each of them stays as it
is. -/
theorem seesOwn_of_separable {family : Family} (member : family ∈ builtIn.contentFamilies)
    {s : Text}
    (separable : (builtIn.table.contentMatcher.layout s).Separable fun block =>
      family.owns block.name) :
    SeesOwn family s := by
  obtain ⟨listed, bears⟩ := List.mem_filter.mp member
  have modes : ∀ name, (Matcher.of .content family.canonicalTags).mode? name =
      if name ∈ family.canonicalTags then some .content else none := by
    intro name
    rw [Matcher.mode?_of, Family.lower_canonicalTags listed]
  have plain : ∀ tag ∈ builtIn.table.contentTags, Text.IsPlain tag := fun tag inside =>
    Repair.isPlain_of_fits (contentTags_plain tag inside)
  refine blocks_view ?_ ?_ ?_ separable
  · intro name mode known
    obtain ⟨tag, rfl⟩ := mode?_builtIn.mp known
    exact ⟨rfl, plain name tag⟩
  · intro name unknown
    rw [modes, if_neg]
    intro own
    have tag : name ∈ builtIn.table.contentTags :=
      SpellingTable.mem_contentTags.mpr ⟨family, listed, bears, own⟩
    rw [mode?_builtIn.mpr ⟨tag, rfl⟩] at unknown
    cases unknown
  · intro name known own
    have stands : Text.lower name = name :=
      Text.lower_of_isPlain (plain name (mode?_builtIn.mp known).1)
    rw [Family.owns, stands, List.contains_iff_mem] at own
    rw [modes, if_pos own]

/-- Where no tag is torn and its own blocks stay as they are, a family reads exactly those of the
blocks that are cut out of a prepared text which are its own; and each of these is the block of one
family. -/
theorem seesOwn_working {family : Family} (member : family ∈ builtIn.contentFamilies) {s : Text}
    (separable : (builtIn.table.contentMatcher.layout (builtIn.working s)).Separable
      fun block => family.owns block.name) :
    SeesOwn family (builtIn.working s) ∧
      (∃ actions : Screening → Block → List Action, ∀ screening t, family.extract screening t =
        ((Matcher.of .content family.canonicalTags).blocks t).flatMap (actions screening)) ∧
      ∀ block ∈ builtIn.table.contentMatcher.blocks (builtIn.working s),
        builtIn.contentFamilies.countP (·.owns block.name) = 1 :=
  ⟨seesOwn_of_separable member separable, content_reads member, fun _ inside => countP_owns inside⟩

/-- A file that is written after a message, with a closing tag in code, is found in the view of its
family. -/
theorem seesOwn_file :
    let s := "<say>hi</say> <Write path=\"a\">\n\x60</write>\x60\n</write> done".toList
    (builtIn.table.contentMatcher.layout (builtIn.working s)).Separable
      (fun block => Family.write.owns block.name) ∧
      SeesOwn Family.write (builtIn.working s) := by
  intro s
  have whole : builtIn.table.contentMatcher.layout (builtIn.working s) =
      .next [] ⟨⟨"say".toList, []⟩, .closed "hi".toList "</say>".toList⟩
        (.next " ".toList ⟨⟨"write".toList, " path=\"a\"".toList⟩,
            .closed ("\n\x60</write>\x60".toList ++ ['\n']) "</write>".toList⟩
              (.last " done".toList)) := by
    decide +kernel
  have separable : (builtIn.table.contentMatcher.layout (builtIn.working s)).Separable
      fun block => Family.write.owns block.name := by
    rw [whole]
    refine ⟨by decide, fun own => absurd own (by decide), by decide, fun _ => ?_, trivial⟩
    refine stays_of_rows (m := builtIn.table.contentMatcher) (mode?_builtIn.mpr ⟨by decide, rfl⟩) ?_
    decide +kernel
  exact ⟨separable, (seesOwn_working List.mem_cons_self separable).1⟩

/-- A cut may put together a tag of which only pieces stood in the text; and where no tag is torn,
it may bring a backtick behind a closing tag that pairs with one in front of it. -/
theorem cut_matters : (¬ ∀ family ∈ builtIn.contentFamilies, ∀ s,
      SeesOwn family (builtIn.working s)) ∧
    ¬ ∀ family ∈ builtIn.contentFamilies, ∀ s,
      (builtIn.table.contentMatcher.layout (builtIn.working s)).Separable (fun _ => false) →
      SeesOwn family (builtIn.working s) := by
  constructor
  · intro always
    have sees := always Family.write List.mem_cons_self
      "<wri<say>x</say>te path=\"a\">b</write>".toList
    revert sees
    decide +kernel
  · intro always
    have sees := always Family.write List.mem_cons_self
      "<write path=\"a\">a\x60</write><say>\n</say>\x60</write>".toList
    have whole : builtIn.table.contentMatcher.layout
        (builtIn.working "<write path=\"a\">a\x60</write><say>\n</say>\x60</write>".toList) =
        .next [] ⟨⟨"write".toList, " path=\"a\"".toList⟩, .closed "a\x60".toList "</write>".toList⟩
          (.next [] ⟨⟨"say".toList, []⟩, .closed "\n".toList "</say>".toList⟩
            (.last "\x60</write>".toList)) := by
      decide +kernel
    have separable : (builtIn.table.contentMatcher.layout (builtIn.working
        "<write path=\"a\">a\x60</write><say>\n</say>\x60</write>".toList)).Separable
          (fun _ => false) := by
      rw [whole]
      exact ⟨by decide, by simp, by decide, by simp, trivial⟩
    have sees := sees separable
    revert sees
    decide +kernel

end Registry

end MarkupActions
