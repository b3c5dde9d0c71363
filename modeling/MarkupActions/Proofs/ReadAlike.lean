import MarkupActions.Proofs.Alike
import MarkupActions.Proofs.Fewer
import MarkupActions.Proofs.Stripping
import MarkupActions.Proofs.Views

/-!
# Blocks in a respelled text

Where blocks of other names stand in both texts as they are, they are found in both, and the texts
are stripped and cut alike: what is left differs again in names of tags only.
-/

namespace MarkupActions

open Code (tick)
open Respelt (Opens)

namespace Respelt

variable {table : SpellingTable} {s t u : Text}

theorem not_mem_text {closing : Bool} {name : Text} (named : TagName name) :
    '>' ∉ (TagToken.mk closing name).text :=
  TagToken.not_mem_text named.isName (by decide) (by decide) (by decide)

/-- What stands in both texts up to a bracket may be left out. -/
theorem cancel_left (respelt : Respelt table (u ++ '>' :: s) (u ++ '>' :: t)) :
    Respelt table s t := by
  generalize old : u ++ '>' :: s = x, new : u ++ '>' :: t = y at respelt
  induction respelt generalizing u with
  | nil => simp at old
  | @keep c x y rest ih =>
    cases u with
    | nil =>
      obtain ⟨_, rfl⟩ := List.cons.inj old
      obtain ⟨_, rfl⟩ := List.cons.inj new
      exact rest
    | cons d u => exact ih (List.cons.inj old).2 (List.cons.inj new).2
  | @token closing name tag c x y named tagged known ends rest ih =>
    -- The bracket stands behind the name in both texts, so the name is the same.
    have behind : ∀ {name : Text} {s x : Text}, TagName name →
        u ++ '>' :: s = (TagToken.mk closing name).text ++ c :: x →
        ∃ m, u = (TagToken.mk closing name).text ++ m ∧ c :: x = m ++ '>' :: s := by
      intro name s x named whole
      rcases Text.append_eq_append_cons whole.symm with ⟨m, inside, _⟩ | found
      · exact False.elim (not_mem_text named (by rw [inside]; simp))
      · exact found
    obtain ⟨m, rfl, first⟩ := behind named old
    obtain ⟨m', same, second⟩ := behind tagged new
    obtain ⟨slash, _, shape⟩ := TagToken.exists_slash closing
    have inner : name ++ m = tag ++ m' := by
      simpa [shape] using same
    have stop : ∀ {m s x : Text}, c :: x = m ++ '>' :: s →
        m.head?.any Text.isNameChar = false := by
      intro m s x whole
      cases m with
      | nil => rfl
      | cons d m =>
        obtain ⟨rfl, _⟩ := List.cons.inj whole
        simpa using not_isNameChar_of_endsName ends
    have run := Text.takeWhile_exact named.letters (stop first)
    rw [inner, Text.takeWhile_exact tagged.letters (stop second)] at run
    obtain rfl := run
    obtain rfl := List.append_cancel_left inner
    cases m with
    | nil =>
      obtain ⟨_, rfl⟩ := List.cons.inj first
      obtain ⟨_, rfl⟩ := List.cons.inj second
      exact rest
    | cons d m => exact ih (List.cons.inj first).2.symm (List.cons.inj second).2.symm

/-- Up to a bracket nothing is respelled that names no tag of the table. -/
theorem split_silent (silent : table.silent (u ++ ['>']) = true)
    (respelt : Respelt table (u ++ '>' :: s) t) : ∃ t', t = u ++ '>' :: t' := by
  induction u generalizing t with
  | nil =>
    obtain ⟨t', rfl, _⟩ := split_unmarked (u := ['>']) (by decide) respelt
    exact ⟨t', rfl⟩
  | cons c u ih =>
    generalize whole : c :: u ++ '>' :: s = w at respelt
    cases respelt with
    | nil => cases whole
    | keep d rest =>
      obtain ⟨rfl, rfl⟩ := List.cons.inj whole
      obtain ⟨t', rfl⟩ := ih (SpellingTable.silent_suffix (a := [c]) silent) rest
      exact ⟨t', rfl⟩
    | @token closing name tag d x y named _ known ends rest =>
      rcases Text.append_eq_append_cons whole.symm with ⟨m, inside, _⟩ | ⟨m, front, back⟩
      · exact False.elim (not_mem_text named (by rw [inside]; simp))
      · have stop : (m ++ ['>']).head?.any Text.isNameChar = false := by
          cases m with
          | nil => decide
          | cons e m =>
            obtain ⟨rfl, _⟩ := List.cons.inj back
            simpa using not_isNameChar_of_endsName ends
        rw [front, List.append_assoc] at silent
        have unknown := SpellingTable.silent_read silent
          (@TagToken.read?_text ⟨closing, name⟩ named.isName _ stop)
        exact False.elim (Option.some_ne_none _ (known.symm.trans unknown))

end Respelt

structure Matcher.Foreign (table : SpellingTable) (m : Matcher) : Prop where
  plain : ∀ name mode, m.mode? name = some mode → Text.IsPlain name
  unknown : ∀ name mode, m.mode? name = some mode → table.canonical? name = none

/-- Whether a block in front of `rest` stands in a text as it is, wherever this goes on like it but
for names of tags. No closing tag follows one that is left open. -/
def Block.Fixed (table : SpellingTable) (t : Text) (block : Block) (rest : Text) : Prop :=
  (block.extent = .unclosed → ClosingTag.firstEnd? block.name rest = none) ∧
    ∀ u, u <:+ t → Respelt table (block.text ++ rest) u → block.text <+: u

namespace Matcher

variable {table : SpellingTable} {m : Matcher} {s t : Text}

theorem Foreign.mode?_eq (foreign : m.Foreign table) {tag tag' : OpeningTag}
    (names : tag'.name = tag.name ∨
      (table.canonical? tag.name).isSome = true ∧ (table.canonical? tag'.name).isSome = true) :
    m.mode? tag'.key = m.mode? tag.key := by
  have none : ∀ {name : Text}, (table.canonical? name).isSome = true →
      m.mode? (Text.lower name) = none := by
    intro name known
    cases mode : m.mode? (Text.lower name) with
    | none => rfl
    | some mode' =>
      have unknown := foreign.unknown _ _ mode
      rw [SpellingTable.canonical?_lower] at unknown
      rw [unknown] at known
      cases known
  rcases names with same | ⟨known, known'⟩
  · rw [OpeningTag.key, OpeningTag.key, same]
  · rw [OpeningTag.key, OpeningTag.key, none known, none known']

/-- A block that stands in front of a respelled text is found there. -/
theorem blockAt?_respelt (settled : table.Settled) (foreign : m.Foreign table) {block : Block}
    (found : m.blockAt? (block.text ++ s) = some block)
    (open' : block.extent = .unclosed → ClosingTag.firstEnd? block.name s = none)
    (respelt : Respelt table s t) : m.blockAt? (block.text ++ t) = some block := by
  obtain ⟨mode, known⟩ := mode?_of_blockAt? found
  have plain := foreign.plain _ _ known
  have unknown := foreign.unknown _ _ known
  refine blockAt?_ends plain found rfl ?_
  obtain ⟨tag, read, matched⟩ := Option.bind_eq_some_iff.mp found
  obtain ⟨mode', _, shape⟩ := Option.map_eq_some_iff.mp matched
  obtain ⟨tag', extent⟩ := block
  obtain ⟨rfl, ends⟩ := Block.mk.inj shape
  cases extent with
  | closesItself => trivial
  | unclosed =>
    have meets := respelt.firstEnd?_meets settled plain unknown
    rw [open' rfl] at meets
    show ClosingTag.firstEnd? _ t = none
    generalize ClosingTag.firstEnd? _ t = y at meets
    cases meets
    rfl
  | closed body closing =>
    simp only [Block.text, List.append_assoc, List.drop_left] at ends
    obtain ⟨_, n, back, whole, _, _, closes⟩ := extentOf_eq_closed ends
    have bare := code_shadow_of_bare (closing?_at closes).2
    have behind := (respelt.append_left closing).renamed
    have same := (Renamed.refl body).shadow_code settled behind false
    rw [bare, Option.isSome_none, eq_comm, Option.isSome_eq_false_iff,
      Option.isNone_iff_eq_none] at same
    exact same

theorem blockAt?_none_respelt (settled : table.Settled) (foreign : m.Foreign table)
    (respelt : Respelt table s t) (absent : m.blockAt? s = none) : m.blockAt? t = none := by
  have opens := respelt.read?_opens settled
  unfold blockAt? at absent ⊢
  generalize OpeningTag.read? s = x, OpeningTag.read? t = y at opens absent
  cases opens with
  | none => rfl
  | some old new within rest names =>
    have mode := foreign.mode?_eq names
    simp only [Option.bind_some, blockOf?, Option.map_eq_none_iff] at absent ⊢
    rw [mode, absent]

end Matcher

namespace Block.Fixed

variable {table : SpellingTable} {m : Matcher} {block : Block} {rest a t : Text}

theorem suffix {parts : List (Block × Text)}
    (fixed : ∀ part ∈ parts, part.1.Fixed table t part.2) (ends : a <:+ t) :
    ∀ part ∈ parts, part.1.Fixed table a part.2 := fun part inside =>
  ⟨(fixed part inside).1, fun u inner => (fixed part inside).2 u (inner.trans ends)⟩

theorem behind (settled : table.Settled) (foreign : m.Foreign table)
    (found : m.blockAt? (block.text ++ rest) = some block) (fixed : block.Fixed table t rest)
    (respelt : Respelt table (block.text ++ rest) t) :
    ∃ t', t = block.text ++ t' ∧ Respelt table rest t' ∧
      m.blockAt? (block.text ++ t') = some block := by
  obtain ⟨t', rfl⟩ := fixed.2 t (List.suffix_refl t) respelt
  obtain ⟨u, ends⟩ := text_of_blockAt? found
  have later : Respelt table rest t' := by
    refine Respelt.cancel_left (u := u) ?_
    simpa [ends] using respelt
  exact ⟨t', rfl, later, m.blockAt?_respelt settled foreign found fixed.1 later⟩

/-- A block that names no tag of the table stands as it is. -/
theorem of_silent {x : Text} (found : m.blockAt? (block.text ++ x) = some block)
    (silent : table.silent block.text = true)
    (open' : block.extent = .unclosed → ClosingTag.firstEnd? block.name rest = none) :
    block.Fixed table t rest := by
  refine ⟨open', fun u _ respelt => ?_⟩
  obtain ⟨v, shape⟩ := text_of_blockAt? found
  rw [shape] at silent respelt ⊢
  rw [List.append_assoc] at respelt
  obtain ⟨t', rfl⟩ := respelt.split_silent silent
  exact ⟨t', by simp⟩

end Block.Fixed

namespace Layout

variable {table : SpellingTable}

def followed : Layout Block → List (Block × Text)
  | last _ => []
  | next _ block rest => (block, rest.text Block.text) :: rest.followed

@[simp] theorem followed_prepend (a : Text) (l : Layout Block) :
    (l.prepend a).followed = l.followed := by
  cases l <;> rfl

theorem mem_parts_of_followed {l : Layout Block} {part : Block × Text}
    (inside : part ∈ l.followed) : part.1 ∈ l.parts := by
  induction l with
  | last gap => cases inside
  | next gap block rest ih =>
    rcases List.mem_cons.mp inside with rfl | later
    · exact List.mem_cons_self
    · exact List.mem_cons_of_mem _ (ih later)

/-- Two layouts with the same blocks, between which the names of tags are respelled. -/
inductive Alike (table : SpellingTable) : Layout Block → Layout Block → Prop
  | last {gap gap' : Text} (same : Respelt table gap gap') : Alike table (last gap) (last gap')
  | next {gap gap' : Text} (block : Block) {l k : Layout Block} (same : Respelt table gap gap')
      (rest : Alike table l k) : Alike table (next gap block l) (next gap' block k)

namespace Alike

variable {l k : Layout Block} {a b : Text}

theorem prepend (front : Respelt table a b) (alike : Alike table l k) :
    Alike table (l.prepend a) (k.prepend b) := by
  cases alike with
  | last same => exact .last (front.append same)
  | next block same rest => exact .next block (front.append same) rest

theorem parts_eq (alike : Alike table l k) : k.parts = l.parts := by
  induction alike with
  | last => rfl
  | next block _ _ ih => rw [parts, parts, ih]

theorem text {write : Block → Text} (alike : Alike table l k) :
    Respelt table (l.text write) (k.text write) := by
  induction alike with
  | last same => exact same
  | next block same _ ih => exact (same.append (.refl _)).append ih

theorem select {p : Block → Bool} {write : Block → Text} (alike : Alike table l k) :
    Alike table (l.select p write) (k.select p write) := by
  induction alike with
  | last same => exact .last same
  | next block same rest ih =>
    rw [Layout.select, Layout.select]
    split
    · exact .next block same ih
    · exact ih.prepend (same.append (.refl _))

end Alike

end Layout

namespace Matcher

variable {table : SpellingTable} {m : Matcher} {s t : Text}

/-- Whether the blocks of a text stand as they are in another. -/
def Keeps (m : Matcher) (table : SpellingTable) (s t : Text) : Prop :=
  ∀ part ∈ (m.layout s).followed, part.1.Fixed table t part.2

theorem keeps_of_silent (silent : ∀ block ∈ m.blocks s, table.silent block.text = true ∧
    block.extent ≠ .unclosed) : m.Keeps table s t := by
  intro part inside
  have among : part.1 ∈ m.blocks s := Layout.mem_parts_of_followed inside
  obtain ⟨x, found⟩ := blockAt?_of_mem_blocks among
  obtain ⟨quiet, closed⟩ := silent part.1 among
  exact .of_silent found quiet fun open' => absurd open' closed

theorem layout_token {closing : Bool} {name : Text} {c : Char} (named : TagName name)
    (ends : endsName c = true)
    (unread : OpeningTag.read? ((TagToken.mk closing name).text ++ c :: s) = none) :
    m.layout ((TagToken.mk closing name).text ++ c :: s) =
      (m.layout s).prepend ((TagToken.mk closing name).text ++ [c]) := by
  obtain ⟨slash, _, shape⟩ := TagToken.exists_slash closing
  have tags := @TagToken.not_mem_tail ⟨closing, name⟩ named.isName
  have other : '<' ≠ c := by
    rintro rfl
    exact absurd ends (by decide)
  have whole : (TagToken.mk closing name).text ++ c :: s =
      '<' :: ((slash ++ name ++ [c]) ++ s) := by simp [shape]
  rw [shape, List.tail_cons] at tags
  rw [whole] at unread ⊢
  rw [layout_cons unread, layout_prose (by simp_all), Layout.prepend_prepend, shape]
  rfl

/-- A text is cut at its blocks as the text is of which it differs in names of tags. -/
theorem layout_alike (settled : table.Settled) (foreign : m.Foreign table)
    (respelt : Respelt table s t) (keeps : m.Keeps table s t) :
    (m.layout s).Alike table (m.layout t) := by
  unfold Keeps at keeps
  induction size : s.length using Nat.strongRecOn generalizing s t with
  | ind size ih =>
    subst size
    have opens := respelt.read?_opens settled
    generalize read : OpeningTag.read? s = x, read' : OpeningTag.read? t = y at opens
    cases opens with
    | @some tag tag' x y old new within rest names =>
      subst old new
      have pos := tag.text_length_pos
      have mode := foreign.mode?_eq names
      cases known : m.mode? tag.key with
      | none =>
        rw [known] at mode
        rw [layout_tag read known, Layout.followed_prepend] at keeps
        rw [layout_tag read known, layout_tag read' mode]
        have keeps' := Block.Fixed.suffix keeps (List.suffix_append _ _)
        exact (ih x.length (by simp; omega) rest keeps' rfl).prepend within
      | some mode' =>
        have found : m.blockAt? (tag.text ++ x) =
            some ⟨tag, extentOf mode' tag ((tag.text ++ x).drop tag.text.length)⟩ := by
          rw [blockAt?, read, Option.bind_some, blockOf?, known, Option.map_some]
        generalize Block.mk tag _ = block at found
        obtain ⟨behind, whole⟩ := blockAt?_split found
        rw [whole] at found respelt keeps ⊢
        rw [layout_block found, Layout.followed, List.forall_mem_cons, m.layout_text] at keeps
        obtain ⟨t', same, later, found'⟩ := keeps.1.behind settled foreign found respelt
        have more := block.text_length_pos
        rw [same] at keeps ⊢
        rw [layout_block found, layout_block found']
        have less : behind.length < (tag.text ++ x).length := by
          rw [whole, List.length_append]
          omega
        have keeps' := Block.Fixed.suffix keeps.2 (List.suffix_append _ _)
        exact .next block .nil (ih behind.length less later keeps' rfl)
    | none =>
      cases respelt with
      | nil =>
        rw [layout]
        exact .last .nil
      | @keep c s t rest =>
        rw [layout_cons read, Layout.followed_prepend] at keeps
        rw [layout_cons read, layout_cons read']
        have keeps' := Block.Fixed.suffix keeps (List.suffix_cons c t)
        exact (ih s.length (by simp) rest keeps' rfl).prepend (.refl [c])
      | @token closing name tag c s t named tagged known ends rest =>
        have less : s.length < ((TagToken.mk closing name).text ++ c :: s).length := by
          simp
          omega
        rw [layout_token named ends read, Layout.followed_prepend] at keeps
        rw [layout_token named ends read, layout_token tagged ends read']
        have keeps' := Block.Fixed.suffix keeps
          ((List.suffix_cons c t).trans (List.suffix_append _ _))
        exact (ih s.length less rest keeps' rfl).prepend
          (.token closing named tagged known ends .nil)

end Matcher

namespace Inert

variable {table : SpellingTable} {guarded : Matcher} {lineStart : Bool} {s t : Text}

/-- Stripping goes past a token that opens nothing. -/
theorem strip_token {closing : Bool} {name : Text} {c : Char} (named : TagName name)
    (ends : endsName c = true)
    (region : regionLength? lineStart ((TagToken.mk closing name).text ++ c :: s) = none)
    (absent : guarded.blockAt? ((TagToken.mk closing name).text ++ c :: s) = none) :
    strip guarded lineStart ((TagToken.mk closing name).text ++ c :: s) =
        (TagToken.mk closing name).text ++ c :: strip guarded (c == '\n') s ∧
      copied guarded lineStart ((TagToken.mk closing name).text ++ c :: s) =
        copied guarded (c == '\n') s := by
  obtain ⟨slash, _, shape⟩ := TagToken.exists_slash closing
  have tags := @TagToken.not_mem_tail ⟨closing, name⟩ named.isName
  have dark := @TagToken.dark_text ⟨closing, name⟩ named.isName
  rw [shape] at tags dark region absent ⊢
  rw [List.tail_cons] at tags
  have clear : Clear (slash ++ name) (c :: s) := {
    tags := tags
    ticks := fun inside => dark.ticks (List.mem_cons_of_mem _ inside)
    unfenced := fun a b whole more => dark.unfenced (u := '<' :: a) (by rw [whole]; rfl) more _ }
  have one : startsRow false (slash ++ name) = false :=
    startsRow_of_one (fun inside => dark.not_mem (by decide) (List.mem_cons_of_mem _ inside))
      fun _ => rfl
  have other : c ≠ '<' ∧ c ≠ tick := by
    constructor <;> (rintro rfl; exact absurd ends (by decide))
  have plain : regionLength? false (c :: s) = none := by
    rw [regionLength?, literalLength?_of_ne other.1,
      show Code.regionLength? false (c :: s) = Code.spanLength? (c :: s) from rfl,
      Code.spanLength?_of_ne other.2]
  have none : guarded.blockAt? (c :: s) = none := blockAt?_of_ne other.1 s
  have first : ('<' == '\n') = false := by decide
  have mark : '<' ≠ tick := by decide
  rw [List.cons_append] at region absent ⊢
  rw [strip_cons region absent mark, copied_cons region absent mark, first, strip_clear clear,
    copied_clear clear, one, strip_cons plain none other.2, copied_cons plain none other.2]
  exact ⟨rfl, rfl⟩

/-- A run of backticks that opens no span stays as it is. -/
theorem strip_ticks {run : Text} (ticks : ∀ c ∈ run, (c == tick) = true)
    (stop : s.head?.any (· == tick) = false)
    (region : regionLength? lineStart (tick :: (run ++ s)) = none) :
    strip guarded lineStart (tick :: (run ++ s)) = tick :: (run ++ strip guarded false s) ∧
      copied guarded lineStart (tick :: (run ++ s)) = copied guarded false s := by
  have length : Code.plainLength (tick :: (run ++ s)) - 1 = run.length := by
    simp [Code.plainLength, Code.runLength, Text.takeWhile_exact ticks stop]
  have none : guarded.blockAt? (tick :: (run ++ s)) = none := blockAt?_of_ne (by decide) _
  rw [strip, copied, region, none]
  simp only [length, List.take_left, List.drop_left]
  exact ⟨rfl, rfl⟩

/-- A text is stripped as the text is of which it differs in names of tags. -/
theorem strip_respelt (settled : table.Settled)
    (literal : table.canonical? literalName = none) (foreign : guarded.Foreign table)
    (respelt : Respelt table s t)
    (fixed : ∀ part ∈ copied guarded lineStart s, part.1.Fixed table t part.2) :
    Respelt table (strip guarded lineStart s) (strip guarded lineStart t) := by
  induction size : s.length using Nat.strongRecOn generalizing s t lineStart with
  | ind size ih =>
    subst size
    have meets := respelt.region_meets settled literal lineStart
    generalize region : regionLength? lineStart s = x, region' : regionLength? lineStart t = y
      at meets
    cases meets with
    | @some n k rest =>
      rcases Nat.eq_zero_or_pos s.length with empty | long
      · obtain rfl := List.eq_nil_of_length_eq_zero empty
        rw [respelt.eq_nil]
        exact .refl _
      have less : (s.drop n).length < s.length := by
        have pos := regionLength?_pos region
        rw [List.length_drop]
        omega
      rw [copied_drop region] at fixed
      rw [strip_drop region, strip_drop region']
      exact ih (s.drop n).length less rest (Block.Fixed.suffix fixed (List.drop_suffix k t)) rfl
    | none =>
      cases found : guarded.blockAt? s with
      | some block =>
        obtain ⟨behind, rfl⟩ := Matcher.blockAt?_split found
        rw [copied_block region found, List.forall_mem_cons] at fixed
        obtain ⟨t', rfl, later, found'⟩ := fixed.1.behind settled foreign found respelt
        rw [strip_block region found, strip_block region' found']
        have more := block.text_length_pos
        have less : behind.length < (block.text ++ behind).length := by
          rw [List.length_append]
          omega
        have fixed' := Block.Fixed.suffix fixed.2 (List.suffix_append _ _)
        exact (ih behind.length less later fixed' rfl).append_left block.text
      | none =>
        have found' := guarded.blockAt?_none_respelt settled foreign respelt found
        cases respelt with
        | nil =>
          rw [strip]
          exact .nil
        | @keep c s t rest =>
          by_cases mark : c = tick
          · subst mark
            obtain ⟨w, x, rfl, run, stop⟩ := Text.exists_run (· == tick) s
            obtain ⟨y, rfl, behind⟩ := rest.split_unmarked (u := w) fun inside =>
              absurd (run _ inside) (by decide)
            have stop' : y.head?.any (· == tick) = false := by rwa [behind.renamed.head]
            obtain ⟨same, same'⟩ := strip_ticks run stop region
            rw [same'] at fixed
            rw [same, (strip_ticks run stop' region').1]
            have less : x.length < (tick :: (w ++ x)).length := by
              rw [List.length_cons, List.length_append]
              omega
            have fixed' := Block.Fixed.suffix fixed
              ((List.suffix_append w y).trans (List.suffix_cons tick _))
            exact ((ih x.length less behind fixed' rfl).append_left w).keep tick
          · rw [copied_cons region found mark] at fixed
            rw [strip_cons region found mark, strip_cons region' found' mark]
            have fixed' := Block.Fixed.suffix fixed (List.suffix_cons c t)
            exact (ih s.length (by simp) rest fixed' rfl).keep c
        | @token closing name tag c s t named tagged known ends rest =>
          have less : s.length < ((TagToken.mk closing name).text ++ c :: s).length := by
            simp
            omega
          obtain ⟨same, same'⟩ := strip_token named ends region found
          rw [same'] at fixed
          rw [same, (strip_token tagged ends region' found').1]
          have fixed' := Block.Fixed.suffix fixed
            ((List.suffix_cons c t).trans (List.suffix_append _ _))
          exact .token closing named tagged known ends (ih s.length less rest fixed' rfl)

end Inert

end MarkupActions
