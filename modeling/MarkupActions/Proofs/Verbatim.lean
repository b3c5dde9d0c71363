import Mathlib.Data.List.Infix
import MarkupActions.Proofs.Cuts
import MarkupActions.Proofs.Openers
import MarkupActions.Proofs.Passes
import MarkupActions.Proofs.Renamed
import MarkupActions.Proofs.Untouched

/-!
# Renaming around a payload

The isolator looks for the end of a block from its body on and knows one spelling of its name.
Renaming looks for it from behind the name on and knows all spellings. Where the opening tag shows
nothing that ends a block, covers a closing tag or lifts a cover, and each closing tag by another
spelling is covered, both find the same end. Then only the two names of the block are replaced, and
its attributes and its body stay as they are.
-/

namespace MarkupActions

open Code (tick)

/-- A block by another name, everything else left as it is written. -/
def Block.under (name : Text) (block : Block) : Block where
  tag := ⟨name, block.tag.attributes⟩
  extent :=
    match block.extent with
    | .closed body closing =>
      .closed body ('<' :: '/' :: (name ++ closing.drop (block.tag.name.length + 2)))
    | extent => extent

namespace OpeningTag

variable {v s : Text}

/-- Whether a tag ends in a slash is known at its bracket. -/
theorem endsInSlash_append {quote : Option Char} {slash : Bool} (within : settles quote v = true)
    (s : Text) :
    TagToken.endsInSlash quote slash (v ++ s) = TagToken.endsInSlash quote slash v := by
  induction v generalizing quote slash with
  | nil => cases within
  | cons c v ih =>
    cases quote with
    | some q => exact ih within
    | none =>
      by_cases quoted : c = '"' ∨ c = '\''
      · have apart : c ≠ '<' ∧ c ≠ '>' := by rcases quoted with rfl | rfl <;> decide
        simp only [settles, beq_false_of_ne apart.1, beq_false_of_ne apart.2, Bool.false_or,
          if_pos quoted] at within
        simp only [List.cons_append, TagToken.endsInSlash, if_pos quoted, ih within]
      · by_cases close : c = '>'
        · simp [TagToken.endsInSlash, close]
        · by_cases open' : c = '<'
          · simp [TagToken.endsInSlash, open']
          · simp only [settles, beq_false_of_ne open', beq_false_of_ne close, Bool.false_or,
              if_neg quoted] at within
            simp only [List.cons_append, TagToken.endsInSlash, if_neg quoted, if_neg close,
              if_neg open', ih within]

/-- Quotes that are open end inside of the attributes. -/
theorem mem_of_attributes? {quote : Char}
    (ends : attributes? (some quote) (v ++ '>' :: s) = some v) : quote ∈ v := by
  by_contra absent
  have passed : ∀ w : Text, quote ∉ w →
    ∀ t, attributes? (some quote) (w ++ t) = (attributes? (some quote) t).map (w ++ ·) := by
    intro w
    induction w with
    | nil => simp
    | cons c w ih =>
      intro absent t
      simp only [List.mem_cons, not_or] at absent
      simp [attributes?, Ne.symm absent.1, ih absent.2 t, Function.comp_def]
  rw [passed v absent] at ends
  obtain ⟨w, found, same⟩ := Option.map_eq_some_iff.mp ends
  have none' : w = [] := by simpa using same
  subst none'
  simp [attributes?] at found

/-- An angle bracket in attributes stands in quotes, which end behind it. -/
theorem quote_behind_bracket {quote : Option Char} {a t : Text}
    (quotes : ∀ c, quote = some c → Attribute.isQuote c = true)
    (ends : attributes? quote (a ++ '<' :: t ++ '>' :: s) = some (a ++ '<' :: t)) :
    ∃ c ∈ t, Attribute.isQuote c = true := by
  induction a generalizing quote with
  | nil =>
    cases quote with
    | none => simp [attributes?] at ends
    | some q =>
      have other : ¬ '<' = q := by
        rintro rfl
        exact absurd (quotes _ rfl) (by decide)
      simp only [List.nil_append, List.cons_append, attributes?, other, if_false,
        Option.map_eq_some_iff, List.cons.injEq, true_and, exists_eq_right] at ends
      exact ⟨q, mem_of_attributes? ends, quotes q rfl⟩
  | cons c a ih =>
    cases quote with
    | some q =>
      refine @ih (if c = q then none else some q) (fun d same => ?_)
        (by simpa [attributes?] using ends)
      split at same
      · cases same
      · exact quotes d same
    | none =>
      rw [List.cons_append, List.cons_append, attributes?] at ends
      split at ends
      · cases ends
      · split at ends
        · cases ends
        · refine @ih (if c = '"' ∨ c = '\'' then some c else none) (fun d same => ?_)
            (by simpa using ends)
          split at same
          · rename_i quoted
            obtain rfl := Option.some.inj same
            simpa [Attribute.isQuote] using quoted
          · cases same

end OpeningTag

namespace Hunk

variable {marker? : Text → Option Nat} {v u w : Text}

/-- A text adds no marker to what follows it if and only if none begins in it. -/
theorem count_append_eq : count marker? (v ++ u) = count marker? u ↔
    ∀ a b, v = a ++ b → b ≠ [] → marker? (b ++ u) = none := by
  induction v with
  | nil =>
    refine iff_of_true rfl ?_
    intro a b whole more
    exact False.elim (more (List.append_eq_nil_iff.mp whole.symm).2)
  | cons c v ih =>
    have bound := count_append_ge marker? v u
    rw [List.cons_append, count]
    constructor
    · intro same a b whole more
      have here : marker? (c :: (v ++ u)) = none := by
        by_contra marker
        rw [if_pos (Option.isSome_iff_ne_none.mpr marker)] at same
        omega
      rw [if_neg (by simp [here]), Nat.zero_add] at same
      cases a with
      | nil =>
        obtain rfl : c :: v = b := whole
        exact here
      | cons d a => exact ih.mp same a b (List.cons.inj whole).2 more
    · intro quiet
      have here := quiet [] (c :: v) rfl (by simp)
      rw [List.cons_append] at here
      rw [if_neg (by simp [here]), Nat.zero_add]
      exact ih.mpr fun a b whole more => quiet (c :: a) b (by rw [whole]; rfl) more

/-- The markers of hunks, those that open one and those that finish one. -/
def markers : List (Text → Option Nat) := [opening?, finish?]

theorem isSome_append (listed : marker? ∈ markers) (ends : w.head?.any Text.isWord = false)
    (found : (marker? u).isSome = true) : (marker? (u ++ w)).isSome = true := by
  rcases List.mem_cons.mp listed with rfl | listed
  · exact opening?_append ends found
  · obtain rfl := List.mem_singleton.mp listed
    obtain ⟨n, found⟩ := Option.isSome_iff_exists.mp found
    exact Option.isSome_iff_exists.mpr ⟨n, markerLength?_append (by decide) (by decide) ends found⟩

/-- A text that adds no marker in front of another adds none if less of that follows, cut where no
word goes on. -/
theorem count_append_cut (listed : marker? ∈ markers) (ends : w.head?.any Text.isWord = false)
    (none' : count marker? (v ++ (u ++ w)) = count marker? (u ++ w)) :
    count marker? (v ++ u) = count marker? u := by
  rw [count_append_eq] at none' ⊢
  intro a b whole more
  by_contra marker
  have longer := isSome_append listed ends (Option.isSome_iff_ne_none.mpr marker)
  rw [List.append_assoc, none' a b whole more] at longer
  cases longer

end Hunk

/-- What a renaming needs to see the end of a block where it is: what it reads from behind the name
on, the isolator from the body on. -/
structure Block.Agrees (table : SpellingTable) (canonical : Text) (tag : OpeningTag)
    (body closing : Text) : Prop where
  /-- No slash ends the tag, quoted strings aside. -/
  slash : TagToken.endsInSlash none false (tag.attributes ++ ['>']) = false
  /-- No closing tag of the block stands in the attributes. -/
  closers : ∀ t ∈ tag.attributes.tails, table.closes? canonical t = none
  code : Uncoded tag.attributes
  /-- No marker of a hunk begins in the attributes or with the bracket behind them. -/
  hunks : ∀ marker? ∈ Hunk.markers,
    Hunk.count marker? (tag.attributes ++ '>' :: body) = Hunk.count marker? body
  /-- Each closing tag of the block in the body that is spelled otherwise is covered. -/
  others : ∀ t ∈ body.tails, ∀ token ∈ TagToken.read? t, Text.lower token.name ≠ tag.key →
    (table.closes? canonical t).isSome = true →
      (shadow .content (body ++ closing) (body.length - t.length)).isSome = true

namespace Block.Agrees

variable {table : SpellingTable} {canonical : Text} {tag : OpeningTag} {body closing : Text}

/-- Whether a place in the body is covered does not depend on the opening tag. -/
theorem shadow_body (agrees : Agrees table canonical tag body closing) {x w : Text}
    (split : body = x ++ w)
    (ends : w.head?.any Text.isWord = false) (s : Text) :
    shadow .content (tag.attributes ++ ['>'] ++ (x ++ s))
      (tag.attributes ++ ['>'] ++ x).length = none ↔
      shadow .content (x ++ s) x.length = none := by
  have uncoded := agrees.code.bracket
  have row : startsRow false (tag.attributes ++ ['>']) = false := by simp [startsRow]
  have code := @Code.shadow_append false (tag.attributes ++ ['>']) (x ++ s) uncoded.ticks
    (fun a b whole more _ => by
    have close : '>' ∈ b := by
      have last := congrArg List.getLast? whole
      rw [List.getLast?_concat, List.getLast?_append_of_ne_nil _ more] at last
      exact List.mem_of_getLast? last.symm
    have inside : ∀ c ∈ b, c ∈ tag.attributes ++ ['>'] := fun c member => by
      rw [whole]
      exact List.mem_append_right a member
    exact Code.fenceLength?_of_calm (Code.calm_of_few (fun tick => uncoded.ticks (inside _ tick))
      (fun few => uncoded.few (few.trans (by rw [whole]; exact (List.suffix_append a b).isInfix)))
        close (by decide))) x.length
  have counts : ∀ marker? ∈ Hunk.markers,
      Hunk.count marker? (tag.attributes ++ ['>'] ++ x) = Hunk.count marker? x := by
    intro marker? listed
    refine Hunk.count_append_cut listed ends ?_
    rw [← split, List.append_assoc]
    exact agrees.hunks marker? listed
  have hunk := @Hunk.shadow_eq_none (tag.attributes ++ ['>'] ++ x) s
  rw [counts _ (by simp [Hunk.markers]), counts _ (by simp [Hunk.markers]),
    ← Hunk.shadow_eq_none (s := s), List.append_assoc] at hunk
  rw [shadow_content_eq_none, shadow_content_eq_none, hunk, List.length_append, code, row,
    Option.map_eq_none_iff]

end Block.Agrees

/-- A text that is one block is read as that block. -/
theorem Matcher.blockAt?_alone {m : Matcher} {block : Block}
    (alone : m.blocks block.text = [block]) :
    m.blockAt? block.text = some block := by
  have cut := layout_alone alone
  have fronted : ∀ {u : Text} {l : Layout Block}, u ≠ [] →
    l.prepend u ≠ .next [] block (.last []) := by
    intro u l more same
    cases l with
    | last gap => cases same
    | next gap part rest => simp [more] at same
  cases whole : block.text with
  | nil =>
    have pos := block.text_length_pos
    simp [whole] at pos
  | cons c s =>
    rw [whole, layout] at cut
    split at cut
    · exact False.elim (fronted (by simp) cut)
    · rename_i tag read
      split at cut
      · rename_i found matched
        obtain ⟨_, rfl, _⟩ := Layout.next.inj cut
        rw [blockAt?, read, Option.bind_some, matched]
      · exact False.elim (fronted (List.ne_nil_of_length_pos tag.text_length_pos) cut)

/-- What a closed block is made of that a matcher finds at the end of a text. -/
theorem Matcher.blockAt?_closed {m : Matcher} {tag : OpeningTag} {body closing : Text}
    (found : m.blockAt? (Block.mk tag (.closed body closing)).text =
      some ⟨tag, .closed body closing⟩) :
    OpeningTag.read? tag.text = some tag ∧
      (∃ mode, m.mode? tag.key = some mode ∧
        closing? mode (ClosingTag.length? tag.key) (body ++ closing) = some
          (body.length, closing.length)) ∧
      ∃ name blanks, closing = (TagToken.mk true name).text ++ (blanks ++ ['>']) ∧
        Text.lower name = tag.key ∧
        ∀ c ∈ blanks, Text.isBlank c = true := by
  obtain ⟨tag', read, matched⟩ := Option.bind_eq_some_iff.mp found
  obtain ⟨mode, known, shape⟩ := Option.map_eq_some_iff.mp matched
  obtain ⟨rfl, ends⟩ := Block.mk.inj shape
  simp only [Block.text, List.drop_left] at ends read
  obtain ⟨_, n, back, whole, cut, length, closes⟩ := extentOf_eq_closed ends
  obtain rfl : closing = back := List.append_cancel_left whole
  obtain ⟨_, rfl, _⟩ := length?_of_take (x := []) (by simpa using cut) (by simpa using length)
  obtain ⟨front, blanks, parts, lower, blank⟩ := ClosingTag.take_of_length? length
  rw [List.take_length] at parts
  obtain ⟨c, front, rfl, head, inner⟩ := List.map_eq_cons_iff.mp lower
  obtain ⟨d, name, rfl, head', same⟩ := List.map_eq_cons_iff.mp inner
  obtain rfl := Text.eq_of_toLower_eq (by decide) head
  obtain rfl := Text.eq_of_toLower_eq (by decide) head'
  refine ⟨by simpa using OpeningTag.read?_cut read [], ⟨mode, known, closes⟩, name, blanks, parts,
    same, blank⟩

namespace Block.Agrees

variable {table : SpellingTable} {canonical : Text} {tag : OpeningTag} {body closing : Text}

/-- No closing tag of the block begins in the opening tag. -/
theorem closes?_opening (agrees : Agrees table canonical tag body closing)
    (read : OpeningTag.read? tag.text = some tag)
    {a b : Text} (split : tag.attributes ++ ['>'] = a ++ b) (more : b ≠ []) (s : Text) :
    table.closes? canonical (b ++ s) = none := by
  cases found : table.closes? canonical (b ++ s) with
  | none => rfl
  | some n =>
    exfalso
    obtain ⟨name, blanks, rest, whole, named, blank, known, rfl⟩ :=
      SpellingTable.closes?_eq_some.mp found
    obtain ⟨c, t, rfl⟩ := List.exists_cons_of_ne_nil more
    obtain rfl : c = '<' := (List.cons.inj whole).1
    obtain ⟨u, attributes, rfl⟩ | ⟨u, _, last⟩ := Text.append_eq_append_cons split
    · -- The bracket stands in quotes, and no closing tag reaches over the quote that ends them.
      have ends : OpeningTag.attributes? none (a ++ '<' :: u ++ '>' :: []) =
        some (a ++ '<' :: u) := by
        rw [← attributes]
        exact (OpeningTag.read?_self read).1
      obtain ⟨q, inside, quote⟩ := OpeningTag.quote_behind_bracket
        (fun _ same => by cases same) ends
      have dark : Text.isNameChar q = false ∧ Text.isBlank q = false ∧ q ≠ '<' ∧ q ≠ '/' := by
        have either : q = '"' ∨ q = '\'' := by simpa [Attribute.isQuote] using quote
        rcases either with rfl | rfl <;> decide
      have shape : ('<' :: u) ++ '>' :: s = ((TagToken.mk true name).text ++ blanks) ++
        '>' :: rest := by
        simpa using whole
      obtain ⟨k, front, _⟩ | ⟨k, front, _⟩ := Text.append_eq_append_cons shape
      · have closes : table.closes? canonical ('<' :: u) = some (name.length + 2) :=
          SpellingTable.closes?_eq_some.mpr ⟨name, blanks, k,
            by rw [front, List.append_assoc], named, blank, known, rfl⟩
        rw [agrees.closers _ ((List.mem_tails _ _).mpr
          (by rw [attributes]; exact List.suffix_append a _))] at closes
        cases closes
      · have among : q ∈ (TagToken.mk true name).text ++ blanks := by
          rw [front]
          simp [inside]
        rcases List.mem_append.mp among with token | space
        · exact @TagToken.not_mem_text ⟨true, name⟩ named q dark.1 dark.2.2.1 dark.2.2.2 token
        · rw [blank q space] at dark
          cases dark.2.1
    · cases u with
      | nil => cases last
      | cons d u => simp at last

/-- All closing tags in the body are covered: those by the name of the block because it ends where
it does, the others by what is asked for. -/
theorem covered (agrees : Agrees table canonical tag body closing)
    (found : closing? .content (ClosingTag.length? tag.key) (body ++ closing) =
      some (body.length, closing.length))
    {w : Text} (bracket : closing = '<' :: w) {k t : Text} {n : Nat} (split : body = k ++ t)
    (more : t ≠ [])
    (closes : table.closes? canonical (t ++ closing) = some n) :
    (shadow .content (body ++ closing) k.length).isSome = true := by
  obtain ⟨name, blanks, rest, whole, named, blank, known, rfl⟩ :=
    SpellingTable.closes?_eq_some.mp closes
  by_cases same : Text.lower name = tag.key
  · have length : ClosingTag.length? tag.key (t ++ closing) =
      some (name.length + 2 + blanks.length + 1) := by
      refine ClosingTag.length?_eq_some.mpr
        ⟨(TagToken.mk true name).text, blanks, rest, whole, ?_, blank, by simp [TagToken.text]⟩
      rw [← same]
      rfl
    have pos := List.length_pos_of_ne_nil more
    exact closing?_earlier (seesTags_length? tag.key) found
      (by rw [split, List.append_assoc]) length
      (by rw [split, List.length_append]; omega)
  · have shape : t ++ closing = ((TagToken.mk true name).text ++ blanks) ++ '>' :: rest := by
      rw [whole, List.append_assoc]
    obtain ⟨m, front, _⟩ | ⟨m, front, behind⟩ := Text.append_eq_append_cons shape
    · have read := @TagToken.read?_text ⟨true, name⟩ named (blanks ++ '>' :: m)
        (SpellingTable.not_isNameChar_closing blank)
      have here : table.closes? canonical t = some (name.length + 2) :=
        SpellingTable.closes?_eq_some.mpr ⟨name, blanks, m,
          by rw [front, List.append_assoc], named, blank, known, rfl⟩
      have place : body.length - t.length = k.length := by
        rw [split, List.length_append, Nat.add_sub_cancel]
      rw [← place]
      refine agrees.others t ((List.mem_tails _ _).mpr
        (by rw [split]; exact List.suffix_append k t)) ⟨true, name⟩ ?_ same
        (by rw [here]; rfl)
      rw [front, List.append_assoc]
      exact read
    · -- A closing tag that begins in the body does not reach over the bracket behind it.
      exfalso
      obtain ⟨c, t, rfl⟩ := List.exists_cons_of_ne_nil more
      have tail : (TagToken.mk true name).text.tail ++ blanks = t ++ m := (List.cons.inj front).2
      rw [bracket] at behind
      cases m with
      | nil => cases behind
      | cons d m =>
        obtain rfl := (List.cons.inj behind).1
        have among : '<' ∈ (TagToken.mk true name).text.tail ++ blanks := by
          rw [tail]
          simp
        rcases List.mem_append.mp among with token | space
        · exact @TagToken.not_mem_tail ⟨true, name⟩ named token
        · exact absurd (blank _ space) (by decide)

/-- Renaming finds the end of the block where it is. -/
theorem closing?_eq (agrees : Agrees table canonical tag body closing)
    (read : OpeningTag.read? tag.text = some tag)
    (found : closing? .content (ClosingTag.length? tag.key) (body ++ closing) =
      some (body.length, closing.length))
    {w : Text} (bracket : closing = '<' :: w) {n : Nat}
    (closes : table.closes? canonical closing = some n) :
    closing? .content (table.closes? canonical) (tag.attributes ++ ['>'] ++ body ++ closing) =
      some ((tag.attributes ++ ['>'] ++ body).length, n) := by
  refine closing?_of_earlier (SpellingTable.seesTags_closes? _ _) rfl closes ?_ fun a b n split
    closes' before => ?_
  · rw [List.append_assoc]
    exact (agrees.shadow_body (w := []) (by simp) rfl closing).mpr (closing?_at found).2
  · obtain ⟨x, tagged⟩ := SpellingTable.seesTags_closes? _ _ _ _ closes'
    have inBody : ∀ k, a = tag.attributes ++ ['>'] ++ k → body ++ closing = k ++ b →
        (shadow .content (tag.attributes ++ ['>'] ++ body ++ closing) a.length).isSome = true := by
      intro k front behind
      obtain ⟨t, rfl, _⟩ | ⟨t, inner, rfl⟩ := List.append_eq_append_iff.mp behind
      · simp only [front, List.length_append] at before
        omega
      · have more : t ≠ [] := by
          rintro rfl
          simp only [front, inner, List.length_append, List.append_nil] at before
          omega
        have word : t.head?.any Text.isWord = false := by
          cases t with
          | nil => rfl
          | cons c t =>
            obtain rfl := (List.cons.inj tagged).1
            rfl
        rw [List.append_assoc, behind, front]
        have covered := agrees.covered found bracket inner more closes'
        rw [behind] at covered
        exact Option.isSome_iff_ne_none.mpr fun bare =>
          Option.isSome_iff_ne_none.mp covered ((agrees.shadow_body inner word _).mp bare)
    rw [List.append_assoc] at split
    obtain ⟨k, front, behind⟩ | ⟨k, front, behind⟩ := List.append_eq_append_iff.mp split
    · exact inBody k front behind
    · by_cases none' : k = []
      · subst none'
        exact inBody [] (by simpa using front.symm) behind.symm
      · rw [behind, agrees.closes?_opening read front none'] at closes'
        cases closes'

/-- Renaming then replaces the name in the opening tag and the one in the closing tag, and nothing
else. -/
theorem rename_closed (agrees : Agrees table canonical tag body closing)
    (read : OpeningTag.read? tag.text = some tag)
    (found : closing? .content (ClosingTag.length? tag.key) (body ++ closing) =
      some (body.length, closing.length))
    (known : table.canonical? tag.name = some canonical)
    (content : table.isContent canonical = true)
    (opening : TagToken.IsName tag.name) {name blanks : Text} (named : TagToken.IsName name)
    (shape : closing = (TagToken.mk true name).text ++ (blanks ++ ['>']))
    (same : Text.lower name = tag.key)
    (blank : ∀ c ∈ blanks, Text.isBlank c = true) :
    table.rename (Block.mk tag (.closed body closing)).text =
      ((Block.mk tag (.closed body closing)).under canonical).text := by
  obtain ⟨ends, stop⟩ := OpeningTag.read?_self read
  have known' : table.canonical? name = some canonical := by
    rw [← known, SpellingTable.canonical?, SpellingTable.canonical?, same]
    rfl
  have closes : table.closes? canonical closing = some (name.length + 2) :=
    SpellingTable.closes?_eq_some.mpr ⟨name, blanks, [], shape, named, blank, known', rfl⟩
  obtain ⟨w, bracket⟩ : ∃ w, closing = '<' :: w := ⟨_, shape⟩
  have place := agrees.closing?_eq read found bracket closes
  have unslashed : TagToken.endsInSlash none false (tag.attributes ++ ['>'] ++ body ++ closing) =
    false := by
    rw [List.append_assoc, OpeningTag.endsInSlash_append (OpeningTag.settles_of_attributes? ends),
      agrees.slash]
  have token : TagToken.read? ((TagToken.mk false tag.name).text ++
    (tag.attributes ++ ['>'] ++ body ++ closing)) =
      some ⟨false, tag.name⟩ := by
    rw [List.append_assoc _ body]
    exact TagToken.read?_text opening (Text.head_append (by simp) stop _)
  have renamed := SpellingTable.rename_block
    ⟨by rwa [← shape], known, content, by rwa [← shape], by rwa [← shape]⟩
  have behind : table.rename (blanks ++ ['>']) = blanks ++ ['>'] :=
    SpellingTable.rename_unmarked (SpellingTable.unmarked_closing blank)
  have text : (Block.mk tag (.closed body closing)).text =
      (TagToken.mk false tag.name).text ++ (tag.attributes ++ ['>'] ++ body ++ closing) := by
    simp [Block.text, OpeningTag.text, TagToken.text]
  have size : name.length = tag.name.length := by
    have sizes := congrArg List.length same
    simpa [Text.lower, OpeningTag.key] using sizes
  have rest : closing.drop (tag.name.length + 2) = blanks ++ ['>'] := by
    rw [shape, ← size, List.drop_left' (by simp [TagToken.text])]
  rw [← shape, behind] at renamed
  rw [text, renamed, Block.under, Block.text]
  simp only [rest]
  simp [OpeningTag.text, TagToken.text]

end Block.Agrees

namespace Registry

/-- The tags of blocks that bear content, however they are spelled. -/
theorem content_of_mode? : ∀ entry ∈ builtIn.table.anySpellingMatcher.modes,
    (builtIn.table.entries.lookup entry.1).any builtIn.table.isContent = true := by
  decide +kernel

/-- Of a text that is one closed block with content only the two names are replaced, if renaming
sees in it what the isolator sees. -/
theorem normalize_block {tag : OpeningTag} {body closing canonical : Text}
    (alone : builtIn.table.anySpellingMatcher.blocks (Block.mk tag (.closed body closing)).text =
      [⟨tag, .closed body closing⟩])
    (known : builtIn.table.canonical? tag.name = some canonical)
    (agrees : Block.Agrees builtIn.table canonical tag body closing) :
    builtIn.normalize (Block.mk tag (.closed body closing)).text =
      ((Block.mk tag (.closed body closing)).under canonical).text := by
  obtain ⟨read, ⟨mode, bears, found⟩, name, blanks, shape, same, blank⟩ :=
    Matcher.blockAt?_closed (Matcher.blockAt?_alone alone)
  obtain ⟨rfl, fits⟩ := Matcher.bearsContent_anySpelling.of_mode? bears
  have content : builtIn.table.isContent canonical = true := by
    obtain ⟨front, back, whole, _⟩ := List.lookup_eq_some_iff.mp bears
    have listed := content_of_mode? (tag.key, .content) (by rw [whole]; simp)
    rw [show builtIn.table.entries.lookup tag.key = some canonical from known] at listed
    exact listed
  have opening : TagToken.IsName tag.name :=
    TagName.isName (show Repair.fits (Text.lower tag.name) = true from fits)
  have named : TagToken.IsName name :=
    TagName.isName (show Repair.fits (Text.lower name) = true by rw [same, fits])
  exact agrees.rename_closed read found known content opening named shape same blank

/-- A file with tags, code and a hunk in its body, and with closing tags by other names of it that
are covered. -/
theorem normalize_block_file :
    let tag : OpeningTag := ⟨"Write_File".toList, " path=\"a>b/</Read>\" x='</edit>'".toList⟩
    let body := "`</write-file>` <Read/> ~~~\n".toList ++
      "<<<<<<< SEARCH </write_file> </write>\n>>>>>>> REPLACE".toList
    let closing := "</WRITE_FILE\n>".toList
    builtIn.table.anySpellingMatcher.blocks (Block.mk tag (.closed body closing)).text =
      [⟨tag, .closed body closing⟩] ∧
      builtIn.table.canonical? tag.name = some "write".toList ∧
      Block.Agrees builtIn.table "write".toList tag body closing ∧
      builtIn.normalize (Block.mk tag (.closed body closing)).text =
        ((Block.mk tag (.closed body closing)).under "write".toList).text := by
  intro tag body closing
  have alone : builtIn.table.anySpellingMatcher.blocks (Block.mk tag (.closed body closing)).text =
      [⟨tag, .closed body closing⟩] := by decide +kernel
  have known : builtIn.table.canonical? tag.name = some "write".toList := by decide +kernel
  have agrees : Block.Agrees builtIn.table "write".toList tag body closing :=
    { slash := by decide +kernel
      closers := by decide +kernel
      code := ⟨by decide +kernel, by decide +kernel⟩
      hunks := by decide +kernel
      others := by decide +kernel }
  exact ⟨alone, known, agrees, normalize_block alone known agrees⟩

/-- Whether a text that is a closed block of a tag has more renamed in it than its two tags, or
less. -/
def Misreads (canonical : Text) (block : Block) : Prop :=
  builtIn.table.anySpellingMatcher.blocks block.text = [block] ∧ block.isClosed = true ∧
    builtIn.table.canonical? block.name = some canonical ∧
      builtIn.normalize block.text ≠ (block.under canonical).text

instance (canonical : Text) (block : Block) : Decidable (Misreads canonical block) :=
  inferInstanceAs (Decidable (_ ∧ _ ∧ _ ∧ _))

/-- Without one of the conditions renaming does not see the end of the block: a slash before a
quoted string, a closing tag, a fence, a backtick or a marker in an attribute, a marker that begins
with the bracket of the tag, and a closing tag by another name of the block each make it rename
inside of the body or take another end for the end of the block. -/
theorem opening_tag_matters :
    Misreads "write".toList ⟨⟨"write".toList, " path=/\"a\"".toList⟩,
      .closed "<Read>".toList "</write>".toList⟩ ∧
      Misreads "write".toList
        ⟨⟨"write".toList, " path=\"</write>\"".toList⟩, .closed "<Read>".toList "</write>".toList⟩ ∧
      Misreads "write".toList
        ⟨⟨"write".toList, " path=\"\n~~~\"".toList⟩, .closed "<Read>".toList "</write>".toList⟩ ∧
      Misreads "write".toList
        ⟨⟨"write".toList, " path=\"\x60\"".toList⟩,
          .closed "\x60</write>\x60<Read>".toList "</write>".toList⟩ ∧
      Misreads "write".toList
        ⟨⟨"write".toList, " path=\"<<<<<<< SEARCH\"".toList⟩,
          .closed "<Read>".toList "</write>".toList⟩ ∧
      Misreads "write".toList ⟨⟨"write".toList, []⟩,
        .closed ">>>>>> REPLACE<<<<<<< SEARCH</write><Read>>>>>>>> REPLACE".toList
          "</write>".toList⟩ ∧
      Misreads "write".toList ⟨⟨"write".toList, []⟩,
        .closed "</write-file><Read>".toList "</write>".toList⟩ := by
  decide +kernel

end Registry

end MarkupActions
