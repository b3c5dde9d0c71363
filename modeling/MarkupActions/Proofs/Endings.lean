import MarkupActions.Proofs.Holding
import MarkupActions.Proofs.Passes
import MarkupActions.Proofs.Payloads
import MarkupActions.Proofs.Placing
import MarkupActions.Proofs.Verbatim

/-!
# The closing tag that ends a text

A bare closing tag at the end of a text comes through mending, renaming and the removal of blocks,
if no block of content has its name: a repair that comes as far as its bracket writes the bracket
again, no block reaches into it, and it is respelled as itself. What stands before it is edited as
if it were the whole text.
-/

namespace MarkupActions

open OpeningTag (Carried)

namespace Repair

variable {repair : Repair} {past content new s : Text} {n : Nat}

/-- What a scanner of attributes has before it: the bracket and what follows that, or else no quote
that would end the one that is open. -/
def Ahead (past : Text) : Option Char → Text → Prop
  | none, s => ∃ w, s = w ++ '<' :: past
  | some quote, s => Attribute.isQuote quote = true ∧ ((∃ w, s = w ++ '<' :: past) ∨ quote ∉ s)

theorem carried_ahead (quotes : ∀ c ∈ past, Attribute.isQuote c = false) :
    Carried (Ahead past) where
  quoted := by
    rintro quote c s ⟨quoted, ⟨w, whole⟩ | absent⟩
    · cases w with
      | nil =>
        obtain ⟨rfl, rfl⟩ := List.cons.inj whole
        have other : '<' ≠ quote := by
          rintro rfl
          cases quoted
        rw [if_neg other]
        refine ⟨quoted, .inr fun inside => ?_⟩
        rw [quotes quote inside] at quoted
        cases quoted
      | cons d w =>
        obtain ⟨rfl, rfl⟩ := List.cons.inj whole
        split
        · exact ⟨w, rfl⟩
        · exact ⟨quoted, .inl ⟨w, rfl⟩⟩
    · simp only [List.mem_cons, not_or] at absent
      rw [if_neg (Ne.symm absent.1)]
      exact ⟨quoted, .inr absent.2⟩
  plain := by
    rintro c s open' _ ⟨w, whole⟩
    cases w with
    | nil => exact False.elim (open' (List.cons.inj whole).1)
    | cons d w =>
      obtain ⟨rfl, rfl⟩ := List.cons.inj whole
      split
      · rename_i quote
        exact ⟨by simpa [Attribute.isQuote] using quote, .inl ⟨w, rfl⟩⟩
      · exact ⟨w, rfl⟩

/-- A change within a text, or one that goes on to the bracket behind it and leaves that. -/
inductive ChangesBefore (content new : Text) (n : Nat) : Prop
  | within (front back : Text) (whole : content = front ++ back) (more : front ≠ [])
      (size : n = front.length)
      (made : Rewrites Mends front new)
  | upTo (content' : Text) (size : n = (content ++ ['<']).length)
      (written : new = content' ++ ['<'])
      (made : Rewrites Mends content content')

/-- Attributes that end a row end before a bracket with no quote behind it. -/
theorem unterminatedSelfClosingRule_before {names : List Text}
    (plain : ∀ name ∈ names, Text.IsPlain name)
    (quotes : ∀ c ∈ past, Attribute.isQuote c = false)
    (fires : unterminatedSelfClosingRule names ('<' :: (content ++ '<' :: past)) = some (n, new)) :
    n ≤ ('<' :: content).length := by
  obtain ⟨front, rest, k, whole, named, read, rfl, _⟩ := unterminatedSelfClosingRule_found fires
  have letters := isNameChar_of_named plain named
  rcases Text.append_eq_append_cons (List.cons.inj whole).2.symm with ⟨m, split, _⟩ | ⟨m, rfl, rfl⟩
  · exact absurd (letters '<' (by rw [split]; simp)) (by decide)
  · obtain ⟨w, left⟩ := (attributeRun_of_length? read).carried (u := m ++ '<' :: past)
      (carried_ahead quotes) ⟨m, rfl⟩
    have stop : Text.isSpaceOrTab '<' = false := by decide
    have blanks : ((w ++ '<' :: past).takeWhile Text.isSpaceOrTab).length ≤ w.length := by
      rw [List.takeWhile_append]
      split
      · simp [stop]
      · exact (List.takeWhile_sublist _).length_le
    have size := congrArg List.length left
    have bound := attributesLength?_le read
    rw [left]
    simp only [List.length_drop, List.length_append, List.length_cons] at size bound ⊢
    omega

/-- A repair stays before a bracket at the end, or comes to it and leaves it. -/
theorem rule_before (orderly : repair.mendsTags = true)
    (quotes : ∀ c ∈ past, Attribute.isQuote c = false)
    (more : content ≠ []) (fires : repair.rule (content ++ '<' :: past) = some (n, new)) :
    ChangesBefore content new n := by
  have plain : ∀ name ∈ repair.sought, Text.IsPlain name :=
    fun name listed => isPlain_of_fits (sought_fits orderly name listed)
  obtain ⟨front, back, whole, rfl, made⟩ := rule_rewrites orderly fires
  by_cases short : ('<' :: front).length ≤ content.length
  · have first : '<' :: front <+: content ++ '<' :: past := ⟨back, whole.symm⟩
    obtain ⟨rest, split⟩ := List.prefix_of_prefix_length_le first
      (List.prefix_append content _) short
    exact .within _ rest split.symm (by simp) rfl made
  · obtain ⟨c, content, rfl⟩ := List.exists_cons_of_ne_nil more
    obtain rfl : c = '<' := (List.cons.inj whole).1
    cases repair with
    | literal old new => cases orderly
    | strayQuote tags =>
      obtain ⟨lead, name, marks, rest, leads, whole', named, _, quoted, size, _⟩ :=
        strayQuoteRule_inv fires
      have letters := isNameChar_of_named plain named
      obtain ⟨slash, rfl, slashes⟩ : ∃ slash, lead = '<' :: slash ∧ '<' ∉ slash := by
        rcases leads with rfl | rfl
        · exact ⟨[], rfl, by simp⟩
        · exact ⟨['/'], rfl, by decide⟩
      have unmarked : '<' ∉ slash ++ (name ++ (marks ++ ['>'])) := by
        simp only [List.mem_append, not_or]
        exact ⟨slashes, fun inside => absurd (letters '<' inside) (by decide),
          fun inside => absurd (quoted '<' inside) (by decide), by decide⟩
      have split : (slash ++ (name ++ (marks ++ ['>']))) ++ rest = content ++ '<' :: past := by
        have inner := (List.cons.inj whole').2
        simpa using inner.symm
      rcases Text.append_eq_append_cons split with ⟨m, inner, _⟩ | ⟨m, rfl, _⟩
      · exact False.elim (unmarked (by rw [inner]; simp))
      · exfalso
        simp only [List.length_append, List.length_cons, List.length_nil] at size short
        omega
    | unterminatedClosing tags =>
      obtain ⟨content', reach, written, made⟩ :=
        unterminatedClosingRule_stop plain (by decide) (by decide) (by decide) fires (by omega)
      exact .upTo content' reach written (made.mono fun _ _ => .closes)
    | unterminatedSelfClosing tags =>
      exact False.elim (short (unterminatedSelfClosingRule_before plain quotes fires))

end Repair

/-- Whether a pass leaves the bracket at the end of every text and what follows it, and edits the
text before. -/
def KeepsEnd (past : Text) (pass : Text → Text) : Prop :=
  ∀ content, ∃ content', pass (content ++ '<' :: past) = content' ++ '<' :: past ∧
    Rewrites Mends content content'

theorem keepsEnd_foldl {α : Type} {past : Text} {pass : Text → α → Text} {steps : List α}
    (keeps : ∀ step ∈ steps, KeepsEnd past fun s => pass s step) :
    KeepsEnd past fun s => steps.foldl pass s := by
  induction steps with
  | nil => exact fun content => ⟨content, rfl, .refl content⟩
  | cons step steps ih =>
    intro content
    obtain ⟨middle, first, made⟩ := keeps step List.mem_cons_self content
    obtain ⟨content', later, made'⟩ := ih
      (fun other inside => keeps other (List.mem_cons_of_mem _ inside)) middle
    refine ⟨content', ?_, made.trans made'⟩
    simp only [List.foldl_cons] at first later ⊢
    rw [first, later]

/-- A repair leaves a bracket at the end at which it finds nothing. -/
theorem Repair.keepsEnd_apply {repair : Repair} (orderly : repair.mendsTags = true) {past : Text}
    (tags : '<' ∉ past)
    (quotes : ∀ c ∈ past, Attribute.isQuote c = false) (quiet : repair.rule ('<' :: past) = none) :
    KeepsEnd past repair.apply := by
  intro content
  rw [apply_eq orderly]
  have kept := patchAll_unmarked orderly tags
  induction size : content.length using Nat.strongRecOn generalizing content with
  | ind size ih =>
    subst size
    cases content with
    | nil => exact ⟨[], by rw [List.nil_append, Text.patchAll_of_none quiet, kept], .refl []⟩
    | cons c content =>
      cases fires : repair.rule (c :: content ++ '<' :: past) with
      | none =>
        obtain ⟨content', step, made⟩ := ih content.length (by simp) content rfl
        refine ⟨c :: content', ?_, made.cons c⟩
        rw [List.cons_append] at fires ⊢
        rw [Text.patchAll_of_none fires, step]
        rfl
      | some change =>
        obtain ⟨n, new⟩ := change
        cases rule_before orderly quotes (by simp) fires with
        | within front back whole more size made =>
          rw [whole] at fires ih ⊢
          subst size
          have less : back.length < (front ++ back).length := by
            rw [List.length_append]
            have := List.length_pos_of_ne_nil more
            omega
          obtain ⟨content', step, made'⟩ := ih back.length less back rfl
          refine ⟨new ++ content', ?_, made.append made'⟩
          rw [List.append_assoc] at fires ⊢
          rw [Text.patchAll_of_some fires more, step, List.append_assoc]
        | upTo content' size written made =>
          refine ⟨content', ?_, made⟩
          have split : c :: content ++ '<' :: past = (c :: content ++ ['<']) ++ past := by simp
          rw [split] at fires ⊢
          rw [size] at fires
          rw [Text.patchAll_of_some fires (by simp), kept, written, List.append_assoc]
          rfl

/-- What cannot reach a bracket at the end: there is a bracket in it, and behind no bracket of it
comes the beginning of what follows the one at the end. -/
structure Short (past u : Text) : Prop where
  bracket : '<' ∈ u
  apart : ∀ a m, u = a ++ '<' :: m → ¬ m <+: past

namespace Layout

variable {Part : Type} {write : Part → Text} {past content : Text}

/-- If no part reaches the bracket at the end, it stands in the last gap. -/
theorem exists_append_last (tags : '<' ∉ past) {l : Layout Part}
    (short : ∀ part ∈ l.parts, Short past (write part))
    (whole : l.text write = content ++ '<' :: past) :
    ∃ front : Layout Part, l = front.append (.last ('<' :: past)) ∧ front.text write = content := by
  induction l generalizing content with
  | last gap => exact ⟨.last content, congrArg last whole, rfl⟩
  | next gap part rest ih =>
    obtain ⟨bracket, apart⟩ := short part List.mem_cons_self
    have cut : gap ++ (write part ++ rest.text write) = content ++ '<' :: past := by
      rw [← whole, text, List.append_assoc]
    rcases Text.append_eq_append_cons cut with ⟨m, _, rfl⟩ | ⟨m, rfl, inner⟩
    · exact False.elim (tags (by simp [bracket]))
    · rcases Text.append_eq_append_cons inner with ⟨k, split, behind⟩ | ⟨k, rfl, later⟩
      · exact False.elim (apart m k split ⟨rest.text write, behind.symm⟩)
      · obtain ⟨front, rfl, same⟩ := ih (fun other inside =>
          short other (List.mem_cons_of_mem _ inside)) later
        exact ⟨.next gap part front, rfl, by rw [text, same, List.append_assoc]⟩

/-- A pass made in the gaps leaves a bracket at the end of the last gap. -/
theorem mapGaps_keepsEnd {f : Text → Text} (keeps : KeepsEnd past f)
    (made : ∀ s, Rewrites Mends s (f s)) (l : Layout Part) :
    ∃ content', ((l.append (.last ('<' :: past))).mapGaps f).text write = content' ++ '<' :: past ∧
      Rewrites Mends (l.text write) content' := by
  induction l with
  | last gap => exact keeps gap
  | next gap part rest ih =>
    obtain ⟨content', step, made'⟩ := ih
    refine ⟨f gap ++ write part ++ content', ?_,
      ((made gap).append_right (write part)).append made'⟩
    rw [append, mapGaps, text, step]
    simp

end Layout

/-- A tag does not reach a bracket behind which comes a slash and no quote. -/
theorem OpeningTag.short_text {tag : OpeningTag} {past : Text} (read : read? tag.text = some tag)
    (slash : past.head? = some '/') (quotes : ∀ c ∈ past, Attribute.isQuote c = false) :
    Short past tag.text where
  bracket := List.mem_cons_self
  apart a m split before := by
    obtain ⟨c, name, shape, letter, letters⟩ := name_of_read? read
    obtain ⟨rest, rfl⟩ := before
    cases a with
    | nil =>
      obtain rfl : tag.name ++ tag.attributes ++ ['>'] = m := (List.cons.inj split).2
      rw [shape] at slash
      obtain rfl : c = '/' := by simpa using slash
      exact absurd letter (by decide)
    | cons d a =>
      have inner : tag.name ++ (tag.attributes ++ ['>']) = a ++ '<' :: m := by
        rw [← List.append_assoc]
        exact (List.cons.inj split).2
      rcases Text.append_eq_append_cons inner with ⟨k, named, _⟩ | ⟨k, _, tail⟩
      · have letter := letters '<' (by rw [named]; simp)
        exact absurd letter (by decide)
      · rcases Text.append_eq_append_cons tail with ⟨j, attributes, behind⟩ | ⟨j, _, last⟩
        · have ends := (read?_self read).1
          rw [attributes] at ends
          obtain ⟨q, inside, quote⟩ := quote_behind_bracket (s := [])
            (fun _ same => by cases same) ends
          rw [quotes q (by rw [behind]; simp [inside])] at quote
          cases quote
        · cases j with
          | nil => cases last
          | cons e j => simp at last

/-- What ends in a tag of its own does not reach a bracket that another tag follows. -/
theorem Short.of_last {past front mark : Text} (tags : '<' ∉ past) (unmarked : '<' ∉ mark)
    (other : ¬ mark <+: past) :
    Short past (front ++ '<' :: mark) where
  bracket := by simp
  apart a m split before := by
    rcases Text.append_eq_append_cons split with ⟨k, _, rfl⟩ | ⟨k, _, behind⟩
    · exact tags (before.subset (by simp))
    · cases k with
      | nil =>
        rw [← (List.cons.inj behind).2] at before
        exact other before
      | cons d k => exact unmarked (by rw [(List.cons.inj behind).2]; simp)

namespace ClosingTag

variable {key closing name written blanks : Text}

/-- A closing tag is no beginning of the bare closing tag of another name. -/
theorem not_prefix_of_ne (plain : Text.IsPlain name) (blank : ∀ c ∈ blanks, Text.isBlank c = true)
    (other : Text.lower written ≠ name) : ¬ written ++ (blanks ++ ['>']) <+: name ++ ['>'] := by
  rintro ⟨rest, whole⟩
  have letters : ∀ c ∈ name, Text.isNameChar c = true :=
    fun c inside => Text.isNameChar_of_isPlainLetter (plain c inside)
  have same : (written ++ blanks) ++ '>' :: rest = name ++ '>' :: [] := by simpa using whole
  rcases Text.append_eq_append_cons same with ⟨k, _, last⟩ | ⟨k, named, last⟩
  · simp at last
  · cases k with
    | cons d k =>
      exact absurd (letters '>' (by rw [named, (List.cons.inj last).1]; simp)) (by decide)
    | nil =>
      have none : blanks = [] := by
        refine List.eq_nil_iff_forall_not_mem.mpr fun c inside => ?_
        have dark := Text.not_blank_of_isNameChar (letters c (by rw [named]; simp [inside]))
        rw [blank c inside] at dark
        cases dark
      obtain rfl : name = written := by rw [named, none]; simp
      exact other (Text.lower_of_isPlain plain)

/-- A closing tag is a bracket and what holds no other. -/
theorem IsOf.exists_mark (closes : IsOf key closing) (tags : '<' ∉ key) :
    ∃ mark, closing = '<' :: mark ∧ '<' ∉ mark ∧
      ∀ name, Text.IsPlain name → key ≠ name → ¬ mark <+: '/' :: (name ++ ['>']) := by
  obtain ⟨written, blanks, rfl, rfl, blank⟩ := closes
  refine ⟨'/' :: (written ++ (blanks ++ ['>'])),
    by simp, fun inside => ?_, fun name plain other before => ?_⟩
  · simp only [List.mem_cons, List.mem_append, List.not_mem_nil, or_false] at inside
    rcases inside with slash | letter | space | last
    · exact absurd slash (by decide)
    · exact tags (List.mem_map_of_mem (f := Char.toLower) letter)
    · exact absurd (blank '<' space) (by decide)
    · exact absurd last (by decide)
  · exact not_prefix_of_ne plain blank other (List.cons_prefix_cons.mp before).2

end ClosingTag

theorem Text.unmarked_closing {name : Text} (plain : IsPlain name) :
    '<' ∉ '/' :: (name ++ ['>']) ∧ ∀ c ∈ '/' :: (name ++ ['>']), Attribute.isQuote c = false := by
  have dark : ∀ c ∈ '/' :: (name ++ ['>']), c ≠ '<' ∧ Attribute.isQuote c = false := by
    intro c inside
    simp only [List.mem_cons, List.mem_append, List.not_mem_nil, or_false] at inside
    rcases inside with rfl | letter | rfl
    · decide
    · have passed := OpeningTag.isNameChar_passedOver c
        (isNameChar_of_isPlainLetter (plain c letter))
      exact ⟨passed.1, by simp [Attribute.isQuote, passed]⟩
    · decide
  exact ⟨fun inside => (dark '<' inside).1 rfl, fun c inside => (dark c inside).2⟩

/-- No block reaches the closing tag at the end if the matcher does not know its name. -/
theorem Matcher.short_block {m : Matcher} {block : Block} {name x : Text}
    (found : m.blockAt? (block.text ++ x) = some block) (plain : Text.IsPlain name)
    (unknown : m.mode? name = none) :
    Short ('/' :: (name ++ ['>'])) block.text := by
  obtain ⟨tags, quotes⟩ := Text.unmarked_closing plain
  obtain ⟨known, bare, closed, _⟩ := sound_of_blockAt? found
  obtain ⟨tag, read, matched⟩ := Option.bind_eq_some_iff.mp found
  obtain rfl := blockOf?_tag matched
  cases body : block.body? with
  | none =>
    rw [bare body] at read ⊢
    exact OpeningTag.short_text (by simpa using OpeningTag.read?_cut read []) rfl quotes
  | some inner =>
    obtain ⟨closing, closes, text⟩ := closed inner body
    have key : '<' ∉ block.name := by
      obtain ⟨_, _, _, _, letters⟩ := OpeningTag.name_of_read? read
      intro inside
      obtain ⟨c, member, same⟩ := List.mem_map.mp inside
      obtain rfl := Text.eq_of_toLower_eq (by decide) same
      exact absurd (letters '<' member) (by decide)
    obtain ⟨mark, rfl, unmarked, other⟩ := closes.exists_mark key
    rw [text]
    refine .of_last tags unmarked (other name plain ?_)
    rintro rfl
    rw [contains, Text.lower_of_isPlain plain, unknown] at known
    cases known

/-- A closing tag that no block takes stands in the last gap of the layout. -/
theorem Matcher.layout_closing {m : Matcher} {name : Text} (plain : Text.IsPlain name)
    (unknown : m.mode? name = none)
    (content : Text) : ∃ front : Layout Block,
      m.layout (content ++ closingTag name) = front.append (.last (closingTag name)) ∧
        front.text Block.text = content := by
  refine Layout.exists_append_last (Text.unmarked_closing plain).1 (fun block inside => ?_)
    (m.layout_text _)
  obtain ⟨rest, found⟩ := blockAt?_of_mem_blocks inside
  exact short_block found plain unknown

/-- A token that begins the closing tag of a name, of which no other known name is a beginning, is
all of it but the bracket. -/
theorem TagToken.eq_of_closingTag {table : SpellingTable} {token : TagToken} {tag name back : Text}
    (named : IsName token.name) (plain : Text.IsPlain name)
    (whole : token.text ++ back = closingTag name)
    (known : table.canonical? token.name = some tag)
    (fixed : ∀ entry ∈ table.entries, entry.1 <+: name → entry = (name, name)) :
    TagToken.mk token.closing tag = token := by
  obtain ⟨closing, key⟩ := token
  cases closing with
  | false =>
    exfalso
    obtain ⟨c, rest, rfl⟩ : ∃ c rest, key = c :: rest :=
      List.exists_cons_of_ne_nil (by rintro rfl; cases named.1)
    obtain rfl : c = '/' := (List.cons.inj (List.cons.inj whole).2).1
    exact ne_slash_of_isName named rfl
  | true =>
    have inner : key ++ back = name ++ '>' :: [] := (List.cons.inj (List.cons.inj whole).2).2
    rcases Text.append_eq_append_cons inner with ⟨k, long, _⟩ | ⟨k, rfl, _⟩
    · exact False.elim (not_mem_of_isName named (by decide : Text.isNameChar '>' = false)
        (by rw [long]; simp))
    · have letters : Text.IsPlain key := fun c inside => plain c (by simp [inside])
      have entry := SpellingTable.mem_of_canonical? known
      rw [Text.lower_of_isPlain letters] at entry
      obtain ⟨same, rfl⟩ := Prod.mk.inj (fixed _ entry (List.prefix_append key k))
      rw [← same]

namespace Registry

variable {name : Text}

/-- A family that mends a text leaves the closing tag at its end. -/
theorem mendWith_keepsEnd {family : Family} (member : family ∈ Family.builtIn)
    (plain : Text.IsPlain name)
    (unknown : builtIn.table.anySpellingMatcher.mode? name = none) :
    KeepsEnd ('/' :: (name ++ ['>'])) fun s => mendWith builtIn.table s family := by
  intro content
  obtain ⟨tags, quotes⟩ := Text.unmarked_closing plain
  have orderly := Repair.builtIn_mendsTags family member
  have letters : ∀ c ∈ name, Text.isNameChar c = true :=
    fun c inside => Text.isNameChar_of_isPlainLetter (plain c inside)
  have keeps : KeepsEnd ('/' :: (name ++ ['>'])) (Repair.applyAll family.repairs) :=
    keepsEnd_foldl fun repair inside => Repair.keepsEnd_apply (orderly repair inside) tags quotes
      (Repair.rule_bare (orderly repair inside) (.inr rfl) letters [])
  obtain ⟨front, cut, rfl⟩ := builtIn.table.anySpellingMatcher.layout_closing plain unknown content
  have chosen : ((Layout.last (closingTag name)).select (foreign builtIn.table family) Block.text) =
      .last (closingTag name) := rfl
  have kept := @Layout.mapGaps_keepsEnd _ Block.text _ _ keeps (Repair.applyAll_rewrites orderly)
    (front.select (foreign builtIn.table family) Block.text)
  rw [Layout.text_select] at kept
  show ∃ content', mendWith builtIn.table (front.text Block.text ++ closingTag name) family = _ ∧ _
  rwa [mendWith_eq, cut, Layout.select_append, chosen]

/-- Mending leaves a closing tag at the end of a text alone. -/
theorem mend_closing (plain : Text.IsPlain name)
    (unknown : builtIn.table.anySpellingMatcher.mode? name = none)
    (content : Text) : ∃ content', builtIn.mend
    (content ++ closingTag name) = content' ++ closingTag name ∧
      Rewrites Mends content content' :=
  keepsEnd_foldl (fun _ member => mendWith_keepsEnd member plain unknown) content

/-- Renaming leaves a closing tag at the end of a text alone if no other name begins its name, which
is canonical. -/
theorem normalize_closing (plain : Text.IsPlain name)
    (fixed : ∀ entry ∈ builtIn.table.entries, entry.1 <+: name → entry = (name, name))
    (content : Text) :
    ∃ content', builtIn.normalize (content ++ closingTag name) = content' ++ closingTag name ∧
      Rewrites (Respells builtIn.table) content content' := by
  obtain ⟨tags, _⟩ := Text.unmarked_closing plain
  have step : ∀ s t, EditStep (Respells builtIn.table) s t →
      (∃ content', s = content' ++ closingTag name ∧
        Rewrites (Respells builtIn.table) content content') →
      ∃ content', t = content' ++ closingTag name ∧
        Rewrites (Respells builtIn.table) content content' := by
    rintro s t ⟨front, back, made⟩ ⟨content', whole, run⟩
    rename_i old new
    have single := Rewrites.single made
    obtain ⟨token, tag, named, known⟩ := made
    obtain ⟨slash, shape, _⟩ := token.text_eq
    rcases Text.append_eq_append_cons whole with ⟨m, _, inner⟩ | ⟨m, rfl, inner⟩
    · exact False.elim (tags (by rw [inner, shape]; simp))
    · rcases Text.append_eq_append_cons inner with ⟨k, split, behind⟩ | ⟨k, rfl, rfl⟩
      · cases m with
        | cons c m => exact False.elim (TagToken.not_mem_tail named (by rw [split]; simp))
        | nil =>
          -- the token begins the closing tag, so it is all of its name and becomes itself
          have same : token.text ++ back = closingTag name := by rw [split, closingTag, behind]; rfl
          rw [TagToken.eq_of_closingTag named plain same known fixed]
          exact ⟨front, by rw [same], by simpa using run⟩
      · exact ⟨front ++ ((TagToken.mk token.closing tag).text ++ k), by simp [closingTag],
          run.trans ((single.append_right k).append_left front)⟩
  exact (SpellingTable.rename_rewrites _).preserves step ⟨content, rfl, .refl content⟩

end Registry

end MarkupActions
