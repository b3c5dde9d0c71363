import Mathlib.Data.List.Infix
import MarkupActions.Proofs.Mending
import MarkupActions.Proofs.Renamed

/-!
# Tidy texts

Repairs are conservative: where every tag that they are built for is complete, they write back what
they read. The one layout that they misread is a tag over several rows in which a row ends behind an
attribute and the next begins with a name that stands alone.
-/

namespace MarkupActions

/-- A text into which each change writes what stood there is left alone. -/
theorem Text.patchAll_of_keeps {patch : Patch} {s : Text}
    (keeps : ∀ a b, s = a ++ b → ∀ n new, patch b = some (n, new) →
      new ≠ [] ∧ new.length = n ∧ ∃ back, b = new ++ back) : patchAll patch s = s := by
  induction size : s.length using Nat.strongRecOn generalizing s with
  | ind size ih =>
    subst size
    cases s with
    | nil => simp [patchAll]
    | cons c s =>
      cases found : patch (c :: s) with
      | none =>
        rw [patchAll_of_none found, ih s.length (by simp)
          (fun a b whole => keeps (c :: a) b (by simp [whole])) rfl]
      | some change =>
        obtain ⟨n, new⟩ := change
        obtain ⟨more, rfl, back, whole⟩ := keeps [] _ rfl n new found
        have pos := List.length_pos_of_ne_nil more
        have behind := ih back.length (by rw [whole, List.length_append]; omega)
          (fun a b split => keeps (new ++ a) b (by rw [whole, split, List.append_assoc])) rfl
        rw [whole] at found ⊢
        rw [patchAll_of_some found more, behind]

/-- What follows a stretch of a text that ends before a tag or with the text. -/
def Edge (b : Text) : Prop := b = [] ∨ ∃ x, b = '<' :: x

theorem Edge.stop {b : Text} (edge : Edge b) {p : Char → Bool} (dark : p '<' = false) :
    b.head?.any p = false := by
  obtain rfl | ⟨x, rfl⟩ := edge
  · rfl
  · simpa using dark

namespace Repair

variable {u b : Text}

theorem afterEquals?_edge (edge : Edge b) :
    afterEquals? (u ++ b) = (afterEquals? u).map (· ++ b) := by
  have names := edge.stop (p := Text.isNameChar) (by decide)
  have blanks := edge.stop (p := Text.isBlank) (by decide)
  rw [afterEquals?_eq, afterEquals?_eq, Text.takeWhile_append_of_stop names,
    Text.dropWhile_append_of_stop names, Text.dropWhile_append_of_stop blanks]
  by_cases empty : (u.takeWhile Text.isNameChar).isEmpty
  · simp [empty]
  · cases (u.dropWhile Text.isNameChar).dropWhile Text.isBlank with
    | nil =>
      obtain rfl | ⟨x, rfl⟩ := edge
      · simp [empty]
      · simp [empty]
    | cons c w =>
      by_cases equals : c = '='
      · subst equals
        simp [empty, Text.dropWhile_append_of_stop blanks]
      · simp [empty, equals]

theorem goesOn_iff {s : Text} :
    goesOn s = true ↔ (∃ w, Text.trimStart s = '>' :: w) ∨
      (∃ w, Text.trimStart s = '/' :: '>' :: w) ∨
      (afterEquals? (Text.trimStart s)).isSome = true := by
  unfold goesOn
  constructor
  · intro goes
    split at goes
    · rename_i w whole
      exact .inl ⟨w, whole⟩
    · rename_i w whole
      exact .inr (.inl ⟨w, whole⟩)
    · exact .inr (.inr goes)
  · intro cases'
    split
    · rfl
    · rfl
    · rename_i close slash
      rcases cases' with ⟨w, whole⟩ | ⟨w, whole⟩ | equals
      · exact False.elim (close w whole)
      · exact False.elim (slash w whole)
      · exact equals

/-- A tag that goes on does so before the next tag begins. -/
theorem goesOn_edge (edge : Edge b) (goes : goesOn (u ++ b) = true) : goesOn u = true := by
  have trimmed : Text.trimStart (u ++ b) = Text.trimStart u ++ b :=
    Text.dropWhile_append_of_stop (edge.stop (by decide))
  have head : ∀ {c w x}, c ≠ '<' → w ++ b = c :: x → ∃ v, w = c :: v ∧ v ++ b = x := by
    intro c w x other whole
    cases w with
    | nil =>
      obtain rfl | ⟨y, rfl⟩ := edge
      · cases whole
      · exact False.elim (other (List.cons.inj whole).1.symm)
    | cons d w =>
      obtain ⟨rfl, rfl⟩ := List.cons.inj whole
      exact ⟨w, rfl, rfl⟩
  rw [goesOn_iff, trimmed, afterEquals?_edge edge, Option.isSome_map] at goes
  refine goesOn_iff.mpr ?_
  rcases goes with ⟨x, whole⟩ | ⟨x, whole⟩ | equals
  · obtain ⟨v, left, _⟩ := head (by decide) whole
    exact .inl ⟨v, left⟩
  · obtain ⟨v, left, rest⟩ := head (by decide) whole
    obtain ⟨w, right, _⟩ := head (by decide) rest
    exact .inr (.inl ⟨w, by rw [left, right]⟩)
  · exact .inr (.inr equals)

/-- Whether each row that ends behind an equals sign of a tag is followed by one more attribute or
by the end of the tag. The first argument is the quote that is open, the second whether an equals
sign has been passed; what stands in quotes counts for neither. -/
def rowsGoOn : Option Char → Bool → Text → Bool
  | _, _, [] => true
  | some quote, seen, c :: s => rowsGoOn (if c = quote then none else some quote) seen s
  | none, seen, c :: s =>
    if c = '<' ∨ c = '>' then true
    else if c = '"' ∨ c = '\'' then rowsGoOn (some c) seen s
    else (!seen || c != '\n' || goesOn s) && rowsGoOn none (seen || c == '=') s

/-- The names of the tags that a repair may end at the end of a row. -/
def rowTags : Repair → List Text
  | unterminatedSelfClosing tags => names tags
  | _ => []

theorem rowsGoOn_weaken {quote : Option Char} {s : Text} (goes : rowsGoOn quote true s = true) :
    rowsGoOn quote false s = true := by
  induction s generalizing quote with
  | nil => cases quote <;> rfl
  | cons c s ih =>
    cases quote with
    | some q => exact ih goes
    | none =>
      unfold rowsGoOn at goes ⊢
      split at goes
      · rename_i bracket
        rw [if_pos bracket]
      · rename_i bracket
        rw [if_neg bracket]
        split at goes
        · rename_i quoted
          rw [if_pos quoted]
          exact ih goes
        · rename_i quoted
          rw [if_neg quoted]
          have rest := (Bool.and_eq_true_iff.mp goes).2
          rw [Bool.true_or] at rest
          by_cases equals : c = '='
          · simpa [equals] using rest
          · simpa [beq_false_of_ne equals] using ih rest

/-- Inside of a tag that is complete with what follows the stretch, and that goes on behind each of
its rows. -/
def Within (b : Text) (seen : Bool) (quote : Option Char) (s : Text) : Prop :=
  (OpeningTag.attributes? quote (s ++ b)).isSome = true ∧ rowsGoOn quote seen (s ++ b) = true

theorem within_carried {seen : Bool} : OpeningTag.Carried (Within b seen) where
  quoted := by
    rintro quote c s ⟨ends, goes⟩
    refine ⟨?_, goes⟩
    simpa [OpeningTag.attributes?] using ends
  plain := by
    rintro c s open' close ⟨ends, goes⟩
    refine ⟨by simpa [OpeningTag.attributes?, open', close] using ends, ?_⟩
    rw [List.cons_append, rowsGoOn, if_neg (by simp [open', close])] at goes
    split at goes
    · rename_i quoted
      rwa [if_pos quoted]
    · rename_i quoted
      rw [if_neg quoted]
      have rest := (Bool.and_eq_true_iff.mp goes).2
      cases seen with
      | true => exact rest
      | false =>
        by_cases equals : c = '='
        · exact rowsGoOn_weaken (by simpa [equals] using rest)
        · simpa [beq_false_of_ne equals] using rest

theorem Within.afterEquals? {tail : Text} (within : Within b false none u)
    (found : Repair.afterEquals? u = some tail) :
    Within b true none tail := by
  have left := within_carried.dropWhile OpeningTag.isBlank_passedOver
    (within_carried.dropWhile OpeningTag.isNameChar_passedOver within)
  rw [afterEquals?_eq] at found
  split at found
  · cases found
  · split at found
    · rename_i rest equals
      rw [equals] at left
      obtain ⟨ends, goes⟩ := left
      have behind : Within b true none rest := by
        refine ⟨by simpa [OpeningTag.attributes?] using ends, ?_⟩
        rw [List.cons_append, rowsGoOn] at goes
        simpa using goes
      rw [← Option.some.inj found]
      exact within_carried.dropWhile OpeningTag.isBlank_passedOver behind
    · cases found

/-- Behind its attributes the tag is still open, and an equals sign has been passed. -/
theorem Within.attributesLength? {n : Nat} (within : Within b false none u)
    (found : Repair.attributesLength? u = some n) : Within b true none (u.drop n) := by
  have behind : ∀ first, attributeLength? u = some first → Within b true none (u.drop first) := by
    intro first read
    obtain ⟨front, tail, m, rfl, equals, value, rfl⟩ := attributeLength?_split read
    have trimmed := within_carried.dropWhile OpeningTag.isBlank_passedOver within
    have rest := carried_valueLength? within_carried (trimmed.afterEquals? equals) value
    rw [List.drop_append, List.drop_eq_nil_of_le (by omega)]
    simpa using rest
  cases attributeRun_of_length? found with
  | last read => exact behind _ read
  | next read rest =>
    rw [← List.drop_drop]
    exact rest.carried within_carried (behind _ read)

/-- Where attributes end a row of such a tag, it goes on. -/
theorem Within.goesOn {n : Nat} (edge : Edge b) (within : Within b false none u)
    (found : Repair.attributesLength? u = some n) :
    Repair.goesOn ((u.drop n).dropWhile Text.isSpaceOrTab) = true := by
  have ended := attributesLength?_endsLine found
  obtain ⟨ends, goes⟩ :=
    within_carried.dropWhile OpeningTag.isSpaceOrTab_passedOver (within.attributesLength? found)
  rw [endsLine] at ended
  cases left : (u.drop n).dropWhile Text.isSpaceOrTab with
  | nil =>
    -- The tag is not over where the stretch is.
    rw [left, List.nil_append] at ends
    obtain rfl | ⟨x, rfl⟩ := edge
    · simp [OpeningTag.attributes?] at ends
    · simp [OpeningTag.attributes?] at ends
  | cons c w =>
    rw [left] at ended goes
    have newline : c = '\n' := by simpa using ended
    subst newline
    rw [List.cons_append, rowsGoOn] at goes
    have next : Repair.goesOn (w ++ b) = true := by
      have both : Repair.goesOn (w ++ b) = true ∧ rowsGoOn none true (w ++ b) = true := by
        simpa using goes
      exact both.1
    exact goesOn_edge edge next

end Repair

open Repair (Named)

instance (names : List Text) (front : Text) : Decidable (Named names front) :=
  inferInstanceAs (Decidable (∃ name ∈ names,
    List.Forall₂ (fun n c => Text.sameFolded c n = true) name front))

/-- Whether the tag that a token begins is complete with the text behind it: a closing tag has
nothing but white space before its end; an opening tag can be read, and no quote stands right behind
its name. -/
def TagToken.Complete (token : TagToken) (rest : Text) : Prop :=
  if token.closing then (Text.trimStart rest).head? = some '>'
  else (OpeningTag.read? (token.text ++ rest)).isSome = true ∧
    rest.head?.any Attribute.isQuote = false

instance (token : TagToken) (rest : Text) : Decidable (token.Complete rest) :=
  inferInstanceAs (Decidable (if token.closing then _ else _))

/-- The attributes of a tag that can be read begin where its name ends. -/
theorem TagToken.attributes?_of_read? {name rest : Text} (named : IsName name)
    (stop : rest.head?.any Text.isNameChar = false)
    (read : (OpeningTag.read? ((TagToken.mk false name).text ++ rest)).isSome = true) :
    (OpeningTag.attributes? none rest).isSome = true := by
  cases name with
  | nil => cases named.1
  | cons c name =>
    have whole : (TagToken.mk false (c :: name)).text ++ rest = '<' :: c :: (name ++ rest) := rfl
    have behind : (name ++ rest).dropWhile Text.isNameChar = rest :=
      Text.dropWhile_exact named.2 stop
    rw [whole, OpeningTag.read?, behind] at read
    split at read
    · simpa using read
    · cases read

/-- Whether an opening tag goes on behind each of its rows that ends with an attribute. -/
def TagToken.RowsGoOn (token : TagToken) (rest : Text) : Prop :=
  token.closing = true ∨ Repair.rowsGoOn none false rest = true

instance (token : TagToken) (rest : Text) : Decidable (token.RowsGoOn rest) :=
  inferInstanceAs (Decidable (_ ∨ _))

/-- Whether all tokens of a text that stand for one of some names, in any letter case, have a
property, given what follows them. -/
def EachToken (names : List Text) (P : TagToken → Text → Prop) (s : Text) : Prop :=
  ∀ t ∈ s.tails, ∀ token ∈ TagToken.read? t, Named names token.name →
    P token (t.drop token.text.length)

instance (names : List Text) (P : TagToken → Text → Prop) [∀ token rest, Decidable (P token rest)]
    (s : Text) :
    Decidable (EachToken names P s) :=
  inferInstanceAs (Decidable (∀ t ∈ s.tails, ∀ token ∈ TagToken.read? t, _ → _))

namespace Repair

variable {names : List Text} {P : TagToken → Text → Prop} {a b y : Text}

theorem isName_of_named {front : Text} (orderly : ∀ name ∈ names, fits name = true)
    (named : Named names front) :
    TagToken.IsName front := by
  have letters := isNameChar_of_named
    (fun name inside => isPlain_of_fits (orderly name inside)) named
  obtain ⟨c, tail, rfl, starts⟩ := startsName_of_named orderly named
  exact ⟨by simpa using starts, fun d inside => letters d (List.mem_cons_of_mem _ inside)⟩

/-- What stands for a name is a token if no more of a name follows it. -/
theorem each_at {closing : Bool} {front rest : Text}
    (each : EachToken names P (a ++ ((TagToken.mk closing front).text ++ rest)))
    (orderly : ∀ name ∈ names, fits name = true) (named : Named names front)
    (stop : rest.head?.any Text.isNameChar = false) : P ⟨closing, front⟩ rest := by
  have read := @TagToken.read?_text ⟨closing, front⟩ (isName_of_named orderly named) rest stop
  have held := each _ ((List.mem_tails _ _).mpr (List.suffix_append a _)) _ read named
  rwa [List.drop_left] at held

/-- No quote is taken out behind a name that is complete. -/
theorem strayQuoteRule_of_complete (orderly : ∀ name ∈ names, fits name = true)
    (complete : EachToken names TagToken.Complete (a ++ (y ++ b))) :
    strayQuoteRule names y = none := by
  cases fires : strayQuoteRule names y with
  | none => rfl
  | some change =>
    obtain ⟨lead, front, quotes, rest, either, rfl, named, more, quoted, _⟩ :=
      strayQuoteRule_inv fires
    obtain ⟨q, tail, rfl⟩ := List.exists_cons_of_ne_nil more
    have quote := quoted q List.mem_cons_self
    have mark : Text.isMark q = true := by
      have double : q = '"' ∨ q = '\'' := by simpa [Attribute.isQuote] using quote
      rcases double with rfl | rfl <;> decide
    have stop : ((q :: tail ++ '>' :: rest) ++ b).head?.any Text.isNameChar = false := by
      cases letter : Text.isNameChar q with
      | false => simpa using letter
      | true =>
        rw [Text.not_mark_of_isNameChar letter] at mark
        cases mark
    have shape : a ++ (lead ++ (front ++ (q :: tail ++ '>' :: rest)) ++ b) =
        a ++ ((lead ++ front) ++ ((q :: tail ++ '>' :: rest) ++ b)) := by
          simp only [List.append_assoc]
    rw [shape] at complete
    rcases either with rfl | rfl
    · have opens : TagToken.Complete ⟨false, front⟩ ((q :: tail ++ '>' :: rest) ++ b) :=
        each_at complete orderly named stop
      obtain ⟨_, unquoted⟩ := opens
      simp [quote] at unquoted
    · have closes : TagToken.Complete ⟨true, front⟩ ((q :: tail ++ '>' :: rest) ++ b) :=
        each_at complete orderly named stop
      have dark : Text.isBlank q = false := by
        cases blank : Text.isBlank q with
        | false => rfl
        | true =>
          rw [Text.not_mark_of_isBlank blank] at mark
          cases mark
      have head : q = '>' := by simpa [TagToken.Complete, Text.trimStart, dark] using closes
      rw [head] at quote
      exact absurd quote (by decide)

/-- No closing tag is ended that is complete. -/
theorem unterminatedClosingRule_of_complete (orderly : ∀ name ∈ names, fits name = true)
    (edge : Edge b)
    (complete : EachToken names TagToken.Complete (a ++ (y ++ b))) :
    unterminatedClosingRule names y = none := by
  cases fires : unterminatedClosingRule names y with
  | none => rfl
  | some change =>
    obtain ⟨front, rest, rfl, named, ends⟩ := unterminatedClosingRule_inv fires
    have shape : a ++ ('<' :: '/' :: (front ++ rest) ++ b) =
        a ++ ((TagToken.mk true front).text ++ (rest ++ b)) := by simp [TagToken.text]
    rw [shape] at complete
    have blanks : ∀ {c}, Text.isBlank c = true → Text.isNameChar c = false := by
      intro c blank
      cases letter : Text.isNameChar c with
      | false => rfl
      | true =>
        rw [Text.not_blank_of_isNameChar letter] at blank
        cases blank
    have trimmed : Text.trimStart (rest ++ b) = Text.trimStart rest ++ b :=
      Text.dropWhile_append_of_stop (edge.stop (by decide))
    -- Either white space follows the name or, with nothing left of the stretch, its end.
    have stop : (rest ++ b).head?.any Text.isNameChar = false := by
      cases rest with
      | nil => exact edge.stop (by decide)
      | cons c w =>
        cases blank : Text.isBlank c with
        | true => simpa using blanks blank
        | false =>
          rcases ends with ⟨none', _⟩ | ⟨_, _, _, some', _⟩
          · simp [blank] at none'
          · simp [blank] at some'
    have closes := each_at complete orderly named stop
    rw [TagToken.Complete, if_pos rfl, trimmed] at closes
    rcases ends with ⟨none', _⟩ | ⟨c, tail, left, _, other, _⟩
    · rw [Text.trimStart, none', List.nil_append] at closes
      obtain rfl | ⟨x, rfl⟩ := edge
      · cases closes
      · cases closes
    · rw [Text.trimStart, left] at closes
      exact False.elim (other (Option.some.inj closes))

/-- An opening tag that is complete and goes on is written back as it stands. -/
theorem unterminatedSelfClosingRule_of_complete {n : Nat} {new : Text}
    (orderly : ∀ name ∈ names, fits name = true)
    (edge : Edge b) (complete : EachToken names TagToken.Complete (a ++ (y ++ b)))
    (rows : EachToken names TagToken.RowsGoOn (a ++ (y ++ b)))
    (fires : unterminatedSelfClosingRule names y = some (n, new)) :
    new ≠ [] ∧ new.length = n ∧ ∃ back, y = new ++ back := by
  obtain ⟨front, rest, k, rfl, named, read, rfl, rfl⟩ := unterminatedSelfClosingRule_found fires
  have bound := attributesLength?_le read
  obtain ⟨c, w, shape, blank, _⟩ := attributesLength?_blank read
  have stop : (rest ++ b).head?.any Text.isNameChar = false := by
    rw [shape]
    cases letter : Text.isNameChar c with
    | false => simpa using letter
    | true =>
      rw [Text.not_blank_of_isNameChar letter] at blank
      cases blank
  have token : a ++ ('<' :: (front ++ rest) ++ b) = a ++
    ((TagToken.mk false front).text ++ (rest ++ b)) := by
    simp [TagToken.text]
  rw [token] at complete rows
  have within : Within b false none rest := by
    obtain ⟨opens, _⟩ := each_at complete orderly named stop
    have goes : TagToken.RowsGoOn ⟨false, front⟩ (rest ++ b) := each_at rows orderly named stop
    exact ⟨TagToken.attributes?_of_read? (isName_of_named orderly named) stop opens,
      by simpa [TagToken.RowsGoOn] using goes⟩
  have goes := within.goesOn edge read
  rw [if_pos goes]
  refine ⟨by simp, by simp; omega, (rest.drop k).dropWhile Text.isSpaceOrTab, ?_⟩
  rw [List.cons_append, List.append_assoc, List.append_assoc, List.takeWhile_append_dropWhile,
    List.take_append_drop]

/-- A stretch of a tidy text up to the next tag or to the end is left alone by a repair of its tags.
-/
theorem apply_eq_self {repair : Repair} (orderly : repair.mendsTags = true) (edge : Edge b)
    (complete : EachToken repair.sought TagToken.Complete (a ++ (y ++ b)))
    (rows : EachToken repair.rowTags TagToken.RowsGoOn (a ++ (y ++ b))) : repair.apply y = y := by
  rw [apply_eq orderly]
  refine Text.patchAll_of_keeps fun front back whole n new fires => ?_
  subst whole
  rw [List.append_assoc, ← List.append_assoc a] at complete rows
  have fit := sought_fits orderly
  cases repair with
  | strayQuote tags => cases (strayQuoteRule_of_complete fit complete).symm.trans fires
  | unterminatedClosing tags =>
    cases (unterminatedClosingRule_of_complete fit edge complete).symm.trans fires
  | unterminatedSelfClosing tags =>
    exact unterminatedSelfClosingRule_of_complete fit edge complete rows fires
  | literal old new => cases orderly

end Repair

/-- Where every gap is left alone, the layout is. -/
theorem Layout.mapGaps_eq_self {Part : Type} {write : Part → Text} {f : Text → Text}
    {l : Layout Part}
    (parts : ∀ part ∈ l.parts, ∃ x, write part = '<' :: x)
    (keeps : ∀ a g b, l.text write = a ++ (g ++ b) → Edge b → f g = g) : l.mapGaps f = l := by
  induction l with
  | last gap => rw [mapGaps, keeps [] gap [] (by simp [text]) (.inl rfl)]
  | next gap part rest ih =>
    obtain ⟨x, first⟩ := parts part List.mem_cons_self
    have here : f gap = gap :=
      keeps [] gap _ (by rw [text, List.append_assoc]; rfl)
        (.inr ⟨x ++ rest.text write, by rw [first]; rfl⟩)
    have behind := ih (fun other inside => parts other (List.mem_cons_of_mem _ inside)) fun a g b
      whole =>
      keeps (gap ++ write part ++ a) g b (by simp only [text, whole, List.append_assoc])
    rw [mapGaps, here, behind]

theorem Block.text_eq (block : Block) : ∃ x, block.text = '<' :: x := by
  unfold Block.text OpeningTag.text
  split
  · exact ⟨_, rfl⟩
  · exact ⟨_, rfl⟩

theorem EachToken.mono {names fewer : List Text} {P : TagToken → Text → Prop} {s : Text}
    (less : ∀ name ∈ fewer, name ∈ names) (each : EachToken names P s) : EachToken fewer P s := by
  rintro t ends token read ⟨name, listed, matched⟩
  exact each t ends token read ⟨name, less name listed, matched⟩

namespace Registry

/-- A family leaves a text alone in which its tags are tidy. -/
theorem mendWith_eq_self {table : SpellingTable} {family : Family} {s : Text}
    (orderly : ∀ repair ∈ family.repairs, repair.mendsTags = true)
    (complete : ∀ repair ∈ family.repairs, EachToken repair.sought TagToken.Complete s)
    (rows : ∀ repair ∈ family.repairs, EachToken repair.rowTags TagToken.RowsGoOn s) :
    mendWith table s family = s := by
  have text := (Layout.text_select (foreign table family) (table.anySpellingMatcher.layout s)).trans
    (Matcher.layout_text table.anySpellingMatcher s)
  rw [mendWith_eq, Repair.applyOutside, @Layout.mapGaps_eq_self _ Block.text, text]
  · exact fun block _ => block.text_eq
  · intro a g b whole edge
    rw [text] at whole
    subst whole
    exact foldl_eq_self fun repair inside =>
      Repair.apply_eq_self (orderly repair inside) edge (complete repair inside)
        (rows repair inside)

/-- The names that tags are known by: those in the table, and those that stand inside of an edit. -/
def tagNames (registry : Registry) : List Text :=
  registry.table.entries.map (·.1) ++ names ["search", "replace"]

/-- The names of the tags that are ended where a row ends. -/
def rowTags (registry : Registry) : List Text :=
  registry.families.flatMap fun family => family.repairs.flatMap Repair.rowTags

theorem builtIn_sought : ∀ family ∈ Family.builtIn, ∀ repair ∈ family.repairs,
    ∀ name ∈ repair.sought,
    name ∈ builtIn.tagNames := by
  decide +kernel

/-- With the built-in families, a text in which all tags are complete is never rewritten, if in a
tag over several rows each row that ends with an attribute is followed by one more attribute or by
the end of the tag. -/
theorem mend_eq_self {s : Text} (complete : EachToken builtIn.tagNames TagToken.Complete s)
    (rows : EachToken builtIn.rowTags TagToken.RowsGoOn s) : builtIn.mend s = s := by
  have keeps : ∀ family ∈ Family.builtIn, mendWith builtIn.table s family = s :=
    fun family member =>
    mendWith_eq_self (Repair.builtIn_mendsTags family member)
      (fun repair inside => complete.mono (builtIn_sought family member repair inside))
      (fun repair inside => rows.mono fun name listed =>
        List.mem_flatMap.mpr ⟨family, member, List.mem_flatMap.mpr ⟨repair, inside, listed⟩⟩)
  exact foldl_eq_self keeps

/-- Tags over several rows, with white space before the end of a closing tag and other tags in their
quotes. -/
theorem mend_eq_self_rows :
    let s := "<Grep\n  pattern='<read path=1>'\n\n  path=\"a\" /> <Edit_File path=x>".toList ++
      "<search>a</search ></edit-file\n> <ls\n  recursive\n  path=b\n/>".toList
    EachToken builtIn.tagNames TagToken.Complete s ∧ EachToken builtIn.rowTags TagToken.RowsGoOn s ∧
      builtIn.mend s = s := by
  intro s
  have complete : EachToken builtIn.tagNames TagToken.Complete s := by decide +kernel
  have rows : EachToken builtIn.rowTags TagToken.RowsGoOn s := by decide +kernel
  exact ⟨complete, rows, mend_eq_self complete rows⟩

/-- A tag is taken to end with its row where the next row begins with a name that stands alone. -/
theorem standing_name_matters :
    ¬ ∀ s : Text, EachToken builtIn.tagNames TagToken.Complete s → builtIn.mend s = s := by
  intro always
  have same := always "<list path=\"a\"\nrecursive/>".toList (by decide +kernel)
  revert same
  decide +kernel

end Registry

end MarkupActions
