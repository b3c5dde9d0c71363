import MarkupActions.Proofs.Untouched

/-!
# Closing tags that break off, one behind the other

The repair of closing tags that break off takes along the character behind the white space, and that
may be the bracket of the next one, which is then not looked at. So of those that stand directly
behind each other some are left, and in all other texts none is; a second repair always gets them.
Only what is mended is said here, not where closing tags ought to stand.
-/

namespace MarkupActions

open Repair (Named)

namespace Text

def isTagLetter (c : Char) : Bool := c.isAlphanum || c == '-' || c == '_'

theorem toNat_lt_of_isDigit {c : Char} (digit : c.isDigit = true) : c.toNat < 128 := by
  simp only [Char.isDigit, Bool.and_eq_true, decide_eq_true_eq] at digit
  exact Nat.lt_of_le_of_lt (UInt32.le_iff_toNat_le.mp digit.2) (by decide)

theorem isNameChar_of_digit {c n : Char} (digit : n.isDigit = true) (same : sameFolded c n = true) :
    isNameChar c = true := by
  have table : ∀ k < 128, ((Char.ofNat k).isDigit = true → fold (Char.ofNat k) = Char.ofNat k ∧
    Char.ofNat k ≠ Char.ofNat 0) ∧
      ((fold (Char.ofNat k)).isDigit = true → isNameChar (Char.ofNat k) = true) := by decide +kernel
  have small := toNat_lt_of_isDigit digit
  have here := (table n.toNat small).1
  rw [Char.ofNat_toNat] at here
  obtain ⟨self, nonzero⟩ := here digit
  have folded : fold c = n := by
    simp only [sameFolded, Bool.or_eq_true, beq_iff_eq, self] at same
    rcases same with rfl | folded
    · exact self
    · exact folded
  by_cases ascii : c.toNat < 128
  · have there := (table c.toNat ascii).2
    rw [Char.ofNat_toNat, folded] at there
    exact there digit
  · rcases fold_of_large ascii with large | zero | named
    · exact False.elim (large (by rw [folded]; exact small))
    · exact False.elim (nonzero (folded.symm.trans zero))
    · exact named

theorem letter_toLower {c : Char} (letter : isTagLetter c = true) :
    isPlainLetter c.toLower = true ∨ c.toLower.isDigit = true := by
  have table : ∀ k < 128, isTagLetter (Char.ofNat k) = true →
      isPlainLetter (Char.ofNat k).toLower = true ∨ (Char.ofNat k).toLower.isDigit = true := by
        decide +kernel
  have small : c.toNat < 128 := by
    simp only [isTagLetter, Char.isAlphanum, Bool.or_eq_true, beq_iff_eq] at letter
    rcases letter with ((alpha | digit) | rfl) | rfl
    · exact toNat_lt_of_isAlpha alpha
    · exact toNat_lt_of_isDigit digit
    · decide
    · decide
  have here := table c.toNat small
  rw [Char.ofNat_toNat] at here
  exact here letter

theorem suffix_of_unmarked {u s b : Text} (tags : '<' ∉ u) (tail : '<' :: b <:+ u ++ s) :
    '<' :: b <:+ s := by
  obtain ⟨a, whole⟩ := tail
  rcases append_eq_append_cons whole.symm with ⟨m, rfl, _⟩ | ⟨m, rfl, rfl⟩
  · exact False.elim (tags (by simp))
  · exact List.suffix_append m ('<' :: b)

end Text

variable {names : List Text} {s t u v : Text}

/-- Whether a closing tag breaks off at the head of a text: behind one of some names, in any letter
case, there is nothing up to the end but white space, or there is white space and then something
else than `>`. -/
def Dangles (names : List Text) (s : Text) : Prop :=
  ∃ front blanks rest, s = '<' :: '/' :: (front ++ (blanks ++ rest)) ∧ Named names front ∧
    (∀ b ∈ blanks, Text.isBlank b = true) ∧
    ∀ c, rest.head? = some c → blanks ≠ [] ∧ Text.isBlank c = false ∧ c ≠ '>'

/-- Whether a closing tag breaks off anywhere in a text. -/
def HasDangling (names : List Text) (s : Text) : Prop := ∃ b, b <:+ s ∧ Dangles names b

/-- Whether two closing tags that break off stand at the head of a text, with white space between
them and nothing else. -/
def Crowds (names : List Text) (s : Text) : Prop :=
  ∃ front blanks rest, s = '<' :: '/' :: (front ++ (blanks ++ rest)) ∧ Named names front ∧
    blanks ≠ [] ∧
    (∀ b ∈ blanks, Text.isBlank b = true) ∧ Dangles names rest

/-- Whether there are two such closing tags anywhere in a text. -/
def HasCrowd (names : List Text) (s : Text) : Prop := ∃ b, b <:+ s ∧ Crowds names b

/-- Whether all that stands for a name is made of name characters. -/
def Lettered (names : List Text) : Prop :=
  ∀ front, Named names front → ∀ c ∈ front, Text.isNameChar c = true

/-- What is taken for a name of letters, digits and separators is made of name characters. -/
theorem Text.isNameChar_of_letters {name front : Text}
    (letters : ∀ n ∈ name, isPlainLetter n = true ∨ n.isDigit = true)
    (matched : List.Forall₂ (fun n c => sameFolded c n = true) name front) :
    ∀ c ∈ front, isNameChar c = true := by
  induction matched with
  | nil => simp
  | @cons n c name front same _ ih =>
    intro d inside
    rcases List.mem_cons.mp inside with rfl | inside
    · rcases letters n List.mem_cons_self with plain | digit
      · exact isNameChar_of_sameFolded plain same
      · exact isNameChar_of_digit digit same
    · exact ih (fun m member => letters m (List.mem_cons_of_mem _ member)) d inside

/-- The spellings of a tag have no other characters than its letters in lower case and the two
separators. -/
theorem Spelling.letter_of_mem_ofTag {tag spelling : Text}
    (letters : ∀ c ∈ tag, Text.isTagLetter c = true)
    (spelled : spelling ∈ ofTag tag) : ∀ n ∈ spelling, Text.isPlainLetter n = true ∨
    n.isDigit = true := by
  have lower : ∀ n ∈ Text.lower tag, Text.isPlainLetter n = true ∨ n.isDigit = true := by
    intro n inside
    obtain ⟨c, listed, rfl⟩ := List.mem_map.mp inside
    exact Text.letter_toLower (letters c listed)
  have swapped : ∀ old new : Char, Text.isPlainLetter new = true →
    ∀ n ∈ swap old new (Text.lower tag),
      Text.isPlainLetter n = true ∨ n.isDigit = true := by
    intro old new plain n inside
    obtain ⟨c, listed, rfl⟩ := List.mem_map.mp inside
    by_cases replaced : c = old
    · rw [if_pos replaced]
      exact .inl plain
    · rw [if_neg replaced]
      exact lower c listed
  rw [ofTag, List.mem_eraseDups] at spelled
  simp only [List.mem_cons, List.not_mem_nil, or_false] at spelled
  rcases spelled with rfl | rfl | rfl
  · exact lower
  · exact swapped '-' '_' (by decide)
  · exact swapped '_' '-' (by decide)

theorem lettered_names {tags : List Text}
    (letters : ∀ tag ∈ tags, ∀ c ∈ tag, Text.isTagLetter c = true) :
    Lettered (Repair.names tags) := by
  have each : ∀ name ∈ Repair.names tags, ∀ n ∈ name, Text.isPlainLetter n = true ∨
    n.isDigit = true := by
    intro name listed
    unfold Repair.names at listed
    split at listed
    · rw [List.mem_singleton.mp listed]
      simp
    · rw [Spelling.ofTags, List.mem_eraseDups, List.mem_flatMap] at listed
      obtain ⟨tag, among, spelled⟩ := listed
      exact Spelling.letter_of_mem_ofTag (letters tag among) spelled
  rintro front ⟨name, listed, matched⟩
  exact Text.isNameChar_of_letters (each name listed) matched

theorem Dangles.exists_cons (dangles : Dangles names s) : ∃ b, s = '<' :: b := by
  obtain ⟨front, blanks, rest, rfl, _⟩ := dangles
  exact ⟨_, rfl⟩

theorem stop_of_dangles {blanks rest : Text} (blank : ∀ b ∈ blanks, Text.isBlank b = true)
    (stops : ∀ c, rest.head? = some c → blanks ≠ [] ∧ Text.isBlank c = false ∧ c ≠ '>') :
    (blanks ++ rest).head?.any Text.isNameChar = false := by
  cases blanks with
  | nil =>
    cases rest with
    | nil => rfl
    | cons c rest => exact False.elim ((stops c rfl).1 rfl)
  | cons b blanks =>
    cases named : Text.isNameChar b with
    | false => simpa using named
    | true =>
      have dark := Text.not_blank_of_isNameChar named
      rw [blank b List.mem_cons_self] at dark
      cases dark

theorem dark_of_dangles {blanks rest : Text}
    (stops : ∀ c, rest.head? = some c → blanks ≠ [] ∧ Text.isBlank c = false ∧ c ≠ '>') :
    rest.head?.any Text.isBlank = false := by
  cases rest with
  | nil => rfl
  | cons c rest => exact (stops c rfl).2.1

theorem Crowds.dangles (crowds : Crowds names s) : Dangles names s := by
  obtain ⟨front, blanks, rest, rfl, named, more, blank, next⟩ := crowds
  obtain ⟨b, rfl⟩ := next.exists_cons
  refine ⟨front, blanks, '<' :: b, rfl, named, blank, fun c head => ?_⟩
  obtain rfl := Option.some.inj head
  exact ⟨more, by decide, by decide⟩

/-- How a text comes out whose closing tags are ended that break off. Where one is ended, the
character behind the white space is taken along. -/
inductive Ended (names : List Text) : Text → Text → Prop
  | nil : Ended names [] []
  | keep {c : Char} {s t : Text} (whole : ¬ Dangles names (c :: s)) (rest : Ended names s t) :
      Ended names (c :: s) (c :: t)
  | last {front blanks : Text} (named : Named names front)
      (blank : ∀ b ∈ blanks, Text.isBlank b = true) :
      Ended names ('<' :: '/' :: (front ++ blanks)) ('<' :: '/' :: (front ++ ['>']))
  | next {front blanks : Text} {c : Char} {s t : Text} (named : Named names front)
      (more : blanks ≠ [])
      (blank : ∀ b ∈ blanks, Text.isBlank b = true) (dark : Text.isBlank c = false)
        (other : c ≠ '>')
      (rest : Ended names s t) :
      Ended names ('<' :: '/' :: (front ++ (blanks ++ c :: s)))
        ('<' :: '/' :: (front ++ '>' :: (blanks ++ c :: t)))

section

variable (lettered : Lettered names)
include lettered

theorem Lettered.unmarked {front : Text} (named : Named names front) {c : Char}
    (other : Text.isNameChar c = false) :
    c ∉ front := by
  intro inside
  rw [lettered front named c inside] at other
  cases other

/-- No bracket stands in a closing tag up to where it breaks off. -/
theorem Lettered.unmarked_closing {front blanks : Text} (named : Named names front)
    (blank : ∀ b ∈ blanks, Text.isBlank b = true) : '<' ∉ '/' :: (front ++ blanks) := by
  simp only [List.mem_cons, List.mem_append, not_or]
  refine ⟨by decide, lettered.unmarked named (by decide), fun inside => ?_⟩
  exact absurd (blank _ inside) (by decide)

/-- Name, white space and what follows them can be told apart in one way only. -/
theorem Lettered.cut {front blanks rest front' blanks' rest' : Text} (named : Named names front)
    (named' : Named names front')
    (blank : ∀ b ∈ blanks, Text.isBlank b = true) (blank' : ∀ b ∈ blanks', Text.isBlank b = true)
    (stop : (blanks ++ rest).head?.any Text.isNameChar = false)
    (stop' : (blanks' ++ rest').head?.any Text.isNameChar = false)
    (dark : rest.head?.any Text.isBlank = false) (dark' : rest'.head?.any Text.isBlank = false)
    (whole : front ++ (blanks ++ rest) = front' ++ (blanks' ++ rest')) :
    front = front' ∧ blanks = blanks' ∧ rest = rest' := by
  have fronts : front = front' := by
    rw [← Text.takeWhile_exact (lettered front named) stop, whole,
      Text.takeWhile_exact (lettered front' named') stop']
  have behind := List.append_cancel_left (fronts ▸ whole)
  have between : blanks = blanks' := by
    rw [← Text.takeWhile_exact blank dark, behind, Text.takeWhile_exact blank' dark']
  exact ⟨fronts, between, List.append_cancel_left (between ▸ behind)⟩

/-- A closing tag that has its bracket does not break off. -/
theorem Lettered.not_dangles_closed {front : Text} (named : Named names front) (rest : Text) :
    ¬ Dangles names ('<' :: '/' :: (front ++ '>' :: rest)) := by
  rintro ⟨front', blanks, rest', whole, named', blank, stops⟩
  have whole : front ++ ([] ++ '>' :: rest) = front' ++ (blanks ++ rest') :=
    (List.cons.inj (List.cons.inj whole).2).2
  have stop : (([] : Text) ++ '>' :: rest).head?.any Text.isNameChar = false :=
    (by decide : Text.isNameChar '>' = false)
  have dark : ('>' :: rest).head?.any Text.isBlank = false := (by decide : Text.isBlank '>' = false)
  obtain ⟨_, rfl, rfl⟩ := lettered.cut named named' (by simp) blank stop
    (stop_of_dangles blank stops) dark
    (dark_of_dangles stops) whole
  exact (stops '>' rfl).1 rfl

end

namespace Ended

/-- Both texts begin alike. -/
theorem head (ended : Ended names s t) : t.head? = s.head? := by
  cases ended <;> rfl

/-- Up to its first bracket a text is left alone. -/
theorem split_unmarked (tags : '<' ∉ u) (ended : Ended names (u ++ s) t) :
    ∃ t', t = u ++ t' ∧ Ended names s t' := by
  induction u generalizing t with
  | nil => exact ⟨t, rfl, ended⟩
  | cons c u ih =>
    simp only [List.mem_cons, not_or] at tags
    generalize whole : (c :: u) ++ s = w at ended
    cases ended with
    | nil => cases whole
    | keep _ rest =>
      obtain ⟨rfl, same⟩ := List.cons.inj whole
      have same : u ++ s = _ := same
      rw [← same] at rest
      obtain ⟨t', rfl, behind⟩ := ih tags.2 rest
      exact ⟨t', rfl, behind⟩
    | last => exact False.elim (tags.1 (List.cons.inj whole).1.symm)
    | next => exact False.elim (tags.1 (List.cons.inj whole).1.symm)

theorem split_unmarked_new (tags : '<' ∉ u) (ended : Ended names s (u ++ t)) :
    ∃ s', s = u ++ s' ∧ Ended names s' t := by
  induction u generalizing s with
  | nil => exact ⟨s, rfl, ended⟩
  | cons c u ih =>
    simp only [List.mem_cons, not_or] at tags
    generalize whole : (c :: u) ++ t = w at ended
    cases ended with
    | nil => cases whole
    | keep _ rest =>
      obtain ⟨rfl, same⟩ := List.cons.inj whole
      have same : u ++ t = _ := same
      rw [← same] at rest
      obtain ⟨s', rfl, behind⟩ := ih tags.2 rest
      exact ⟨s', rfl, behind⟩
    | last => exact False.elim (tags.1 (List.cons.inj whole).1.symm)
    | next => exact False.elim (tags.1 (List.cons.inj whole).1.symm)

section

variable (lettered : Lettered names)
include lettered

/-- Whether a closing tag breaks off is to be seen before or after what follows its bracket has been
mended. -/
theorem dangles_iff (ended : Ended names s t) :
    Dangles names ('<' :: t) ↔ Dangles names ('<' :: s) := by
  constructor
  · rintro ⟨front, blanks, rest, whole, named, blank, stops⟩
    have whole : t = ('/' :: (front ++ blanks)) ++ rest := by simpa using (List.cons.inj whole).2
    subst whole
    obtain ⟨s', rfl, behind⟩ := ended.split_unmarked_new (lettered.unmarked_closing named blank)
    exact ⟨front, blanks, s', by simp, named, blank, behind.head ▸ stops⟩
  · rintro ⟨front, blanks, rest, whole, named, blank, stops⟩
    have whole : s = ('/' :: (front ++ blanks)) ++ rest := by simpa using (List.cons.inj whole).2
    subst whole
    obtain ⟨t', rfl, behind⟩ := ended.split_unmarked (lettered.unmarked_closing named blank)
    exact ⟨front, blanks, t', by simp, named, blank, behind.head ▸ stops⟩

/-- At the head of a mended text no closing tag breaks off. -/
theorem not_dangles (ended : Ended names s t) : ¬ Dangles names t := by
  cases ended with
  | nil =>
    intro dangles
    obtain ⟨_, whole⟩ := dangles.exists_cons
    cases whole
  | keep whole rest =>
    intro dangles
    obtain ⟨_, same⟩ := dangles.exists_cons
    obtain ⟨rfl, rfl⟩ := List.cons.inj same
    exact whole ((rest.dangles_iff lettered).mp dangles)
  | last named _ => exact lettered.not_dangles_closed named []
  | next named => exact lettered.not_dangles_closed named _

/-- Each bracket of a mended text was passed on its own, or it was taken along behind a closing tag
that broke off. -/
theorem suffix_new {b : Text} (ended : Ended names s t) (tail : '<' :: b <:+ t) :
    (∃ s', Ended names s' ('<' :: b)) ∨
      ∃ front blanks back, '<' :: '/' :: (front ++ (blanks ++ '<' :: back)) <:+ s ∧
        Named names front ∧ blanks ≠ [] ∧
        (∀ b ∈ blanks, Text.isBlank b = true) ∧ Ended names back b := by
  induction ended with
  | nil => exact absurd (List.suffix_nil.mp tail) (by simp)
  | @keep c s t whole rest ih =>
    rcases List.suffix_cons_iff.mp tail with same | inside
    · rw [same]
      exact .inl ⟨c :: s, .keep whole rest⟩
    · refine (ih inside).imp_right fun ⟨front, blanks, back, within, taken⟩ => ?_
      exact ⟨front, blanks, back, within.trans (List.suffix_cons c s), taken⟩
  | @last front blanks named blank =>
    rcases List.suffix_cons_iff.mp tail with same | inside
    · rw [same]
      exact .inl ⟨_, .last named blank⟩
    · have tags : '<' ∉ '/' :: (front ++ ['>']) := by
        have outside := lettered.unmarked named (by decide : Text.isNameChar '<' = false)
        simp [outside]
      exact False.elim (tags (inside.subset List.mem_cons_self))
  | @next front blanks c s t named more blank dark other rest ih =>
    rcases List.suffix_cons_iff.mp tail with same | inside
    · rw [same]
      exact .inl ⟨_, .next named more blank dark other rest⟩
    · have tags : '<' ∉ '/' :: (front ++ '>' :: blanks) := by
        have outside := lettered.unmarked_closing named blank
        simpa using outside
      have inside : '<' :: b <:+ ('/' :: (front ++ '>' :: blanks)) ++ c :: t := by
        simpa using inside
      have within : s <:+ '<' :: '/' :: (front ++ (blanks ++ c :: s)) :=
        ⟨'<' :: '/' :: (front ++ (blanks ++ [c])), by simp⟩
      rcases List.suffix_cons_iff.mp (Text.suffix_of_unmarked tags inside) with same | behind
      · obtain ⟨rfl, rfl⟩ := List.cons.inj same
        exact .inr ⟨front, blanks, s, List.suffix_rfl, named, more, blank, rest⟩
      · refine (ih behind).imp_right fun ⟨front', blanks', back, further, taken⟩ => ?_
        exact ⟨front', blanks', back, further.trans within, taken⟩

/-- Each bracket of a text is passed on its own or taken along. -/
theorem suffix_old {b : Text} (ended : Ended names s t) (tail : '<' :: b <:+ s) :
    ∃ t', (Ended names ('<' :: b) t' ∧ t' <:+ t) ∨ (Ended names b t' ∧ '<' :: t' <:+ t) := by
  induction ended with
  | nil => exact absurd (List.suffix_nil.mp tail) (by simp)
  | @keep c s t whole rest ih =>
    rcases List.suffix_cons_iff.mp tail with same | inside
    · rw [same]
      exact ⟨c :: t, .inl ⟨.keep whole rest, List.suffix_rfl⟩⟩
    · obtain ⟨t', found⟩ := ih inside
      exact ⟨t', found.imp (.imp_right (·.trans (List.suffix_cons c t)))
        (.imp_right (·.trans (List.suffix_cons c t)))⟩
  | @last front blanks named blank =>
    rcases List.suffix_cons_iff.mp tail with same | inside
    · rw [same]
      exact ⟨_, .inl ⟨.last named blank, List.suffix_rfl⟩⟩
    · exact False.elim (lettered.unmarked_closing named blank (inside.subset List.mem_cons_self))
  | @next front blanks c s t named more blank dark other rest ih =>
    rcases List.suffix_cons_iff.mp tail with same | inside
    · rw [same]
      exact ⟨_, .inl ⟨.next named more blank dark other rest, List.suffix_rfl⟩⟩
    · have inside : '<' :: b <:+ ('/' :: (front ++ blanks)) ++ c :: s := by simpa using inside
      have within : c :: t <:+ '<' :: '/' :: (front ++ '>' :: (blanks ++ c :: t)) :=
        ⟨'<' :: '/' :: (front ++ '>' :: blanks), by simp⟩
      rcases List.suffix_cons_iff.mp (Text.suffix_of_unmarked
        (lettered.unmarked_closing named blank) inside) with
        same | behind
      · obtain ⟨rfl, rfl⟩ := List.cons.inj same
        exact ⟨t, .inr ⟨rest, within⟩⟩
      · have later := (List.suffix_cons c t).trans within
        obtain ⟨t', found⟩ := ih behind
        exact ⟨t', found.imp (.imp_right (·.trans later)) (.imp_right (·.trans later))⟩

/-- A closing tag that breaks off in the mended text stood directly behind another one. -/
theorem hasCrowd_of_hasDangling (ended : Ended names s t) (left : HasDangling names t) :
    HasCrowd names s := by
  obtain ⟨b, tail, dangles⟩ := left
  obtain ⟨b, rfl⟩ := dangles.exists_cons
  rcases ended.suffix_new lettered tail with
    ⟨s', here⟩ | ⟨front, blanks, back, within, named, more, blank, behind⟩
  · exact False.elim (here.not_dangles lettered dangles)
  · exact ⟨_, within, front, blanks, '<' :: back, rfl, named, more, blank,
      (behind.dangles_iff lettered).mp dangles⟩

/-- Where the first of two neighbours is ended, the second is left as it is. -/
theorem exists_taken (ended : Ended names s t) (crowds : Crowds names s) :
    ∃ b, b <:+ t ∧ Dangles names b := by
  have dangles := crowds.dangles
  obtain ⟨front, blanks, rest, whole, named, apart, blank, next⟩ := crowds
  obtain ⟨r, rfl⟩ := next.exists_cons
  cases ended with
  | nil => cases whole
  | keep quiet _ => exact False.elim (quiet dangles)
  | last named' blank' =>
    refine False.elim (lettered.unmarked_closing named' blank' ?_)
    rw [(List.cons.inj whole).2]
    simp
  | @next front' blanks' c s t named' more blank' dark other behind =>
    have same := (List.cons.inj (List.cons.inj whole).2).2
    have stops : ∀ d, ('<' :: r).head? = some d → blanks ≠ [] ∧ Text.isBlank d = false ∧
      d ≠ '>' := by
      rintro _ ⟨⟩
      exact ⟨apart, by decide, by decide⟩
    have stops' : ∀ d, (c :: s).head? = some d → blanks' ≠ [] ∧ Text.isBlank d = false ∧
      d ≠ '>' := by
      rintro _ ⟨⟩
      exact ⟨more, dark, other⟩
    obtain ⟨rfl, rfl, equal⟩ := lettered.cut named' named blank' blank
      (stop_of_dangles blank' stops')
      (stop_of_dangles blank stops) (dark_of_dangles stops') (dark_of_dangles stops) same
    obtain ⟨rfl, rfl⟩ := List.cons.inj equal
    exact ⟨'<' :: t, ⟨'<' :: '/' :: (front' ++ '>' :: blanks'), by simp⟩,
      (behind.dangles_iff lettered).mpr next⟩

/-- Of two closing tags that break off side by side one is left, the second or, if that was passed
on its own, the first. -/
theorem hasDangling_of_hasCrowd (ended : Ended names s t) (crowd : HasCrowd names s) :
    HasDangling names t := by
  obtain ⟨b, tail, crowds⟩ := crowd
  obtain ⟨b', rfl⟩ := crowds.dangles.exists_cons
  obtain ⟨t', ⟨here, within⟩ | ⟨behind, within⟩⟩ := ended.suffix_old lettered tail
  · obtain ⟨_, later, dangles⟩ := here.exists_taken lettered crowds
    exact ⟨_, later.trans within, dangles⟩
  · exact ⟨_, within, (behind.dangles_iff lettered).mpr crowds.dangles⟩

/-- No two closing tags that break off stand side by side in a mended text. -/
theorem not_hasCrowd (ended : Ended names s t) : ¬ HasCrowd names t := by
  rintro ⟨b, tail, crowds⟩
  obtain ⟨b', rfl⟩ := crowds.dangles.exists_cons
  rcases ended.suffix_new lettered tail with ⟨s', here⟩ | ⟨_, _, back, _, _, _, _, behind⟩
  · exact here.not_dangles lettered crowds.dangles
  · obtain ⟨front, blanks, rest, whole, named, _, blank, next⟩ := crowds
    have whole : b' = ('/' :: (front ++ blanks)) ++ rest := by simpa using (List.cons.inj whole).2
    subst whole
    obtain ⟨back', _, later⟩ := behind.split_unmarked_new (lettered.unmarked_closing named blank)
    exact later.not_dangles lettered next

end

end Ended

namespace Repair

/-- The repair finds something at the head of a text just where a closing tag breaks off. -/
theorem unterminatedClosingRule_eq_none :
    unterminatedClosingRule names s = none ↔ ¬ Dangles names s := by
  constructor
  · rintro quiet ⟨front, blanks, rest, rfl, named, blank, stops⟩
    cases rest with
    | nil =>
      obtain ⟨name, listed, matched⟩ := named
      have after := Text.afterFolded?_eq_some.mpr
        ⟨front, (rfl : front ++ (blanks ++ []) = _), matched⟩
      have passed : (blanks ++ []).takeWhile Text.isBlank = blanks := Text.takeWhile_exact blank rfl
      rw [unterminatedClosingRule, List.findSome?_eq_none_iff] at quiet
      have here := quiet name listed
      simp only [after, Option.bind_eq_bind, Option.bind_some, passed, List.drop_left, reduceCtorEq]
        at here
    | cons c rest =>
      obtain ⟨more, dark, other⟩ := stops c rfl
      exact unterminatedClosingRule_of_breaksOff named more blank dark other quiet
  · intro whole
    cases fires : unterminatedClosingRule names s with
    | none => rfl
    | some change =>
      obtain ⟨front, rest, rfl, named, ended⟩ := unterminatedClosingRule_inv fires
      refine False.elim (whole ⟨front, rest.takeWhile Text.isBlank, rest.dropWhile Text.isBlank, ?_,
        named, fun b inside => List.mem_takeWhile_imp inside, fun c head => ?_⟩)
      · rw [List.takeWhile_append_dropWhile]
      · have dark := @Text.head_dropWhile Text.isBlank rest
        rw [head] at dark
        rcases ended with ⟨none', _⟩ | ⟨d, tail, left, more, other, _⟩
        · rw [none'] at head
          cases head
        · rw [left] at head
          obtain rfl := Option.some.inj head
          exact ⟨more, dark, other⟩

/-- What the repair puts for the head of a text, and how it goes on behind. -/
theorem unterminatedClosingRule_ended {n : Nat} {new : Text}
    (fires : unterminatedClosingRule names s = some (n, new)) :
    ∃ taken back, s = taken ++ back ∧ taken.length = n ∧ taken ≠ [] ∧
      ∀ t, Ended names back t → Ended names (taken ++ back) (new ++ t) := by
  obtain ⟨front, rest, rfl, named, ⟨none', rfl, rfl⟩ | ⟨c, tail, left, more, other, rfl, rfl⟩⟩ :=
    unterminatedClosingRule_inv fires
  · refine ⟨'<' :: '/' :: (front ++ rest), [], by simp, by simp; omega, by simp, fun t behind => ?_⟩
    cases behind
    rw [List.append_nil, List.append_nil]
    exact .last named (List.dropWhile_eq_nil_iff.mp none')
  · have whole := List.takeWhile_append_dropWhile (p := Text.isBlank) (l := rest)
    have dark : Text.isBlank c = false := by
      have head := @Text.head_dropWhile Text.isBlank rest
      rw [left] at head
      simpa using head
    rw [left] at whole
    refine ⟨'<' :: '/' :: (front ++ (rest.takeWhile Text.isBlank ++ [c])), tail, ?_,
      by simp; omega, by simp, fun t behind => ?_⟩
    · simp [whole]
    · have ended := Ended.next named more
        (fun b inside => List.mem_takeWhile_imp inside) dark other behind
      simpa using ended

/-- What the repair makes of a text. -/
theorem ended_patchAll (s : Text) :
    Ended names s (Text.patchAll (unterminatedClosingRule names) s) := by
  have changes := fun s n new fires => @unterminatedClosingRule_ended names s n new fires
  induction s using Text.patchAll_induct changes with
  | nil =>
    rw [Text.patchAll]
    exact .nil
  | keep c s quiet ih =>
    rw [Text.patchAll_of_none quiet]
    exact .keep (unterminatedClosingRule_eq_none.mp quiet) ih
  | patched front back new fires more goesOn ih =>
    rw [Text.patchAll_of_some fires more]
    exact goesOn _ ih

/-- The repair leaves just those texts as they are in which no closing tag breaks off. -/
theorem patchAll_eq_self : Text.patchAll (unterminatedClosingRule names) s = s ↔
    ¬ HasDangling names s := by
  constructor
  · rintro same ⟨b, ⟨a, rfl⟩, dangles⟩
    obtain ⟨_, rfl⟩ := dangles.exists_cons
    rcases Text.patchAll_grows (fun _ _ _ fires => unterminatedClosingRule_grows fires) _ with quiet
      | grown
    · exact unterminatedClosingRule_eq_none.mp (quiet a _ rfl (by simp)) dangles
    · rw [same] at grown
      exact Nat.lt_irrefl _ grown
  · intro none'
    refine Text.patchAll_of_quiet fun a b split _ =>
      unterminatedClosingRule_eq_none.mpr fun dangles => ?_
    exact none' ⟨b, ⟨a, split.symm⟩, dangles⟩

/-- Where no two closing tags that break off stand side by side, one repair ends them all and a
second one changes nothing. Anywhere else the first repair leaves some, which the second ends, and a
third changes nothing. -/
theorem apply_unterminatedClosing {tags : List Text}
    (letters : ∀ tag ∈ tags, ∀ c ∈ tag, Text.isTagLetter c = true)
    (s : Text) :
    let repair := (unterminatedClosing tags).apply
    (repair (repair s) = repair s ↔ ¬ HasCrowd (Repair.names tags) s) ∧
      (¬ HasDangling (Repair.names tags) (repair s) ↔ ¬ HasCrowd (Repair.names tags) s) ∧
      ¬ HasDangling (Repair.names tags) (repair (repair s)) ∧
        repair (repair (repair s)) = repair (repair s) := by
  intro repair
  have lettered := lettered_names letters
  have once : Ended (Repair.names tags) s (repair s) := ended_patchAll s
  have twice : Ended (Repair.names tags) (repair s) (repair (repair s)) := ended_patchAll (repair s)
  have left : HasDangling (Repair.names tags) (repair s) ↔ HasCrowd (Repair.names tags) s :=
    ⟨once.hasCrowd_of_hasDangling lettered, once.hasDangling_of_hasCrowd lettered⟩
  have all : ¬ HasDangling (Repair.names tags) (repair (repair s)) := fun dangling =>
    once.not_hasCrowd lettered (twice.hasCrowd_of_hasDangling lettered dangling)
  exact ⟨patchAll_eq_self.trans (not_congr left), not_congr left, all, patchAll_eq_self.mpr all⟩

/-- Of three in a row the first repair ends the first and the last. -/
theorem apply_unterminatedClosing_row :
    let repair := (unterminatedClosing ["edit".toList]).apply
    repair "</edit </edit\n</EDIT".toList = "</edit> </edit\n</EDIT>".toList ∧
      HasCrowd (Repair.names ["edit".toList]) "</edit </edit\n</EDIT".toList ∧
      ¬ HasDangling (Repair.names ["edit".toList])
        (repair (repair "</edit </edit\n</EDIT".toList)) := by
  have settled := @apply_unterminatedClosing ["edit".toList]
    (by decide) "</edit </edit\n</EDIT".toList
  have again : ¬ (unterminatedClosing ["edit".toList]).apply
      ((unterminatedClosing ["edit".toList]).apply "</edit </edit\n</EDIT".toList) =
        (unterminatedClosing ["edit".toList]).apply "</edit </edit\n</EDIT".toList := by
          decide +kernel
  exact ⟨by decide +kernel, by_contra fun alone => again (settled.1.mpr alone), settled.2.2.1⟩

/-- One repair is not enough for two that stand side by side. -/
theorem side_by_side_matters : ¬ ∀ (tags : List Text) (s : Text), tags ≠ [] →
    (∀ tag ∈ tags, ∀ c ∈ tag, Text.isTagLetter c = true) →
      (unterminatedClosing tags).apply ((unterminatedClosing tags).apply s) =
      (unterminatedClosing tags).apply s ∧
        ¬ HasDangling (Repair.names tags) ((unterminatedClosing tags).apply s) := by
  intro always
  have same := (always ["edit".toList] "</edit </edit".toList (by decide) (by decide)).1
  revert same
  decide +kernel

end Repair

end MarkupActions
