import MarkupActions.Spelling
import MarkupActions.Proofs.Letters
import MarkupActions.Proofs.Texts

/-!
# Attributes in any style

A value stands in double quotes, in single quotes or bare. Whichever it is, the reader steps over
all of it and resumes behind it, so what a value looks like does not matter: a tag has the
attributes that were written into it, and of those the first of a name is found under that name. A
bare value may have slashes in it, but not two of them side by side.
-/

namespace MarkupActions

namespace Attribute

theorem not_continuesName_blank : continuesName ' ' = false := by decide

theorem continuesName_of_isNameChar {c : Char} (named : Text.isNameChar c = true) :
    continuesName c = true := by
  simp [continuesName, named]

/-- A name that no equals sign follows is no attribute. -/
theorem all_name {front rest : Text} (letters : ∀ c ∈ front, continuesName c = true)
    (stop : rest.head?.any continuesName = false) (plain : (Text.trimStart rest).head? ≠ some '=') :
    all (front ++ rest) = all rest := by
  induction front with
  | nil => rfl
  | cons c front ih =>
    have inner : ∀ d ∈ front, continuesName d = true :=
      fun d inside => letters d (List.mem_cons_of_mem _ inside)
    have none : read? (c :: (front ++ rest)) = none := by
      have cut : (c :: (front ++ rest)).drop (front.length + 1) = rest := by simp
      simp only [read?, Text.takeWhile_exact inner stop, List.length_cons, cut]
      split
      · rfl
      · split
        · rename_i tail head
          exact False.elim (plain (by rw [head]; rfl))
        · rfl
    rw [List.cons_append, all, none]
    exact ih inner

theorem all_of_other {c : Char} (other : startsName c = false) (s : Text) :
    all (c :: s) = all s := by
  have none : read? (c :: s) = none := by simp [read?, other]
  rw [all, none]

theorem quoted?_append {value s : Text} {quote : Char} (unquoted : quote ∉ value) :
    quoted? quote (value ++ quote :: s) = some value := by
  induction value with
  | nil => simp [quoted?]
  | cons c value ih =>
    simp only [List.mem_cons, not_or] at unquoted
    simp [quoted?, Ne.symm unquoted.1, ih unquoted.2]

theorem not_blank_of_startsName {c : Char} (starts : startsName c = true) :
    Text.isBlank c = false := by
  simp only [startsName, Bool.or_eq_true, beq_iff_eq] at starts
  rcases starts with letter | rfl
  · exact Text.not_blank_of_isNameChar
      (Text.isNameChar_of_startsName (Text.startsName_of_isAlpha letter))
  · decide

/-- An attribute is read where its name stands, if a value is read behind the equals sign. -/
theorem read?_named {name value tail : Text} {n : Nat} (starts : name.head?.any startsName = true)
    (letters : ∀ c ∈ name, continuesName c = true) (dark : tail.head?.any Text.isBlank = false)
    (found : value? tail = some (value, n)) :
    read? (name ++ '=' :: tail) = some (⟨name, value⟩, name.length + 1 + n) := by
  cases name with
  | nil => cases starts
  | cons c name =>
    have first : startsName c = true := by simpa using starts
    have equals : continuesName '=' = false ∧ Text.isBlank '=' = false := by decide
    have run : (name ++ '=' :: tail).takeWhile continuesName = name :=
      Text.takeWhile_exact (fun d inside => letters d (List.mem_cons_of_mem _ inside))
        (by simp [equals.1])
    have behind : (c :: (name ++ '=' :: tail)).drop (name.length + 1) = '=' :: tail := by simp
    have trimmed : Text.trimStart tail = tail :=
      @Text.dropWhile_exact Text.isBlank [] tail (by simp) dark
    have sign : Text.trimStart ('=' :: tail) = '=' :: tail := by simp [Text.trimStart, equals.2]
    simp only [List.cons_append, read?, first, run, List.length_cons, behind, sign, trimmed, found,
      Option.map_some, Bool.not_true, Bool.false_eq_true, if_false, List.length_append,
      Option.some.injEq, Prod.mk.injEq, true_and]
    omega

/-- What is read of a text goes on behind it. -/
theorem all_of_read? {a : Attribute} {front s : Text}
    (read : read? (front ++ s) = some (a, front.length))
    (more : front ≠ []) : all (front ++ s) = a :: all s := by
  obtain ⟨c, front, rfl⟩ := List.exists_cons_of_ne_nil more
  rw [List.cons_append] at read ⊢
  rw [all, read]
  simp

inductive Style where
  | double
  | single
  | bare
deriving DecidableEq

namespace Style

def write : Style → Text → Text
  | double, value => '"' :: (value ++ ['"'])
  | single, value => '\'' :: (value ++ ['\''])
  | bare, value => value

/-- Whether a value can be written so. What is bare ends with the next white space, quote or angle
bracket, and before the slash of a tag that closes itself. -/
def Admits : Style → Text → Prop
  | double, value => '"' ∉ value
  | single, value => '\'' ∉ value
  | bare, value =>
    value ≠ [] ∧ (∀ c ∈ value, Text.isBlank c = false ∧ c ∉ ['"', '\'', '<', '>']) ∧
      value.getLast? ≠ some '/'

instance (style : Style) (value : Text) : Decidable (style.Admits value) :=
  match style with
  | double => inferInstanceAs (Decidable ('"' ∉ value))
  | single => inferInstanceAs (Decidable ('\'' ∉ value))
  | bare =>
    inferInstanceAs (Decidable (value ≠ [] ∧
      (∀ c ∈ value, Text.isBlank c = false ∧ c ∉ ['"', '\'', '<', '>']) ∧
        value.getLast? ≠ some '/'))

end Style

structure Styled extends Attribute where
  style : Style

namespace Styled

/-- The attribute as it is written, a blank in front. -/
def text (a : Styled) : Text := ' ' :: (a.name ++ '=' :: a.style.write a.value)

structure Fits (a : Styled) : Prop where
  starts : a.name.head?.any startsName = true
  letters : ∀ c ∈ a.name, continuesName c = true
  admits : a.style.Admits a.value

instance (a : Styled) : Decidable a.Fits :=
  decidable_of_iff (a.name.head?.any startsName = true ∧ (∀ c ∈ a.name, continuesName c = true) ∧
    a.style.Admits a.value)
    ⟨fun ⟨starts, letters, admits⟩ => ⟨starts, letters, admits⟩,
      fun ⟨starts, letters, admits⟩ => ⟨starts, letters, admits⟩⟩

/-- A bare value in which two slashes stand side by side. -/
def Broken (a : Styled) : Prop := a.style = .bare ∧ ['/', '/'] <:+: a.value

instance (a : Styled) : Decidable a.Broken := inferInstanceAs (Decidable (_ ∧ _))

end Styled

def tagEnd (slash : Bool) : Text := if slash then ['/', '>'] else ['>']

def styledTag (name : Text) (attributes : List Styled) (slash : Bool) : Text :=
  '<' :: (name ++ (attributes.flatMap Styled.text ++ tagEnd slash))

/-- Where a bare value ends if it goes up to here. -/
theorem bareLength_append {value s : Text} (letters : ∀ c ∈ value, isBare c = true ∨ c = '/')
    (apart : ¬ ['/', '/'] <:+: value) (last : value.getLast? ≠ some '/') (stop : bareLength s = 0) :
    bareLength (value ++ s) = value.length := by
  induction value with
  | nil => exact stop
  | cons c value ih =>
    have inner := fun d inside => letters d (List.mem_cons_of_mem _ inside)
    have behind : ¬ ['/', '/'] <:+: value :=
      fun inside => apart (inside.trans (List.suffix_cons _ _).isInfix)
    cases value with
    | nil =>
      have bare : isBare c = true := by
        rcases letters c List.mem_cons_self with bare | rfl
        · exact bare
        · exact False.elim (last rfl)
      cases s with
      | nil => simp [bareLength, bare]
      | cons d s => simp [bareLength, bare, stop]
    | cons d value =>
      rw [List.getLast?_cons_cons] at last
      have rest := ih inner behind last
      rw [List.cons_append] at rest
      rw [List.cons_append, List.cons_append, bareLength, rest]
      rcases letters c List.mem_cons_self with bare | rfl
      · simp [bare]
      · have bare : isBare d = true := by
          rcases inner d List.mem_cons_self with bare | rfl
          · exact bare
          · exact False.elim (apart ⟨[], value, rfl⟩)
        simp [bare]

/-- Of two slashes side by side none belongs to a bare value, so it ends before them at the latest.
-/
theorem bareLength_slashes (front back : Text) :
    bareLength (front ++ '/' :: '/' :: back) ≤ front.length := by
  have step : ∀ c s, bareLength (c :: s) ≤ bareLength s + 1 := by
    intro c s
    cases s with
    | nil =>
      simp only [bareLength]
      split <;> simp
    | cons d s =>
      simp only [bareLength]
      split
      · exact Nat.le_refl _
      · split <;> simp
  induction front with
  | nil =>
    have slash : isBare '/' = false := by decide
    simp [bareLength, slash]
  | cons c front ih => exact Nat.le_trans (step c _) (Nat.succ_le_succ ih)

theorem value?_quoted {quote : Char} {value : Text} (mark : isQuote quote = true)
    (unquoted : quote ∉ value) (s : Text) :
    value? (quote :: (value ++ quote :: s)) = some (value, value.length + 2) := by
  simp [value?, mark, quoted?_append unquoted]

theorem value?_bare {value : Text} (more : value ≠ [])
    (plain : ∀ c ∈ value, Text.isBlank c = false ∧ c ∉ ['"', '\'', '<', '>'])
    (apart : ¬ ['/', '/'] <:+: value)
    (last : value.getLast? ≠ some '/') {s : Text} (stop : bareLength s = 0) :
    value? (value ++ s) = some (value, value.length) := by
  have letters : ∀ c ∈ value, isBare c = true ∨ c = '/' := by
    intro c inside
    obtain ⟨dark, other⟩ := plain c inside
    simp only [List.mem_cons, List.not_mem_nil, or_false, not_or] at other
    by_cases slash : c = '/'
    · exact .inr slash
    · exact .inl (by simp [isBare, isQuote, dark, other, slash])
  have length := bareLength_append letters apart last stop
  obtain ⟨c, rest, rfl⟩ := List.exists_cons_of_ne_nil more
  have unquoted : isQuote c = false := by
    have other := (plain c List.mem_cons_self).2
    simp only [List.mem_cons, List.not_mem_nil, or_false, not_or] at other
    simp [isQuote, other]
  rw [List.cons_append] at length ⊢
  simp only [value?, unquoted, Bool.false_eq_true, if_false, length]
  simp

variable {a : Styled}

/-- A value is read back if what follows it does not go on from it. -/
theorem value?_write (fits : a.Fits) (whole : ¬ a.Broken) {s : Text} (stop : bareLength s = 0) :
    value? (a.style.write a.value ++ s) = some (a.value, (a.style.write a.value).length) := by
  obtain ⟨⟨name, value⟩, style⟩ := a
  have admits := fits.admits
  cases style with
  | double => simpa [Style.write] using value?_quoted (by decide) admits s
  | single => simpa [Style.write] using value?_quoted (by decide) admits s
  | bare =>
    obtain ⟨more, plain, last⟩ := admits
    exact value?_bare more plain (fun inside => whole ⟨rfl, inside⟩) last stop

theorem bareLength_of_other {c : Char} (other : isBare c = false) (slash : c ≠ '/') (s : Text) :
    bareLength (c :: s) = 0 := by
  cases s with
  | nil => simp [bareLength, other]
  | cons d s => simp [bareLength, other, slash]

/-- No value as it is written begins with white space. -/
theorem head_write (fits : a.Fits) (s : Text) :
    (a.style.write a.value ++ s).head?.any Text.isBlank = false := by
  obtain ⟨⟨name, value⟩, style⟩ := a
  have quotes : Text.isBlank '"' = false ∧ Text.isBlank '\'' = false := by decide
  cases style with
  | double => simp [Style.write, quotes]
  | single => simp [Style.write, quotes]
  | bare =>
    obtain ⟨more, plain, _⟩ := fits.admits
    obtain ⟨c, rest, rfl⟩ := List.exists_cons_of_ne_nil more
    simp [Style.write, plain c List.mem_cons_self]

/-- What is written of an attribute is read as that attribute. -/
theorem all_styled (fits : a.Fits) (whole : ¬ a.Broken) {s : Text} (stop : bareLength s = 0) :
    all (a.text ++ s) = a.toAttribute :: all s := by
  have read := read?_named fits.starts fits.letters (head_write fits s)
    (value?_write fits whole stop)
  have shape : a.text ++ s = ' ' :: ((a.name ++ '=' :: a.style.write a.value) ++ s) := by
    simp [Styled.text]
  have size : (a.name ++ '=' :: a.style.write a.value).length =
    a.name.length + 1 + (a.style.write a.value).length := by
    simp only [List.length_append, List.length_cons]
    omega
  rw [shape, all_of_other (by decide)]
  apply all_of_read?
  · rw [List.append_assoc, List.cons_append, read, size]
  · simp

variable {attributes : List Styled}

/-- Where the next attribute begins, or the tag ends, no bare value goes on. -/
theorem bareLength_flatMap {rest : Text} (ends : bareLength rest = 0) :
    bareLength (attributes.flatMap Styled.text ++ rest) = 0 := by
  cases attributes with
  | nil => exact ends
  | cons a attributes =>
    rw [List.flatMap_cons, Styled.text, List.cons_append, List.cons_append]
    exact bareLength_of_other (by decide) (by decide) _

theorem all_flatMap_styled (fits : ∀ a ∈ attributes, a.Fits) (whole : ∀ a ∈ attributes, ¬ a.Broken)
    {rest : Text}
    (ends : bareLength rest = 0) :
    all (attributes.flatMap Styled.text ++ rest) = attributes.map Styled.toAttribute ++
      all rest := by
  induction attributes with
  | nil => rfl
  | cons a attributes ih =>
    have later := ih (fun b inside => fits b (List.mem_cons_of_mem _ inside))
      fun b inside => whole b (List.mem_cons_of_mem _ inside)
    rw [List.flatMap_cons, List.append_assoc,
      all_styled (fits a List.mem_cons_self) (whole a List.mem_cons_self) (bareLength_flatMap ends),
        later]
    rfl

/-- What comes behind a tag's name is no more of it, and no equals sign that would make an attribute
of it. -/
theorem head_flatMap_styled (fits : ∀ a ∈ attributes, a.Fits) {rest : Text}
    (stop : rest.head?.any continuesName = false)
    (plain : (Text.trimStart rest).head? ≠ some '=') :
    (attributes.flatMap Styled.text ++ rest).head?.any continuesName = false ∧
      (Text.trimStart (attributes.flatMap Styled.text ++ rest)).head? ≠ some '=' := by
  cases attributes with
  | nil => exact ⟨stop, plain⟩
  | cons a attributes =>
    have starts := (fits a List.mem_cons_self).starts
    cases shape : a.name with
    | nil =>
      rw [shape] at starts
      cases starts
    | cons c name =>
      rw [shape, List.head?_cons, Option.any_some] at starts
      have blank : Text.isBlank ' ' = true := by decide
      have dark := not_blank_of_startsName starts
      have other : c ≠ '=' := by
        rintro rfl
        revert starts
        decide
      constructor
      · simp [Styled.text, not_continuesName_blank]
      · simp [Styled.text, shape, Text.trimStart, blank, dark, other]

/-- What ends a tag is no attribute, and no bare value goes on into it. -/
theorem all_tagEnd (slash : Bool) : all (tagEnd slash) = [] ∧ bareLength (tagEnd slash) = 0 ∧
    (tagEnd slash).head?.any continuesName = false ∧
    (Text.trimStart (tagEnd slash)).head? ≠ some '=' := by
  cases slash <;> decide +kernel

/-- The attributes of a tag are those that have been written into it, in their order. -/
theorem all_styledTag {name : Text} (letters : ∀ c ∈ name, Text.isNameChar c = true)
    (fits : ∀ a ∈ attributes, a.Fits)
    (whole : ∀ a ∈ attributes, ¬ a.Broken) (slash : Bool) :
    all (styledTag name attributes slash) = attributes.map Styled.toAttribute := by
  obtain ⟨last, ends, stop, plain⟩ := all_tagEnd slash
  obtain ⟨stop, plain⟩ := head_flatMap_styled fits stop plain
  rw [styledTag, all_of_other (by decide),
    all_name (fun c inside => continuesName_of_isNameChar (letters c inside)) stop plain,
    all_flatMap_styled fits whole ends, last, List.append_nil]

/-- Names are the same if they are the same in lower case with underscores for hyphens. -/
theorem sameName_iff {first second : Text} :
    sameName first second = true ↔
      Text.lower (Spelling.swap '-' '_' first) = Text.lower (Spelling.swap '-' '_' second) := by
  have keys : ∀ s : Text, s.map nameKey = Text.lower (Spelling.swap '-' '_' s) := by
    intro s
    have underscore : '_'.toLower = '_' := by decide
    simp only [Text.lower, Spelling.swap, List.map_map, List.map_inj_left, Function.comp_apply]
    intro c _
    by_cases hyphen : c = '-'
    · simp [nameKey, hyphen, underscore]
    · simp [nameKey, hyphen]
  rw [sameName, beq_iff_eq, keys, keys]

/-- Of the attributes that are written into a tag, the first of a name is what is found under it,
whichever way they are written and whatever their values look like, if no bare value has two slashes
side by side. -/
theorem find?_styledTag {name : Text} (letters : ∀ c ∈ name, Text.isNameChar c = true)
    (fits : ∀ a ∈ attributes, a.Fits)
    (whole : ∀ a ∈ attributes, ¬ a.Broken) (slash : Bool) (sought : Text) :
    find? (styledTag name attributes slash) sought =
      (attributes.find? fun a =>
        Text.lower (Spelling.swap '-' '_' a.name) = Text.lower (Spelling.swap '-' '_' sought)).map
          (·.value) := by
  have same : (fun a : Styled => sameName a.name sought) = fun a =>
      decide (Text.lower (Spelling.swap '-' '_' a.name) =
        Text.lower (Spelling.swap '-' '_' sought)) := by
    funext a
    rw [Bool.eq_iff_iff, sameName_iff, decide_eq_true_eq]
  rw [find?, all_styledTag letters fits whole, List.find?_map, Option.map_map, ← same]
  rfl

/-- A tag whose values look like attributes and end in slashes. -/
def fetchAttributes : List Styled :=
  [⟨⟨"URL".toList, "http://a.b id=1/".toList⟩, .double⟩,
    ⟨⟨"note".toList, "say \"no\" max-age=2".toList⟩, .single⟩,
    ⟨⟨"max-age".toList, "3/x=4".toList⟩, .bare⟩]

theorem find?_fetchAttributes :
    (∀ c ∈ "fetch".toList, Text.isNameChar c = true) ∧ (∀ a ∈ fetchAttributes, a.Fits) ∧
      (∀ a ∈ fetchAttributes, ¬ a.Broken) ∧
      find? (styledTag "fetch".toList fetchAttributes true) "Max_Age".toList =
        some "3/x=4".toList := by
  have letters : ∀ c ∈ "fetch".toList, Text.isNameChar c = true := by decide
  have fits : ∀ a ∈ fetchAttributes, a.Fits := by decide
  have whole : ∀ a ∈ fetchAttributes, ¬ a.Broken := by decide
  have found := find?_styledTag letters fits whole true "Max_Age".toList
  exact ⟨letters, fits, whole, found.trans (by decide)⟩

/-- Without that condition a value is cut off: of an address without quotes only the scheme and its
colon are left. -/
theorem double_slash_matters : ¬ ∀ (name : Text) (attributes : List Styled) (slash : Bool)
    (sought : Text),
    (∀ c ∈ name, Text.isNameChar c = true) → (∀ a ∈ attributes, a.Fits) →
      find? (styledTag name attributes slash) sought =
        (attributes.find? fun a =>
          Text.lower (Spelling.swap '-' '_' a.name) = Text.lower (Spelling.swap '-' '_' sought)).map
            (·.value) := by
  intro undone
  have kept := undone "fetch".toList [⟨⟨"url".toList, "http://a".toList⟩, .bare⟩] true "url".toList
    (by decide)
    (by decide)
  have cut : find? (styledTag "fetch".toList [⟨⟨"url".toList, "http://a".toList⟩, .bare⟩] true)
    "url".toList =
      some "http:".toList := by decide +kernel
  rw [cut] at kept
  revert kept
  decide

end Attribute

end MarkupActions
