import MarkupActions.Proofs.Attributes
import MarkupActions.Proofs.Closing
import MarkupActions.Proofs.Regions
import MarkupActions.Proofs.Renaming
import MarkupActions.Proofs.Shadows

/-!
# Blocks with a payload

A block of a file or a message whose payload is made of whole rows, closes nowhere and leaves the
closing tag bare. Such a block is found by every matcher that knows its tag and by the renaming,
whatever follows it.
-/

namespace MarkupActions

open Repair (Named)

theorem TagToken.endsInSlash_quoted {slash : Bool} {value s : Text} (unquoted : '"' ∉ value) :
    endsInSlash (some '"') slash (value ++ '"' :: '>' :: s) = slash := by
  induction value with
  | nil => simp [endsInSlash]
  | cons c value ih =>
    simp only [List.mem_cons, not_or] at unquoted
    simp [endsInSlash, Ne.symm unquoted.1, ih unquoted.2]

/-- Whether a repair ends closing tags and does nothing else. -/
def Repair.endsClosing : Repair → Bool
  | unterminatedClosing _ => true
  | _ => false

def Family.spellings (family : Family) : List Text :=
  Spelling.ofTags (family.canonicalTags ++ family.aliases.map (·.1))

/-- Whether no closing tag by one of some names begins in a text, in any letter case. -/
def closesNowhere (sought : List Text) : Text → Bool
  | [] => true
  | c :: s =>
    (c != '<' || s.head? != some '/' || sought.all fun name =>
      (Text.afterFolded? name s.tail).isNone) &&
      closesNowhere sought s

theorem closesNowhere_mono {sought fewer : List Text} (less : ∀ name ∈ fewer, name ∈ sought)
    {s : Text}
    (never : closesNowhere sought s = true) : closesNowhere fewer s = true := by
  induction s with
  | nil => rfl
  | cons c s ih =>
    simp only [closesNowhere, Bool.and_eq_true, Bool.or_eq_true, List.all_eq_true] at never ⊢
    exact ⟨never.1.imp_right fun none name inside => none name (less name inside), ih never.2⟩

theorem afterFolded?_of_closesNowhere {sought : List Text} {front back name : Text}
    (never : closesNowhere sought (front ++ '<' :: '/' :: back) = true) (listed : name ∈ sought) :
    Text.afterFolded? name back = none := by
  induction front with
  | nil =>
    simp only [List.nil_append, closesNowhere, Bool.and_eq_true] at never
    have none : ∀ name ∈ sought, Text.afterFolded? name back = none := by simpa using never.1
    exact none name listed
  | cons c front ih =>
    rw [List.cons_append, closesNowhere, Bool.and_eq_true] at never
    exact ih never.2

/-- No name begins in a payload that ends with its row and ends behind it. -/
theorem not_named_of_closesNowhere {sought : List Text} (plain : ∀ name ∈ sought, Text.IsPlain name)
    {payload : Text}
    (never : closesNowhere sought payload = true) (rows : payload.getLast? = some '\n')
    {a b s front back : Text}
    (split : payload = a ++ b) (more : b ≠ []) (whole : b ++ s = '<' :: '/' :: (front ++ back)) :
    ¬ Named sought front := by
  intro named
  have last : b.getLast? = some '\n' := by
    rw [← rows, split, List.getLast?_append_of_ne_nil _ more]
  obtain ⟨b, rfl⟩ := List.getLast?_eq_some_iff.mp last
  have cut : ('<' :: '/' :: front) ++ back = b ++ '\n' :: s := by simpa using whole.symm
  rcases Text.append_eq_append_cons cut with ⟨m, inner, _⟩ | ⟨m, rfl, _⟩
  · have inside : '\n' ∈ '<' :: '/' :: front := by
      rw [inner]
      simp
    have letters := Repair.isNameChar_of_named plain named '\n' (by simpa using inside)
    revert letters
    decide
  · obtain ⟨name, listed, matched⟩ := named
    have none := @afterFolded?_of_closesNowhere sought a (front ++ (m ++ ['\n'])) name
      (by simpa [split] using never) listed
    rw [Text.afterFolded?_eq_some.mpr ⟨front, rfl, matched⟩] at none
    cases none

def pathTag (tag path : Text) : OpeningTag :=
  ⟨tag, [' ', 'p', 'a', 't', 'h', '=', '"'] ++ (path ++ ['"'])⟩

def closingTag (tag : Text) : Text := '<' :: '/' :: (tag ++ ['>'])

def fileBlock (tag path payload : Text) : Block :=
  ⟨pathTag tag path, .closed payload (closingTag tag)⟩

/-- The tags whose blocks hold a payload and nothing else. -/
def payloadTags : List Text := names ["write", "create", "say", "end", "task"]

structure PlainPath (path : Text) : Prop where
  double : '"' ∉ path
  tags : '<' ∉ path
  ticks : Code.tick ∉ path
  one : '\n' ∉ path

theorem PlainPath.quotable {path : Text} (plain : PlainPath path) :
    ∀ a ∈ [Attribute.mk "path".toList path], a.Quotable := by
  have name : "path".toList.head?.any Attribute.startsName = true ∧
    ∀ c ∈ "path".toList, Text.isNameChar c = true := by
    decide
  intro a inside
  rw [List.mem_singleton.mp inside]
  exact ⟨name.1, name.2, plain.double⟩

/-- A tag with some attributes, each of them in double quotes. -/
def writtenTag (name : Text) (attributes : List Attribute) : OpeningTag :=
  ⟨name, attributes.flatMap Attribute.written⟩

theorem pathTag_eq (tag path : Text) :
    pathTag tag path = writtenTag tag [Attribute.mk "path".toList path] := by
  have name : "path".toList = ['p', 'a', 't', 'h'] := rfl
  simp [pathTag, writtenTag, Attribute.written, name]

section

variable {name : Text} {attributes : List Attribute}

theorem Repair.exists_cons_of_fits (fits : Repair.fits name = true) :
    ∃ c letters, name = c :: letters ∧ c.isLower = true ∧ Text.IsPlain letters := by
  simp only [Repair.fits, Bool.and_eq_true, Option.any_eq_true, List.all_eq_true] at fits
  obtain ⟨⟨⟨c, head, lower⟩, plain⟩, _⟩ := fits
  obtain ⟨letters, rfl⟩ := List.head?_eq_some_iff.mp head
  exact ⟨c, letters, rfl, lower, fun d inside => plain d (List.mem_cons_of_mem _ inside)⟩

theorem Repair.isNameChar_of_fits (fits : Repair.fits name = true) :
    ∀ c ∈ name, Text.isNameChar c = true :=
  fun c inside => Text.isNameChar_of_isPlainLetter (Repair.isPlain_of_fits fits c inside)

theorem text_writtenTag (name : Text) (attributes : List Attribute) :
    (writtenTag name attributes).text = '<' ::
    (name ++ (attributes.flatMap Attribute.written ++ ['>'])) := by
  rw [OpeningTag.text, writtenTag, List.append_assoc]

theorem all_writtenTag (fits : Repair.fits name = true) (quotable : ∀ a ∈ attributes, a.Quotable) :
    Attribute.all (writtenTag name attributes).text = attributes := by
  rw [text_writtenTag, Attribute.all_tag (Repair.isNameChar_of_fits fits) quotable (.inl rfl)]

/-- A tag is read as it is written, whatever follows it. -/
theorem read?_writtenTag (fits : Repair.fits name = true) (quotable : ∀ a ∈ attributes, a.Quotable)
    (s : Text) :
    OpeningTag.read? ((writtenTag name attributes).text ++ s) = some
      (writtenTag name attributes) := by
  obtain ⟨c, letters, rfl, lower, plain⟩ := Repair.exists_cons_of_fits fits
  have named : ∀ d ∈ letters, Text.isNameChar d = true := fun d inside =>
    Text.isNameChar_of_isPlainLetter (plain d inside)
  have ends : OpeningTag.attributes? none
    ((writtenTag (c :: letters) attributes).attributes ++ '>' :: s) =
      some (writtenTag (c :: letters) attributes).attributes := by
    rw [writtenTag, Attribute.attributes?_flatMap_written quotable]
    simp [OpeningTag.attributes?]
  obtain ⟨d, rest, parts, stop⟩ : ∃ d rest,
      (writtenTag (c :: letters) attributes).attributes ++ '>' :: s = d :: rest ∧
        Text.isNameChar d = false := by
    cases attributes with
    | nil => exact ⟨'>', s, rfl, by decide⟩
    | cons a attributes => exact ⟨' ', _, rfl, by decide⟩
  exact OpeningTag.read?_text rfl (Text.isAlpha_of_isLower lower) named parts stop ends

theorem closesItself_writtenTag : (writtenTag name attributes).closesItself = false := by
  have blank : Text.isBlank '"' = false := by decide
  rcases List.eq_nil_or_concat' attributes with rfl | ⟨front, a, rfl⟩
  · rfl
  · have last : ((front ++ [a]).flatMap Attribute.written).getLast? = some '"' := by
      simp [Attribute.written, List.getLast?_append, List.getLast?_cons]
    obtain ⟨before, whole⟩ := List.getLast?_eq_some_iff.mp last
    rw [OpeningTag.closesItself, writtenTag, whole]
    simp [Text.trimEnd, blank]

theorem key_writtenTag (fits : Repair.fits name = true) : (writtenTag name attributes).key = name :=
  Text.lower_of_isPlain (Repair.isPlain_of_fits fits)

theorem length?_closingTag (fits : Repair.fits name = true) (s : Text) :
    ClosingTag.length? name (closingTag name ++ s) = some (closingTag name).length := by
  refine ClosingTag.length?_eq_some.mpr
    ⟨'<' :: '/' :: name, [], s, by simp [closingTag], ?_, by simp, ?_⟩
  · have lower := Text.lower_of_isPlain (Repair.isPlain_of_fits fits)
    simp only [Text.lower] at lower
    simp [Text.lower, lower]
  · simp [closingTag]

def writtenBlock (name : Text) (attributes : List Attribute) (body : Text) : Block :=
  ⟨writtenTag name attributes, .closed body (closingTag name)⟩

theorem fileBlock_eq (tag path payload : Text) :
    fileBlock tag path payload = writtenBlock tag [Attribute.mk "path".toList path] payload := by
  rw [fileBlock, pathTag_eq, writtenBlock]

variable {body s : Text}

theorem text_writtenBlock (name : Text) (attributes : List Attribute) (body : Text) :
    (writtenBlock name attributes body).text = (writtenTag name attributes).text ++
    (body ++ closingTag name) := rfl

/-- Every matcher that knows the tag finds the block, if the search for a closing tag finds the one
behind the body. -/
theorem blockAt?_writtenBlock {m : Matcher} (mode : m.mode? name = some .content)
    (fits : Repair.fits name = true)
    (quotable : ∀ a ∈ attributes, a.Quotable)
    (closes : closing? .content (ClosingTag.length? name) (body ++ (closingTag name ++ s)) =
      some (body.length, (closingTag name).length)) :
    m.blockAt? ((writtenBlock name attributes body).text ++ s) = some
      (writtenBlock name attributes body) := by
  have whole : (writtenBlock name attributes body).text ++ s =
      (writtenTag name attributes).text ++ (body ++ (closingTag name ++ s)) := by
    simp [text_writtenBlock]
  have key : (writtenTag name attributes).key = name := key_writtenTag fits
  have extent : extentOf .content (writtenTag name attributes) (body ++ (closingTag name ++ s)) =
      .closed body (closingTag name) := by
    simp [extentOf, closesItself_writtenTag, key, closes]
  rw [whole, Matcher.blockAt?, read?_writtenTag fits quotable, Option.bind_some, Matcher.blockOf?,
    key, mode, List.drop_left, Option.map_some, extent]
  rfl

end

/-- Some payload in whole rows that closes nowhere, with its closing tag bare before some text. -/
structure Sealed (sought : List Text) (tag payload after : Text) : Prop where
  rows : payload.getLast? = some '\n'
  never : closesNowhere sought payload = true
  bare : shadow .content (payload ++ (closingTag tag ++ after)) payload.length = none

namespace Payload

theorem fits_tag : ∀ tag ∈ payloadTags, Repair.fits tag = true ∧ Text.lower tag = tag := by
  decide

theorem exists_cons {tag : Text} (listed : tag ∈ payloadTags) :
    ∃ c name, tag = c :: name ∧ c.isLower = true ∧ Text.IsPlain name :=
  Repair.exists_cons_of_fits (fits_tag tag listed).1

theorem not_mem_tag {tag : Text} (listed : tag ∈ payloadTags) {c : Char}
    (mark : Text.isNameChar c = false) :
    c ∉ tag := by
  intro inside
  have named := Repair.isNameChar_of_fits (fits_tag tag listed).1 c inside
  rw [mark] at named
  cases named

variable {tag path payload after : Text} {sought : List Text}

theorem name_fileBlock (listed : tag ∈ payloadTags) : (fileBlock tag path payload).name = tag :=
  (fits_tag tag listed).2

/-- In a payload and across its end no closing tag of the block is read. -/
theorem length?_payload (plain : ∀ name ∈ sought, Text.IsPlain name) (known : tag ∈ sought)
    (never : closesNowhere sought payload = true) (rows : payload.getLast? = some '\n')
    {a b s : Text}
    (split : payload = a ++ b) (more : b ≠ []) : ClosingTag.length? tag (b ++ s) = none := by
  cases found : ClosingTag.length? tag (b ++ s) with
  | none => rfl
  | some n =>
    obtain ⟨lead, blanks, rest, whole, lower, _, _⟩ := ClosingTag.length?_eq_some.mp found
    obtain ⟨c, tail, rfl, open', inner⟩ := List.map_eq_cons_iff.mp lower
    obtain ⟨d, front, rfl, slash, name⟩ := List.map_eq_cons_iff.mp inner
    obtain rfl := Text.eq_of_toLower_eq (by decide) open'
    obtain rfl := Text.eq_of_toLower_eq (by decide) slash
    exact False.elim (not_named_of_closesNowhere plain never rows split more whole
      ⟨tag, known, Text.matched_of_lower (plain tag known) name⟩)

/-- The end of the payload stays bare, whatever follows the block and whatever of the tag goes
before. -/
theorem bare_after {v : Text} (block : Sealed sought tag payload after) (tags : '<' ∉ v)
    (ticks : Code.tick ∉ v)
    (one : '\n' ∉ v) (s : Text) :
    shadow .content (v ++ (payload ++ (closingTag tag ++ s))) (v.length + payload.length) = none :=
  shadow_payload block.rows (by simp [closingTag]) (by simp [closingTag]) tags ticks one block.bare

theorem closing?_payload (listed : tag ∈ payloadTags) (plain : ∀ name ∈ sought, Text.IsPlain name)
    (known : tag ∈ sought) (block : Sealed sought tag payload after) (s : Text) :
    closing? .content (ClosingTag.length? tag) (payload ++ (closingTag tag ++ s)) =
      some (payload.length, (closingTag tag).length) := by
  have bare := bare_after block (v := []) (by simp) (by simp) (by simp) s
  exact closing?_first (fun a b split more =>
    length?_payload plain known block.never block.rows split more)
    (by simp [closingTag]) (length?_closingTag (fits_tag tag listed).1 s) (by simpa using bare)

/-- Every matcher that knows the tag finds the block as it is. -/
theorem blockAt?_fileBlock {m : Matcher} (mode : m.mode? tag = some .content)
    (listed : tag ∈ payloadTags)
    (quotable : PlainPath path) (plain : ∀ name ∈ sought, Text.IsPlain name) (known : tag ∈ sought)
    (block : Sealed sought tag payload after) (s : Text) :
    m.blockAt? ((fileBlock tag path payload).text ++ s) = some (fileBlock tag path payload) := by
  rw [fileBlock_eq]
  exact blockAt?_writtenBlock mode (fits_tag tag listed).1 quotable.quotable
    (closing?_payload listed plain known block s)

/-- No region opens at the block. -/
theorem regionLength?_fileBlock (listed : tag ∈ payloadTags) {lineStart : Bool} (s : Text) :
    Inert.regionLength? lineStart ((fileBlock tag path payload).text ++ s) = none := by
  obtain ⟨rest, whole⟩ : ∃ rest, (fileBlock tag path payload).text ++ s =
    '<' :: (tag ++ ' ' :: rest) := by
    exact ⟨_, by simp [Block.text, fileBlock, OpeningTag.text, pathTag]; rfl⟩
  rw [whole, Inert.regionLength?_of_not_code (Code.calm_cons (by decide) _) (by simp [Code.tick])]
  have other : ∀ tag ∈ payloadTags, tag ≠ Inert.literalName := by decide
  have fits := fits_tag tag listed
  exact Inert.literalLength?_of_name (by rw [fits.2]; exact Repair.isPlain_of_fits fits.1)
    (by rw [fits.2]; exact other tag listed) (by decide)

theorem read?_token (listed : tag ∈ payloadTags) (closing : Bool) {d : Char}
    (stop : Text.isNameChar d = false)
    (s : Text) : TagToken.read? ((TagToken.mk closing tag).text ++ d :: s) =
    some ⟨closing, tag⟩ := by
  obtain ⟨c, name, rfl, lower, letters⟩ := exists_cons listed
  have starts : TagToken.startsName c = true :=
    Text.startsName_of_isAlpha (Text.isAlpha_of_isLower lower)
  refine TagToken.read?_eq_some.mpr ⟨d :: s, rfl, ⟨by simpa using starts, ?_⟩, by simpa using stop⟩
  exact fun e inside => Text.isNameChar_of_isPlainLetter (letters e inside)

theorem closingTag_append (s : Text) :
    closingTag tag ++ s = (TagToken.mk true tag).text ++ '>' :: s := by
  simp [closingTag, TagToken.text]

/-- The closing tag is one to the renaming, too. -/
theorem closes?_closingTag {table : SpellingTable} (canonical : table.canonical? tag = some tag)
    (listed : tag ∈ payloadTags) (s : Text) :
    table.closes? tag (closingTag tag ++ s) = some (tag.length + 2) := by
  have read := read?_token listed true (by decide : Text.isNameChar '>' = false) s
  have back : ((TagToken.mk true tag).text ++ '>' :: s).drop (tag.length + 2) = '>' :: s :=
    List.drop_left' (by simp [TagToken.text])
  have dark : Text.isBlank '>' = false := by decide
  rw [closingTag_append, SpellingTable.closes?, read]
  simp only [back, Text.trimStart, List.dropWhile_cons, dark, canonical, Bool.false_eq_true,
    if_false, if_true]

theorem closes?_payload {table : SpellingTable} (plain : ∀ name ∈ sought, Text.IsPlain name)
    (names : ∀ name, table.canonical? name = some tag → Text.lower name ∈ sought)
    (never : closesNowhere sought payload = true) (rows : payload.getLast? = some '\n') {v : Text}
    (tags : '<' ∉ v)
    {a b s : Text} (split : v ++ payload = a ++ b) (more : b ≠ []) :
    table.closes? tag (b ++ s) = none := by
  cases found : table.closes? tag (b ++ s) with
  | none => rfl
  | some n =>
    obtain ⟨name, blanks, rest, whole, _, _, canonical, _⟩ := SpellingTable.closes?_eq_some.mp found
    obtain ⟨c, b, rfl⟩ := List.exists_cons_of_ne_nil more
    obtain rfl : c = '<' := (List.cons.inj whole).1
    rcases Text.append_eq_append_cons split with ⟨m, rfl, _⟩ | ⟨m, rfl, inner⟩
    · exact False.elim (tags (by simp))
    · have listed := names name canonical
      exact False.elim (not_named_of_closesNowhere plain never rows inner (by simp) whole
        ⟨_, listed, Text.matched_of_lower (plain _ listed) rfl⟩)

/-- What stands between the name of a tag with a path and the body. -/
def openingRest (path : Text) : Text := [' ', 'p', 'a', 't', 'h', '=', '"'] ++ (path ++ ['"', '>'])

theorem openingRest_unmarked (plain : PlainPath path) {c : Char}
    (mark : c = '<' ∨ c = Code.tick ∨ c = '\n') :
    c ∉ openingRest path := by
  have inner : c ∉ path := by
    rcases mark with rfl | rfl | rfl
    · exact plain.tags
    · exact plain.ticks
    · exact plain.one
  have marks : c ∉ [' ', 'p', 'a', 't', 'h', '=', '"', '>'] := by
    rcases mark with rfl | rfl | rfl <;> decide
  simp only [List.mem_cons, not_or] at marks
  simp [openingRest, inner, marks]

theorem fileBlock_text (s : Text) :
    (fileBlock tag path payload).text ++ s =
      (TagToken.mk false tag).text ++ (openingRest path ++ (payload ++ (closingTag tag ++ s))) := by
  simp [Block.text, fileBlock, OpeningTag.text, pathTag, openingRest, TagToken.text]

theorem endsInSlash_openingRest (plain : PlainPath path) (s : Text) :
    TagToken.endsInSlash none false (openingRest path ++ s) = false := by
  have inner := @TagToken.endsInSlash_quoted false path s plain.double
  have blank : Text.isBlank ' ' = true := by decide
  simpa [openingRest, TagToken.endsInSlash, blank] using inner

/-- Renaming leaves the block as it is. -/
theorem rename_fileBlock {table : SpellingTable} (canonical : table.canonical? tag = some tag)
    (content : table.isContent tag = true)
    (names : ∀ name, table.canonical? name = some tag → Text.lower name ∈ sought)
    (listed : tag ∈ payloadTags) (quotable : PlainPath path)
    (plain : ∀ name ∈ sought, Text.IsPlain name)
    (block : Sealed sought tag payload after) (s : Text) :
    table.rename ((fileBlock tag path payload).text ++ s) = (fileBlock tag path payload).text ++
      table.rename s := by
  have unmarked := @openingRest_unmarked path quotable
  have cut : openingRest path ++ (payload ++ (closingTag tag ++ s)) =
      (openingRest path ++ payload) ++ ((TagToken.mk true tag).text ++ '>' :: s) := by
    rw [closingTag_append, List.append_assoc]
  have read : TagToken.read? ((TagToken.mk false tag).text ++
      (openingRest path ++ (payload ++ (closingTag tag ++ s)))) = some ⟨false, tag⟩ :=
    read?_token listed false (by decide : Text.isNameChar ' ' = false) _
  have open' := endsInSlash_openingRest quotable (payload ++ (closingTag tag ++ s))
  have found : closing? .content (table.closes? tag)
    (openingRest path ++ (payload ++ (closingTag tag ++ s))) =
      some ((openingRest path ++ payload).length, tag.length + 2) := by
    have bare := bare_after block (unmarked (.inl rfl)) (unmarked (.inr (.inl rfl)))
      (unmarked (.inr (.inr rfl))) s
    rw [← List.append_assoc, ← List.length_append] at bare
    rw [← List.append_assoc]
    refine closing?_first (fun a b split more => ?_) (by simp [closingTag])
      (closes?_closingTag canonical listed s) bare
    exact closes?_payload plain names block.never block.rows (unmarked (.inl rfl)) split more
  rw [cut] at read open' found
  have unread : TagToken.read? ('>' :: s) = none := TagToken.read?_of_ne (by decide) s
  rw [fileBlock_text, fileBlock_text, cut,
    SpellingTable.rename_block ⟨read, canonical, content, open', found⟩,
    SpellingTable.rename_unread unread, closingTag_append, List.append_assoc]

/-- A closing tag that is ended is not ended again. -/
theorem unterminatedClosingRule_closingTag {names : List Text} (listed : tag ∈ payloadTags)
    (plain : ∀ name ∈ names, Text.IsPlain name) (only : ∀ name ∈ names, name <+: tag → name = tag)
    (s : Text) :
    Repair.unterminatedClosingRule names (closingTag tag ++ s) = none := by
  obtain ⟨fits, lower⟩ := fits_tag tag listed
  cases fires : Repair.unterminatedClosingRule names (closingTag tag ++ s) with
  | none => rfl
  | some change =>
    obtain ⟨front, rest, whole, named, ended⟩ := Repair.unterminatedClosingRule_inv fires
    have cut : front ++ rest = tag ++ '>' :: s := by simpa [closingTag] using whole.symm
    rcases Text.append_eq_append_cons cut with ⟨m, rfl, _⟩ | ⟨m, rfl, rfl⟩
    · have letter := Repair.isNameChar_of_named plain named '>' (by simp)
      have stop : Text.isNameChar '>' = false := by decide
      rw [stop] at letter
      cases letter
    · obtain ⟨name, known, matched⟩ := named
      have split : Text.lower front ++ Text.lower m = front ++ m := by
        rw [← lower]; simp [Text.lower]
      have letters : Text.IsPlain (Text.lower front) := by
        intro c inside
        refine Repair.isPlain_of_fits fits c ?_
        rw [← split]
        exact List.mem_append_left _ inside
      have same := Text.lower_of_matched (plain name known) letters matched
      have all := only name known ⟨Text.lower m, by rw [← same, split]⟩
      have size := congrArg List.length (same.trans all)
      simp only [Text.lower, List.length_map, List.length_append, Nat.left_eq_add,
        List.length_eq_zero_iff] at size
      subst size
      have dark : Text.isBlank '>' = false := by decide
      rcases ended with ⟨empty, _⟩ | ⟨_, _, _, blanks, _⟩
      · simp [dark] at empty
      · simp [dark] at blanks

/-- A repair of closing tags leaves the block as it is. -/
theorem apply_fileBlock {repair : Repair} (closes : repair.endsClosing = true)
    (orderly : repair.mendsTags = true)
    (only : ∀ name ∈ repair.sought, name <+: tag → name = tag) (listed : tag ∈ payloadTags)
    (quotable : PlainPath path) (never : closesNowhere repair.sought payload = true)
    (rows : payload.getLast? = some '\n') (s : Text) :
    repair.apply ((fileBlock tag path payload).text ++ s) = (fileBlock tag path payload).text ++
      repair.apply s := by
  have plain : ∀ name ∈ repair.sought, Text.IsPlain name :=
    fun name known => Repair.isPlain_of_fits (Repair.sought_fits orderly name known)
  have rule : repair.rule = Repair.unterminatedClosingRule repair.sought := by
    cases repair with
    | unterminatedClosing tags => rfl
    | _ => cases closes
  have name : '<' ∉ tag := not_mem_tag listed (by decide)
  have opening : '<' ∉ tag ++ openingRest path := by
    simp [name, openingRest_unmarked quotable (.inl rfl)]
  have closing : '<' ∉ '/' :: (tag ++ ['>']) := by simp [name]
  have whole : ∀ t, (fileBlock tag path payload).text ++ t =
      '<' :: ((tag ++ openingRest path) ++ (payload ++ '<' :: ('/' :: (tag ++ ['>']) ++ t))) := by
    intro t
    simp [fileBlock_text, TagToken.text, closingTag]
  have atOpening : ∀ t, repair.rule ('<' :: (tag ++ openingRest path ++ t)) = none := by
    obtain ⟨c, rest, rfl, lower, _⟩ := exists_cons listed
    have other : c ≠ '/' := by
      rintro rfl
      cases lower
    intro t
    simp [rule, Repair.unterminatedClosingRule, other]
  have atClosing : repair.rule ('<' :: ('/' :: (tag ++ ['>']) ++ s)) = none := by
    rw [rule]
    exact unterminatedClosingRule_closingTag listed plain only s
  have inPayload : ∀ t a b, payload = a ++ b → b ≠ [] → repair.rule (b ++ t) = none := by
    intro t a b split more
    cases fires : repair.rule (b ++ t) with
    | none => rfl
    | some change =>
      rw [rule] at fires
      obtain ⟨front, rest, cut, named, _⟩ := Repair.unterminatedClosingRule_inv fires
      exact False.elim (not_named_of_closesNowhere plain never rows split more cut named)
  rw [Repair.apply_eq orderly, Repair.apply_eq orderly, whole, whole]
  rw [Text.patchAll_of_none (atOpening _), Repair.patchAll_append_unmarked orderly opening]
  rw [Text.patchAll_append fun a b split more =>
    inPayload _ a b split more, Text.patchAll_of_none atClosing]
  rw [Repair.patchAll_append_unmarked orderly closing]

end Payload

end MarkupActions
