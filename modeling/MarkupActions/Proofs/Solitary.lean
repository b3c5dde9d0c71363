import MarkupActions.Proofs.Lone
import MarkupActions.Proofs.Openers
import MarkupActions.Proofs.Stripping
import MarkupActions.Proofs.Tidy
import MarkupActions.Proofs.Trails

/-!
# A tag that is all of a text

A tag that closes itself, in one row and with nothing marked up in it, goes through the preparation
of a text as it stands. It is a block to the family of its name and nothing to any other, so the
text asks for what this family makes of the one block.
-/

namespace MarkupActions

open Code (tick)
open OpeningTag (settles)

namespace Inert

variable {guarded : Matcher}

/-- Within a row no fence opens, so tildes need not be looked at. -/
theorem strip_row {v : Text} (tags : '<' ∉ v) (ticks : tick ∉ v) (one : '\n' ∉ v) (s : Text) :
    strip guarded false (v ++ s) = v ++ strip guarded false s := by
  induction v with
  | nil => rfl
  | cons c v ih =>
    simp only [List.mem_cons, not_or] at tags ticks one
    have bracket : c ≠ '<' := Ne.symm tags.1
    have other : c ≠ tick := Ne.symm ticks.1
    have row : (c == '\n') = false := beq_false_of_ne (Ne.symm one.1)
    have region : regionLength? false (c :: (v ++ s)) = none := by
      simp [regionLength?, Code.regionLength?, Code.spanLength?_of_ne other,
        literalLength?_of_ne bracket]
    rw [List.cons_append, strip_cons region (blockAt?_of_ne bracket _) other, row,
      ih tags.2 ticks.2 one.2]
    rfl

end Inert

theorem Repair.rowsGoOn_row {quote : Option Char} {seen : Bool} {s : Text} (one : '\n' ∉ s) :
    rowsGoOn quote seen s = true := by
  induction s generalizing quote seen with
  | nil => cases quote <;> rfl
  | cons c s ih =>
    simp only [List.mem_cons, not_or] at one
    cases quote with
    | some q => exact ih one.2
    | none =>
      have other : (c != '\n') = true := by simpa using Ne.symm one.1
      simp [rowsGoOn, other, ih one.2]

/-- Of a text with one angle bracket, at its head, there is one token to speak of. -/
theorem EachToken.of_lone {names : List Text} {P : TagToken → Text → Prop} {u : Text}
    (tags : '<' ∉ u)
    (first : ∀ token, TagToken.read? ('<' :: u) = some token →
      P token (('<' :: u).drop token.text.length)) :
    EachToken names P ('<' :: u) := by
  intro t ends token read _
  rcases List.suffix_cons_iff.mp ((List.mem_tails _ _).mp ends) with rfl | inner
  · exact first token read
  · exfalso
    obtain ⟨rest, whole, _⟩ := TagToken.read?_eq_some.mp read
    obtain ⟨slash, text, _⟩ := token.text_eq
    rw [whole, text] at inner
    exact tags (inner.mem (by simp))

/-- A tag that closes itself in one row, in which no code and no other tag begins. -/
structure OpeningTag.Solitary (tag : OpeningTag) : Prop where
  read : OpeningTag.read? tag.text = some tag
  slash : tag.closesItself = true
  unquoted : tag.attributes.head?.any Attribute.isQuote = false
  tags : '<' ∉ tag.attributes
  ticks : tick ∉ tag.attributes
  one : '\n' ∉ tag.attributes

def OpeningTag.block (tag : OpeningTag) : Block := ⟨tag, .closesItself⟩

namespace OpeningTag.Solitary

variable {tag : OpeningTag}

/-- Where the name of such a tag ends, its attributes begin. -/
theorem stop (solitary : tag.Solitary) :
    (tag.attributes ++ ['>']).head?.any Text.isNameChar = false :=
  (read?_self solitary.read).2

theorem unmarked (solitary : tag.Solitary) (named : TagToken.IsName tag.name) {c : Char}
    (mark : c = '<' ∨ c = tick ∨ c = '\n') : c ∉ tag.name ++ (tag.attributes ++ ['>']) := by
  have name : c ∉ tag.name := by
    refine TagToken.not_mem_of_isName named ?_
    rcases mark with rfl | rfl | rfl <;> decide
  have inner : c ∉ tag.attributes := by
    rcases mark with rfl | rfl | rfl
    · exact solitary.tags
    · exact solitary.ticks
    · exact solitary.one
  have last : c ≠ '>' := by rcases mark with rfl | rfl | rfl <;> decide
  simp [name, inner, last]

theorem text_eq (tag : OpeningTag) : tag.text = '<' :: (tag.name ++ (tag.attributes ++ ['>'])) := by
  rw [text, List.append_assoc]

/-- Repairs leave the tag alone. -/
theorem mend (solitary : tag.Solitary) (named : TagToken.IsName tag.name) :
    Registry.builtIn.mend tag.text = tag.text := by
  have tags := solitary.unmarked named (.inl rfl)
  have token : ∀ token, TagToken.read? tag.text = some token →
      token = ⟨false, tag.name⟩ ∧ tag.text.drop token.text.length = tag.attributes ++ ['>'] := by
    intro token read
    have own := @TagToken.read?_text ⟨false, tag.name⟩ named _ solitary.stop
    have shape : (TagToken.mk false tag.name).text ++ (tag.attributes ++ ['>']) = tag.text := by
      simp [TagToken.text, text]
    rw [shape, read, Option.some.injEq] at own
    subst own
    exact ⟨rfl, by rw [← shape, List.drop_left]⟩
  have complete : ∀ names, EachToken names TagToken.Complete tag.text := by
    intro names
    rw [text_eq] at token ⊢
    refine EachToken.of_lone tags fun found read => ?_
    obtain ⟨rfl, rest⟩ := token found read
    rw [rest]
    have whole : (TagToken.mk false tag.name).text ++ (tag.attributes ++ ['>']) = tag.text := by
      simp [TagToken.text, text]
    have quote : (tag.attributes ++ ['>']).head?.any Attribute.isQuote = false := by
      cases shape : tag.attributes with
      | nil => decide
      | cons c rest => simpa [shape] using solitary.unquoted
    rw [TagToken.Complete, if_neg (by simp), whole, solitary.read]
    exact ⟨rfl, quote⟩
  have rows : ∀ names, EachToken names TagToken.RowsGoOn tag.text := by
    intro names
    rw [text_eq] at token ⊢
    refine EachToken.of_lone tags fun found read => ?_
    obtain ⟨rfl, rest⟩ := token found read
    rw [rest]
    exact .inr (Repair.rowsGoOn_row (by simp [solitary.one]))
  exact foldl_eq_self fun family member =>
    Registry.mendWith_eq_self (Repair.builtIn_mendsTags family member)
    (fun repair _ => complete repair.sought) (fun repair _ => rows repair.rowTags)

/-- Renaming leaves the tag alone. -/
theorem rename {table : SpellingTable} (solitary : tag.Solitary) (named : TagToken.IsName tag.name)
    (known : table.canonical? tag.name = some tag.name) (plain : table.isContent tag.name = false) :
    table.rename tag.text = tag.text := by
  have tags : '<' ∉ tag.attributes ++ ['>'] := by simp [solitary.tags]
  have shape : (TagToken.mk false tag.name).text ++ (tag.attributes ++ ['>']) = tag.text := by
    simp [TagToken.text, text]
  have read := @TagToken.read?_text ⟨false, tag.name⟩ named _ solitary.stop
  rw [← shape, SpellingTable.rename_token read known]
  simp [plain, SpellingTable.rename_unmarked tags]

theorem layout (solitary : tag.Solitary) {m : Matcher} (unknown : m.mode? tag.key = none) :
    m.layout tag.text = .last tag.text := by
  have read := solitary.read
  rw [← List.append_nil tag.text] at read
  have cut := Matcher.layout_tag read unknown
  rwa [List.append_nil, Matcher.layout, Layout.prepend_last, List.append_nil] at cut

theorem blockAt? (solitary : tag.Solitary) {m : Matcher} {mode : ScanMode}
    (known : m.mode? tag.key = some mode) :
    m.blockAt? tag.text = some tag.block := by
  rw [Matcher.blockAt?, solitary.read, Option.bind_some, Matcher.blockOf?, known, Option.map_some,
    extentOf, if_pos solitary.slash]
  rfl

/-- A matcher that knows the name finds the one block. -/
theorem blocks (solitary : tag.Solitary) {m : Matcher} {mode : ScanMode}
    (known : m.mode? tag.key = some mode) :
    m.blocks tag.text = [tag.block] := by
  have found := solitary.blockAt? known
  have shape : tag.block.text = tag.text := rfl
  rw [← shape, ← List.append_nil tag.block.text] at found
  have cut := Matcher.layout_block found
  rw [List.append_nil] at cut
  rw [Matcher.blocks, ← shape, cut, Matcher.layout]
  rfl

/-- Nothing of the tag is inert. -/
theorem strip {guarded : Matcher} {lineStart : Bool} (solitary : tag.Solitary)
    (fits : Repair.fits tag.name = true)
    (other : tag.name ≠ Inert.literalName) : Inert.strip guarded lineStart tag.text = tag.text := by
  have plain := Repair.isPlain_of_fits fits
  have lower : Text.lower tag.name = tag.name := Text.lower_of_isPlain plain
  have named := (TagName.of_fits fits).isName
  have region : Inert.regionLength? lineStart tag.text = none := by
    obtain ⟨d, rest, shape⟩ := List.exists_cons_of_ne_nil
      (show tag.attributes ++ ['>'] ≠ [] by simp)
    have stop := solitary.stop
    rw [shape] at stop
    rw [text_eq, Inert.regionLength?_of_not_code (Code.calm_cons (by decide) _) (by simp [tick]),
      shape]
    exact Inert.literalLength?_of_name (by rwa [lower]) (by rwa [lower]) (by simpa using stop)
  have nothing : Inert.strip guarded false [] = [] := by rw [Inert.strip]
  cases known : guarded.mode? tag.key with
  | none =>
    have unread : guarded.blockAt? tag.text = none := by
      rw [Matcher.blockAt?, solitary.read, Option.bind_some, Matcher.blockOf?, known,
        Option.map_none]
    have row := @Inert.strip_row guarded _ (solitary.unmarked named (.inl rfl))
      (solitary.unmarked named (.inr (.inl rfl)))
      (solitary.unmarked named (.inr (.inr rfl))) []
    rw [List.append_nil, nothing, List.append_nil] at row
    rw [text_eq] at region unread ⊢
    rw [Inert.strip_cons region unread (by decide), show ('<' == '\n') = false from rfl, row]
  | some mode =>
    have found := solitary.blockAt? known
    have shape : tag.block.text = tag.text := rfl
    have cut := @Inert.strip_block guarded lineStart tag.block [] (by rwa [List.append_nil])
      (by rwa [List.append_nil])
    rwa [List.append_nil, nothing, List.append_nil] at cut

end OpeningTag.Solitary

namespace Family

/-- A family finds the blocks of its own tags and no others. -/
theorem mode?_matcher {family : Family} (member : family ∈ builtIn) (key : Text) :
    family.matcher.mode? key =
      if key ∈ family.canonicalTags then
        some (if family.bearsContent then .content else .structural)
      else none := by
  rw [matcher, Matcher.mode?_of, lower_canonicalTags member]

theorem retired_owned : ∀ family ∈ builtIn, ∀ tag ∈ family.retired, tag ∈ family.canonicalTags := by
  decide

variable {family : Family} {tag : OpeningTag}

theorem not_mem_of_not_owns (other : family.owns tag.name = false) :
    tag.key ∉ family.canonicalTags := by
  simpa [owns, OpeningTag.key] using other

/-- A family finds nothing in the tag of another. -/
theorem extract_solitary (solitary : tag.Solitary) (member : family ∈ builtIn)
    (other : family.owns tag.name = false)
    (screening : Screening) : family.extract screening tag.text = [] := by
  obtain ⟨actions, reads, _⟩ := builtIn_readsOwn member
  have unknown : family.matcher.mode? tag.key = none := by
    rw [mode?_matcher member, if_neg (not_mem_of_not_owns other)]
  rw [reads, Matcher.blocks, solitary.layout unknown]
  rfl

/-- A family takes nothing out of the tag of another. -/
theorem retire_solitary (solitary : tag.Solitary) (member : family ∈ builtIn)
    (other : family.owns tag.name = false) :
    family.retire tag.text = tag.text := by
  have foreign := not_mem_of_not_owns other
  have unknown : (Matcher.of .structural family.retired).mode? tag.key = none := by
    rw [Matcher.mode?_of, if_neg]
    intro inside
    obtain ⟨name, listed, lower⟩ := List.mem_map.mp inside
    have own := retired_owned family member name listed
    rw [← lower_canonicalTags member] at foreign
    exact foreign (List.mem_map.mpr ⟨name, own, lower⟩)
  refine retire_of_blocks_nil ?_
  rw [Matcher.blocks, solitary.layout unknown]
  rfl

end Family

namespace Registry

/-- What the built-in families say of a tag that does not bear content. -/
theorem structural_tags : ∀ family ∈ builtIn.structuralFamilies, ∀ tag ∈ family.canonicalTags,
    Repair.fits tag = true ∧ builtIn.table.canonical? tag = some tag ∧
      builtIn.table.isContent tag = false ∧
      builtIn.table.contentMatcher.mode? tag = none ∧ tag ≠ Inert.literalName ∧
      builtIn.structuralFamilies.countP (·.owns tag) = 1 := by
  decide +kernel

variable {family : Family} {tag : OpeningTag}

/-- Families that do not own the tag find nothing in it. -/
theorem readInTurn_foreign (solitary : tag.Solitary) {families : List Family}
    (members : ∀ other ∈ families, other ∈ Family.builtIn)
    (none : families.filter (·.owns tag.name) = [])
    (screening : Screening) : readInTurn screening families tag.text = [] := by
  induction families with
  | nil => rfl
  | cons other families ih =>
    have apart : other.owns tag.name = false := by
      simpa using List.filter_eq_nil_iff.mp none other List.mem_cons_self
    have among := members other List.mem_cons_self
    rw [List.filter_cons, if_neg (by simp [apart])] at none
    rw [readInTurn, Family.extract_solitary solitary among apart,
      Family.retire_solitary solitary among apart, List.nil_append,
      ih (fun another inside => members another (List.mem_cons_of_mem _ inside)) none]

/-- Of several families only the one that owns the tag reads it. -/
theorem readInTurn_solitary (solitary : tag.Solitary) {families : List Family}
    (members : ∀ other ∈ families, other ∈ Family.builtIn)
    (own : families.filter (·.owns tag.name) = [family])
    (keeps : family.retired = []) (screening : Screening) :
    readInTurn screening families tag.text = family.extract screening tag.text := by
  induction families with
  | nil => cases own
  | cons first families ih =>
    have among := members first List.mem_cons_self
    have later : ∀ other ∈ families, other ∈ Family.builtIn := fun other inside =>
      members other (List.mem_cons_of_mem _ inside)
    cases mine : first.owns tag.name with
    | true =>
      rw [List.filter_cons, if_pos mine] at own
      obtain ⟨rfl, rest⟩ := List.cons.inj own
      rw [readInTurn, Family.retire_of_nil keeps, readInTurn_foreign solitary later rest,
        List.append_nil]
    | false =>
      rw [List.filter_cons, if_neg (by simp [mine])] at own
      rw [readInTurn, Family.extract_solitary solitary among mine,
        Family.retire_solitary solitary among mine, List.nil_append, ih later own]

/-- A family that bears content and does not know the name finds nothing in its view of the tag. -/
theorem contentFamilies_solitary (solitary : tag.Solitary)
    (layout : builtIn.table.contentMatcher.layout tag.text = .last tag.text)
    (foreign : ∀ bearer ∈ builtIn.contentFamilies, bearer.owns tag.name = false)
    (screening : Screening) :
    builtIn.contentFamilies.flatMap (fun bearer => bearer.extract screening
      (view (builtIn.table.contentMatcher.layout tag.text) bearer)) = [] := by
  refine List.flatMap_eq_nil_iff.mpr fun bearer inside => ?_
  rw [layout]
  exact Family.extract_solitary solitary (List.mem_filter.mp inside).1
    (foreign bearer inside) screening

/-- The stages before the reading leave the tag as it is. -/
theorem working_solitary (solitary : tag.Solitary) (fits : Repair.fits tag.name = true)
    (known : builtIn.table.canonical? tag.name = some tag.name)
    (plain : builtIn.table.isContent tag.name = false)
    (other : tag.name ≠ Inert.literalName) : builtIn.working tag.text = tag.text := by
  have named := (TagName.of_fits fits).isName
  rw [working, solitary.mend named, normalize, solitary.rename named known plain,
    solitary.strip fits other]

/-- A text that is one such tag asks for what the family of its name makes of the block. -/
theorem extract_solitary (solitary : tag.Solitary) (member : family ∈ builtIn.structuralFamilies)
    (listed : tag.name ∈ family.canonicalTags) (keeps : family.retired = [])
    {action? : Block → Option Action}
    (reads : ∀ screening s, family.extract screening s =
      (family.matcher.blocks s).filterMap action?)
    (screening : Screening) : builtIn.extract screening tag.text = (action? tag.block).toList := by
  obtain ⟨fits, known, plain, unknown, other, one⟩ := structural_tags family member tag.name listed
  have lower : Text.lower tag.name = tag.name := Text.lower_of_isPlain (Repair.isPlain_of_fits fits)
  obtain ⟨among, structural⟩ := List.mem_filter.mp member
  have own : family.owns tag.name = true := by
    rw [Family.owns, lower]
    exact List.contains_iff_mem.mpr listed
  have apart : ∀ others ∈ Family.builtIn, others.owns tag.name = true → others = family :=
    fun others inside owned =>
    Family.builtIn_apart others inside family among tag.name owned own
  have layout : builtIn.table.contentMatcher.layout tag.text = .last tag.text :=
    solitary.layout (by rw [OpeningTag.key, lower, unknown])
  have foreign : ∀ bearer ∈ builtIn.contentFamilies, bearer.owns tag.name = false := by
    intro bearer inside
    obtain ⟨listed, bears⟩ := List.mem_filter.mp inside
    by_contra owned
    rw [apart bearer listed (by simpa using owned)] at bears
    simp [bears] at structural
  have left : builtIn.table.contentMatcher.removeBlocks tag.text = tag.text := by
    rw [Matcher.removeBlocks, layout]
    rfl
  have single : builtIn.structuralFamilies.filter (·.owns tag.name) = [family] := by
    rw [List.countP_eq_length_filter] at one
    obtain ⟨only, alone⟩ := List.length_eq_one_iff.mp one
    have inside : family ∈ builtIn.structuralFamilies.filter (·.owns tag.name) :=
      List.mem_filter.mpr ⟨member, own⟩
    rw [alone] at inside
    rw [alone, List.mem_singleton.mp inside]
  have found : family.matcher.blocks tag.text = [tag.block] :=
    solitary.blocks (by rw [Family.mode?_matcher among, OpeningTag.key, lower, if_pos listed])
  have turn : readInTurn screening builtIn.structuralFamilies tag.text =
    family.extract screening tag.text :=
    readInTurn_solitary solitary (fun _ inside => (List.mem_filter.mp inside).1) single keeps
      screening
  rw [extract, working_solitary solitary fits known plain other, readWorking_eq content_keeps,
    contentFamilies_solitary solitary layout foreign, left, List.nil_append, turn, reads, found]
  cases made : action? tag.block with
  | none => simp [made]
  | some action => simp [made]

end Registry

end MarkupActions
