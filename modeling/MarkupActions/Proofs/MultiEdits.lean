import MarkupActions.Proofs.EditBlocks

/-!
# Edits in a multi-edit

A multi-edit does what its blocks do, one after the other, each as if it stood alone under a tag
that names its file. The names of the blocks may be spelled in any way, and a block that is turned
down takes none of the others with it.
-/

namespace MarkupActions

open Code (tick)

namespace Hunk

variable {u v s : Text}

/-- No marker begins before a closing tag and ends behind its bracket. -/
theorem opening?_before_closing (found : (opening? (u ++ '<' :: '/' :: v)).isSome = true) :
    (opening? u).isSome = true := by
  have cut : opening? (u ++ '<' :: '/' :: v) = opening? (u ++ ['<']) := by
    have split : u ++ '<' :: '/' :: v = (u ++ ['<']) ++ '/' :: v := by simp
    rw [split]
    exact markerLength?_append_cons (by decide) (by decide) (by decide) (by decide) (by decide)
      (by decide)
  rw [cut] at found
  obtain ⟨n, length⟩ := Option.isSome_iff_exists.mp found
  obtain ⟨blanks, rest, whole, blank, ends, _⟩ :=
    (markerLength?_eq_some (by decide) (by decide)).mp length
  rcases List.eq_nil_or_concat' rest with rfl | ⟨rest, c, rfl⟩
  · have last : (List.replicate 7 '<' ++ (blanks ++ "SEARCH".toList)).getLast? = some 'H' := by
      rw [← List.append_assoc, List.getLast?_append_of_ne_nil _ (by decide)]
      decide
    rw [List.append_nil] at whole
    rw [← whole, List.getLast?_concat] at last
    cases last
  · have same : u = List.replicate 7 '<' ++ (blanks ++ ("SEARCH".toList ++ rest)) := by
      have split : u ++ ['<'] = (List.replicate 7 '<' ++ (blanks ++ ("SEARCH".toList ++ rest))) ++
        [c] := by
        rw [whole]
        simp only [List.append_assoc]
      exact (List.append_inj' split rfl).1
    have stops : rest.head?.any Text.isWord = false := by
      cases rest with
      | nil => rfl
      | cons d rest => exact ends
    exact Option.isSome_iff_exists.mpr
      ⟨_, (markerLength?_eq_some (by decide) (by decide)).mpr
        ⟨blanks, rest, same, blank, stops, rfl⟩⟩

theorem opening?_tag {c : Char} (other : c ≠ '<') (s : Text) : opening? ('<' :: c :: s) = none := by
  simp [opening?, markerLength?, List.isPrefixOf?, List.replicate, Ne.symm other]

theorem count_opening_tag (tags : '<' ∉ u) (more : u ≠ []) (s : Text) :
    count opening? ('<' :: (u ++ s)) = count opening? s := by
  obtain ⟨c, w, rfl⟩ := List.exists_cons_of_ne_nil more
  have other : c ≠ '<' := by
    rintro rfl
    exact tags List.mem_cons_self
  rw [count, count_opening_append tags, List.cons_append, opening?_tag other]
  simp

theorem count_opening_before_closing (u v : Text) :
    count opening? (u ++ '<' :: '/' :: v) ≤ count opening? u + count opening? v := by
  induction u with
  | nil =>
    have none := count_opening_tag (by decide : '<' ∉ ['/']) (by simp) v
    exact Nat.le_trans (Nat.le_of_eq none) (Nat.le_add_left _ _)
  | cons c u ih =>
    have here := @opening?_before_closing (c :: u) v
    rw [List.cons_append] at here
    rw [List.cons_append, count, count]
    by_cases found : (opening? (c :: (u ++ '<' :: '/' :: v))).isSome = true
    · rw [if_pos found, if_pos (here found)]
      omega
    · rw [if_neg found]
      omega

end Hunk

/-- A tag closes nothing, if it is not a closing tag itself. -/
theorem ClosingTag.firstEnd?_of_tag {name u s : Text} (tags : '<' ∉ u)
    (here : length? name ('<' :: (u ++ s)) = none)
    (absent : firstEnd? name s = none) : firstEnd? name ('<' :: (u ++ s)) = none := by
  have passed : ∀ a b, '<' :: u = a ++ b → b ≠ [] → length? name (b ++ s) = none := by
    intro a b whole more
    cases a with
    | nil =>
      rw [List.nil_append] at whole
      rw [← whole]
      exact here
    | cons c a =>
      obtain ⟨d, b, rfl⟩ := List.exists_cons_of_ne_nil more
      have inside : d ∈ u := by
        rw [(List.cons.inj whole).2]
        simp
      refine length?_of_ne ?_ _
      rintro rfl
      exact tags inside
  have cut := @firstEnd?_append name ('<' :: u) s passed
  rw [absent] at cut
  exact cut

/-- A block inside of a multi-edit: its name as it is spelled, its path if it names one, and its
body. -/
structure InnerEdit where
  name : Text
  path? : Option Text
  body : Text

namespace InnerEdit

def block (inner : InnerEdit) : Block :=
  writtenBlock inner.name (pathAttributes inner.path?) inner.body

/-- Whether a block stands in a multi-edit by itself: nothing in it closes an edit, and its hunks
are finished. -/
structure Fits (inner : InnerEdit) : Prop where
  known : inner.name ∈ Family.innerEditNames
  path : ∀ path ∈ inner.path?, FilePath path
  closed : ∀ name ∈ Family.edit.spellings, ClosingTag.firstEnd? name inner.body = none
  ticks : tick ∉ inner.body
  tildes : '~' ∉ inner.body
  finished : Hunk.count Hunk.opening? inner.body ≤ Hunk.count Hunk.finish? inner.body

instance (inner : InnerEdit) : Decidable inner.Fits :=
  decidable_of_iff (inner.name ∈ Family.innerEditNames ∧ (∀ path ∈ inner.path?, FilePath path) ∧
      (∀ name ∈ Family.edit.spellings, ClosingTag.firstEnd? name inner.body = none) ∧
      tick ∉ inner.body ∧ '~' ∉ inner.body ∧
      Hunk.count Hunk.opening? inner.body ≤ Hunk.count Hunk.finish? inner.body)
    ⟨fun ⟨known, path, closed, ticks, tildes, finished⟩ =>
      ⟨known, path, closed, ticks, tildes, finished⟩,
      fun ⟨known, path, closed, ticks, tildes, finished⟩ =>
      ⟨known, path, closed, ticks, tildes, finished⟩⟩

/-- What the names have in common. -/
theorem names_fit : ∀ name ∈ Family.innerEditNames, Repair.fits name = true ∧
    name ∈ Family.edit.spellings ∧
    (Matcher.of .content Family.innerEditNames).mode? name = some .content ∧
    name.head? = some 'e' := by
  decide +kernel

variable {inner : InnerEdit} {inners : List InnerEdit}

theorem Fits.level (fits : inner.Fits) : Level inner.body := .of_unmarked fits.ticks fits.tildes

/-- Under any name of an edit the body is ended by the closing tag behind it. -/
theorem Fits.closes (fits : inner.Fits) {name : Text} (known : name ∈ Family.innerEditNames)
    (s : Text) :
    closing? .content (ClosingTag.length? name) (inner.body ++ (closingTag name ++ s)) =
      some (inner.body.length, (closingTag name).length) := by
  obtain ⟨tag, listed, _⟩ := names_fit name known
  refine closing?_body tag fits.level fits.finished (fun a b n whole here => ?_) s
  have none := ClosingTag.firstEnd?_eq_none.mp (fits.closed name listed) a _ whole
  rw [here] at none
  cases none

/-- The blocks of some edits one after the other are these edits. -/
theorem blocks_flatMap (fits : ∀ inner ∈ inners, inner.Fits) :
    (Matcher.of .content Family.innerEditNames).blocks
    (inners.flatMap (·.block.text)) = inners.map block := by
  induction inners with
  | nil =>
    rw [List.flatMap_nil, Matcher.blocks, Matcher.layout]
    rfl
  | cons inner inners ih =>
    have here := fits inner List.mem_cons_self
    obtain ⟨tag, _, mode, _⟩ := names_fit inner.name here.known
    have found := blockAt?_writtenBlock (s := inners.flatMap (·.block.text)) mode tag
      (quotable_pathAttributes here.path)
      (here.closes here.known _)
    have rest := ih fun other inside => fits other (List.mem_cons_of_mem _ inside)
    rw [Matcher.blocks] at rest
    rw [List.flatMap_cons, List.map_cons, ← rest, Matcher.blocks, block, Matcher.layout_block found]
    rfl

/-- What stands between the bracket of a block and its body. -/
def opening (inner : InnerEdit) : Text :=
  inner.name ++ ((pathAttributes inner.path?).flatMap Attribute.written ++ ['>'])

theorem text_append (inner : InnerEdit) (s : Text) :
    inner.block.text ++ s = '<' :: (inner.opening ++
      (inner.body ++ '<' :: ('/' :: (inner.name ++ ['>']) ++ s))) := by
  simp [block, text_writtenBlock, text_writtenTag, opening, closingTag]

/-- No mark stands in the tag of a block but the slashes and tildes of its path. -/
theorem Fits.unmarked (fits : inner.Fits) {c : Char} (mark : c = '<' ∨ c = tick ∨ c = '\n') :
    c ∉ inner.opening ∧ c ∉ '/' :: (inner.name ++ ['>']) := by
  have letters : c ∉ inner.name := by
    intro inside
    have named := Repair.isNameChar_of_fits (names_fit _ fits.known).1 c inside
    rcases mark with rfl | rfl | rfl <;> revert named <;> decide
  have marks : c ∉ "path".toList ∧ c ≠ ' ' ∧ c ≠ '=' ∧ c ≠ '"' ∧ c ≠ '>' ∧ c ≠ '/' := by
    rcases mark with rfl | rfl | rfl <;> decide
  have attributes : c ∉ (pathAttributes inner.path?).flatMap Attribute.written := by
    intro inside
    obtain ⟨a, listed, here⟩ := List.mem_flatMap.mp inside
    obtain ⟨path, known, rfl⟩ := List.mem_map.mp listed
    have own := fits.path path (Option.mem_toList.mp known)
    have absent : c ∉ path := by
      rcases mark with rfl | rfl | rfl
      · exact own.tags
      · exact own.ticks
      · exact own.one
    simp only [Attribute.written, List.mem_cons, List.mem_append, List.not_mem_nil, marks, absent,
      or_self] at here
  constructor
  · simp [opening, letters, attributes, marks]
  · simp [letters, marks]

theorem Fits.level_text (fits : inner.Fits) {s : Text} (level : Level s) :
    Level (inner.block.text ++ s) := by
  have opening := fun c mark => (@Fits.unmarked inner fits c mark).1
  have closing := fun c mark => (@Fits.unmarked inner fits c mark).2
  rw [text_append]
  apply Level.tag_append (opening _ (.inr (.inl rfl))) (opening _ (.inr (.inr rfl)))
  apply Level.append fits.level
  · exact Level.tag_append (closing _ (.inr (.inl rfl))) (closing _ (.inr (.inr rfl))) level
  · exact .inr ⟨_, rfl⟩

theorem level_flatMap (fits : ∀ inner ∈ inners, inner.Fits) :
    Level (inners.flatMap (·.block.text)) := by
  induction inners with
  | nil => exact Level.of_unmarked (by simp) (by simp)
  | cons inner inners ih =>
    rw [List.flatMap_cons]
    exact (fits inner List.mem_cons_self).level_text
      (ih fun other inside => fits other (List.mem_cons_of_mem _ inside))

/-- All blocks together finish as many hunks as they open. -/
theorem finished_flatMap (fits : ∀ inner ∈ inners, inner.Fits) :
    Hunk.count Hunk.opening? (inners.flatMap (·.block.text)) ≤
      Hunk.count Hunk.finish? (inners.flatMap (·.block.text)) := by
  induction inners with
  | nil => exact Nat.le_refl _
  | cons inner inners ih =>
    have here := fits inner List.mem_cons_self
    have rest := ih fun other inside => fits other (List.mem_cons_of_mem _ inside)
    have unmarked := here.unmarked (.inl rfl)
    rw [List.flatMap_cons]
    generalize inners.flatMap (·.block.text) = s at rest ⊢
    have opened : Hunk.count Hunk.opening? (inner.block.text ++ s) ≤
        Hunk.count Hunk.opening? inner.body + Hunk.count Hunk.opening? s := by
      have closing : '<' ∉ inner.name ++ ['>'] :=
        fun inside => unmarked.2 (List.mem_cons_of_mem _ inside)
      have across := Hunk.count_opening_before_closing inner.body ((inner.name ++ ['>']) ++ s)
      rw [Hunk.count_opening_append closing] at across
      rw [text_append, Hunk.count_opening_tag unmarked.1 (by simp [opening])]
      exact across
    have closed : Hunk.count Hunk.finish? inner.body + Hunk.count Hunk.finish? s ≤
        Hunk.count Hunk.finish? (inner.block.text ++ s) := by
      have cut : inner.block.text ++ s =
          ('<' :: inner.opening ++ inner.body) ++ '<' :: ('/' :: (inner.name ++ ['>']) ++ s) := by
        rw [text_append]
        simp
      rw [cut, Hunk.count_finish_bracket]
      exact Nat.add_le_add (Hunk.count_append_ge _ _ _) (Hunk.count_append_ge _ _ _)
    have balance := here.finished
    omega

/-- The tag of an inner block does not close the multi-edit. -/
theorem Fits.opening_closes_nothing (fits : inner.Fits) (s : Text) :
    ClosingTag.length? "multi-edit".toList ('<' :: (inner.opening ++ s)) = none := by
  obtain ⟨letters, name⟩ := List.head?_eq_some_iff.mp (names_fit _ fits.known).2.2.2
  cases found : ClosingTag.length? "multi-edit".toList ('<' :: (inner.opening ++ s)) with
  | none => rfl
  | some n =>
    obtain ⟨t, whole⟩ := seesTags_length? _ _ n found
    rw [opening, name] at whole
    cases (List.cons.inj (List.cons.inj whole).2).1

/-- The closing tag of an inner block does not close the multi-edit. -/
theorem Fits.closing_closes_another (fits : inner.Fits) (s : Text) :
    ClosingTag.length? "multi-edit".toList ('<' :: ('/' :: (inner.name ++ ['>']) ++ s)) = none := by
  obtain ⟨letters, name⟩ := List.head?_eq_some_iff.mp (names_fit _ fits.known).2.2.2
  cases found : ClosingTag.length? "multi-edit".toList
    ('<' :: ('/' :: (inner.name ++ ['>']) ++ s)) with
  | none => rfl
  | some n =>
    obtain ⟨front, _, _, whole, lower, _⟩ := ClosingTag.length?_eq_some.mp found
    have first : "multi-edit".toList = 'm' :: "ulti-edit".toList := rfl
    have other : 'e'.toLower ≠ 'm' := by decide
    rw [first] at lower
    obtain ⟨_, front, rfl, _, lower⟩ := List.map_eq_cons_iff.mp lower
    obtain ⟨_, front, rfl, _, lower⟩ := List.map_eq_cons_iff.mp lower
    obtain ⟨c, front, rfl, letter, _⟩ := List.map_eq_cons_iff.mp lower
    rw [name] at whole
    obtain rfl : 'e' = c := (List.cons.inj (List.cons.inj (List.cons.inj whole).2).2).1
    exact False.elim (other letter)

/-- Nothing in the body of an inner block closes the multi-edit. -/
theorem Fits.body_closes_nothing (fits : inner.Fits) {a b : Text} (whole : inner.body = a ++ b)
    (more : b ≠ [])
    (s : Text) : ClosingTag.length? "multi-edit".toList (b ++ '<' :: s) = none := by
  have listed : "multi-edit".toList ∈ Family.edit.spellings := by decide +kernel
  have none := ClosingTag.firstEnd?_eq_none.mp (fits.closed _ listed) a b whole
  cases found : ClosingTag.length? "multi-edit".toList (b ++ '<' :: s) with
  | none => rfl
  | some n =>
    rw [ClosingTag.length?_before (by decide) more found] at none
    cases none

theorem closed_flatMap (fits : ∀ inner ∈ inners, inner.Fits) :
    ClosingTag.firstEnd? "multi-edit".toList (inners.flatMap (·.block.text)) = none := by
  induction inners with
  | nil => rfl
  | cons inner inners ih =>
    have here := fits inner List.mem_cons_self
    have rest := ih fun other inside => fits other (List.mem_cons_of_mem _ inside)
    rw [List.flatMap_cons, text_append]
    apply ClosingTag.firstEnd?_of_tag (here.unmarked (.inl rfl)).1 (here.opening_closes_nothing _)
    rw [ClosingTag.firstEnd?_append fun a b whole more =>
      here.body_closes_nothing whole more _, Option.map_eq_none_iff]
    exact ClosingTag.firstEnd?_of_tag (here.unmarked (.inl rfl)).2
      (here.closing_closes_another _) rest

end InnerEdit

namespace Family

/-- A multi-edit does what each of its blocks does alone under a tag that names the file, and a
block that is turned down does nothing. -/
theorem extract_multiEdit (screening : Screening) {path : Text} {inners : List InnerEdit}
    (plain : FilePath path)
    (fits : ∀ inner ∈ inners, inner.Fits) :
    edit.extract screening (fileBlock "multi-edit".toList path (inners.flatMap (·.block.text))).text
      =
      (inners.flatMap fun inner =>
        edit.extract screening (fileBlock "edit".toList (inner.path?.getD path) inner.body).text) ∧
    ∀ inner ∈ inners, screening.check inner.body (inner.path?.getD path) ≠ none →
      edit.extract screening (fileBlock "edit".toList (inner.path?.getD path) inner.body).text =
        [] := by
  have single : ∀ inner ∈ inners,
      edit.extract screening (fileBlock "edit".toList (inner.path?.getD path) inner.body).text =
        fileEdits screening (inner.path?.getD path) inner.body := by
    intro inner inside
    have here := fits inner inside
    refine extract_fileBlock ?_ (here.closes (by decide) [])
    cases named : inner.path? with
    | none => exact plain
    | some own => exact here.path own named
  constructor
  · have fit : Repair.fits "multi-edit".toList = true := by decide
    have own : ∀ other ∈ some path, FilePath other := fun other same => Option.some.inj same ▸ plain
    have attributes : pathAttributes (some path) = [Attribute.mk "path".toList path] := rfl
    have closes := closing?_body fit (InnerEdit.level_flatMap fits)
      (InnerEdit.finished_flatMap fits)
      (fun a b n whole here => by
        have none := ClosingTag.firstEnd?_eq_none.mp (InnerEdit.closed_flatMap fits) a _ whole
        rw [here] at none
        cases none) []
    have named : (writtenBlock "multi-edit".toList (pathAttributes (some path))
      (inners.flatMap (·.block.text))).name =
        "multi-edit".toList := key_writtenTag fit
    have inherited := value?_pathAttributes fit own (inners.flatMap (·.block.text))
    have body : (writtenBlock "multi-edit".toList (pathAttributes (some path))
      (inners.flatMap (·.block.text))).body? =
        some (inners.flatMap (·.block.text)) := rfl
    rw [fileBlock_eq, ← attributes, extract_writtenBlock (.inr rfl)
      (quotable_pathAttributes own) closes, editActions, if_pos named, multiEdits, body, inherited]
    simp only [InnerEdit.blocks_flatMap fits, List.flatMap_map]
    refine List.flatMap_congr fun inner inside => ?_
    have here := fits inner inside
    rw [single inner inside, InnerEdit.block,
      edits_writtenBlock (InnerEdit.names_fit _ here.known).1 here.path]
    cases inner.path? <;> rfl
  · intro inner inside turned
    rw [single inner inside, fileEdits]
    cases checked : screening.check inner.body (inner.path?.getD path) with
    | none => exact False.elim (turned checked)
    | some reason => rfl

/-- An edit whose new text edits the file once more. -/
def nestedEdit : InnerEdit := ⟨"edit-file".toList, none,
      "<search>y</search><replace><edit path='a.md'></replace>".toList⟩

/-- Three edits in three spellings: one of the file that is named around them, one that is turned
down, and one of a file that it names itself. -/
def threeEdits : List InnerEdit :=
  [⟨"edit".toList, none, "<search>x</search><replace><edit></replace>".toList⟩, nestedEdit,
    ⟨"edit_file".toList, some "~~~ b".toList,
      "\n<<<<<<< SEARCH\n<edit\n=======\n\n>>>>>>> REPLACE".toList⟩]

theorem extract_threeEdits :
    FilePath "a.md".toList ∧ (∀ inner ∈ threeEdits, inner.Fits) ∧ nestedEdit ∈ threeEdits ∧
      ({} : Screening).check nestedEdit.body (nestedEdit.path?.getD "a.md".toList) ≠ none ∧
      edit.extract {} (fileBlock "multi-edit".toList "a.md".toList
        (threeEdits.flatMap (·.block.text))).text =
        [.edit ⟨"a.md", "x", "<edit>", false⟩, .edit ⟨"~~~ b", "<edit", "", false⟩] ∧
      edit.extract {} (fileBlock "edit".toList
        (nestedEdit.path?.getD "a.md".toList) nestedEdit.body).text = [] := by
  have plain : FilePath "a.md".toList := by decide
  have fits : ∀ inner ∈ threeEdits, inner.Fits := by decide +kernel
  have listed : nestedEdit ∈ threeEdits := List.mem_cons_of_mem _ List.mem_cons_self
  have turned : ({} : Screening).check nestedEdit.body
    (nestedEdit.path?.getD "a.md".toList) ≠ none := by decide +kernel
  obtain ⟨whole, nothing⟩ := extract_multiEdit {} plain fits
  have each : (threeEdits.flatMap fun inner =>
      edit.extract {} (fileBlock "edit".toList (inner.path?.getD "a.md".toList) inner.body).text) =
      [.edit ⟨"a.md", "x", "<edit>", false⟩, .edit ⟨"~~~ b", "<edit", "", false⟩] := by
        decide +kernel
  exact ⟨plain, fits, listed, turned, whole.trans each, nothing nestedEdit listed turned⟩

end Family

end MarkupActions
