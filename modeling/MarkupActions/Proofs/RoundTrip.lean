import MarkupActions.Proofs.Containment
import MarkupActions.Proofs.Lone

/-!
# A file is written as it was given

What stands between the tags of a write block is the content of the file, but for the newline on
either side and the entities. The content is arbitrary text: as long as it does not close the block
and is no single fence, no repair, no renaming and no wrapper in it changes a character, and none of
its tags is an action.
-/

namespace MarkupActions

open Code (tick)

/-- The path of a tag is what stands between its quotes. -/
theorem Attribute.find?_pathTag {tag path : Text} (listed : tag ∈ payloadTags)
    (plain : PlainPath path) :
    find? (pathTag tag path).text "path".toList = some path := by
  have whole := all_writtenTag (Payload.fits_tag tag listed).1 plain.quotable
  have key : IsKey "path".toList := by decide
  rw [pathTag_eq]
  exact find?_of_mem (by simpa using key) (by simp) whole (by simp)

theorem Payload.trimNewlines_row {content : Text} (ending : content.getLast? ≠ some '\r') :
    trimNewlines ('\n' :: (content ++ ['\n'])) = content := by
  have front : dropNewline ('\n' :: (content ++ ['\n'])) = content ++ ['\n'] := by
    simp [dropNewline, Text.afterNewline?]
  rw [trimNewlines, front, dropLastNewline, List.reverse_concat]
  rw [← List.head?_reverse] at ending
  cases last : content.reverse with
  | nil => simpa using last
  | cons c rest =>
    have other : c ≠ '\r' := by
      rintro rfl
      exact ending (by rw [last]; rfl)
    have back : (c :: rest).reverse = content := by rw [← last, List.reverse_reverse]
    simp [other, ← back]

/-- What is taken for a name without `k` and `s` is the name in some letter case. -/
theorem Text.isPrefixOf_lower {key more s rest : Text} (plain : IsPlain key)
    (other : ∀ n ∈ key, n ≠ 'k' ∧ n ≠ 's')
    (found : afterFolded? (key ++ more) s = some rest) : key.isPrefixOf (lower s) = true := by
  induction key generalizing s with
  | nil => rfl
  | cons n key ih =>
    cases s with
    | nil => cases found
    | cons c s =>
      by_cases same : sameFolded c n
      · have letter : c.toLower = n :=
          toLower_of_sameFolded_ascii (plain n List.mem_cons_self) (other n List.mem_cons_self) same
        have inner : afterFolded? (key ++ more) s = some rest := by
          simpa [afterFolded?, same] using found
        have tail := ih (fun m inside => plain m (List.mem_cons_of_mem _ inside))
          (fun m inside => other m (List.mem_cons_of_mem _ inside)) inner
        simpa [lower, letter] using tail
      · simp [afterFolded?, same] at found

/-- A text closes nowhere by any of some names if it does not contain what all of them begin with.
-/
theorem closesNowhere_of_not_contains {sought : List Text} {key : Text}
    (begins : ∀ name ∈ sought, key <+: name)
    (plain : Text.IsPlain key) (other : ∀ n ∈ key, n ≠ 'k' ∧ n ≠ 's') {s : Text}
    (absent : Text.contains ('<' :: '/' :: key) (Text.lower s) = false) :
    closesNowhere sought s = true := by
  induction s with
  | nil => rfl
  | cons c s ih =>
    have split : Text.contains ('<' :: '/' :: key) (c.toLower :: Text.lower s) = false := absent
    rw [Text.contains, Bool.or_eq_false_iff] at split
    have here : ∀ tail, c = '<' → s = '/' :: tail →
      ∀ name ∈ sought, Text.afterFolded? name tail = none := by
      rintro tail rfl rfl name listed
      cases found : Text.afterFolded? name tail with
      | none => rfl
      | some rest =>
        obtain ⟨more, rfl⟩ := begins name listed
        have head := Text.isPrefixOf_lower plain other found
        have marks : '<'.toLower = '<' ∧ '/'.toLower = '/' := by decide
        have absent := split.1
        simp only [Text.lower, List.map_cons, marks, List.isPrefixOf_cons_cons_self] at absent head
        rw [head] at absent
        cases absent
    rw [closesNowhere, ih split.2, Bool.and_true]
    by_cases bracket : c = '<'
    · cases s with
      | nil => simp
      | cons d tail =>
        by_cases slash : d = '/'
        · subst slash
          simpa using .inr (here tail bracket rfl)
        · simp [slash]
    · simp [bracket]

/-- A new row on either side of a text adds no closing tag. -/
theorem Text.not_contains_rows {key s : Text} (one : '\n' ∉ key)
    (absent : contains key (lower s) = false) :
    contains key (lower ('\n' :: (s ++ ['\n']))) = false := by
  rw [Bool.eq_false_iff, ne_eq, contains_iff_within] at absent ⊢
  have newline : '\n'.toLower = '\n' := by decide
  have shape : lower ('\n' :: (s ++ ['\n'])) = [] ++ '\n' :: (lower s ++ '\n' :: []) := by
    simp [lower, newline]
  have nowhere : ¬ key <:+: [] := fun inside => absent (inside.trans (List.nil_infix))
  intro inside
  rw [shape] at inside
  rcases infix_append_cons one inside with before | within
  · exact nowhere before
  · rcases infix_append_cons one within with inner | after
    · exact absent inner
    · exact nowhere after

namespace Family

/-- What is written of a block with a path: its payload, if nothing is wrong with it. -/
theorem file?_fileBlock {screening : Screening} {tag path payload : Text}
    (listed : tag ∈ payloadTags)
    (quotable : PlainPath path) (more : path ≠ []) (bare : Text.trim path = path)
    (sound : screening.check payload path = none) :
    file? screening (fileBlock tag path payload) =
      some ⟨String.ofList path, String.ofList (Payload.clean payload)⟩ := by
  have trimmed : Attribute.trimmed? (pathTag tag path).text "path".toList = some path := by
    rw [Attribute.trimmed?, Attribute.find?_pathTag listed quotable]
    simp [Text.trimmed?, bare, more]
  have value : (fileBlock tag path payload).value? pathNames = some path := by
    have first : ["path".toList, "file".toList].findSome?
      (Attribute.trimmed? (pathTag tag path).text) = some path := by
      rw [List.findSome?_cons, trimmed]
    exact first
  have body : (fileBlock tag path payload).body? = some payload := rfl
  simp [file?, pathAndBody?, value, body, sound]

end Family

namespace Registry

def writing (path content : Text) : Text :=
  "<write path=\"".toList ++ (path ++ ("\">\n".toList ++ (content ++ "\n</write>".toList)))

theorem writing_eq (path content : Text) :
    writing path content = (fileBlock "write".toList path ('\n' :: (content ++ ['\n']))).text := by
  have opening : "<write path=\"".toList =
    ['<', 'w', 'r', 'i', 't', 'e', ' ', 'p', 'a', 't', 'h', '=', '"'] := rfl
  have row : "\">\n".toList = ['"', '>', '\n'] := rfl
  have closing : "\n</write>".toList = ['\n', '<', '/', 'w', 'r', 'i', 't', 'e', '>'] := rfl
  have name : "write".toList = ['w', 'r', 'i', 't', 'e'] := rfl
  unfold writing
  simp only [Block.text, fileBlock, OpeningTag.text, pathTag, closingTag, opening, row, closing,
    name]
  simp only [List.append_assoc, List.cons_append, List.nil_append]

theorem contentFamilies_order : builtIn.contentFamilies =
    Family.write :: builtIn.contentFamilies.tail := rfl

theorem others_apart : ∀ family ∈ builtIn.contentFamilies.tail, family.owns "write".toList =
    false := by
  decide

/-- A write block that is all of a prepared text is one file, if it is nothing else. -/
theorem readWorking_write {screening : Screening} {s : Text} {block : Block} {file : FileContent}
    (alone : builtIn.table.contentMatcher.layout s = .next [] block (.last []))
    (name : block.name = "write".toList)
    (found : (Matcher.of .content (names ["write"])).blocks block.text = [block])
    (held : Family.file? screening block = some file) :
    builtIn.readWorking screening s = [.write file] := by
  have content : builtIn.contentFamilies.flatMap (fun family => family.extract screening
      (view (builtIn.table.contentMatcher.layout s) family)) = [.write file] := by
    have own : Family.write.owns block.name = true := by
      rw [name]
      decide
    have first : Family.write.extract screening block.text = [.write file] := by
      have extract : Family.write.extract screening block.text =
          (((Matcher.of .content (names ["write"])).blocks block.text).filterMap
            (Family.file? screening)).map .write := rfl
      rw [extract, found]
      simp [held]
    have others : builtIn.contentFamilies.tail.flatMap (fun family => family.extract screening
        (view (builtIn.table.contentMatcher.layout s) family)) = [] := by
      refine List.flatMap_eq_nil_iff.mpr fun family inside => ?_
      have apart := others_apart family inside
      rw [← name] at apart
      have nothing : view (builtIn.table.contentMatcher.layout s) family = [] := by
        simp [view, alone, Layout.select, apart, Layout.gaps, Layout.text]
      rw [nothing]
      have reads := contentFamilies_readBlocks family (List.mem_of_mem_tail inside)
      exact Family.extract_unmarked reads screening List.not_mem_nil
    have whole : view (builtIn.table.contentMatcher.layout s) Family.write = block.text := by
      simp [view, alone, Layout.select, own, Layout.gaps, Layout.text]
    rw [contentFamilies_order, List.flatMap_cons, whole, first, others, List.append_nil]
  have nothing : builtIn.table.contentMatcher.removeBlocks s = [] := by
    simp [Matcher.removeBlocks, alone, Layout.gaps, Layout.text]
  have later := readInTurn_unmarked screening List.not_mem_nil structuralFamilies_readBlocks
  rw [readWorking_eq content_keeps, content, nothing, later, List.append_nil]

variable {path content : Text}

/-- Whatever content is written is what the file will hold, and nothing else is done. -/
theorem extract_writing (screening : Screening) (quotable : PlainPath path) (more : path ≠ [])
    (bare : Text.trim path = path) (absent : Text.contains "</write".toList (Text.lower content) =
      false)
    (ending : content.getLast? ≠ some '\r') (loose : Payload.unfence? content = none)
    (sound : screening.check ('\n' :: (content ++ ['\n'])) path = none)
    (code : Code.shadow false ('\n' :: (content ++ "\n</write>".toList)) (content.length + 2) =
      none)
    (hunk : Hunk.shadow ('\n' :: (content ++ "\n</write>".toList)) (content.length + 2) = none) :
    builtIn.extract screening (writing path content) =
      [.write ⟨String.ofList path, String.ofList (Entity.decode content)⟩] := by
  have listed : "write".toList ∈ payloadTags := by decide
  have own : Family.write.owns "write".toList = true := by decide
  have member : Family.write ∈ Family.builtIn := List.mem_cons_self
  have block : Sealed Family.write.spellings "write".toList ('\n' :: (content ++ ['\n'])) [] := by
    have begins : ∀ name ∈ Family.write.spellings, "write".toList <+: name := by decide
    have plain : Text.IsPlain "write".toList := by
      unfold Text.IsPlain
      decide
    have shape : ('\n' :: (content ++ ['\n'])) ++ (closingTag "write".toList ++ []) =
        '\n' :: (content ++ "\n</write>".toList) := by
      have closing : "\n</write>".toList = '\n' :: closingTag "write".toList := rfl
      simp only [closing, List.append_nil, List.cons_append, List.append_assoc, List.nil_append]
    have size : ('\n' :: (content ++ ['\n'])).length = content.length + 2 := by simp
    refine ⟨by simp [List.getLast?_cons], ?_, ?_⟩
    · exact closesNowhere_of_not_contains begins plain (by decide)
        (Text.not_contains_rows (by decide) absent)
    · rw [size, shape, shadow_content_eq_none]
      exact ⟨code, hunk⟩
  have empty : Prose [] := ⟨by simp, by simp, by simp⟩
  have working := working_fileBlock member listed own empty quotable block
  have alone := layout_fileBlock member listed own empty quotable block []
  have held := Family.file?_fileBlock listed quotable more bare sound
  have found := Payload.blockAt?_fileBlock (m := .of .content (names ["write"]))
    (by decide) listed quotable
    (spellings_plain member listed own) (spellings_tag _ member _ listed own).1 block []
  have blocks := congrArg Layout.parts (Matcher.layout_block found)
  have nothing : ∀ m : Matcher, m.layout [] = .last [] := fun m => by rw [Matcher.layout]
  have stripped : Inert.strip builtIn.table.guardedMatcher false
    (builtIn.normalize (builtIn.mend [])) = [] := by
    decide +kernel
  simp only [List.append_nil, List.nil_append, stripped, nothing] at working alone blocks
  rw [writing_eq, extract, working]
  rw [Payload.clean, Payload.trimNewlines_row ending, loose] at held
  exact readWorking_write alone (Payload.name_fileBlock listed) blocks held

/-- A message that opens in a file and a tag that asks for a listing are text of the file. -/
theorem extract_writing_tags :
    builtIn.extract {} (writing "notes.md".toList "<say>1 &lt; \"2\"\n</create><ls/>".toList) =
      [.write ⟨"notes.md", "<say>1 < \"2\"\n</create><ls/>"⟩] := by
  have found := @extract_writing "notes.md".toList "<say>1 &lt; \"2\"\n</create><ls/>".toList {}
    ⟨by decide, by decide, by decide, by decide⟩ (by decide) (by decide) (by decide) (by decide)
    (by decide) (by decide +kernel) (by decide +kernel) (by decide)
  have held : Entity.decode "<say>1 &lt; \"2\"\n</create><ls/>".toList =
    "<say>1 < \"2\"\n</create><ls/>".toList := by
    decide +kernel
  rw [held, String.ofList_toList, String.ofList_toList] at found
  exact found

end Registry

end MarkupActions
