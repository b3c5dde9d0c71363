import MarkupActions.Family.Files
import MarkupActions.Proofs.Bodies
import MarkupActions.Proofs.Fields

/-!
# Edits of one file

What an edit block does depends on the path that it names or inherits and on its body, and on
nothing else of its tag: not on the spelling of its name, and not on the way the path has come to
it.
-/

namespace MarkupActions

open Code (tick)

/-- A path that is read from between quotes as it stands. -/
structure FilePath (path : Text) : Prop extends PlainPath path where
  more : path ≠ []
  bare : Text.trim path = path

instance (path : Text) : Decidable (FilePath path) :=
  decidable_of_iff (PlainPath path ∧ path ≠ [] ∧ Text.trim path = path)
    ⟨fun ⟨plain, more, bare⟩ => ⟨plain, more, bare⟩, fun ⟨plain, more, bare⟩ => ⟨plain, more, bare⟩⟩

/-- The attribute that names a file, if one is named. -/
def pathAttributes (path? : Option Text) : List Attribute :=
  path?.toList.map (Attribute.mk "path".toList)

section

variable {name : Text} {path? : Option Text}

theorem quotable_pathAttributes (plain : ∀ path ∈ path?, FilePath path) :
    ∀ a ∈ pathAttributes path?, a.Quotable := by
  cases path? with
  | none => simp [pathAttributes]
  | some path => exact (plain path rfl).toPlainPath.quotable

/-- Under its name the path is found, and no other attribute is found. -/
theorem find?_pathAttributes (fits : Repair.fits name = true)
    (plain : ∀ path ∈ path?, FilePath path) {sought : Text}
    (key : Attribute.IsKey sought) :
    Attribute.find? (writtenTag name (pathAttributes path?)).text sought =
      if sought = "path".toList then path? else none := by
  have whole := all_writtenTag fits (quotable_pathAttributes plain)
  have path : Attribute.IsKey "path".toList := by decide
  have keys : ∀ a ∈ pathAttributes path?, Attribute.IsKey a.name := by
    intro a inside
    obtain ⟨value, _, rfl⟩ := List.mem_map.mp inside
    exact path
  by_cases named : sought ∈ (pathAttributes path?).map (·.name)
  · cases path? with
    | none => cases named
    | some value =>
      obtain rfl : sought = "path".toList := List.mem_singleton.mp named
      rw [if_pos rfl]
      exact Attribute.find?_of_mem keys (by simp [pathAttributes]) whole List.mem_cons_self
  · rw [Attribute.find?_of_absent keys key whole named]
    cases path? with
    | none => simp
    | some value =>
      have other : sought ≠ "path".toList := fun same => named (List.mem_singleton.mpr same)
      rw [if_neg other]

theorem value?_pathAttributes (fits : Repair.fits name = true)
    (plain : ∀ path ∈ path?, FilePath path) (body : Text) :
    (writtenBlock name (pathAttributes path?) body).value? Family.pathNames = path? := by
  have path := find?_pathAttributes fits plain (by decide : Attribute.IsKey "path".toList)
  have file := find?_pathAttributes fits plain (by decide : Attribute.IsKey "file".toList)
  rw [if_pos rfl] at path
  rw [if_neg (by decide)] at file
  have first : ["path".toList, "file".toList].findSome?
      (Attribute.trimmed? (writtenTag name (pathAttributes path?)).text) = path? := by
    rw [List.findSome?_cons, List.findSome?_cons, Attribute.trimmed?, Attribute.trimmed?, path,
      file]
    cases path? with
    | none => rfl
    | some value =>
      obtain ⟨_, more, bare⟩ := plain value rfl
      simp [Text.trimmed?, bare, more]
  exact first

theorem holds_pathAttributes (fits : Repair.fits name = true)
    (plain : ∀ path ∈ path?, FilePath path) (body : Text) :
    (writtenBlock name (pathAttributes path?) body).holds "replace_all" = false := by
  have absent := find?_pathAttributes fits plain (by decide : Attribute.IsKey "replace_all".toList)
  have alone := Attribute.isFlag_tag (Repair.isNameChar_of_fits fits)
    (quotable_pathAttributes plain) (.inl rfl)
    (by decide : "replace_all".toList ≠ []) (by decide)
  rw [if_neg (by decide)] at absent
  rw [← text_writtenTag] at alone
  rw [Block.holds, Attribute.holds, writtenBlock, absent]
  exact alone

end

namespace Family

/-- What an edit of a file does if its body is sound. -/
def fileEdits (screening : Screening) (path body : Text) : List Action :=
  match screening.check body path with
  | some _ => []
  | none =>
    (Hunk.changes body).map fun change =>
      .edit ⟨String.ofList path, String.ofList change.search, String.ofList change.replace, false⟩

variable {screening : Screening} {name : Text} {path? : Option Text} {body : Text}

theorem edits_writtenBlock (fits : Repair.fits name = true) (plain : ∀ path ∈ path?, FilePath path)
    (inherited : Option Text) (body : Text) :
    edits screening inherited (writtenBlock name (pathAttributes path?) body) =
      ((path?.or inherited).elim [] fun path => fileEdits screening path body) := by
  have value := value?_pathAttributes fits plain body
  have every := holds_pathAttributes fits plain body
  have inside : (writtenBlock name (pathAttributes path?) body).body? = some body := rfl
  have named : pathAndBody? inherited (writtenBlock name (pathAttributes path?) body) =
      (path?.or inherited).map (·, body) := by
    rw [pathAndBody?, value, inside]
    cases path?.or inherited <;> rfl
  rw [edits, named]
  cases path?.or inherited with
  | none => rfl
  | some path =>
    simp only [Option.map_some, Option.elim_some, fileEdits]
    cases screening.check body path with
    | none => simp only [every]
    | some reason => rfl

/-- A text that is one block is what the block does. -/
theorem extract_writtenBlock {attributes : List Attribute}
    (listed : name = "edit".toList ∨ name = "multi-edit".toList)
    (quotable : ∀ a ∈ attributes, a.Quotable)
    (closes : closing? .content (ClosingTag.length? name) (body ++ (closingTag name ++ [])) =
      some (body.length, (closingTag name).length)) :
    edit.extract screening (writtenBlock name attributes body).text =
      editActions screening (writtenBlock name attributes body) := by
  have known : Repair.fits name = true ∧
      (Matcher.of .content (names ["edit", "multi-edit"])).mode? name = some .content := by
    rcases listed with rfl | rfl <;> decide
  have found := blockAt?_writtenBlock known.2 known.1 quotable closes
  have cut := congrArg Layout.parts (Matcher.layout_block found)
  rw [List.append_nil, Matcher.layout] at cut
  have extract : edit.extract screening (writtenBlock name attributes body).text =
      ((Matcher.of .content (names ["edit", "multi-edit"])).blocks
        (writtenBlock name attributes body).text).flatMap
        (editActions screening) := rfl
  rw [extract, Matcher.blocks, cut]
  simp [Layout.parts]

theorem extract_fileBlock {path : Text} (plain : FilePath path)
    (closes : closing? .content (ClosingTag.length? "edit".toList)
      (body ++ (closingTag "edit".toList ++ [])) =
      some (body.length, (closingTag "edit".toList).length)) :
    edit.extract screening (fileBlock "edit".toList path body).text =
      fileEdits screening path body := by
  have fits : Repair.fits "edit".toList = true := by decide
  have single : ∀ other ∈ some path, FilePath other :=
    fun other same => Option.some.inj same ▸ plain
  have attributes : pathAttributes (some path) = [Attribute.mk "path".toList path] := rfl
  have block := @edits_writtenBlock screening _ _ fits single none body
  have other : (writtenBlock "edit".toList (pathAttributes (some path)) body).name ≠
    "multi-edit".toList := by
    rw [Block.name, writtenBlock, key_writtenTag fits]
    decide
  rw [fileBlock_eq, ← attributes, extract_writtenBlock (.inl rfl)
    (quotable_pathAttributes single) closes, editActions, if_neg other, block]
  rfl

end Family

end MarkupActions
