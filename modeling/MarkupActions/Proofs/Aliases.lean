import MarkupActions.Proofs.Fewer
import MarkupActions.Proofs.Respelt

/-!
# Making names canonical with fewer families

Renaming with some of the families leaves the tags of the others as they are spelled, and looks into
the bodies of their blocks. Where no tag is named in these, that is all: the text differs from what
all families make of it in the names of those tags.
-/

namespace MarkupActions

open Registry (builtIn those)

structure Respelling where
  token : TagToken
  tag : Text
  /-- What stands between the names of a block whose body is left alone. -/
  body : Text
  rest : Text

/-- A token that is read in front of an angle bracket is read without it. -/
theorem TagToken.read?_front {token : TagToken} {c : Char} {u s : Text}
    (read : TagToken.read? (c :: (u ++ '<' :: s)) = some token) :
    TagToken.read? (c :: u) = some token := by
  obtain ⟨rest, whole, named, stop⟩ := TagToken.read?_eq_some.mp read
  have tags := TagToken.not_mem_tail named
  obtain ⟨slash, shape, _⟩ := token.text_eq
  rw [shape, List.tail_cons] at tags
  rw [shape, List.cons_append] at whole
  obtain ⟨rfl, inner⟩ := List.cons.inj whole
  rcases Text.append_eq_append_cons inner.symm with ⟨m, inside, _⟩ | ⟨m, rfl, tail⟩
  · exact False.elim (tags (by rw [inside]; simp))
  · refine TagToken.read?_eq_some.mpr ⟨m, by rw [shape]; rfl, named, ?_⟩
    cases m with
    | nil => rfl
    | cons d m =>
      rw [tail] at stop
      exact stop

namespace SpellingTable

/-- The names that renaming makes canonical, less those that close a body which it leaves alone. -/
def respellings (table : SpellingTable) : Text → List Respelling
  | [] => []
  | c :: s =>
    match TagToken.read? (c :: s) with
    | none => table.respellings s
    | some token =>
      match table.canonical? token.name with
      | none => table.respellings s
      | some tag =>
        let rest := s.drop (token.lead + token.name.length - 1)
        if token.closing || !table.isContent tag || TagToken.endsInSlash none false rest then
          ⟨token, tag, [], rest⟩ :: table.respellings rest
        else match closing? .content (table.closes? tag) rest with
          | none => ⟨token, tag, [], rest⟩ :: table.respellings rest
          | some (pos, n) =>
            ⟨token, tag, rest.take pos, rest⟩ :: table.respellings (rest.drop (pos + n))
termination_by s => s.length
decreasing_by all_goals (simp only [List.length_drop, List.length_cons]; omega)

variable {table : SpellingTable} {tag rest : Text}

theorem respellings_keep {c : Char} {s : Text}
    (unknown : ∀ token, TagToken.read? (c :: s) = some token → table.canonical? token.name = none) :
    table.respellings (c :: s) = table.respellings s := by
  cases read : TagToken.read? (c :: s) with
  | none => rw [respellings, read]
  | some token =>
    rw [respellings, read]
    simp only [unknown token read]

theorem respellings_token {token : TagToken}
    (read : TagToken.read? (token.text ++ rest) = some token)
    (known : table.canonical? token.name = some tag) :
    table.respellings (token.text ++ rest) =
      if token.closing || !table.isContent tag || TagToken.endsInSlash none false rest then
        ⟨token, tag, [], rest⟩ :: table.respellings rest
      else match closing? .content (table.closes? tag) rest with
        | none => ⟨token, tag, [], rest⟩ :: table.respellings rest
        | some (pos, n) =>
          ⟨token, tag, rest.take pos, rest⟩ :: table.respellings (rest.drop (pos + n)) := by
  obtain ⟨c, tail, whole, back⟩ := token.text_cons rest
  rw [whole, List.cons_append] at read ⊢
  rw [respellings, read]
  simp only [known, back]

theorem respellings_alone {token : TagToken}
    (read : TagToken.read? (token.text ++ rest) = some token)
    (known : table.canonical? token.name = some tag) (alone : table.Alone token tag rest) :
    table.respellings (token.text ++ rest) = ⟨token, tag, [], rest⟩ :: table.respellings rest := by
  rw [respellings_token read known]
  rcases alone with passed | unclosed
  · rw [if_pos passed]
  · rw [unclosed, ite_self]

theorem respellings_block {opening front name back : Text}
    (pair : table.TagPair tag opening front name back) :
    table.respellings ((TagToken.mk false opening).text ++
      (front ++ ((TagToken.mk true name).text ++ back))) =
        ⟨⟨false, opening⟩, tag, front, front ++ ((TagToken.mk true name).text ++ back)⟩ ::
          table.respellings back := by
  have after : (front ++ ((TagToken.mk true name).text ++ back)).drop
      (front.length + (name.length + 2)) = back := by
    rw [← List.append_assoc, List.drop_left' (by simp [TagToken.text])]
  rw [respellings_token pair.read pair.known]
  simp only [pair.content, pair.unslashed, pair.closed, after, List.take_left, Bool.not_true,
    Bool.or_self, Bool.false_eq_true, if_false]

/-- A token of a foreign name is left as it is. -/
theorem rename_foreign {token : TagToken}
    (read : TagToken.read? (token.text ++ rest) = some token)
    (unknown : table.canonical? token.name = none) :
    table.rename (token.text ++ rest) = token.text ++ table.rename rest := by
  have tags := TagToken.not_mem_tail (TagToken.inv_read?_text read).1
  obtain ⟨slash, shape, _⟩ := token.text_eq
  rw [shape, List.tail_cons] at tags
  rw [shape, List.cons_append] at read ⊢
  rw [rename_unknown read unknown, rename_prose tags]
  rfl

/-- Whether renaming leaves a text as it is and goes on behind it: the tags of the table that it
names are spelled as they should be, and none of them opens a block that bears content. -/
def keepsNames (table : SpellingTable) : Text → Bool
  | [] => true
  | c :: s =>
    (TagToken.read? (c :: s)).all (fun token => (table.canonical? token.name).all fun tag =>
      tag == token.name && (token.closing || !table.isContent tag)) && table.keepsNames s

/-- A token that is spelled as it should be is copied like any other text. -/
theorem rename_canonical {c : Char} {s : Text} {token : TagToken}
    (read : TagToken.read? (c :: s) = some token)
    (known : table.canonical? token.name = some token.name)
    (alone : (token.closing || !table.isContent token.name) = true) :
    table.rename (c :: s) = c :: table.rename s := by
  obtain ⟨rest, whole, named, _⟩ := TagToken.read?_eq_some.mp read
  have tags := TagToken.not_mem_tail named
  obtain ⟨d, tail, shape, _⟩ := token.text_cons rest
  rw [shape, List.tail_cons] at tags
  rw [shape, List.cons_append] at whole
  obtain ⟨rfl, rfl⟩ := List.cons.inj whole
  have read' : TagToken.read? (token.text ++ rest) = some token := by
    rwa [shape, List.cons_append]
  have same : table.rename (token.text ++ rest) = token.text ++ table.rename rest :=
    rename_alone read' known (.inl (by rw [alone, Bool.true_or]))
  rwa [shape, List.cons_append, List.cons_append, ← rename_prose tags] at same

theorem rename_kept {u : Text} (kept : table.keepsNames u = true) (s : Text) :
    table.rename (u ++ '<' :: s) = u ++ table.rename ('<' :: s) := by
  induction u with
  | nil => rfl
  | cons c u ih =>
    rw [keepsNames, Bool.and_eq_true] at kept
    obtain ⟨here, later⟩ := kept
    have rest := congrArg (List.cons c) (ih later)
    cases read : TagToken.read? (c :: (u ++ '<' :: s)) with
    | none => exact (rename_unread read).trans rest
    | some token =>
      rw [TagToken.read?_front read, Option.all_some] at here
      cases known : table.canonical? token.name with
      | none => exact (rename_unknown read known).trans rest
      | some tag =>
        rw [known, Option.all_some, Bool.and_eq_true, beq_iff_eq] at here
        obtain ⟨rfl, alone⟩ := here
        exact (rename_canonical read known alone).trans rest

variable {keep : Family → Bool} {name : Text}

/-- What a name stands for is told by one table only: that of the family which owns the tag. -/
theorem canonical?_apart (known : (those keep).table.canonical? name = some tag) :
    (those (!keep ·)).table.canonical? name = none := by
  obtain ⟨family, inside, entry, listed, _, rfl⟩ := mem_ofFamilies (mem_of_canonical? known)
  obtain ⟨member, kept⟩ := List.mem_filter.mp inside
  have own := (entries_builtIn family member entry listed).1.1
  have stands := canonical?_of_filter agree_builtIn known
  have other := canonical?_filter (!keep ·) agree_builtIn Family.builtIn_apart member own
    stands
  rw [kept, if_neg (by simp)] at other
  exact other

/-- A name that stands for a tag of all families stands for it among those that are on, or among
those that are off. -/
theorem on_or_off (keep : Family → Bool) (known : builtIn.table.canonical? name = some tag) :
    (those keep).table.canonical? name = some tag ∧ (those keep).table.canonical? tag = some tag ∨
      (those keep).table.canonical? name = none ∧ (those keep).table.knows tag = false ∧
        (those (!keep ·)).table.canonical? name = some tag := by
  obtain ⟨family, member, entry, listed, _, rfl⟩ := mem_ofFamilies (mem_of_canonical? known)
  have own := (entries_builtIn family member entry listed).1.1
  have on := canonical?_filter keep agree_builtIn Family.builtIn_apart member own known
  have self := canonical?_filter keep agree_builtIn Family.builtIn_apart member own
    (canonical?_own member own)
  have off := canonical?_filter (!keep ·) agree_builtIn Family.builtIn_apart member own
    known
  cases kept : keep family with
  | true =>
    rw [kept, if_pos rfl] at on self
    exact .inl ⟨on, self⟩
  | false =>
    rw [kept, if_neg (by simp)] at on
    rw [kept, Bool.not_false, if_pos rfl] at off
    exact .inr ⟨on, by rw [knows_own keep member own, kept], off⟩

/-- A name that stands for a tag that is off stands for it among those that are off. -/
theorem off_of_known (off : (those keep).table.knows tag = false)
    (known : builtIn.table.canonical? name = some tag) :
    (those keep).table.canonical? name = none ∧
      (those (!keep ·)).table.canonical? name = some tag := by
  rcases on_or_off keep known with ⟨_, on⟩ | ⟨unknown, _, there⟩
  · rw [knows, on] at off
    cases off
  · exact ⟨unknown, there⟩

/-- For a tag that is on the same tags close a block among some of the families. -/
theorem closes?_those (on : (those keep).table.canonical? tag = some tag) :
    (those keep).table.closes? tag = builtIn.table.closes? tag := by
  have same : ∀ name, (those keep).table.canonical? name = some tag ↔
      builtIn.table.canonical? name = some tag := by
    intro name
    refine ⟨canonical?_of_filter agree_builtIn, fun known => ?_⟩
    rcases on_or_off keep known with ⟨there, _⟩ | ⟨_, off, _⟩
    · exact there
    · rw [knows, on] at off
      cases off
  funext s
  unfold closes?
  simp only [same]

theorem alone_those {token : TagToken} (on : (those keep).table.canonical? tag = some tag)
    (alone : builtIn.table.Alone token tag rest) : (those keep).table.Alone token tag rest := by
  unfold Alone at alone ⊢
  rwa [closes?_those on, isContent_filter on]

theorem pair_those {opening front back : Text} (on : (those keep).table.canonical? tag = some tag)
    (known : (those keep).table.canonical? opening = some tag)
    (pair : builtIn.table.TagPair tag opening front name back) :
    (those keep).table.TagPair tag opening front name back where
  read := pair.read
  known := known
  content := (isContent_filter on).trans pair.content
  unslashed := pair.unslashed
  closed := by
    rw [closes?_those on]
    exact pair.closed

end SpellingTable

namespace Registry

variable {keep : Family → Bool} {s : Text}

/-- Whether the names of the families that are off are made canonical apart from the others. In the
bodies that are left alone for them renaming changes nothing either way, and each of their names
that changes ends as names of tags do. -/
def NamesApart (keep : Family → Bool) (s : Text) : Prop :=
  ∀ r ∈ builtIn.table.respellings s, (those keep).table.knows r.tag = false →
    (those keep).table.keepsNames r.body = true ∧
      (r.token.name ≠ r.tag → r.rest.head?.any endsName = true)

instance (keep : Family → Bool) (s : Text) : Decidable (NamesApart keep s) :=
  inferInstanceAs (Decidable (∀ r ∈ _, _))

/-- A token of a family that is off, and the same made canonical. -/
theorem respelt_off (closing : Bool) {name tag s t : Text}
    (known : builtIn.table.canonical? name = some tag)
    (off : (those (!keep ·)).table.canonical? name = some tag)
    (ends : name ≠ tag → s.head?.any endsName = true)
    (later : Respelt (those (!keep ·)).table s t) :
    Respelt (those (!keep ·)).table ((TagToken.mk closing name).text ++ s)
      ((TagToken.mk closing tag).text ++ t) := by
  by_cases same : name = tag
  · rw [same]
    exact later.append_left _
  · obtain ⟨named, tagged⟩ := SpellingTable.tagName_of_known known
    exact .token_front closing named tagged off (ends same) later

open SpellingTable in
/-- A block of a family that is off, with its tags as they are spelled, and with the same made
canonical. -/
theorem respelt_block_off {tag opening front name back : Text}
    (pair : builtIn.table.TagPair tag opening front name back)
    (off : (those keep).table.knows tag = false)
    (kept : (those keep).table.keepsNames front = true)
    (ends : opening ≠ tag →
      (front ++ ((TagToken.mk true name).text ++ back)).head?.any endsName = true)
    (later : Respelt (those (!keep ·)).table ((those keep).table.rename back)
      (builtIn.table.rename back)) :
    Respelt (those (!keep ·)).table
      ((those keep).table.rename ((TagToken.mk false opening).text ++
        (front ++ ((TagToken.mk true name).text ++ back))))
      ((TagToken.mk false tag).text ++ (front ++
        ((TagToken.mk true tag).text ++ builtIn.table.rename back))) := by
  obtain ⟨named, known, blanks, behind, rfl, blank⟩ := closes?_text pair.closes
  have read : TagToken.read? ((TagToken.mk true name).text ++ (blanks ++ '>' :: behind)) =
      some ⟨true, name⟩ := TagToken.read?_text named (not_isNameChar_closing blank)
  obtain ⟨unknown, there⟩ := off_of_known off pair.known
  obtain ⟨unknown', there'⟩ := off_of_known off known
  have closes : (blanks ++ '>' :: behind).head?.any endsName = true := by
    cases blanks with
    | nil => rfl
    | cons c blanks => simp [endsName, blank c List.mem_cons_self]
  have shape : (TagToken.mk true name).text ++ (blanks ++ '>' :: behind) =
      '<' :: ('/' :: name ++ (blanks ++ '>' :: behind)) := rfl
  rw [rename_foreign pair.read unknown, shape, rename_kept kept, ← shape,
    rename_foreign read unknown']
  rw [← (@renamed_rename (those keep).table _).head] at closes
  have closed := respelt_off true known there' (fun _ => closes) later
  refine respelt_off false pair.known there (fun changes => ?_) (closed.append_left front)
  have first := ends changes
  cases front with
  | nil => exact first
  | cons c front => exact first

open SpellingTable in
/-- Without the families that are off their names stay as they are spelled, and nothing else is
changed. -/
theorem respelt_normalize (apart : NamesApart keep s) :
    Respelt (those (!keep ·)).table ((those keep).normalize s) (builtIn.normalize s) := by
  unfold NamesApart at apart
  unfold normalize
  induction s using rename_induct builtIn.table with
  | nil =>
    rw [rename, rename]
    exact .nil
  | keep c s unknown ih =>
    rw [respellings_keep unknown] at apart
    have unknown' : ∀ token, TagToken.read? (c :: s) = some token →
        (those keep).table.canonical? token.name = none := by
      intro token read
      cases known : (those keep).table.canonical? token.name with
      | none => rfl
      | some tag =>
        have stands : builtIn.table.canonical? token.name = some tag :=
          canonical?_of_filter agree_builtIn known
        rw [unknown token read] at stands
        cases stands
    rw [rename_keep unknown, rename_keep unknown']
    exact (ih apart).keep c
  | alone token tag rest read known alone ih =>
    rw [respellings_alone read known alone, List.forall_mem_cons] at apart
    have later := ih apart.2
    rw [rename_alone read known alone]
    rcases on_or_off keep known with ⟨there, on⟩ | ⟨unknown, off, there⟩
    · rw [rename_alone read there (alone_those on alone)]
      exact later.append_left _
    · rw [rename_foreign read unknown]
      refine respelt_off _ known there (fun changes => ?_) later
      rw [(renamed_rename rest).head]
      exact (apart.1 off).2 changes
  | block tag opening front name back pair ih =>
    rw [respellings_block pair, List.forall_mem_cons] at apart
    have later := ih apart.2
    rw [rename_block pair]
    rcases on_or_off keep pair.known with ⟨there, on⟩ | ⟨_, off, _⟩
    · rw [rename_block (pair_those on there pair)]
      exact ((later.append_left _).append_left front).append_left _
    · obtain ⟨kept, ends⟩ := apart.1 off
      exact respelt_block_off pair off kept ends later

end Registry

end MarkupActions
