import MarkupActions.Proofs.Wrapped

/-!
# Passes around a frame

A text is mended and renamed on either side of the mark that closes a frame as if the other side
were not there, so long as no pass finds anything that begins in front of the mark and ends behind
it.
-/

namespace MarkupActions

namespace Layout

variable {Part : Type} {write : Part → Text}

/-- As much of a layout as `n` characters hold. A part that they do not hold is cut off as text. -/
def front (write : Part → Text) : Layout Part → (n : Nat) → Layout Part
  | last gap, n => last (gap.take n)
  | next gap part rest, n =>
    let size := gap.length + (write part).length
    if size ≤ n then next gap part (rest.front write (n - size))
    else last ((gap ++ write part).take n)

def firstGap : Layout Part → Text
  | last gap => gap
  | next gap _ _ => gap

def lastGap : Layout Part → Text
  | last gap => gap
  | next _ _ rest => rest.lastGap

theorem text_front (l : Layout Part) (n : Nat) :
    (l.front write n).text write = (l.text write).take n := by
  induction l generalizing n with
  | last gap => rfl
  | next gap part rest ih =>
    have whole : (next gap part rest).text write = gap ++ write part ++ rest.text write := rfl
    have size : (gap ++ write part).length = gap.length + (write part).length := List.length_append
    rw [front, whole]
    split
    · rename_i fits
      change gap ++ write part ++ (rest.front write _).text write = _
      rw [ih, ← size, List.take_append,
        List.take_of_length_le (l := gap ++ write part) (size ▸ fits)]
    · rename_i exceeds
      change (gap ++ write part).take n = _
      exact (List.take_append_of_le_length (by omega)).symm

end Layout

namespace SpellingTable

/-- How much renaming takes at once at the head of a text: a token of a known name, or all from the
first name of a block to the last. -/
def reach? (table : SpellingTable) (s : Text) : Option Nat :=
  (TagToken.read? s).bind fun token => (table.canonical? token.name).map fun tag =>
    let rest := s.drop token.text.length
    if token.closing || !table.isContent tag || TagToken.endsInSlash none false rest then
      token.text.length
    else match closing? .content (table.closes? tag) rest with
      | none => token.text.length
      | some (pos, n) => token.text.length + (pos + n)

variable {table : SpellingTable} {tag rest : Text}

theorem reach?_unknown
    (unknown : ∀ token, TagToken.read? rest = some token → table.canonical? token.name = none) :
    table.reach? rest = none := by
  cases read : TagToken.read? rest with
  | none => rw [reach?, read, Option.bind_none]
  | some token => rw [reach?, read, Option.bind_some, unknown token read, Option.map_none]

theorem reach?_alone {token : TagToken} (read : TagToken.read? (token.text ++ rest) = some token)
    (known : table.canonical? token.name = some tag) (alone : table.Alone token tag rest) :
    table.reach? (token.text ++ rest) = some token.text.length := by
  simp only [reach?, read, Option.bind_some, known, Option.map_some, List.drop_left,
    Option.some.injEq]
  rcases alone with passed | unclosed
  · rw [if_pos passed]
  · rw [unclosed]
    exact ite_self _

theorem reach?_block {opening front name back : Text}
    (pair : table.TagPair tag opening front name back) :
    table.reach? ((TagToken.mk false opening).text ++ front ++ (TagToken.mk true name).text ++ back)
      =
      some ((TagToken.mk false opening).text ++ front ++ (TagToken.mk true name).text).length := by
  have split : (TagToken.mk false opening).text ++ front ++ (TagToken.mk true name).text ++ back =
      (TagToken.mk false opening).text ++ (front ++ ((TagToken.mk true name).text ++ back)) := by
    simp
  rw [split]
  simp only [reach?, pair.read, Option.bind_some, pair.known, Option.map_some, List.drop_left,
    pair.content, pair.unslashed, pair.closed, Bool.not_true, Bool.or_self, Bool.false_eq_true,
    if_false, Option.some.injEq]
  simp [TagToken.text]
  omega

end SpellingTable

namespace Registry

variable {family : Family}

/-- A text cut at the blocks that a family does not touch. -/
def cut (table : SpellingTable) (family : Family) (s : Text) : Layout Block :=
  (table.anySpellingMatcher.layout s).select (foreign table family) Block.text

/-- What is cut in front of `back`, of a text that goes on with it. -/
def frontCut (table : SpellingTable) (family : Family) (front back : Text) : Layout Block :=
  (cut table family (front ++ back)).front Block.text front.length

/-- A family that mends a text finds nothing that begins in `front` and ends in `back`: no block
that it does not touch, since `back` is cut as if it stood alone, and no tag that it ends. -/
structure MendsApart (table : SpellingTable) (family : Family) (front back : Text) : Prop where
  blocks : cut table family (front ++ back) =
    (frontCut table family front back).append (cut table family back)
  tags : ∀ repair ∈ family.repairs, Text.stopsAt repair.reach? (cut table family back).firstGap 0
    (frontCut table family front back).lastGap = true

instance (table : SpellingTable) (family : Family) (front back : Text) :
    Decidable (MendsApart table family front back) :=
  decidable_of_iff (cut table family (front ++ back) =
      (frontCut table family front back).append (cut table family back) ∧
    ∀ repair ∈ family.repairs, Text.stopsAt repair.reach? (cut table family back).firstGap 0
      (frontCut table family front back).lastGap = true)
    ⟨fun ⟨blocks, tags⟩ => ⟨blocks, tags⟩, fun apart => ⟨apart.blocks, apart.tags⟩⟩

/-- What a family makes of the text in front of `back`. -/
def mendedFront (table : SpellingTable) (family : Family) (front back : Text) : Text :=
  let whole := mendWith table (front ++ back) family
  whole.take (whole.length - (mendWith table back family).length)

/-- Nothing that begins in `front` ends in `back` to some families that mend one after the other,
and then to renaming. -/
def PreparesApart (table : SpellingTable) : List Family → (front back : Text) → Prop
  | [], front, back => Text.stopsAt table.reach? back 0 front = true
  | family :: families, front, back =>
    MendsApart table family front back ∧ PreparesApart table families
      (mendedFront table family front back) (mendWith table back family)

instance decidablePreparesApart (table : SpellingTable) :
    (families : List Family) → (front back : Text) →
      Decidable (PreparesApart table families front back)
  | [], front, back => inferInstanceAs (Decidable (Text.stopsAt table.reach? back 0 front = true))
  | family :: families, front, back =>
    have := decidablePreparesApart table families (mendedFront table family front back)
      (mendWith table back family)
    inferInstanceAs (Decidable (MendsApart table family front back ∧ PreparesApart table families
      (mendedFront table family front back) (mendWith table back family)))

/-- Gap by gap, repairs stay on their side of a closing mark. -/
theorem applyOutside_content {repairs : List Repair}
    (orderly : ∀ repair ∈ repairs, repair.mendsTags = true) (first : Repair.EndsFirst repairs)
    (frame : Frame) (l r : Layout Block)
    (stops : ∀ repair ∈ repairs,
      Text.stopsAt repair.reach? (r.prepend frame.closing).firstGap 0 l.lastGap = true) :
    ∃ content', Repair.applyOutside repairs Block.text (l.append (r.prepend frame.closing)) =
      content' ++ (frame.closing ++ Repair.applyOutside repairs Block.text r) ∧
        Rewrites Mends (l.text Block.text) content' := by
  unfold Repair.applyOutside
  induction l with
  | last gap =>
    cases r with
    | last g =>
      obtain ⟨content', step, made⟩ := Repair.applyAll_content orderly first frame g stops
      rw [Layout.lastGap] at step
      exact ⟨content', by simp [Layout.append, Layout.mapGaps, Layout.text, step], made⟩
    | next g part rest =>
      obtain ⟨content', step, made⟩ := Repair.applyAll_content orderly first frame g stops
      rw [Layout.lastGap] at step
      exact ⟨content', by simp [Layout.append, Layout.mapGaps, Layout.text, step], made⟩
  | next gap part rest ih =>
    obtain ⟨content', step, made⟩ := ih stops
    refine ⟨Repair.applyAll repairs gap ++ (part.text ++ content'), ?_, ?_⟩
    · simp [Layout.append, Layout.mapGaps, Layout.text, step]
    · rw [Layout.text, List.append_assoc]
      exact (Repair.applyAll_rewrites orderly gap).append (made.append_left part.text)

/-- A family mends a content within its frame, and what comes after it as if it stood alone. -/
theorem mendWith_content (member : family ∈ Family.builtIn) (frame : Frame) {content after : Text}
    (apart : MendsApart builtIn.table family content (frame.closing ++ after)) :
    ∃ content', mendWith builtIn.table (content ++ (frame.closing ++ after)) family =
      content' ++ (frame.closing ++ mendWith builtIn.table after family) ∧
        Rewrites Mends content content' := by
  have behind : cut builtIn.table family (frame.closing ++ after) =
      (cut builtIn.table family after).prepend frame.closing := by
    rw [cut, frame.transparent_closing.cut, Layout.select_prepend, cut]
  obtain ⟨blocks, tags⟩ := apart
  rw [behind] at blocks tags
  obtain ⟨content', step, made⟩ := applyOutside_content (Repair.builtIn_mendsTags family member)
    (Repair.builtIn_endsFirst family member) frame _ (cut builtIn.table family after) tags
  have whole : (frontCut builtIn.table family content (frame.closing ++ after)).text Block.text =
      content := by
    rw [frontCut, Layout.text_front, cut, Layout.text_select, Matcher.layout_text, List.take_left]
  rw [whole] at made
  refine ⟨content', ?_, made⟩
  rw [mendWith_eq, mendWith_eq, ← cut, ← cut, blocks, step]

/-- All families mend a content within its frame. -/
theorem foldl_mendWith_content {families : List Family}
    (among : ∀ family ∈ families, family ∈ Family.builtIn) (frame : Frame) {content after : Text}
    (apart : PreparesApart builtIn.table families content (frame.closing ++ after)) :
    ∃ content', families.foldl (mendWith builtIn.table) (content ++ (frame.closing ++ after)) =
      content' ++ (frame.closing ++ families.foldl (mendWith builtIn.table) after) ∧
        Rewrites Mends content content' ∧
        Text.stopsAt builtIn.table.reach?
          (frame.closing ++ families.foldl (mendWith builtIn.table) after) 0 content' = true := by
  induction families generalizing content after with
  | nil => exact ⟨content, rfl, .refl content, apart⟩
  | cons family families ih =>
    have member := among family List.mem_cons_self
    obtain ⟨here, later⟩ := apart
    obtain ⟨content', step, made⟩ := mendWith_content member frame here
    have behind := mendWith_transparent frame.transparent_closing
      (Repair.builtIn_mendsTags family member) after
    have front : mendedFront builtIn.table family content (frame.closing ++ after) = content' := by
      rw [mendedFront, step, behind]
      simp
    rw [front, behind] at later
    obtain ⟨content'', rest, made', stops⟩ :=
      ih (fun other inside => among other (List.mem_cons_of_mem _ inside)) later
    exact ⟨content'', by rw [List.foldl_cons, List.foldl_cons, step, rest], made.trans made', stops⟩

/-- Names are made canonical within a frame, and after it as if nothing stood before. -/
theorem rename_content (frame : Frame) {content after : Text}
    (stops : Text.stopsAt builtIn.table.reach? (frame.closing ++ after) 0 content = true) :
    ∃ content', builtIn.table.rename (content ++ (frame.closing ++ after)) =
      content' ++ (frame.closing ++ builtIn.table.rename after) ∧
        Rewrites (Respells builtIn.table) content content' := by
  induction size : content.length using Nat.strongRecOn generalizing content with
  | ind size ih =>
    subst size
    cases content with
    | nil => exact ⟨[], frame.transparent_closing.rename after, .refl []⟩
    | cons c s =>
      rcases SpellingTable.unknown_or_token builtIn.table (c :: s ++ (frame.closing ++ after)) with
        unknown | ⟨token, tag, rest, whole, read, known⟩
      · obtain ⟨content', rest, made⟩ := ih s.length (by simp)
          (Text.stopsAt_of_none (SpellingTable.reach?_unknown unknown) stops) rfl
        refine ⟨c :: content', ?_, made.cons c⟩
        rw [List.cons_append] at unknown ⊢
        rw [SpellingTable.rename_keep unknown, rest]
        rfl
      · have dark := TagToken.dark_text (TagToken.inv_read?_text read).1
        have named := (TagToken.inv_read?_text read).1
        have head : Rewrites (Respells builtIn.table) token.text
            (TagToken.mk token.closing tag).text := .single (.token token tag named known)
        rcases SpellingTable.alone_or_pair read known with
          alone | ⟨opening, front, name, back, rfl, rfl, pair⟩
        · obtain ⟨m, split, rfl, later⟩ := Text.stopsAt_split (by simp) dark.more whole
            (SpellingTable.reach?_alone read known alone) stops
          have less : m.length < (c :: s).length := by
            have := List.length_pos_of_ne_nil dark.more
            rw [split, List.length_append]
            omega
          obtain ⟨content', rest, made⟩ := ih m.length less later rfl
          refine ⟨(TagToken.mk token.closing tag).text ++ content', ?_, split ▸ head.append made⟩
          rw [whole, SpellingTable.rename_alone read known alone, rest, List.append_assoc]
        · have joined : c :: s ++ (frame.closing ++ after) =
              (TagToken.mk false opening).text ++ front ++ (TagToken.mk true name).text ++
                back := by
            rw [whole]
            simp
          obtain ⟨m, split, rfl, later⟩ := Text.stopsAt_split (by simp) (by simp [dark.more]) joined
            (SpellingTable.reach?_block pair) stops
          have less : m.length < (c :: s).length := by
            have := List.length_pos_of_ne_nil dark.more
            rw [split]
            simp only [List.length_append]
            omega
          obtain ⟨content', rest, made⟩ := ih m.length less later rfl
          obtain ⟨named', known', _⟩ := SpellingTable.closes?_text pair.closes
          have tail : Rewrites (Respells builtIn.table) (TagToken.mk true name).text
              (TagToken.mk true tag).text := .single (.token ⟨true, name⟩ tag named' known')
          refine ⟨(TagToken.mk false tag).text ++
            (front ++ ((TagToken.mk true tag).text ++ content')), ?_, ?_⟩
          · rw [whole, SpellingTable.rename_block pair, rest]
            simp
          · rw [split, List.append_assoc, List.append_assoc]
            exact head.append ((tail.append made).append_left front)

end Registry

end MarkupActions
