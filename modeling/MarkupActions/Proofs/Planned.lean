import MarkupActions.Proofs.Endings
import MarkupActions.Proofs.Lone
import MarkupActions.Proofs.Views

/-!
# The steps of a plan are not carried out

A text that is one plan is taken out as a whole once the plan has been read, and no family after it
has anything left to read. The families that bear content come before: what they find among the
steps they carry out, and cut out of the text. Whatever else the steps mention, be it broken or
nested, is not carried out, as long as the cuts do not put a tag of a plan together.
-/

namespace MarkupActions

open Code (tick)

def planTag : OpeningTag := ⟨"plan".toList, []⟩

def planned (body : Text) : Text := planTag.text ++ (body ++ closingTag planTag.name)

/-- No tag of a plan begins in a text, in whatever letter case. -/
structure NoPlanTag (s : Text) : Prop where
  opening : Text.contains "<plan".toList (Text.lower s) = false
  closing : Text.contains "</plan".toList (Text.lower s) = false

/-- A body that hides nothing and in which no tag of a plan begins. -/
structure PlanBody (body : Text) : Prop where
  ticks : tick ∉ body
  tildes : '~' ∉ body
  tags : NoPlanTag body
  literals : Text.contains "<literal".toList (Text.lower body) = false

namespace PlanBody

/-- The names behind the bracket of a tag that a body may not have. -/
def barred : List Text := names ["plan", "/plan", "literal"]

/-- Edits that bring in neither a mark of code nor a barred tag leave a body of a plan as one. -/
theorem rewrites {edit : Text → Text → Prop} (ticks : NeverNew edit tick)
    (tildes : NeverNew edit '~')
    (tags : ∀ name ∈ barred, ∀ s t, Rewrites edit s t →
      Text.contains ('<' :: name) (Text.lower s) = false →
      Text.contains ('<' :: name) (Text.lower t) = false)
    {s t : Text} (run : Rewrites edit s t) (held : PlanBody s) : PlanBody t where
  ticks inside := held.ticks (run.mem_of_mem ticks inside)
  tildes inside := held.tildes (run.mem_of_mem tildes inside)
  tags := ⟨tags _ (by decide) s t run held.tags.opening,
    tags _ (by decide) s t run held.tags.closing⟩
  literals := tags _ (by decide) s t run held.literals

theorem mended {s t : Text} (run : Rewrites Mends s t) (held : PlanBody s) : PlanBody t := by
  refine held.rewrites (neverNew_mends (by decide) (by decide))
    (neverNew_mends (by decide) (by decide))
    (fun name listed s t run => ?_) run
  have stands : ∀ name ∈ barred, '>' ∉ name ∧ name.getLast? ≠ some '/' := by decide
  exact (endsTags_mends.stands (stands name listed).1 (stands name listed).2).not_contains run

theorem respelled {s t : Text} (run : Rewrites (Respells Registry.builtIn.table) s t)
    (held : PlanBody s) : PlanBody t := by
  have orderly := SpellingTable.orderly_builtIn
  refine held.rewrites (Respells.neverNew orderly (by decide) (by decide) (by decide))
    (Respells.neverNew orderly (by decide) (by decide) (by decide))
      (fun name listed s t run => ?_) run
  have alone : ∀ key ∈ names ["plan", "literal"], (key.all Text.isPlainLetter = true ∧ key ≠ []) ∧
      ∀ entry ∈ Registry.builtIn.table.entries, key <+: entry.2 ∨ entry.2 <+: key →
        entry.1 = key := by
    decide +kernel
  obtain ⟨slash, key, rfl, slashes, inside⟩ : ∃ slash key, name = slash ++ key ∧
    (slash = [] ∨ slash = ['/']) ∧
      key ∈ names ["plan", "literal"] := by
    simp only [barred, names, List.map_cons, List.map_nil, List.mem_cons, List.not_mem_nil,
      or_false] at listed
    rcases listed with rfl | rfl | rfl
    · exact ⟨[], _, rfl, .inl rfl, by decide⟩
    · exact ⟨['/'], _, rfl, .inr rfl, by decide⟩
    · exact ⟨[], _, rfl, .inl rfl, by decide⟩
  obtain ⟨⟨plain, more⟩, unlike⟩ := alone key inside
  exact Respells.not_contains orderly slashes (List.all_eq_true.mp plain) more unlike run

end PlanBody

/-- What is known of the tag of a plan: it is read in front of any text, and no content is looked
for under its name. -/
theorem planTag_known : (∀ s, OpeningTag.read? (planTag.text ++ s) = some planTag) ∧
    Text.IsPlain planTag.name ∧
    Registry.builtIn.table.anySpellingMatcher.mode? planTag.name = none ∧
    Registry.builtIn.table.contentMatcher.mode? planTag.name = none ∧
    Registry.builtIn.table.canonical? planTag.name = some planTag.name ∧
    Registry.builtIn.table.isContent planTag.name = false := by
  refine ⟨fun s => OpeningTag.read?_text rfl (by decide) (by decide) rfl (by decide) rfl, ?_, ?_⟩
  · unfold Text.IsPlain
    decide
  · decide +kernel

/-- Every pass goes over the tag that opens a plan. -/
theorem transparent_planTag : Transparent planTag.text := by
  obtain ⟨read, plain, unknown, _, known, content⟩ := planTag_known
  have letters : ∀ c ∈ planTag.name, Text.isNameChar c = true := fun c inside =>
    Text.isNameChar_of_isPlainLetter (plain c inside)
  have tags : '<' ∉ planTag.name ++ ['>'] := by decide
  have text : planTag.text = '<' :: (planTag.name ++ ['>']) := rfl
  refine ⟨fun s => Matcher.layout_tag (read s) unknown, fun repair orderly s => ?_, fun s => ?_⟩
  · have quiet := Repair.rule_bare orderly (.inl rfl) letters s
    have past := Repair.patchAll_append_unmarked orderly (s := s) tags
    rw [text, List.cons_append, Text.patchAll_of_none (by simpa using quiet), past]
    rfl
  · have token : TagToken.read? ((TagToken.mk false planTag.name).text ++ '>' :: s) =
      some ⟨false, planTag.name⟩ :=
      TagToken.read?_text ⟨by decide, by decide⟩ (show Text.isNameChar '>' = false by decide)
    have step := SpellingTable.rename_token token known
    have past : Registry.builtIn.table.rename ('>' :: s) = '>' :: Registry.builtIn.table.rename s :=
      SpellingTable.rename_prose (v := ['>']) (by decide) s
    rw [content, Bool.not_false, Bool.or_true, Bool.true_or, if_pos rfl, past] at step
    exact step

theorem not_mem_planned {c : Char} {body : Text} (opening : c ∉ planTag.text)
    (closing : c ∉ closingTag planTag.name)
    (inner : c ∉ body) : c ∉ planned body := by
  simp [planned, opening, closing, inner]

/-- A literal block that opens in a plan opens in its body. -/
theorem PlanBody.literals_planned {body : Text} (held : PlanBody body) :
    Text.contains ('<' :: Inert.literalName) (Text.lower (planned body)) = false := by
  cases found : Text.contains ('<' :: Inert.literalName) (Text.lower (planned body)) with
  | false => rfl
  | true =>
    exfalso
    rw [Text.contains_iff_within] at found
    have shape : Text.lower (planned body) =
        "<plan".toList ++ '>' :: ((Text.lower body ++ ['<']) ++ '/' :: "plan>".toList) := by
      have opening : Text.lower planTag.text = "<plan".toList ++ ['>'] := by decide
      have closing : Text.lower (closingTag planTag.name) = ['<'] ++ '/' :: "plan>".toList := by
        decide
      simp only [Text.lower] at opening closing
      simp only [planned, Text.lower, List.map_append, opening, closing]
      simp
    rw [shape] at found
    rcases Text.infix_append_cons (by decide) found with first | later
    · revert first
      decide
    · rcases Text.infix_append_cons (by decide) later with inside | last
      · rcases List.infix_concat_iff.mp inside with ending | inner
        · obtain ⟨front, whole⟩ := ending
          have last := congrArg List.getLast? whole
          rw [List.getLast?_append_of_ne_nil _ (by simp), List.getLast?_concat] at last
          revert last
          decide
        · exact Bool.false_ne_true (held.literals.symm.trans (Text.contains_iff_within.mpr inner))
      · revert last
        decide

namespace Registry

variable {body : Text}

/-- A plan is prepared within its tags. -/
theorem working_planned (held : PlanBody body) :
    ∃ body', builtIn.working (planned body) = planned body' ∧ PlanBody body' := by
  obtain ⟨_, plain, unknown, _⟩ := planTag_known
  obtain ⟨mended, mend, made⟩ := mend_closing plain unknown body
  have fixed : ∀ entry ∈ builtIn.table.entries, entry.1 <+: planTag.name →
    entry = (planTag.name, planTag.name) := by
    decide +kernel
  obtain ⟨renamed, rename, made'⟩ := normalize_closing plain fixed mended
  have held' := (held.mended made).respelled made'
  have prepared : builtIn.normalize (builtIn.mend (planned body)) = planned renamed := by
    rw [planned, mend_transparent transparent_planTag, mend, normalize, transparent_planTag.rename]
    exact congrArg (planTag.text ++ ·) rename
  refine ⟨renamed, ?_, held'⟩
  rw [working, prepared]
  exact Inert.strip_eq_self (not_mem_planned (by decide) (by decide) held'.ticks)
    (not_mem_planned (by decide) (by decide) held'.tildes) held'.literals_planned

/-- What is left of a plan when the content blocks have been cut out is a plan again; without such
blocks it is the same. -/
theorem removeBlocks_planned (body : Text) : ∃ inner,
    builtIn.table.contentMatcher.removeBlocks (planned body) = planned inner ∧
      (∀ c ∈ inner, c ∈ body) ∧
      (builtIn.table.contentMatcher.blocks (planned body) = [] → inner = body) := by
  obtain ⟨read, plain, _, unknown, _⟩ := planTag_known
  obtain ⟨front, cut, whole⟩ := builtIn.table.contentMatcher.layout_closing plain unknown body
  have left : builtIn.table.contentMatcher.removeBlocks (planned body) = planned front.gaps := by
    rw [Matcher.removeBlocks, planned, Matcher.layout_tag (read _) unknown, cut,
      Layout.gaps_prepend, Layout.gaps, Layout.text_append]
    rfl
  refine ⟨front.gaps, left, fun c inside => ?_, fun none => ?_⟩
  · rw [← whole]
    exact Layout.mem_of_mem_gaps inside
  · have same : builtIn.table.contentMatcher.removeBlocks (planned body) = planned body :=
      (Layout.gaps_of_parts_nil none).trans (Matcher.layout_text _ _)
    rw [left] at same
    exact List.append_cancel_right (List.append_cancel_left same)

end Registry

/-- No tag opens anew where none of its name begins. -/
theorem opensAgain_of_not_contains {name a body : Text}
    (absent : Text.contains ('<' :: name) (Text.lower (a ++ body)) = false) :
    opensAgain name body = false := by
  induction body generalizing a with
  | nil => rfl
  | cons c body ih =>
    have here : OpeningTag.opens name (c :: body) = false := by
      rw [OpeningTag.opens, Text.afterLower?_of_not_contains absent]
    rw [opensAgain, here, ih (a := a ++ [c]) (by simpa using absent)]
    rfl

/-- In a body without marks of code and without tags of a plan the first closing tag of a plan is
the one behind it. -/
theorem extentOf_planned {inner : Text} (ticks : tick ∉ inner) (tildes : '~' ∉ inner)
    (tags : NoPlanTag inner) :
    extentOf .structural planTag (inner ++ closingTag planTag.name) = .closed inner
      (closingTag planTag.name) := by
  have absent : ∀ a b, inner = a ++ b → b ≠ [] →
      ClosingTag.length? planTag.key (b ++ closingTag planTag.name) = none := by
    intro a b split more
    have none : Text.afterLower? ('<' :: '/' :: planTag.key) b = none :=
      Text.afterLower?_of_not_contains (a := a) (by rw [← split]; exact tags.closing)
    have across := Text.afterLower?_across (s := '/' :: (planTag.name ++ ['>']))
      (by decide) more none
    simp only [ClosingTag.length?, closingTag, across]
  have bare : shadow .structural (inner ++ closingTag planTag.name) inner.length = none := by
    have unfenced : ∀ a b, inner = a ++ b → b ≠ [] → startsRow false a = true →
        Code.fenceLength? (b ++ closingTag planTag.name) = none := by
      rintro a b rfl _ _
      simp only [List.mem_append, not_or] at ticks tildes
      exact Code.fenceLength?_of_calm (Code.calm_append ⟨ticks.2, tildes.2⟩
        (Code.calm_cons (by decide) _))
    have code := @Code.shadow_append false inner (closingTag planTag.name) ticks unfenced 0
    rw [Nat.add_zero, Code.shadow_zero, Option.map_none] at code
    unfold shadow
    rw [code]
  have length : ClosingTag.length? planTag.key (closingTag planTag.name) = some 7 := by decide
  have ends := closing?_first absent (by decide) length bare
  have once : opensAgain planTag.key inner = false :=
    opensAgain_of_not_contains (a := []) tags.opening
  have slash : planTag.closesItself = false := by decide
  rw [extentOf, slash, ends]
  simp only [List.take_left, List.drop_left, once]
  rfl

namespace Family

/-- Such a plan is taken out as a whole. -/
theorem retire_planned {inner : Text} (ticks : tick ∉ inner) (tildes : '~' ∉ inner)
    (tags : NoPlanTag inner) :
    plan.retire (planned inner) = [] := by
  have mode : (Matcher.of .structural plan.retired).mode? planTag.key = some .structural := by
    decide
  let block : Block := ⟨planTag, .closed inner (closingTag planTag.name)⟩
  have text : block.text = planned inner := rfl
  have found : (Matcher.of .structural plan.retired).blockAt? (block.text ++ []) = some block := by
    rw [List.append_nil, text, Matcher.blockAt?, planned, planTag_known.1, Option.bind_some,
      Matcher.blockOf?, mode, Option.map_some, List.drop_left, extentOf_planned ticks tildes tags]
  have cut := Matcher.layout_block found
  rw [List.append_nil, text, Matcher.layout] at cut
  rw [retire, if_neg (by decide), Matcher.removeBlocks, cut]
  rfl

end Family

namespace Registry

/-- What every family behind the plan finds in a text that is one plan: nothing. -/
theorem readInTurn_planned (screening : Screening) {inner : Text} (ticks : tick ∉ inner)
    (tildes : '~' ∉ inner)
    (tags : NoPlanTag inner) :
    readInTurn screening builtIn.structuralFamilies (planned inner) = Family.plan.extract screening
      (planned inner) := by
  rw [structural_order, readInTurn, Family.retire_planned ticks tildes tags,
    readInTurn_unmarked screening (by simp) fun family inside =>
      structuralFamilies_readBlocks family (List.mem_of_mem_tail inside),
    List.append_nil]

/-- Where no content blocks stand, no family that bears content finds anything. -/
theorem content_of_blocks_nil (screening : Screening) {s : Text}
    (none : builtIn.table.contentMatcher.blocks s = []) :
    builtIn.contentFamilies.flatMap (fun family =>
      family.extract screening (view (builtIn.table.contentMatcher.layout s) family)) = [] := by
  refine List.flatMap_eq_nil_iff.mpr fun family member => ?_
  obtain ⟨actions, reads⟩ := content_reads member
  have separable : (builtIn.table.contentMatcher.layout s).Separable fun block =>
    family.owns block.name := by
    unfold Matcher.blocks at none
    cases cut : builtIn.table.contentMatcher.layout s with
    | last gap => trivial
    | next gap block rest => simp [cut, Layout.parts] at none
  have sees : SeesOwn family s := seesOwn_of_separable member separable
  rw [SeesOwn, none] at sees
  rw [reads, sees]
  rfl

/-- A prepared plan is read as its content blocks and then as what is left of the plan. -/
theorem readWorking_planned (screening : Screening) {body inner : Text}
    (left : builtIn.table.contentMatcher.removeBlocks (planned body) = planned inner)
    (ticks : tick ∉ inner) (tildes : '~' ∉ inner) (tags : NoPlanTag inner) :
    builtIn.readWorking screening (planned body) =
      builtIn.contentFamilies.flatMap (fun family =>
          family.extract screening (view (builtIn.table.contentMatcher.layout (planned body))
            family)) ++
        Family.plan.extract screening (planned inner) := by
  rw [readWorking_eq content_keeps, left, readInTurn_planned screening ticks tildes tags]

/-- Of the steps of a plan nothing is carried out but what a family that bears content finds among
them, unless cutting that out puts a tag of a plan together; and if such a family finds no block,
nothing at all is carried out. -/
theorem extract_planned (screening : Screening) {body : Text} (held : PlanBody body) :
    ∃ inner, builtIn.table.contentMatcher.removeBlocks
      (builtIn.working (planned body)) = planned inner ∧
      (NoPlanTag inner → ∀ action ∈ builtIn.extract screening (planned body),
        action.kind = .plan ∨ ∃ family ∈ builtIn.contentFamilies, family.yields action.kind = true)
          ∧
      (builtIn.table.contentMatcher.blocks (builtIn.working (planned body)) = [] →
        ∀ action ∈ builtIn.extract screening (planned body), action.kind = .plan) := by
  obtain ⟨prepared, working, kept⟩ := working_planned held
  obtain ⟨inner, left, fewer, whole⟩ := removeBlocks_planned prepared
  have ticks : tick ∉ inner := fun inside => kept.ticks (fewer _ inside)
  have tildes : '~' ∉ inner := fun inside => kept.tildes (fewer _ inside)
  have plans : ∀ action ∈ Family.plan.extract screening (planned inner), action.kind = .plan := by
    intro action found
    obtain ⟨block, _, made⟩ := List.mem_filterMap.mp found
    exact Family.plan_makes block action made
  rw [extract, working]
  refine ⟨inner, left, fun tags action found => ?_, fun none action found => ?_⟩
  · rw [readWorking_planned screening left ticks tildes tags, List.mem_append] at found
    rcases found with content | plan
    · obtain ⟨family, member, found⟩ := List.mem_flatMap.mp content
      exact .inr ⟨family, member, Family.builtIn_yields (List.mem_filter.mp member).1 found⟩
    · exact .inl (plans action plan)
  · obtain rfl := whole none
    rw [readWorking_planned screening left ticks tildes kept.tags,
      content_of_blocks_nil screening none, List.nil_append] at found
    exact plans action found

/-- Among the steps of a plan stand a command with a broken closing tag and a tag that breaks off,
and once a message too. -/
theorem extract_planned_broken :
    let steps := "<step>run <bash>ls</bash now</step>\n<read path=\"a\"".toList
    let told := "<step>run <bash>ls</bash now</step> <say>hi</say>\n<read path=\"a\"".toList
    (PlanBody steps ∧ ∀ action ∈ builtIn.extract {} (planned steps), action.kind = .plan) ∧
      PlanBody told ∧ ∀ action ∈ builtIn.extract {} (planned told),
        action.kind = .plan ∨ ∃ family ∈ builtIn.contentFamilies, family.yields action.kind =
          true := by
  intro steps told
  have held : PlanBody steps := ⟨by decide, by decide, ⟨by decide, by decide⟩, by decide⟩
  have held' : PlanBody told := ⟨by decide, by decide, ⟨by decide, by decide⟩, by decide⟩
  constructor
  · obtain ⟨_, _, _, alone⟩ := extract_planned {} held
    exact ⟨held, alone (by decide +kernel)⟩
  · obtain ⟨inner, left, carried, _⟩ := extract_planned {} held'
    have cut : builtIn.table.contentMatcher.removeBlocks (builtIn.working (planned told)) =
        planned "<step>run <bash>ls</bash> now</step> \n<read path=\"a\"".toList := by
      decide +kernel
    rw [cut] at left
    have same := List.append_cancel_right (List.append_cancel_left left)
    exact ⟨held', carried (by rw [← same]; exact ⟨by decide, by decide⟩)⟩

/-- A message among the steps is sent. -/
theorem message_is_carried : ¬ ∀ (screening : Screening) (body : Text), PlanBody body →
    ∀ action ∈ builtIn.extract screening (planned body), action.kind = .plan := by
  intro always
  have plans := always {} "<say>hi</say>".toList
    ⟨by decide, by decide, ⟨by decide, by decide⟩, by decide⟩
  revert plans
  decide +kernel

/-- Where cutting a message out of the steps puts the closing tag of a plan together, a step that
stands behind it is carried out, though no family that bears content reads it. -/
theorem split_closing_is_carried : ¬ ∀ (screening : Screening) (body : Text), PlanBody body →
    ∀ action ∈ builtIn.extract screening (planned body),
      action.kind = .plan ∨ builtIn.contentFamilies.any (·.yields action.kind) = true := by
  intro always
  have body : PlanBody "<step>a</pl<say>hi</say>an></step><read path=\"a\"/>".toList :=
    ⟨by decide, by decide, ⟨by decide, by decide⟩, by decide⟩
  have carried := always {} _ body
  revert carried
  decide +kernel

end Registry

end MarkupActions
