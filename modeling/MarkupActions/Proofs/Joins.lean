import MarkupActions.Proofs.Edges
import MarkupActions.Proofs.Mending
import MarkupActions.Proofs.Views

/-!
# Texts end to end

Two texts stand end to end. If no tag that begins in the first is left for the second to finish,
they are mended each by itself; and if no block that opens in the first is left for the second to
close, they are cut into blocks each by itself.
-/

namespace MarkupActions

open OpeningTag (settles untorn)

namespace OpeningTag

/-- Whether every tag that begins in a text, with whatever may begin a name or with a slash, comes
to an angle bracket in it, outside quotes. -/
def unbroken : Text → Bool
  | [] => true
  | c :: s =>
    (c != '<' || !s.head?.all (fun d => TagToken.startsName d || d == '/') || settles none s) &&
      unbroken s

theorem unbroken_suffix {a s : Text} (whole : unbroken (a ++ s) = true) : unbroken s = true := by
  induction a with
  | nil => exact whole
  | cons c a ih =>
    rw [List.cons_append, unbroken, Bool.and_eq_true] at whole
    exact ih whole.2

theorem settles_of_unbroken {d : Char} {u : Text} (whole : unbroken ('<' :: d :: u) = true)
    (begins : TagToken.startsName d = true ∨ d = '/') : settles none (d :: u) = true := by
  have both : (TagToken.startsName d || d == '/') = true := by simpa using begins
  simpa [unbroken, both] using (Bool.and_eq_true_iff.mp whole).1

theorem untorn_of_unbroken {s : Text} (whole : unbroken s = true) : untorn s = true := by
  induction s with
  | nil => rfl
  | cons c s ih =>
    have rest := ih (unbroken_suffix (a := [c]) whole)
    rw [untorn, rest, Bool.and_true]
    by_cases bracket : c = '<'
    · subst bracket
      cases s with
      | nil => cases whole
      | cons d s =>
        by_cases begins : d.isAlpha = true ∨ d = '/'
        · have settled := settles_of_unbroken whole (begins.imp_left Text.startsName_of_isAlpha)
          simp [settled]
        · have other : (d.isAlpha || d == '/') = false := by simpa using begins
          simp [other]
    · simp [bracket]

end OpeningTag

namespace Repair

open OpeningTag (unbroken settles_cons isBlank_passedOver settles_dropWhile dropWhile_append
  takeWhile_append settles_of_unbroken)

variable {names : List Text} {u : Text}

theorem quotesLength?_append (within : settles none u = true) (s : Text) :
    quotesLength? (u ++ s) = quotesLength? u := by
  have run : (u ++ s).takeWhile Attribute.isQuote = u.takeWhile Attribute.isQuote ∧
      u.drop (u.takeWhile Attribute.isQuote).length ≠ [] := by
    obtain ⟨c, inside, bare⟩ : ∃ c ∈ u, Attribute.isQuote c = false := by
      rcases ClosingTag.mem_of_settles within with inside | inside
      · exact ⟨'<', inside, rfl⟩
      · exact ⟨'>', inside, rfl⟩
    obtain ⟨a, b, rfl⟩ := List.append_of_mem inside
    have left : (a ++ c :: b).dropWhile Attribute.isQuote ≠ [] := by
      intro empty
      have quote := List.dropWhile_eq_nil_iff.mp empty c (by simp)
      rw [bare] at quote
      cases quote
    rw [Text.drop_takeWhile_length]
    refine ⟨?_, left⟩
    have split := List.takeWhile_append_dropWhile (p := Attribute.isQuote) (l := a ++ c :: b)
    rw [List.takeWhile_append, if_neg]
    intro full
    have size := congrArg List.length split
    rw [List.length_append, full] at size
    exact left (List.length_eq_zero_iff.mp (by omega))
  obtain ⟨same, more⟩ := run
  obtain ⟨c, rest, left⟩ := List.exists_cons_of_ne_nil more
  have short : (u.takeWhile Attribute.isQuote).length ≤ u.length :=
    (List.takeWhile_sublist _).length_le
  simp only [quotesLength?, same, List.drop_append_of_le_length short, left, List.cons_append]
  split <;> simp_all

theorem strayQuoteAt?_append (plain : ∀ name ∈ names, Text.IsPlain name)
    (within : settles none u = true) (lead s : Text) :
    strayQuoteAt? names (lead ++ (u ++ s)) lead.length =
      strayQuoteAt? names (lead ++ u) lead.length := by
  refine findSome?_congr fun name inside => ?_
  rw [List.drop_left, List.drop_left, afterFolded?_append (plain name inside) within]
  cases found : Text.afterFolded? name u with
  | none => rfl
  | some rest =>
    obtain ⟨settled, front, rfl, size⟩ := settles_afterFolded? (plain name inside) within found
    have tag : ∀ t : Text, (lead ++ ((front ++ rest) ++ t)).take (lead.length + name.length) =
        lead ++ front := by
      intro t
      rw [← size, ← List.length_append, List.append_assoc, ← List.append_assoc lead,
        List.take_left]
    have bare := tag []
    rw [List.append_nil] at bare
    simp only [Option.map_some, Option.bind_eq_bind, Option.bind_some, quotesLength?_append settled,
      tag, bare]

theorem unterminatedClosingRule_append (plain : ∀ name ∈ names, Text.IsPlain name)
    (within : settles none u = true) (s : Text) :
    unterminatedClosingRule names ('<' :: '/' :: (u ++ s)) =
      unterminatedClosingRule names ('<' :: '/' :: u) := by
  refine findSome?_congr fun name inside => ?_
  rw [afterFolded?_append (plain name inside) within]
  cases found : Text.afterFolded? name u with
  | none => rfl
  | some rest =>
    obtain ⟨settled, front, rfl, size⟩ := settles_afterFolded? (plain name inside) within found
    have blanks := takeWhile_append isBlank_passedOver settled s
    have tag : ∀ t : Text, ((front ++ rest) ++ t).take name.length = front := by
      intro t
      rw [← size, List.append_assoc, List.take_left]
    have bare := tag []
    rw [List.append_nil] at bare
    have left : settles none (rest.dropWhile Text.isBlank) = true :=
      (settles_dropWhile isBlank_passedOver).trans settled
    have after := dropWhile_append isBlank_passedOver settled s
    simp only [Option.map_some, Option.bind_eq_bind, Option.bind_some, blanks, tag, bare]
    rw [← blanks, Text.drop_takeWhile_length, blanks, Text.drop_takeWhile_length, after]
    cases behind : rest.dropWhile Text.isBlank with
    | nil =>
      rw [behind] at left
      cases left
    | cons c more => rfl

/-- What follows a text in which no tag breaks off does not change what is mended at its head. -/
theorem rule_unbroken {repair : Repair} (orderly : repair.mendsTags = true)
    (whole : unbroken ('<' :: u) = true) (s : Text) :
    repair.rule ('<' :: (u ++ s)) = repair.rule ('<' :: u) := by
  have fits := sought_fits orderly
  have plain : ∀ name ∈ repair.sought, Text.IsPlain name :=
    fun name listed => isPlain_of_fits (fits name listed)
  cases u with
  | nil => cases whole
  | cons d u =>
    by_cases begins : TagToken.startsName d = true ∨ d = '/'
    · have settled := settles_of_unbroken whole begins
      cases repair with
      | literal old new => cases orderly
      | unterminatedSelfClosing tags => exact unterminatedSelfClosingRule_append plain settled s
      | strayQuote tags =>
        have one := strayQuoteAt?_append plain settled ['<'] s
        by_cases slash : d = '/'
        · subst slash
          rw [settles_cons (by decide)] at settled
          have two := strayQuoteAt?_append plain settled ['<', '/'] s
          exact congrArg₂ Option.or two one
        · have shape : ∀ t, strayQuoteRule (names tags) ('<' :: d :: t) =
              strayQuoteAt? (names tags) ('<' :: d :: t) 1 := by
            intro t
            rw [strayQuoteRule]
            simpa using slash
          rw [rule, List.cons_append, shape, shape]
          exact one
      | unterminatedClosing tags =>
        by_cases slash : d = '/'
        · subst slash
          rw [settles_cons (by decide)] at settled
          exact unterminatedClosingRule_append plain settled s
        · have none : ∀ t, unterminatedClosingRule (names tags) ('<' :: d :: t) = none := by
            intro t
            rw [unterminatedClosingRule]
            simpa using slash
          rw [rule, List.cons_append, none, none]
    · have none : ∀ t, repair.rule ('<' :: d :: t) = none := by
        intro t
        cases fires : repair.rule ('<' :: d :: t) with
        | none => rfl
        | some change =>
          obtain ⟨slash, front, rest, slashes, split, named, _⟩ := rule_named orderly fires
          obtain ⟨c, tail, rfl, starts⟩ := startsName_of_named fits named
          have inner := (List.cons.inj split).2
          rcases slashes with rfl | rfl
          · exact False.elim (begins (.inl ((List.cons.inj inner).1 ▸ starts)))
          · exact False.elim (begins (.inr (List.cons.inj inner).1))
      rw [List.cons_append, none, none]

theorem patchAll_join {repair : Repair} (orderly : repair.mendsTags = true)
    (whole : unbroken u = true) (s : Text) :
    Text.patchAll repair.rule (u ++ s) =
      Text.patchAll repair.rule u ++ Text.patchAll repair.rule s := by
  have same : ∀ c v, unbroken (c :: v) = true →
      repair.rule (c :: (v ++ s)) = repair.rule (c :: v) := by
    intro c v whole
    by_cases bracket : c = '<'
    · subst bracket
      exact rule_unbroken orderly whole s
    · rw [rule_of_ne orderly bracket, rule_of_ne orderly bracket]
  have changes : ∀ s n new, repair.rule s = some (n, new) →
      ∃ front back, s = front ++ back ∧ front.length = n ∧ front ≠ [] ∧
        Rewrites Mends front new := by
    intro s n new found
    obtain ⟨front, back, shape, size, made⟩ := rule_rewrites orderly found
    exact ⟨'<' :: front, back, shape, size, by simp, made⟩
  induction u using Text.patchAll_induct changes with
  | nil => rw [Text.patchAll, List.nil_append, List.nil_append]
  | keep c v quiet ih =>
    have here := (same c v whole).trans quiet
    rw [List.cons_append, Text.patchAll_of_none here, Text.patchAll_of_none quiet,
      ih (OpeningTag.unbroken_suffix (a := [c]) whole), List.cons_append]
  | patched front back new found more _ ih =>
    have here : repair.rule (front ++ (back ++ s)) = some (front.length, new) := by
      obtain ⟨c, front, rfl⟩ := List.exists_cons_of_ne_nil more
      rw [← found, List.cons_append, ← List.append_assoc]
      exact same c (front ++ back) whole
    rw [List.append_assoc, Text.patchAll_of_some here more, Text.patchAll_of_some found more,
      ih (OpeningTag.unbroken_suffix whole), List.append_assoc]

/-- Whether no tag breaks off in a text, neither before nor between the repairs. -/
def steady : List Repair → Text → Bool
  | [], _ => true
  | repair :: repairs, u => unbroken u && steady repairs (repair.apply u)

/-- A text in which no tag breaks off is mended by itself, whatever follows. -/
theorem applyAll_join {repairs : List Repair}
    (orderly : ∀ repair ∈ repairs, repair.mendsTags = true)
    (whole : steady repairs u = true) (s : Text) :
    applyAll repairs (u ++ s) = applyAll repairs u ++ applyAll repairs s := by
  unfold applyAll
  induction repairs generalizing u s with
  | nil => rfl
  | cons repair repairs ih =>
    have fits := orderly repair List.mem_cons_self
    rw [steady, Bool.and_eq_true] at whole
    rw [List.foldl_cons, List.foldl_cons, List.foldl_cons, apply_eq fits, apply_eq fits,
      apply_eq fits, patchAll_join fits whole.1]
    refine ih (fun other inside => orderly other (List.mem_cons_of_mem _ inside)) ?_ _
    rw [← apply_eq fits]
    exact whole.2

end Repair

namespace Layout

/-- Whether every block of a layout ends where it does although another text follows. -/
def Remains (behind : Text) : Layout Block → Prop
  | last _ => True
  | next _ block rest => block.Stays (rest.text Block.text ++ behind) ∧ rest.Remains behind

theorem Remains.of_prepend {behind a : Text} {layout : Layout Block}
    (remains : (layout.prepend a).Remains behind) : layout.Remains behind := by
  cases layout with
  | last gap => trivial
  | next gap block rest => exact remains

end Layout

namespace Matcher

variable {m : Matcher} {u : Text}

/-- A text in which no tag is torn and every block keeps its end is cut by itself, whatever follows.
-/
theorem layout_join (plain : ∀ name mode, m.mode? name = some mode → Text.IsPlain name)
    (whole : untorn u = true) {s : Text} (remains : (m.layout u).Remains s) :
    m.layout (u ++ s) = (m.layout u).append (m.layout s) := by
  induction u using layout_induct m with
  | nil => simp [layout, Layout.append]
  | keep c u unread ih =>
    have here : OpeningTag.read? (c :: (u ++ s)) = none := by
      by_cases bracket : c = '<'
      · subst bracket
        have same := OpeningTag.read?_untorn whole s []
        rwa [List.append_nil, unread] at same
      · exact OpeningTag.read?_of_ne bracket _
    rw [layout_cons unread] at remains ⊢
    rw [List.cons_append, layout_cons here, Layout.prepend_append,
      ih (OpeningTag.untorn_suffix (a := [c]) whole) remains.of_prepend]
  | tag tag u read unknown ih =>
    rw [layout_tag read unknown] at remains ⊢
    rw [List.append_assoc, layout_tag (OpeningTag.read?_cut read _) unknown, Layout.prepend_append,
      ih (OpeningTag.untorn_suffix whole) remains.of_prepend]
  | block block u found ih =>
    rw [layout_block found] at remains ⊢
    obtain ⟨stays, later⟩ := remains
    rw [m.layout_text] at stays
    obtain ⟨mode, known⟩ := mode?_of_blockAt? found
    have here := blockAt?_ends (plain _ _ known) found rfl stays.ends
    rw [List.append_assoc, layout_block here, ih (OpeningTag.untorn_suffix whole) later,
      Layout.append]

/-- A text in which a matcher finds nothing, and no tag is torn, is passed over. -/
theorem layout_pass (plain : ∀ name mode, m.mode? name = some mode → Text.IsPlain name)
    (whole : untorn u = true) (none : m.blocks u = []) (s : Text) :
    m.layout (u ++ s) = (m.layout s).prepend u := by
  have gap : m.layout u = .last u := by
    have text := m.layout_text u
    unfold blocks at none
    cases cut : m.layout u with
    | last gap =>
      rw [cut] at text
      exact congrArg Layout.last text
    | next gap block rest =>
      rw [cut] at none
      cases none
  rw [layout_join plain whole (by rw [gap]; trivial), gap, Layout.append]

end Matcher

end MarkupActions
