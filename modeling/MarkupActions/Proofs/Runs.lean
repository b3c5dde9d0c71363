import MarkupActions.Proofs.Passes
import MarkupActions.Proofs.Placing
import MarkupActions.Proofs.Remains

/-!
# Runs of backticks under mending

No pass puts anything between the backticks that close a span: the end of a tag that breaks off at
them is put in behind. So what remains of a framed text comes through every pass as such.
-/

namespace MarkupActions

open Code (tick)

/-- A content with the run of backticks that closes it, and what is put in behind. -/
def answered (run : Nat) (content tail : Text) : Text :=
  content ++ (List.replicate run tick ++ tail)

/-- What becomes of a content and its run if the run is left as it is. -/
def Answers (edit : Text → Text → Prop) (run : Nat) (content s : Text) : Prop :=
  ∃ content' tail, s = answered run content' tail ∧ Rewrites edit content content' ∧ Ends tail

/-- Whether a pass over a text of one row leaves the run that closes it. -/
def KeepsRun (run : Nat) (pass : Text → Text) : Prop :=
  ∀ content tail, tick ∉ content → '\n' ∉ content → Ends tail →
    Answers Mends run content (pass (answered run content tail))

/-- What holds no backtick stands in front of the run. -/
theorem before_run {run : Nat} {content tail x y : Text} (positive : 0 < run) (unticked : tick ∉ x)
    (whole : answered run content tail = x ++ y) :
    ∃ m, content = x ++ m ∧ y = answered run m tail := by
  obtain ⟨k, rfl⟩ : ∃ k, run = k + 1 := ⟨run - 1, by omega⟩
  rcases List.append_eq_append_iff.mp whole with ⟨m, rfl, rest⟩ | ⟨m, rfl, rfl⟩
  · cases m with
    | nil => exact ⟨[], by simp, by simpa [answered] using rest.symm⟩
    | cons d m =>
      rw [List.replicate_succ, List.cons_append, List.cons_append] at rest
      exact False.elim (unticked (by rw [← (List.cons.inj rest).1]; simp))
  · exact ⟨m, rfl, rfl⟩

theorem keepsRun_foldl {α : Type} {run : Nat} {pass : Text → α → Text} {steps : List α}
    (keeps : ∀ step ∈ steps, KeepsRun run fun s => pass s step) :
    KeepsRun run fun s => steps.foldl pass s := by
  induction steps with
  | nil => exact fun content tail _ _ only => ⟨content, tail, rfl, .refl content, only⟩
  | cons step steps ih =>
    intro content tail unticked one only
    obtain ⟨middle, tail', first, made, ends⟩ :=
      keeps step List.mem_cons_self content tail unticked one only
    obtain ⟨content', tail'', later, made', ends'⟩ :=
      ih (fun other inside => keeps other (List.mem_cons_of_mem _ inside))
      middle tail' (fun inside => unticked (made.mem_of_mem tame_mends.ticks inside))
      (fun inside => one (made.mem_of_mem tame_mends.rows inside)) ends
    refine ⟨content', tail'', ?_, made.trans made', ends'⟩
    simp only [List.foldl_cons] at first later ⊢
    rw [first, later]

namespace Repair

variable {run n : Nat} {content tail new : Text}

/-- In a text of one row a tag that is ended goes to the end of the text. -/
theorem unterminatedSelfClosingRule_row {names : List Text} {s : Text} (one : '\n' ∉ s)
    (fires : unterminatedSelfClosingRule names s = some (n, new)) : n = s.length := by
  obtain ⟨front, rest, k, rfl, _, read, rfl, _⟩ := unterminatedSelfClosingRule_found fires
  have bound := attributesLength?_le read
  have ended := attributesLength?_endsLine read
  have last : (rest.drop k).dropWhile Text.isSpaceOrTab = [] := by
    cases left : (rest.drop k).dropWhile Text.isSpaceOrTab with
    | nil => rfl
    | cons c t =>
      have newline : c = '\n' := by simpa [endsLine, left] using ended
      have member : c ∈ rest := List.mem_of_mem_drop
        ((List.dropWhile_suffix _).subset (by rw [left]; simp))
      exact False.elim (one (by rw [← newline]; simp [member]))
  have blanks := congrArg List.length
    (List.takeWhile_append_dropWhile (p := Text.isSpaceOrTab) (l := rest.drop k))
  rw [last, List.append_nil, List.length_drop] at blanks
  simp only [blanks, List.length_cons, List.length_append]
  omega

/-- A change within the content, or one that reaches over the run of backticks and leaves it. -/
inductive ChangesFront (run : Nat) (content tail new : Text) (n : Nat) : Prop
  | within (front back : Text) (whole : content = front ++ back) (more : front ≠ [])
      (size : n = front.length)
      (made : Rewrites Mends front new)
  | across (front rest content' tail' : Text) (whole : answered run content tail = front ++ rest)
      (more : front ≠ [])
      (size : n = front.length) (tags : '<' ∉ rest)
        (written : new ++ rest = answered run content' tail')
      (made : Rewrites Mends content content') (only : Ends tail')

/-- A closing tag may be ended before the blanks in front of the run. -/
theorem unterminatedClosingRule_over {names : List Text} (plain : ∀ name ∈ names, Text.IsPlain name)
    (positive : 0 < run) (only : Ends tail) (long : content.length < n)
    (fires : unterminatedClosingRule names (answered run content tail) = some (n, new)) :
    ChangesFront run content tail new n := by
  obtain ⟨k, rfl⟩ : ∃ k, run = k + 1 := ⟨run - 1, by omega⟩
  have ticks : answered (k + 1) content tail = content ++
    tick :: (List.replicate k tick ++ tail) := by
    rw [answered, List.replicate_succ, List.cons_append]
  obtain ⟨_, _, whole, _⟩ := unterminatedClosingRule_inv fires
  rw [ticks] at fires whole
  cases content with
  | nil => cases (by decide : tick ≠ '<') (List.cons.inj whole).1
  | cons c content =>
    obtain rfl : c = '<' := (List.cons.inj whole).1
    obtain ⟨content', size, rfl, made⟩ :=
      unterminatedClosingRule_stop plain (by decide) (by decide) (by decide) fires long
    refine .across ('<' :: content ++ [tick]) (List.replicate k tick ++ tail) content' tail
      (by simp [ticks]) (by simp) size ?_
      ?_ (made.mono fun _ _ => .closes) only
    · simp [ends_unmarked only, tick]
    · rw [answered, List.replicate_succ]
      simp

/-- An opening tag that comes to the run goes over it and is ended behind it. -/
theorem unterminatedSelfClosingRule_over {names : List Text} (positive : 0 < run)
    (one : '\n' ∉ content)
    (only : Ends tail) (fires : unterminatedSelfClosingRule names (answered run content tail) =
      some (n, new)) :
    ChangesFront run content tail new n := by
  have row : '\n' ∉ answered run content tail := by
    simp [answered, one, ends_unmarked only, tick]
  have all := unterminatedSelfClosingRule_row row fires
  obtain ⟨front, attributes, blanks, rest, whole, _, spaces, size, written, _⟩ :=
    unterminatedSelfClosingRule_inv fires
  obtain rfl : rest = [] := by
    have length := congrArg List.length whole
    simp only [List.length_cons, List.length_append] at length
    exact List.length_eq_zero_iff.mp (by omega)
  have none : blanks = [] := by
    cases last : blanks.getLast? with
    | none => exact List.getLast?_eq_none_iff.mp last
    | some c =>
      have more : List.replicate run tick ++ tail ≠ [] := by
        simp only [ne_eq, List.append_eq_nil_iff, List.replicate_eq_nil_iff]
        omega
      have filled : blanks ≠ [] := by
        rintro rfl
        cases last
      have inside : (List.replicate run tick ++ tail).getLast? = some c := by
        rw [← List.getLast?_append_of_ne_nil content more, ← answered, whole, List.append_nil,
          ← List.append_assoc, ← List.cons_append, List.getLast?_append_of_ne_nil _ filled, last]
      have space := spaces c (List.mem_of_getLast? last)
      rcases List.mem_append.mp (List.mem_of_getLast? inside) with ticks | late
      · rw [(List.mem_replicate.mp ticks).2] at space
        exact absurd space (by decide)
      · rcases only c late with rfl | rfl <;> exact absurd space (by decide)
  subst none
  simp only [List.append_nil] at whole written
  have across : ∀ tail', new = answered run content tail' → Ends tail' →
    ChangesFront run content tail new n := by
    intro tail' made ends
    refine .across (answered run content tail) [] content tail' (by simp) (by simp [whole]) all
      (by simp) ?_ (.refl content) ends
    rw [List.append_nil, made]
  rcases written with rfl | rfl
  · exact across tail whole.symm only
  · refine across (tail ++ ['/', '>']) ?_ ?_
    · have closed : '<' :: (front ++ (attributes ++ ['/', '>'])) = '<' :: (front ++ attributes) ++
        ['/', '>'] := by simp
      rw [closed, ← whole]
      simp [answered]
    · intro c inside
      rcases List.mem_append.mp inside with early | late
      · exact only c early
      · simpa using late

/-- A repair goes over the run or stays in front of it. -/
theorem rule_over {repair : Repair} (orderly : repair.mendsTags = true) (positive : 0 < run)
    (fits : Code.Spannable content) (only : Ends tail)
    (fires : repair.rule (answered run content tail) = some (n, new)) :
    ChangesFront run content tail new n := by
  have plain : ∀ name ∈ repair.sought, Text.IsPlain name :=
    fun name listed => isPlain_of_fits (sought_fits orderly name listed)
  by_cases short : n ≤ content.length
  · obtain ⟨front, back, whole, rfl, made⟩ := rule_rewrites orderly fires
    have first : '<' :: front <+: answered run content tail := ⟨back, whole.symm⟩
    obtain ⟨rest, split⟩ := List.prefix_of_prefix_length_le first
      (List.prefix_append content _) short
    exact .within _ rest split.symm (by simp) rfl made
  · cases repair with
    | literal old new => cases orderly
    | strayQuote tags =>
      obtain ⟨lead, front, quotes, rest, leads, whole, named, _, quoted, rfl, rfl⟩ :=
        strayQuoteRule_inv fires
      have cut : answered run content tail = (lead ++ (front ++ (quotes ++ ['>']))) ++ rest := by
        rw [whole]; simp
      have unticked : tick ∉ lead ++ (front ++ (quotes ++ ['>'])) := by
        intro inside
        simp only [List.mem_append] at inside
        rcases inside with early | letter | quote | bracket
        · rcases leads with rfl | rfl <;> exact absurd early (by decide)
        · exact absurd (isNameChar_of_named plain named tick letter) (by decide)
        · exact absurd (quoted tick quote) (by decide)
        · exact absurd bracket (by decide)
      obtain ⟨m, rfl, _⟩ := before_run positive unticked cut
      simp at short
      omega
    | unterminatedClosing tags =>
      exact unterminatedClosingRule_over plain positive only (by omega) fires
    | unterminatedSelfClosing tags =>
      exact unterminatedSelfClosingRule_over positive fits.row only fires

/-- A repair leaves the run as it is. -/
theorem keepsRun_apply {repair : Repair} (orderly : repair.mendsTags = true) (positive : 0 < run) :
    KeepsRun run repair.apply := by
  intro content tail unticked one only
  rw [apply_eq orderly]
  induction size : content.length using Nat.strongRecOn generalizing content with
  | ind size ih =>
    subst size
    cases content with
    | nil =>
      have unmarked : '<' ∉ answered run [] tail := by
        simp [answered, ends_unmarked only, tick]
      exact ⟨[], tail, patchAll_unmarked orderly unmarked, .refl [], only⟩
    | cons c content =>
      cases fires : repair.rule (answered run (c :: content) tail) with
      | none =>
        simp only [List.mem_cons, not_or] at unticked one
        obtain ⟨content', tail', step, made, ends⟩ :=
          ih content.length (by simp) content unticked.2 one.2 rfl
        refine ⟨c :: content', tail', ?_, made.cons c, ends⟩
        rw [answered, List.cons_append] at fires ⊢
        rw [Text.patchAll_of_none fires, ← answered, step]
        rfl
      | some change =>
        obtain ⟨n, new⟩ := change
        cases rule_over orderly positive ⟨by simp, unticked, one⟩ only fires with
        | within front back whole more size made =>
          rw [whole] at unticked one fires ih ⊢
          subst size
          have less : back.length < (front ++ back).length := by
            rw [List.length_append]
            have := List.length_pos_of_ne_nil more
            omega
          obtain ⟨content', tail', step, made', ends⟩ :=
            ih back.length less back (fun inside => unticked (by simp [inside]))
            (fun inside => one (by simp [inside])) rfl
          refine ⟨new ++ content', tail', ?_, made.append made', ends⟩
          rw [answered, List.append_assoc] at fires ⊢
          rw [Text.patchAll_of_some fires more, ← answered, step]
          simp [answered]
        | across front rest content' tail' whole more size tags written made ends =>
          refine ⟨content', tail', ?_, made, ends⟩
          rw [whole] at fires ⊢
          rw [size] at fires
          rw [Text.patchAll_of_some fires more, patchAll_unmarked orderly tags, written]

end Repair

/-- A closed block ends in a tag without backticks. -/
theorem Matcher.BearsContent.closing {m : Matcher} (bears : m.BearsContent) {s : Text}
    {block : Block}
    (inside : block ∈ m.blocks s) (closed : block.isClosed = true) :
    ∃ front mark, block.text = front ++ '<' :: mark ∧ tick ∉ mark := by
  obtain ⟨rest, found⟩ := Matcher.blockAt?_of_mem_blocks inside
  obtain ⟨tag, _, matched⟩ := Option.bind_eq_some_iff.mp found
  obtain ⟨mode, known, same⟩ := Option.map_eq_some_iff.mp matched
  obtain ⟨_, fits⟩ := bears.of_mode? known
  obtain ⟨tag', extent⟩ := block
  obtain ⟨rfl, ended⟩ := Block.mk.inj same
  cases extent with
  | closesItself => cases closed
  | unclosed => cases closed
  | closed body closing =>
    obtain ⟨_, n, back, _, rfl, closes, _⟩ := extentOf_eq_closed ended
    obtain ⟨front, blanks, mark, lower, blank⟩ := ClosingTag.take_of_length? closes
    obtain ⟨c, letters, rfl, bracket, name⟩ := List.map_eq_cons_iff.mp lower
    obtain rfl := Text.eq_of_toLower_eq (by decide) bracket
    refine ⟨tag.text ++ body, letters ++ (blanks ++ ['>']),
      by rw [Block.text]; simp [mark], fun ticked => ?_⟩
    simp only [List.mem_append, List.mem_singleton] at ticked
    rcases ticked with letter | space | last
    · have lowered : tick.toLower ∈ '/' :: tag.key := by
        rw [← name]
        exact List.mem_map_of_mem letter
      rcases List.mem_cons.mp lowered with slash | key
      · exact absurd slash (by decide)
      · exact absurd (Repair.isPlain_of_fits fits tick.toLower key) (by decide)
    · exact absurd (blank tick space) (by decide)
    · exact absurd last (by decide)

/-- A pass that leaves the run may be made in the gaps around closed blocks. -/
theorem Layout.mapGaps_keepsRun {f : Text → Text} {run : Nat} (positive : 0 < run)
    (keeps : KeepsRun run f)
    (made : ∀ s, Rewrites Mends s (f s)) {l : Layout Block}
    (closed : ∀ block ∈ l.parts, ∃ front mark, Block.text block = front ++ '<' :: mark ∧
      tick ∉ mark) {content tail : Text}
    (whole : l.text Block.text = answered run content tail) (unticked : tick ∉ content)
    (one : '\n' ∉ content)
    (only : Ends tail) : Answers Mends run content ((l.mapGaps f).text Block.text) := by
  induction l generalizing content with
  | last s =>
    have same : s = answered run content tail := whole
    rw [mapGaps, text, same]
    exact keeps content tail unticked one only
  | next s block rest ih =>
    obtain ⟨front, mark, shape, dark⟩ := closed block List.mem_cons_self
    have cut : answered run content tail = (s ++ front) ++
      '<' :: (mark ++ rest.text Block.text) := by
      rw [← whole, text, shape]
      simp
    have unmarked : '<' ∉ List.replicate run tick ++ tail := by
      simp [ends_unmarked only, tick]
    rcases Text.append_eq_append_cons cut with ⟨m, early, late⟩ | ⟨m, _, late⟩
    · obtain ⟨k, rfl, past⟩ := before_run positive dark
        (late.symm : answered run m tail = mark ++ rest.text Block.text)
      have split : content = s ++ (block.text ++ k) := by rw [early, shape]; simp
      rw [split] at unticked one
      obtain ⟨k', tail', step, made', ends⟩ :=
        ih (fun other inside => closed other (List.mem_cons_of_mem _ inside)) past
        (fun inside => unticked (by simp [inside])) (fun inside => one (by simp [inside]))
      refine ⟨f s ++ (block.text ++ k'), tail', ?_, ?_, ends⟩
      · rw [mapGaps, text, step]
        simp [answered]
      · rw [split]
        exact (made s).append (made'.append_left block.text)
    · exact False.elim (unmarked (by rw [late]; simp))

namespace Registry

variable {run : Nat} {content tail : Text}

theorem mendWith_keepsRun {family : Family} (member : family ∈ Family.builtIn)
    (positive : 0 < run) :
    KeepsRun run fun s => mendWith builtIn.table s family := by
  intro content tail unticked one only
  have orderly := Repair.builtIn_mendsTags family member
  have keeps : KeepsRun run (Repair.applyAll family.repairs) :=
    keepsRun_foldl fun repair inside => Repair.keepsRun_apply (orderly repair inside) positive
  simp only [mendWith_eq]
  refine Layout.mapGaps_keepsRun positive keeps (Repair.applyAll_rewrites orderly)
    (fun block inside => ?_)
    (by rw [Layout.text_select, Matcher.layout_text]) unticked one only
  obtain ⟨found, other⟩ := Layout.mem_parts_select.mp inside
  simp only [foreign, Bool.and_eq_true] at other
  exact Matcher.bearsContent_anySpelling.closing found other.1

/-- Respelling leaves the run as it is. -/
theorem answers_respelled {s : Text} (positive : 0 < run) (only : Ends tail)
    (made : Rewrites (Respells builtIn.table) (answered run content tail) s) :
    Answers (Respells builtIn.table) run content s := by
  refine made.preserves (fun s t step found => ?_) ⟨content, tail, rfl, .refl content, only⟩
  obtain ⟨front, back, edit⟩ := step
  obtain ⟨content', tail', whole, run', ends⟩ := found
  rename_i old new
  obtain ⟨rest, rfl⟩ := edit.old_eq
  have dark := tame_respells.kept _ _ edit
  have unmarked : '<' ∉ List.replicate run tick ++ tail' := by
    simp [ends_unmarked ends, tick]
  rcases Text.append_eq_append_cons whole.symm with ⟨m, rfl, late⟩ | ⟨m, _, late⟩
  · obtain ⟨k, rfl, rfl⟩ := before_run positive (fun inside => dark (List.mem_cons_of_mem _ inside))
      (late.symm : answered run m tail' = rest ++ back)
    refine ⟨front ++ (new ++ k), tail', by simp [answered], run'.trans ?_, ends⟩
    exact ((Rewrites.single edit).append_right k).append_left front
  · exact False.elim (unmarked (by rw [late]; simp))

end Registry

namespace Frame

variable {frame : Frame} {s t : Text}

theorem remains_mended {family : Family} (member : family ∈ Family.builtIn)
    (remains : frame.Remains s) : frame.Remains
    (Registry.mendWith Registry.builtIn.table s family) := by
  have made := @Registry.mendWith_rewrites family Registry.builtIn.table
    (Repair.builtIn_mendsTags family member) s
  obtain ⟨shell, plain⟩ := frame
  cases shell with
  | fence first last mark run opens =>
    exact tame_mends.staysOpen (Code.fence?_inv opens).2 made remains
  | span run positive =>
    obtain ⟨content, tail, rfl, fits, only⟩ := remains
    obtain ⟨content', tail', step, made', ends⟩ :=
      Registry.mendWith_keepsRun member positive content tail fits.ticks fits.row only
    exact ⟨content', tail', step, fits.rewrites tame_mends made', ends⟩
  | literal => exact tame_mends.literalRemains made remains

theorem remains_respelled (made : Rewrites (Respells Registry.builtIn.table) s t)
    (remains : frame.Remains s) : frame.Remains t := by
  obtain ⟨shell, plain⟩ := frame
  cases shell with
  | fence first last mark run opens =>
    exact tame_respells.staysOpen (Code.fence?_inv opens).2 made remains
  | span run positive =>
    obtain ⟨content, tail, rfl, fits, only⟩ := remains
    obtain ⟨content', tail', rfl, made', ends⟩ := Registry.answers_respelled positive only made
    exact ⟨content', tail', rfl, fits.rewrites tame_respells made', ends⟩
  | literal => exact tame_respells.literalRemains made remains

end Frame

end MarkupActions
